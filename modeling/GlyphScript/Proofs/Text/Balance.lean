/-! # Parentheses in a text

The parenthesis that closes an open one in front of a text. Parentheses between double quotes do not
count, and there are no other quotes and no escapes.
-/

namespace GlyphScript.Text

/-- What stands behind the parenthesis that closes a number of open ones and one more. A double
quote without another one behind it is a character like others. -/
def closing : Bool → Nat → List Char → Option (List Char)
  | _, _, [] => none
  | true, depth, c :: cs => closing (c ≠ '"') depth cs
  | false, depth, c :: cs =>
    if c = '"' then closing (cs.contains '"') depth cs
    else if c = '(' then closing false (depth + 1) cs
    else if c = ')' then if depth = 0 then some cs else closing false (depth - 1) cs
    else closing false depth cs

/-- A parenthesis behind the text closes none of its own. -/
def Balanced (cs : List Char) : Prop := closing false 0 (cs ++ [')']) = some []

instance (cs : List Char) : Decidable (Balanced cs) := inferInstanceAs (Decidable (_ = _))

section Closing

variable {quoted : Bool} {depth : Nat} {cs r : List Char}

theorem closing_close_succ : closing false (depth + 1) (')' :: cs) = closing false depth cs := rfl

theorem closing_open : closing false depth ('(' :: cs) = closing false (depth + 1) cs := rfl

theorem closing_plain {c : Char} (hquote : c = '"' → '"' ∉ cs) (hopen : c ≠ '(')
    (hclose : c ≠ ')') : closing false depth (c :: cs) = closing false depth cs := by
  by_cases hc : c = '"'
  · have hnone : cs.contains '"' = false := by simpa using hquote hc
    rw [closing, if_pos hc, hnone]
  · rw [closing, if_neg hc, if_neg hopen, if_neg hclose]

/-- Characters that are no marks change nothing. -/
theorem closing_unmarked (hquote : '"' ∉ cs) (hopen : '(' ∉ cs) (hclose : ')' ∉ cs)
    (rest : List Char) : closing false depth (cs ++ rest) = closing false depth rest := by
  induction cs with
  | nil => rfl
  | cons c cs ih =>
    simp only [List.mem_cons, not_or] at hquote hopen hclose
    rw [List.cons_append, closing_plain (fun h => absurd h.symm hquote.1) (Ne.symm hopen.1)
      (Ne.symm hclose.1), ih hquote.2 hopen.2 hclose.2]

theorem closing_behind_quote (hcs : '"' ∉ cs) (rest : List Char) :
    closing true depth (cs ++ '"' :: rest) = closing false depth rest := by
  induction cs with
  | nil => rfl
  | cons c cs ih =>
    simp only [List.mem_cons, not_or] at hcs
    rw [List.cons_append, closing, decide_eq_true (Ne.symm hcs.1), ih hcs.2]

theorem closing_quoted (hcs : '"' ∉ cs) (rest : List Char) :
    closing false depth ('"' :: (cs ++ '"' :: rest)) = closing false depth rest := by
  have hmem : (cs ++ '"' :: rest).contains '"' = true := by simp
  rw [closing, if_pos rfl, hmem, closing_behind_quote hcs]

/-- To close several parentheses is to close them one after the other. -/
theorem closing_add (quoted : Bool) (depth k : Nat) (cs : List Char) :
    closing quoted (depth + 1 + k) cs = (closing quoted depth cs).bind (closing false k) := by
  fun_induction closing quoted depth cs with
  | case1 => rfl
  | case2 depth c cs ih => rw [closing, ih]
  | case3 depth cs ih => rw [closing, if_pos rfl, ih]
  | case4 depth cs hquote ih =>
    rw [closing_open, Nat.add_right_comm (depth + 1) k 1, Nat.add_right_comm depth 1 1, ih]
  | case5 cs _ _ => rw [Nat.zero_add, Nat.add_comm 1 k, closing_close_succ, Option.bind_some]
  | case6 depth cs hdepth _ _ ih =>
    obtain ⟨depth, rfl⟩ := Nat.exists_eq_succ_of_ne_zero hdepth
    rw [Nat.add_right_comm, closing_close_succ]
    exact ih
  | case7 depth c cs hquote hopen hclose ih =>
    rw [closing_plain (fun h => absurd h hquote) hopen hclose, ih]

theorem exists_of_closing {quoted : Bool} {depth : Nat} {cs r : List Char}
    (h : closing quoted depth cs = some r) : ∃ code, cs = code ++ ')' :: r := by
  fun_induction closing quoted depth cs with
  | case1 => cases h
  | case2 depth c cs ih =>
    obtain ⟨code, rfl⟩ := ih h
    exact ⟨c :: code, rfl⟩
  | case3 depth cs ih =>
    obtain ⟨code, rfl⟩ := ih h
    exact ⟨'"' :: code, rfl⟩
  | case4 depth cs _ ih =>
    obtain ⟨code, rfl⟩ := ih h
    exact ⟨'(' :: code, rfl⟩
  | case5 cs _ _ =>
    cases h
    exact ⟨[], rfl⟩
  | case6 depth cs _ _ _ ih =>
    obtain ⟨code, rfl⟩ := ih h
    exact ⟨')' :: code, rfl⟩
  | case7 depth c cs _ _ _ ih =>
    obtain ⟨code, rfl⟩ := ih h
    exact ⟨c :: code, rfl⟩

/-- A text without double quotes behind another one is only reached if nothing is closed before. -/
theorem closing_append (quoted : Bool) (depth : Nat) (cs : List Char) {t : List Char}
    (ht : '"' ∉ t) :
    (∀ r, closing quoted depth cs = some r → closing quoted depth (cs ++ t) = some (r ++ t)) ∧
      (closing quoted depth cs = none → ∀ r, closing quoted depth (cs ++ t) = some r →
        r.length < t.length) := by
  fun_induction closing quoted depth cs with
  | case1 quoted depth =>
    refine ⟨fun r h => ?_, fun _ r h => ?_⟩
    · cases h
    · obtain ⟨code, rfl⟩ := exists_of_closing h
      simp
      omega
  | case2 depth c cs ih =>
    rw [List.cons_append, closing]
    exact ih
  | case3 depth cs ih =>
    have hcontains : (cs ++ t).contains '"' = cs.contains '"' := by simp [ht]
    rw [List.cons_append, closing, if_pos rfl, hcontains]
    exact ih
  | case4 depth cs _ ih => exact ih
  | case5 cs _ _ =>
    refine ⟨fun r h => ?_, fun h => by cases h⟩
    cases h
    rfl
  | case6 depth cs hdepth _ _ ih =>
    obtain ⟨depth, rfl⟩ := Nat.exists_eq_succ_of_ne_zero hdepth
    exact ih
  | case7 depth c cs hquote hopen hclose ih =>
    rw [List.cons_append, closing_plain (fun h => absurd h hquote) hopen hclose]
    exact ih

theorem balanced_iff (cs : List Char) :
    Balanced cs ↔ closing false 0 (cs ++ [')', ')']) = some [')'] := by
  have hsplit : cs ++ [')', ')'] = cs ++ [')'] ++ [')'] := by simp
  obtain ⟨hsome, hnone⟩ := closing_append false 0 (cs ++ [')']) (t := [')']) (by decide)
  rw [hsplit]
  constructor
  · intro h
    exact hsome [] h
  · intro h
    cases hc : closing false 0 (cs ++ [')']) with
    | none => exact absurd (hnone hc _ h) (by decide)
    | some r =>
      have heq := (hsome r hc).symm.trans h
      rw [Balanced, hc]
      simpa using heq

end Closing

end GlyphScript.Text
