import GlyphScript.Lambda.Grammar
import GlyphScript.Proofs.Peg.Derivation
import GlyphScript.Proofs.Text.Balance

/-! # Parentheses in expressions

The grammar of expressions opens and closes parentheses in pairs. Only quoted strings can contain
others, so an expression is balanced if its strings contain nothing that looks like a parenthesis or
an end of a string from outside.
-/

namespace GlyphScript.Lambda

open Peg Text

theorem grammar_skipsForward : grammar.SkipsForward := fun c => by
  obtain ⟨w, hw, _⟩ := Cursor.exists_reads_skipWhile isSpace c.position c.rest
  exact ⟨w, hw⟩

theorem isSpace_of_gap {m : Mode} {w : List Char} (hw : grammar.Gap m w) : ∀ x ∈ w, isSpace x := by
  rcases hw with rfl | ⟨_, c, hreads⟩
  · simp
  · obtain ⟨w', hw', hspace⟩ := Cursor.exists_reads_skipWhile isSpace c.position c.rest
    rwa [hreads.unique hw']

theorem not_mem_gap {m : Mode} {w : List Char} (hw : grammar.Gap m w) {x : Char}
    (hx : isSpace x = false) : x ∉ w := by
  intro hmem
  rw [isSpace_of_gap hw x hmem] at hx
  cases hx

/-! ## Literals -/

/-- No double quote in a double quoted text, and neither one nor a parenthesis in a single quoted
text. -/
def isPlainText : Rule → List Char → Bool
  | .doubleInner, cs => !cs.contains '"'
  | .singleInner, cs => !cs.contains '"' && !cs.contains '(' && !cs.contains ')'
  | _, _ => true

mutual

def isPlain : ParseTree Rule → Bool
  | .node r cs ts => isPlainText r cs && arePlain ts

def arePlain : List (ParseTree Rule) → Bool
  | [] => true
  | t :: ts => isPlain t && arePlain ts

end

theorem arePlain_append (ts us : List (ParseTree Rule)) :
    arePlain (ts ++ us) = (arePlain ts && arePlain us) := by
  induction ts with
  | nil => rfl
  | cons t ts ih => rw [List.cons_append, arePlain, arePlain, ih, Bool.and_assoc]

theorem keepsNodes_around {m : Mode} (hm : m.keepsNodes) (style : Style) :
    (m.around style).keepsNodes := by
  obtain ⟨_, hlooking⟩ := Bool.and_eq_true_iff.mp hm
  cases style with
  | compound => exact Bool.and_eq_true_iff.mpr ⟨rfl, hlooking⟩
  | _ => exact hm

/-- The trees inside a rule are plain if those that it leaves are, and its text is plain if it is
visible. -/
theorem arePlain_nodes {m : Mode} (hm : m.keepsNodes) {r : Rule} {s : List Char}
    {ts : List (ParseTree Rule)} (h : arePlain (grammar.nodes r m s ts)) :
    arePlain ts ∧ (r.style ≠ .silent → isPlainText r s) := by
  unfold Grammar.nodes at h
  by_cases hs : grammar.style r = .silent
  · rw [if_pos hs] at h
    exact ⟨h, fun hne => absurd hs hne⟩
  · rw [if_neg hs, if_pos (keepsNodes_around hm _)] at h
    simp only [arePlain, isPlain, Bool.and_true, Bool.and_eq_true] at h
    exact ⟨h.2, fun _ => h.1⟩

/-! ## Levels -/

/-- The level behind an expression that starts at a level, if all its texts have the same. -/
def rise : Peg.Expr Rule → Nat → Option Nat
  | .char accepts, i => if accepts '"' || accepts '(' || accepts ')' then none else some i
  | .text cs, i =>
    if cs = ['('] then some (i + 1)
    else if cs = [')'] then if i = 0 then none else some (i - 1)
    else if cs.contains '"' || cs.contains '(' || cs.contains ')' then none
    else some i
  | .rule r, i => if r = .doubleInner ∨ r = .singleInner then none else some i
  | .seq a b, i => (rise a i).bind (rise b)
  | .alt a b, i => if rise a i = rise b i then rise a i else none
  | .opt a, i => if rise a i = some i then some i else none
  | .many a, i => if rise a i = some i then some i else none
  | _, i => some i

def isUnmarked (r : Rule) : Bool :=
  grammar.avoids '"' 4 r && grammar.avoids '(' 4 r && grammar.avoids ')' 4 r

theorem rise_body (r : Rule) (hr : isUnmarked r = false) (hs : r ≠ .string) (hd : r ≠ .doubleInner)
    (hi : r ≠ .singleInner) :
    rise (grammar.body r) 0 = some 0 ∧ (r.style = .plain ∨ r.style = .silent) := by
  revert hr hs hd hi
  cases r <;> decide

section Rise

variable {a b : Peg.Expr Rule} {i j : Nat}

theorem rise_alt (h : rise (.alt a b) i = some j) : rise a i = some j ∧ rise b i = some j := by
  rw [rise] at h
  split at h
  · next heq => exact ⟨h, heq ▸ h⟩
  · cases h

theorem rise_repeated {i j : Nat} (h : (if rise a i = some i then some i else none) = some j) :
    rise a i = some i ∧ i = j := by
  split at h
  · next heq => exact ⟨heq, Option.some.inj h⟩
  · cases h

theorem closing_char {accepts : Char → Bool} {x : Char} (hx : accepts x)
    (h : rise (.char accepts) i = some j) (depth : Nat) (rest : List Char) :
    closing false (depth + i) (x :: rest) = closing false (depth + j) rest := by
  rw [rise] at h
  split at h
  · cases h
  · next hmarks =>
    cases h
    simp only [Bool.or_eq_true, not_or, Bool.not_eq_true] at hmarks
    obtain ⟨⟨hquote, hopen⟩, hclose⟩ := hmarks
    have hne : ∀ {y : Char}, accepts y = false → x ≠ y := by
      rintro y hy rfl
      rw [hx] at hy
      cases hy
    exact closing_plain (fun h => absurd h (hne hquote)) (hne hopen) (hne hclose)

theorem closing_text {cs : List Char} (h : rise (.text cs) i = some j) (depth : Nat)
    (rest : List Char) :
    closing false (depth + i) (cs ++ rest) = closing false (depth + j) rest := by
  rw [rise] at h
  split at h
  · next hopen =>
    cases h
    rw [hopen]
    exact closing_open
  · split at h
    · next hclose =>
      split at h
      · cases h
      · next hi =>
        cases h
        obtain ⟨i, rfl⟩ := Nat.exists_eq_succ_of_ne_zero hi
        rw [hclose]
        exact closing_close_succ
    · split at h
      · cases h
      · next hmarks =>
        cases h
        simp only [Bool.or_eq_true, List.contains_eq_mem, decide_eq_true_eq, not_or] at hmarks
        exact closing_unmarked hmarks.1.1 hmarks.1.2 hmarks.2 rest

end Rise

/-- A string is its text between two marks, without blanks. -/
theorem quotation_inv {m : Mode} (hm : m.spacing = .tight) {mark : Char} {r : Rule} {s : List Char}
    {ts : List (ParseTree Rule)}
    (h : grammar.Derives m (.seq (.seq (.text [mark]) (.rule r)) (.text [mark])) s ts) :
    ∃ s' us, s = mark :: (s' ++ [mark]) ∧ ts = grammar.nodes r m s' us := by
  have hgap : ∀ {w : List Char}, grammar.Gap m w → w = [] := by
    rintro w (rfl | ⟨hfree, _⟩)
    · rfl
    · rw [hm] at hfree
      cases hfree
  obtain ⟨s₁, w, s₂, ts₁, ts₂, hfront, hw, hend, rfl, rfl⟩ := h.seq_inv
  obtain ⟨s₃, w', s₄, ts₃, ts₄, hstart, hw', hinner, rfl, rfl⟩ := hfront.seq_inv
  obtain ⟨rfl, rfl⟩ := hstart.text_inv
  obtain ⟨rfl, rfl⟩ := hend.text_inv
  obtain ⟨us, _, rfl⟩ := hinner.rule_inv
  rw [hgap hw, hgap hw']
  exact ⟨s₄, us, by simp, by simp⟩

theorem closing_string {m : Mode} (hm : m.keepsNodes) {s : List Char} {ts : List (ParseTree Rule)}
    (h : grammar.Derives m (.rule .string) s ts) (ht : arePlain ts) (depth : Nat)
    (rest : List Char) : closing false depth (s ++ rest) = closing false depth rest := by
  have hin : (m.inside .compound).keepsNodes := keepsNodes_around hm .compound
  obtain ⟨us, hbody, rfl⟩ := h.rule_inv
  have hus := (arePlain_nodes hm ht).1
  rcases hbody.alt_inv with hdouble | hsingle
  · obtain ⟨s', vs, rfl, rfl⟩ := quotation_inv rfl hdouble
    have hplain : '"' ∉ s' := by simpa [isPlainText] using (arePlain_nodes hin hus).2 (by decide)
    rw [List.cons_append, List.append_assoc]
    exact closing_quoted hplain rest
  · obtain ⟨s', vs, rfl, rfl⟩ : ∃ s' vs, s = '\x27' :: (s' ++ ['\x27']) ∧
        us = grammar.nodes .singleInner (m.inside .compound) s' vs := quotation_inv rfl hsingle
    have hplain := (arePlain_nodes hin hus).2 (by decide)
    simp only [isPlainText, Bool.and_eq_true, Bool.not_eq_true', List.contains_eq_mem,
      decide_eq_false_iff_not] at hplain
    obtain ⟨⟨hquote, hopen⟩, hclose⟩ := hplain
    exact closing_unmarked (by simpa using hquote) (by simpa using hopen)
      (by simpa using hclose) rest

/-- From a level to the level behind it, whatever follows. -/
theorem closing_of_derives {m : Mode} {e : Peg.Expr Rule} {s : List Char}
    {ts : List (ParseTree Rule)} (h : grammar.Derives m e s ts) (hm : m.keepsNodes)
    (ht : arePlain ts) {i j : Nat} (hr : rise e i = some j) (depth : Nat) (rest : List Char) :
    closing false (depth + i) (s ++ rest) = closing false (depth + j) rest := by
  have hgap : ∀ {m : Mode} {w : List Char} (depth : Nat) (rest : List Char), grammar.Gap m w →
      closing false depth (w ++ rest) = closing false depth rest := fun depth rest hw =>
    closing_unmarked (not_mem_gap hw (by decide)) (not_mem_gap hw (by decide))
      (not_mem_gap hw (by decide)) rest
  induction h generalizing i j depth rest with
  | char hx => exact closing_char hx hr depth rest
  | text _ cs => exact closing_text hr depth rest
  | start _ =>
    cases hr
    rfl
  | finish _ =>
    cases hr
    rfl
  | @rule m r s ts h ih =>
    rw [rise] at hr
    split at hr
    · cases hr
    · next hinner =>
      cases hr
      rw [not_or] at hinner
      cases hu : isUnmarked r with
      | true =>
        simp only [isUnmarked, Bool.and_eq_true] at hu
        have hnot : ∀ {x : Char}, isSpace x = false → grammar.avoids x 4 r → x ∉ s := fun hx ha =>
          (Grammar.Derives.rule h).not_mem (fun _ _ hw => not_mem_gap hw hx) 4 ha
        exact closing_unmarked (hnot (by decide) hu.1.1) (hnot (by decide) hu.1.2)
          (hnot (by decide) hu.2) rest
      | false =>
        by_cases hstring : r = .string
        · subst hstring
          exact closing_string hm (.rule h) ht _ rest
        · obtain ⟨hbody, hstyle⟩ := rise_body r hu hstring hinner.1 hinner.2
          have hinside : m.inside (grammar.style r) = m := by
            rcases hstyle with hs | hs
            · exact congrArg m.inside hs
            · exact congrArg m.inside hs
          exact ih (by rw [hinside]; exact hm) (arePlain_nodes hm ht).1 hbody (depth + i) rest
  | @seq _ a b s w s' ts ts' _ hw _ iha ihb =>
    rw [arePlain_append, Bool.and_eq_true] at ht
    obtain ⟨k, ha, hb⟩ := Option.bind_eq_some_iff.mp hr
    rw [List.append_assoc, List.append_assoc, iha hm ht.1 ha, hgap _ _ hw, ihb hm ht.2 hb]
  | left _ ih => exact ih hm ht (rise_alt hr).1 depth rest
  | right _ ih => exact ih hm ht (rise_alt hr).2 depth rest
  | present _ ih =>
    obtain ⟨ha, rfl⟩ := rise_repeated hr
    exact ih hm ht ha depth rest
  | missing _ _ =>
    obtain ⟨_, rfl⟩ := rise_repeated hr
    rfl
  | @again _ a s w s' ts ts' _ hw _ iha ihb =>
    rw [arePlain_append, Bool.and_eq_true] at ht
    obtain ⟨ha, rfl⟩ := rise_repeated hr
    rw [List.append_assoc, List.append_assoc, iha hm ht.1 ha, hgap _ _ hw, ihb hm ht.2 hr]
  | enough _ _ =>
    obtain ⟨_, rfl⟩ := rise_repeated hr
    rfl
  | absent _ _ =>
    cases hr
    rfl

/-- An expression with plain literals is balanced. -/
theorem balanced_of_parse {cs : List Char} {trees : List (ParseTree Rule)}
    (h : grammar.parse .program cs = .ok trees) (ht : arePlain trees) : Balanced cs := by
  have hderives : grammar.Derives {} (.rule .program) cs trees :=
    Grammar.derives_of_parse grammar_skipsForward rfl rfl h
  exact closing_of_derives hderives rfl ht (i := 0) (j := 0) rfl 0 [')']

end GlyphScript.Lambda
