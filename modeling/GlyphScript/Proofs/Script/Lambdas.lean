import GlyphScript.Proofs.Script.Rules
import GlyphScript.Proofs.Text.Balance

/-! # Where the code of a lambda ends

The code of a lambda in a script ends in front of the first parenthesis that closes none of its own.
Its parts are groups in parentheses, quotations and single characters, and a lambda fails where no
parenthesis closes it.
-/

namespace GlyphScript.Script

open Peg Text

abbrev unspaced : Mode := { spacing := .hidden }

theorem unspaced_ne_free : unspaced.spacing ≠ .free := by decide

/-- A part leaves no trees. -/
theorem yields_part {c d : Cursor}
    (h : grammar.Yields unspaced (Rule.expr .lambdaPart) c (some (d, []))) :
    grammar.Yields unspaced (.rule .lambdaPart) c (some (d, [])) := by
  obtain ⟨s, hreads, _⟩ := h.derives grammar_skipsForward
  exact .rule grammar_skipsForward h hreads.rest

section Parts

variable {x : Char} {cs rest : List Char} {h : Hit Rule} (p : Nat)

theorem yields_group_none (hx : x ≠ '(') :
    grammar.Yields unspaced (.seq (.seq (.text ['(']) (.many (.rule .lambdaPart))) (.text [')']))
      ⟨p, x :: cs⟩ none :=
  .seq_none (.seq_none (Grammar.yields_text_none (by simpa using hx) _ p))

theorem yields_quotation (hcs : '"' ∉ cs) (rest : List Char)
    (hrest : ∀ x, rest.head? = some x → x = '"')
    (hend : grammar.Yields unspaced (.text ['"']) ⟨p + 1 + cs.length, rest⟩ h) :
    grammar.Yields unspaced
    (.seq (.seq (.text ['"']) (.many (.char fun c => !(c == '"')))) (.text ['"']))
      ⟨p, '"' :: (cs ++ rest)⟩ (h.prepend []) := by
  have hchars : grammar.Yields unspaced (.many (.char fun c => !(c == '"'))) ⟨p + 1, cs ++ rest⟩
      (some (⟨p + 1 + cs.length, rest⟩, [])) := by
    apply Grammar.yields_many_char unspaced_ne_free
    · rintro y hy
      have hne : y ≠ '"' := fun h => hcs (h ▸ hy)
      simp [hne]
    · intro y hy
      simp [hrest y hy]
  exact .seq_prepend (.seq (Grammar.yields_text ['"'] p _) hchars rfl) hend

/-- A character that is no parenthesis, and no double quote that another one closes. -/
theorem yields_part_plain (hquote : x = '"' → '"' ∉ cs) (hopen : x ≠ '(') (hclose : x ≠ ')') :
    grammar.Yields unspaced (.rule .lambdaPart) ⟨p, x :: cs⟩ (some (⟨p + 1, cs⟩, [])) := by
  have hquoted : grammar.Yields unspaced
      (.seq (.seq (.text ['"']) (.many (.char fun c => !(c == '"')))) (.text ['"']))
      ⟨p, x :: cs⟩ none := by
    by_cases hx : x = '"'
    · subst hx
      have hopened :=
        yields_quotation p (hquote rfl) [] (by simp) (Grammar.yields_text_none (by simp) _ _)
      rwa [List.append_nil] at hopened
    · exact .seq_none (.seq_none (Grammar.yields_text_none (by simpa using hx) _ p))
  have hchar : grammar.Yields unspaced (.char fun c => !(c == '(' || c == ')')) ⟨p, x :: cs⟩
      (some (⟨p + 1, cs⟩, [])) := Grammar.yields_char (by simp [hopen, hclose]) p cs
  exact yields_part (.right (yields_group_none p hopen) (.right hquoted hchar))

theorem yields_part_quoted (hcs : '"' ∉ cs) (rest : List Char) : ∃ q,
    grammar.Yields unspaced (.rule .lambdaPart) ⟨p, '"' :: (cs ++ '"' :: rest)⟩
      (some (⟨q, rest⟩, [])) := by
  have hquoted := yields_quotation p hcs ('"' :: rest) (by simp) (Grammar.yields_text ['"'] _ rest)
  exact ⟨_, yields_part (.right (yields_group_none p (by decide)) (.left hquoted))⟩

theorem yields_part_group {q : Nat}
    (h : grammar.Yields unspaced (.many (.rule .lambdaPart)) ⟨p + 1, cs⟩
      (some (⟨q, ')' :: rest⟩, []))) :
    grammar.Yields unspaced (.rule .lambdaPart) ⟨p, '(' :: cs⟩ (some (⟨q + 1, rest⟩, [])) :=
  yields_part (.left
    (.seq (.seq (Grammar.yields_text ['('] p cs) h rfl) (Grammar.yields_text [')'] q rest) rfl))

theorem yields_part_open {q : Nat} (hrest : rest.head? ≠ some ')')
    (h : grammar.Yields unspaced (.many (.rule .lambdaPart)) ⟨p + 1, cs⟩ (some (⟨q, rest⟩, []))) :
    grammar.Yields unspaced (.rule .lambdaPart) ⟨p, '(' :: cs⟩ none := by
  have hgroup : grammar.Yields unspaced
      (.seq (.seq (.text ['(']) (.many (.rule .lambdaPart))) (.text [')'])) ⟨p, '(' :: cs⟩ none :=
    .seq_right_none (.seq (Grammar.yields_text ['('] p cs) h rfl)
      (Grammar.yields_text_none hrest _ q)
  exact .rule_none (.right hgroup (misses (by decide) (by decide) cs))

end Parts

/-- The parts of a code stop in front of the parenthesis that closes it, and in front of none if
there is none. -/
def StopsAt (rest : List Char) : Option (List Char) → Prop
  | some r => rest = ')' :: r
  | none => rest.head? ≠ some ')'

theorem exists_yields_parts (cs : List Char) (p : Nat) :
    ∃ q rest, StopsAt rest (closing false 0 cs) ∧
      grammar.Yields unspaced (.many (.rule .lambdaPart)) ⟨p, cs⟩ (some (⟨q, rest⟩, [])) := by
  induction hn : cs.length using Nat.strongRecOn generalizing cs p with
  | ind n ih =>
    subst hn
    -- a part is followed by further parts, which stop where the whole code does
    have hstep : ∀ {q : Nat} {cs' : List Char}, cs'.length < cs.length →
        closing false 0 cs = closing false 0 cs' →
        grammar.Yields unspaced (.rule .lambdaPart) ⟨p, cs⟩ (some (⟨q, cs'⟩, [])) → ∃ q rest,
          StopsAt rest (closing false 0 cs) ∧
          grammar.Yields unspaced (.many (.rule .lambdaPart)) ⟨p, cs⟩ (some (⟨q, rest⟩, [])) := by
      intro q cs' hlt hclosing hpart
      obtain ⟨q', rest, hstops, hmore⟩ := ih _ hlt cs' q rfl
      rw [hclosing]
      exact ⟨q', rest, hstops, .many hpart (hmore.repeats_of_many unspaced_ne_free) rfl⟩
    cases cs with
    | nil => exact ⟨p, [], by simp [closing, StopsAt], .many_nil (misses_at_end rfl)⟩
    | cons x cs =>
      by_cases hclose : x = ')'
      · subst hclose
        exact ⟨p, _, rfl, .many_nil (misses (by decide) (by decide) cs)⟩
      by_cases hopen : x = '('
      · subst hopen
        obtain ⟨q, rest, hstops, hinner⟩ := ih _ (Nat.lt_succ_self _) cs (p + 1) rfl
        have hadd := closing_add false 0 0 cs
        cases hc : closing false 0 cs with
        | none =>
          rw [hc] at hstops hadd
          rw [closing_open, hadd]
          exact ⟨p, _, by simp [StopsAt], .many_nil (yields_part_open p hstops hinner)⟩
        | some r =>
          rw [hc] at hstops hadd
          cases hstops
          obtain ⟨code, rfl⟩ := exists_of_closing hc
          exact hstep (by simp; omega) hadd (yields_part_group p hinner)
      by_cases hquote : x = '"' ∧ '"' ∈ cs
      · obtain ⟨rfl, hmem⟩ := hquote
        obtain ⟨s, rest, rfl, hs⟩ := List.eq_append_cons_of_mem hmem
        obtain ⟨q, hpart⟩ := yields_part_quoted p hs rest
        exact hstep (by simp; omega) (closing_quoted hs rest) hpart
      · have hplain : x = '"' → '"' ∉ cs := fun hx hmem => hquote ⟨hx, hmem⟩
        exact hstep (Nat.lt_succ_self _) (closing_plain hplain hopen hclose)
          (yields_part_plain p hplain hopen hclose)

def lambdaTree (code : List Char) : ParseTree Rule :=
  .node .lambda ('λ' :: '(' :: (code ++ [')'])) [.node .lambdaCode code []]

theorem yields_lambda_start (p : Nat) (cs : List Char) :
    grammar.Yields { spacing := .tight } (.seq (.text ['λ']) (.text ['('])) ⟨p, 'λ' :: '(' :: cs⟩
      (some (⟨p + 1 + 1, cs⟩, [])) :=
  .seq (Grammar.yields_text ['λ'] p ('(' :: cs)) (Grammar.yields_text ['('] (p + 1) cs) rfl

theorem yields_lambda {cs r : List Char} (h : closing false 0 cs = some r) (p : Nat) : ∃ q code,
    cs = code ++ ')' :: r ∧
      grammar.Yields {} (.rule .lambda) ⟨p, 'λ' :: '(' :: cs⟩
        (some (⟨q, r⟩, [lambdaTree code])) := by
  obtain ⟨q, rest, hstops, hparts⟩ := exists_yields_parts cs (p + 1 + 1)
  rw [h] at hstops
  cases hstops
  obtain ⟨code, rfl⟩ := exists_of_closing h
  have hcode : grammar.Yields { spacing := .tight } (.rule .lambdaCode)
      ⟨p + 1 + 1, code ++ ')' :: r⟩ (some (⟨q, ')' :: r⟩, [.node .lambdaCode code []])) :=
    .rule grammar_skipsForward hparts rfl
  have hbody : grammar.Yields { spacing := .tight } (Rule.expr .lambda)
      ⟨p, 'λ' :: '(' :: (code ++ ')' :: r)⟩ (some (⟨q + 1, r⟩, [.node .lambdaCode code []])) :=
    .seq (.seq (yields_lambda_start p _) hcode rfl) (Grammar.yields_text [')'] q r) rfl
  exact ⟨q + 1, code, rfl, .rule grammar_skipsForward hbody (by simp)⟩

theorem yields_lambda_none {cs : List Char} (h : closing false 0 cs = none) (p : Nat) :
    grammar.Yields {} (.rule .lambda) ⟨p, 'λ' :: '(' :: cs⟩ none := by
  obtain ⟨q, rest, hstops, hparts⟩ := exists_yields_parts cs (p + 1 + 1)
  rw [h] at hstops
  obtain ⟨code, hreads, _⟩ := hparts.derives grammar_skipsForward
  have hcode : grammar.Yields { spacing := .tight } (.rule .lambdaCode) ⟨p + 1 + 1, cs⟩
      (some (⟨q, rest⟩, [.node .lambdaCode code []])) :=
    .rule grammar_skipsForward hparts hreads.rest
  have hbody : grammar.Yields { spacing := .tight } (Rule.expr .lambda) ⟨p, 'λ' :: '(' :: cs⟩
      none :=
    .seq_right_none (.seq (yields_lambda_start p cs) hcode rfl)
      (Grammar.yields_text_none hstops _ q)
  exact .rule_none hbody

end GlyphScript.Script
