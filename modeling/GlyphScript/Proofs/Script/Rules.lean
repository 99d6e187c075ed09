import GlyphScript.Proofs.Peg.Outcomes
import GlyphScript.Script.Forest

/-! # The rules of scripts

Blanks and comments are skipped forwards, and the rules nest few calls before a character is
consumed. So parsing a script finds what its rules yield, and a rule fails wherever the next
character cannot start it.
-/

namespace GlyphScript.Script

open Peg

def startsGap (c : Char) : Bool := isSpace c || c == '/'

theorem exists_reads_skipFrom (p : Nat) (cs : List Char) :
    ∃ w, Cursor.Reads ⟨p, cs⟩ w (skipFrom p cs) := by
  have hone : ∀ (p : Nat) (c : Char) (cs : List Char), Cursor.Reads ⟨p, c :: cs⟩ [c] ⟨p + 1, cs⟩ :=
    fun _ _ _ => ⟨rfl, rfl⟩
  have htwo : ∀ (p : Nat) (c d : Char) (cs : List Char),
      Cursor.Reads ⟨p, c :: d :: cs⟩ [c, d] ⟨p + 2, cs⟩ :=
    fun _ _ _ _ => ⟨rfl, rfl⟩
  refine (skipFrom.mutual_induct (fun p cs => ∃ w, Cursor.Reads ⟨p, cs⟩ w (skipFrom p cs))
    (fun p cs => ∀ d, skipBlock p cs = some d → ∃ w, Cursor.Reads ⟨p, cs⟩ w d)
    (fun p cs => ∃ w, Cursor.Reads ⟨p, cs⟩ w (skipLine p cs))
    ?_ ?_ ?_ ?_ ?_ ?_ ?_ ?_ ?_ ?_ ?_).1 p cs
  · rintro p cs ⟨w, hw⟩
    exact ⟨_, (htwo p _ _ cs).trans hw⟩
  · intro p cs ih
    rw [skipFrom]
    cases hb : skipBlock (p + 2) cs with
    | none => exact ⟨[], .refl _⟩
    | some d =>
      obtain ⟨w, hw⟩ := ih d hb
      exact ⟨_, (htwo p _ _ cs).trans hw⟩
  · rintro p c cs hline hblock hc ⟨w, hw⟩
    rw [skipFrom.eq_3 p c cs hline hblock, if_pos hc]
    exact ⟨_, (hone p c cs).trans hw⟩
  · intro p c cs hline hblock hc
    rw [skipFrom.eq_3 p c cs hline hblock, if_neg hc]
    exact ⟨[], .refl _⟩
  · intro p
    exact ⟨[], .refl _⟩
  · rintro p cs ⟨w, hw⟩ d hd
    cases hd
    exact ⟨_, (htwo p _ _ cs).trans hw⟩
  · intro p c cs hend ih d hd
    rw [skipBlock.eq_2 p c cs hend] at hd
    obtain ⟨w, hw⟩ := ih d hd
    exact ⟨_, (hone p c cs).trans hw⟩
  · intro p d hd
    cases hd
  · rintro p c cs hc ⟨w, hw⟩
    rw [skipLine, if_pos hc]
    exact ⟨_, (hone p c cs).trans hw⟩
  · rintro p c cs hc ⟨w, hw⟩
    rw [skipLine, if_neg hc]
    exact ⟨_, (hone p c cs).trans hw⟩
  · intro p
    exact ⟨[], .refl _⟩

theorem skipFrom_cons {c : Char} (hc : startsGap c = false) (p : Nat) (cs : List Char) :
    skipFrom p (c :: cs) = ⟨p, c :: cs⟩ := by
  obtain ⟨hspace, hslash⟩ := Bool.or_eq_false_iff.mp hc
  have hne : c ≠ '/' := beq_eq_false_iff_ne.mp hslash
  rw [skipFrom.eq_3 p c cs (fun _ h => absurd h hne) (fun _ h => absurd h hne), hspace]
  rfl

theorem grammar_skipsForward : grammar.SkipsForward :=
  fun c => exists_reads_skipFrom c.position c.rest

theorem startsGap_of_gap (m : Mode) (w : List Char) (x : Char) (hw : grammar.Gap m w)
    (hx : w.head? = some x) : startsGap x := by
  obtain ⟨v, rfl⟩ := List.head?_eq_some_iff.mp hx
  rcases hw with hnil | ⟨_, ⟨p, rest⟩, hreads⟩
  · cases hnil
  · cases hs : startsGap x with
    | true => rfl
    | false =>
      obtain ⟨rest', rfl⟩ : ∃ rest', rest = x :: rest' := ⟨_, hreads.rest⟩
      have hskip : grammar.skip ⟨p, x :: rest'⟩ = ⟨p, x :: rest'⟩ := skipFrom_cons hs p rest'
      have hposition := hreads.position
      rw [hskip] at hposition
      exact absurd hposition (by simp)

theorem grammar_low : grammar.Low 8 where
  forward := grammar_skipsForward
  height r := by cases r <;> decide
  rank r := by cases r <;> decide
  fits r := by cases r <;> decide

/-- A script is read if its rule yields trees that make a forest. -/
theorem parse_eq_ok (source : String) (forest : Forest) : parse source = .ok forest ↔
    ∃ d trees, grammar.Yields {} (.rule .file) (.ofText source.toList) (some (d, trees)) ∧
      Build.forest? trees = some forest := by
  have hok := grammar_low.parse_eq_ok .file source.toList
  unfold parse
  dsimp only
  cases hp : grammar.parse .file source.toList with
  | error trail =>
    constructor
    · intro he
      cases he
    · rintro ⟨d, trees, hy, _⟩
      cases hp.symm.trans ((hok trees).mpr ⟨d, hy⟩)
  | ok trees =>
    obtain ⟨d, hd⟩ := (hok trees).mp hp
    dsimp only
    cases hf : Build.forest? trees with
    | none =>
      constructor
      · intro he
        cases he
      · rintro ⟨d', trees', hy, hforest⟩
        cases hd.unique hy
        cases hf.symm.trans hforest
    | some forest' =>
      constructor
      · intro he
        cases he
        exact ⟨d, trees, hd, hf⟩
      · rintro ⟨d', trees', hy, hforest⟩
        cases hd.unique hy
        cases hf.symm.trans hforest
        rfl

section

variable {m : Mode} {e : Expr Rule} {p : Nat} {c : Cursor}

/-- Nothing is skipped in front of a character that starts no gap. -/
theorem gap_eq (hc : ∀ x, c.rest.head? = some x → startsGap x = false) : grammar.gap m c = c := by
  obtain ⟨p, rest⟩ := c
  unfold Grammar.gap
  split
  · cases rest with
    | nil => rfl
    | cons x rest => exact skipFrom_cons (hc x rfl) p rest
  · rfl

/-- A blank is skipped, and nothing behind it that starts no gap. -/
theorem gap_blank {cs : List Char} (hcs : ∀ x, cs.head? = some x → startsGap x = false) (p : Nat) :
    grammar.gap {} ⟨p, ' ' :: cs⟩ = ⟨p + 1, cs⟩ :=
  gap_eq (c := ⟨p + 1, cs⟩) (m := {}) hcs

/-- An expression fails where the next character cannot start it. -/
theorem misses_of (he : e.mayBeEmpty (grammar.mayBeEmpty 8) = false)
    (hc : ∀ x, c.rest.head? = some x →
      e.mayStart startsGap (grammar.mayBeEmpty 8) (grammar.mayStart startsGap 8) x = false) :
    grammar.Yields m e c none :=
  Grammar.yields_none grammar_skipsForward startsGap_of_gap 8 he hc

theorem misses {x : Char} (he : e.mayBeEmpty (grammar.mayBeEmpty 8) = false)
    (hx : e.mayStart startsGap (grammar.mayBeEmpty 8) (grammar.mayStart startsGap 8) x = false)
    (xs : List Char) : grammar.Yields m e ⟨p, x :: xs⟩ none := by
  refine misses_of he fun y hy => ?_
  cases hy
  exact hx

theorem misses_at_end (he : e.mayBeEmpty (grammar.mayBeEmpty 8) = false) :
    grammar.Yields m e ⟨p, []⟩ none :=
  misses_of he fun _ hy => by cases hy

end

end GlyphScript.Script
