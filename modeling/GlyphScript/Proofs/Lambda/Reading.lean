import GlyphScript.Proofs.Lambda.Precedence
import GlyphScript.Proofs.Peg.Outcomes

/-! # Reading expressions

The rules of expressions nest few calls before a character is consumed, so the depth of the parser
cuts no expression short. Every text that the rule of programs matches has an expression, and all
other texts have none.
-/

namespace GlyphScript.Lambda

open Peg

theorem grammar_low : grammar.Low 12 where
  forward := grammar_skipsForward
  height r := by cases r <;> decide
  rank r := by cases r <;> decide
  fits r := by cases r <;> decide

/-- An expression is what its rule yields, however deep it is nested. -/
theorem parse?_eq_some (code : String) (e : Expr) : parse? code = some e ↔
    ∃ d trees, grammar.Yields {} (.rule .program) (.ofText code.toList) (some (d, trees)) ∧
      Build.program? trees = some e := by
  have hok := grammar_low.parse_eq_ok .program code.toList
  unfold parse?
  cases hp : grammar.parse .program code.toList with
  | error trail =>
    constructor
    · intro he
      cases he
    · rintro ⟨d, trees, hy, _⟩
      cases hp.symm.trans ((hok trees).mpr ⟨d, hy⟩)
  | ok trees =>
    obtain ⟨d, hd⟩ := (hok trees).mp hp
    constructor
    · exact fun he => ⟨d, trees, hd, he⟩
    · rintro ⟨d', trees', hy, he⟩
      cases hd.unique hy
      exact he

/-- The word in front is not taken for the expression. -/
theorem program?_of_derives {s : List Char} {ts : List (ParseTree Rule)}
    (h : grammar.Derives {} (.rule .program) s ts) : ∃ e, Build.program? ts = some e := by
  obtain ⟨us, hbody, rfl⟩ := plain_inv rfl h
  obtain ⟨s₁, _, _, ts₁, _, hmarked, _, _, _, rfl⟩ := Grammar.Derives.seq_inv hbody
  obtain ⟨s₂, _, _, ts₂, _, hexpr, _, _, _, rfl⟩ := Grammar.Derives.seq_inv hmarked
  obtain ⟨s₃, _, s₄, ts₃, ts₄, hfront, _, hternary, _, rfl⟩ := Grammar.Derives.seq_inv hexpr
  obtain ⟨s₅, _, _, ts₅, _, hstart, _, hword, _, rfl⟩ := Grammar.Derives.seq_inv hfront
  obtain ⟨vs, e, rfl, he⟩ := readsBelow _ _ _ (Nat.lt_succ_self _) hternary
  cases hstart
  rcases hword.opt_inv with hword | ⟨_, rfl⟩
  · obtain ⟨ws, _, rfl⟩ := visible_inv (by decide) hword
    exact ⟨e, he⟩
  · exact ⟨e, he⟩

/-- Only what the rule of programs does not match at any depth has no expression. -/
theorem parse?_eq_none (code : String) :
    parse? code = none ↔ grammar.Yields {} (.rule .program) (.ofText code.toList) none := by
  constructor
  · intro hnone
    obtain ⟨hit, hy⟩ := grammar_low.exists_yields {} (e := .rule .program) rfl (.ofText code.toList)
    cases hit with
    | none => exact hy
    | some x =>
      obtain ⟨s, _, hderives⟩ := hy.derives grammar_skipsForward
      obtain ⟨e, he⟩ := program?_of_derives hderives
      cases hnone.symm.trans ((parse?_eq_some code e).mpr ⟨x.1, x.2, hy, he⟩)
  · intro hy
    cases hp : parse? code with
    | none => rfl
    | some e =>
      obtain ⟨d, trees, hsome, _⟩ := (parse?_eq_some code e).mp hp
      cases hy.unique hsome

end GlyphScript.Lambda
