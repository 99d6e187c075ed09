import GlyphScript.Peg.Basic

/-! # Where matching failed

While a grammar runs, a trail keeps the farthest place at which a rule failed and the rules that
failed there. A rule stands for the rules tried inside it at the same place, unless exactly one of
them is on the trail. Backtracking does not undo the trail.
-/

namespace GlyphScript.Peg

structure Trail (R : Type) where
  position : Nat := 0
  /-- Rules that did not match. -/
  expected : List R := []
  /-- Rules that matched where they must not. -/
  unexpected : List R := []

namespace Trail

variable {R : Type}

/-- The sizes of a trail at a place, remembered when a rule starts there. -/
structure Mark where
  expected : Nat
  unexpected : Nat

def mark (t : Trail R) (position : Nat) : Mark :=
  if position = t.position then ⟨t.expected.length, t.unexpected.length⟩ else ⟨0, 0⟩

def count (t : Trail R) (position : Nat) : Nat :=
  if position = t.position then t.expected.length + t.unexpected.length else 0

/-- Forgets what was tried since the mark. -/
def rewind (t : Trail R) (position : Nat) (m : Mark) : Trail R :=
  if position = t.position then
    { t with expected := t.expected.take m.expected, unexpected := t.unexpected.take m.unexpected }
  else t

/-- Moves to a place farther on. -/
def advance (t : Trail R) (position : Nat) : Trail R :=
  if t.position < position then { position } else t

def add (t : Trail R) (position : Nat) (r : R) (negated : Bool) : Trail R :=
  if position = t.position then
    if negated then { t with unexpected := t.unexpected ++ [r] }
    else { t with expected := t.expected ++ [r] }
  else t

/-- Puts a rule on the trail in place of what was tried inside it. -/
def note (t : Trail R) (position : Nat) (m : Mark) (r : R) (negated : Bool) : Trail R :=
  if t.count position = m.expected + m.unexpected + 1 then t
  else ((t.rewind position m).advance position).add position r negated

/-- A list of alternatives in words. -/
def enumerate : List String → String
  | [] => ""
  | [a] => a
  | [a, b] => a ++ " or " ++ b
  | names => ", ".intercalate names.dropLast ++ ", or " ++ names.getLastD ""

/-- Says what was expected at the farthest place; rules are named once, in the order of `all`. -/
def message [DecidableEq R] (t : Trail R) (all : List R) (name : R → String) : String :=
  let names (rules : List R) : List String := (all.filter fun r => r ∈ rules).map name
  match names t.unexpected, names t.expected with
  | [], [] => "unknown parsing error"
  | [], expected => "expected " ++ enumerate expected
  | unexpected, [] => "unexpected " ++ enumerate unexpected
  | unexpected, expected =>
    "unexpected " ++ enumerate unexpected ++ "; expected " ++ enumerate expected

end Trail

end GlyphScript.Peg
