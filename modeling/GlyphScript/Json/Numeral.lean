import GlyphScript.Json.Basic
import GlyphScript.Number.Decimal

/-! # Numbers in JSON text

A numeral without fraction and exponent is a whole number if it fits in 64 bits. Any other numeral
is read by scaling: the leading digits that fit in 64 bits, as a number, times or divided by a power
of ten. The result is within a few units in the last place and a numeral too large for it is
refused.
-/

namespace GlyphScript.Json

/-- The parts of a written number. -/
structure Numeral where
  negative : Bool
  whole : List Char
  fraction : Option (List Char)
  exponent : Option Int

namespace Numeral

/-- Appends digits to a significand as long as it stays below `2 ^ 64`, and gives the digits left
over. -/
def extend (significand : Nat) : List Char → Nat × List Char
  | [] => (significand, [])
  | c :: cs =>
    let next := 10 * significand + (c.toNat - '0'.toNat)
    if next < Nat.pow 2 64 then extend next cs else (significand, c :: cs)

def powerOfTen (n : Nat) : Float := Decimal.toFloat 1 n

/-- `significand * 10 ^ exponent`, in steps of at most `10 ^ 308`. -/
def scale? (significand : Nat) (exponent : Int) : Option Float :=
  let x := Float.ofNat significand
  if significand = 0 then some 0
  else if 308 < exponent then none
  else if 0 ≤ exponent then
    let y := x * powerOfTen exponent.toNat
    if y.isInf then none else some y
  else if -308 ≤ exponent then some (x / powerOfTen exponent.natAbs)
  else if -616 ≤ exponent then some (x / powerOfTen 308 / powerOfTen (exponent.natAbs - 308))
  else some 0

def signed (n : Numeral) (x : Float) : Float := if n.negative then -x else x

/-- The value of a numeral with a fraction, an exponent or too many digits. -/
def float? (n : Numeral) : Option Float :=
  let (leading, dropped) := extend 0 n.whole
  let fraction := n.fraction.getD []
  let (significand, ignored) := extend leading fraction
  let place := (dropped.length : Int) - (fraction.length - ignored.length : Nat) + n.exponent.getD 0
  (scale? significand place).map n.signed

/-- A whole number of 64 bits, signed or not, stays whole; minus zero does not. -/
def toJson? (n : Numeral) : Option Json :=
  let (significand, dropped) := extend 0 n.whole
  if n.fraction.isNone && n.exponent.isNone && dropped.isEmpty then
    if !n.negative then some (.int significand)
    else if significand = 0 ∨ Nat.pow 2 63 < significand then
      some (.float (n.signed (Float.ofNat significand)))
    else some (.int (-significand))
  else n.float?.map .float

end Numeral

end GlyphScript.Json
