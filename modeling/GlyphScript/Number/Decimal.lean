import GlyphScript.Number.Binary

/-! # Decimal digits of numbers

`Decimal.shortest` gives the fewest decimal digits that single out a number among all 64-bit
numbers, and of these the nearest to it. `Decimal.toFloat` reads a decimal back, rounding to the
nearest number.
-/

namespace GlyphScript

/-- The decimal fraction `0.d₁d₂… * 10 ^ exponent`. -/
structure Decimal where
  digits : List Char
  exponent : Int
  deriving DecidableEq, Repr

/-- What to take of two equally near decimals. -/
inductive Tie where
  | larger
  | even
  deriving DecidableEq, Repr

namespace Decimal

/-- The number of decimal digits of a positive whole number. -/
def digitCount (n : Nat) : Nat := (Nat.toDigits 10 n).length

/-- A rational number with the interval of those that round to the same 64-bit number, over one
denominator. -/
structure Target where
  low : Nat
  value : Nat
  high : Nat
  denominator : Nat
  closed : Bool

namespace Target

/-- The interval reaches halfway to both neighbours; below a power of two the neighbour is twice as
near. -/
def ofBinary (mantissa : Nat) (exponent : Int) : Target :=
  let factor := Binary.scale 1 (exponent - 2)
  let below := if mantissa = Nat.pow 2 52 ∧ -1074 < exponent then 1 else 2
  { low := (4 * mantissa - below) * max factor 1
    value := 4 * mantissa * max factor 1
    high := (4 * mantissa + 2) * max factor 1
    denominator := Binary.scale 1 (2 - exponent) |> max 1
    closed := mantissa % 2 = 0 }

/-- The least power of ten above the value. -/
def magnitude (t : Target) : Int :=
  if t.denominator ≤ t.value then digitCount (t.value / t.denominator)
  else
    let ratio := (t.denominator + t.value - 1) / t.value
    if ratio ≤ 1 then 1 else 1 - (digitCount (ratio - 1) : Int)

def accepts (t : Target) (n : Nat) : Bool :=
  if t.closed then t.low ≤ n && n ≤ t.high else t.low < n && n < t.high

/-- The nearest acceptable multiple of `10 ^ place`, counted in that unit. -/
def nearest? (tie : Tie) (t : Target) (place : Int) : Option Nat :=
  let up := Nat.pow 10 (-place).toNat
  let unit := t.denominator * Nat.pow 10 place.toNat
  let scaled : Target := { t with low := t.low * up, value := t.value * up, high := t.high * up }
  let floor := scaled.value / unit
  let rest := scaled.value - floor * unit
  match scaled.accepts (floor * unit), scaled.accepts ((floor + 1) * unit) with
  | false, false => none
  | true, false => some floor
  | false, true => some (floor + 1)
  | true, true =>
    if 2 * rest < unit then some floor
    else if unit < 2 * rest then some (floor + 1)
    else if tie = .larger ∨ floor % 2 = 1 then some (floor + 1)
    else some floor

end Target

def dropZeros (digits : List Char) : List Char :=
  (digits.reverse.dropWhile (· == '0')).reverse

/-- The whole number `n` times `10 ^ place`. -/
def ofNat (n : Nat) (place : Int) : Decimal :=
  { digits := dropZeros (Nat.toDigits 10 n), exponent := digitCount n + place }

/-- The fewest digits for `mantissa * 2 ^ exponent`, trying one more digit at a time. Seventeen
always do. -/
def shortest (tie : Tie) (mantissa : Nat) (exponent : Int) : Decimal :=
  let target := Target.ofBinary mantissa exponent
  let top := target.magnitude
  let places := (List.range 17).map fun n => top - (n + 1 : Nat)
  match places.findSome? fun place => (target.nearest? tie place).map fun n => ofNat n place with
  | some d => d
  | none => ofNat (Binary.scale mantissa exponent) 0

/-- Decimal digits as a whole number. -/
def natOfDigits (digits : List Char) : Nat :=
  digits.foldl (fun n c => 10 * n + (c.toNat - '0'.toNat)) 0

/-- The number nearest to `mantissa * 10 ^ exponent`, infinite beyond the largest one. -/
def toFloat (mantissa : Nat) (exponent : Int) : Float :=
  if mantissa = 0 then 0
  else
    let top := (digitCount mantissa : Int) + exponent
    if 320 < top then Number.infinity
    else if top < -400 then 0
    else Float.ofScientific mantissa (exponent < 0) exponent.natAbs

end Decimal

end GlyphScript
