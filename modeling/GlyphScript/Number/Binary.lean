/-! # Numbers as multiples of powers of two

A finite number is a sign, a mantissa and a power of two. On this view the whole part of a number
and the remainder of a division are integer arithmetic, without rounding.
-/

namespace GlyphScript

/-- What a number stands for: `± mantissa * 2 ^ exponent`, an infinity, or no number at all. -/
inductive Binary where
  | nan
  | infinite (negative : Bool)
  | finite (negative : Bool) (mantissa : Nat) (exponent : Int)
  deriving DecidableEq, Repr

namespace Binary

/-- Splits the 64 bits of a number into sign, exponent and fraction. -/
def ofFloat (x : Float) : Binary :=
  let bits := x.toBits.toNat
  let negative := decide (Nat.pow 2 63 ≤ bits)
  let power : Nat := bits / Nat.pow 2 52 % Nat.pow 2 11
  let fraction : Nat := bits % Nat.pow 2 52
  if power = 0 then .finite negative fraction (-1074)
  else if power = 2047 then if fraction = 0 then .infinite negative else .nan
  else .finite negative (fraction + Nat.pow 2 52) ((power : Int) - 1075)

/-- `mantissa * 2 ^ exponent` cut to a whole number. -/
def scale (mantissa : Nat) (exponent : Int) : Nat :=
  if 0 ≤ exponent then mantissa * Nat.pow 2 exponent.toNat
  else mantissa / Nat.pow 2 (-exponent).toNat

/-- The bits of a number whose mantissa has at most 53 significant bits. -/
def bits (negative : Bool) (mantissa : Nat) (exponent : Int) : Nat :=
  let sign := if negative then Nat.pow 2 63 else 0
  let power := (mantissa.log2 : Int) + exponent + 1023
  if mantissa = 0 then sign
  else if 1 ≤ power then
    sign + power.toNat * Nat.pow 2 52 + (scale mantissa (52 - mantissa.log2) - Nat.pow 2 52)
  else sign + scale mantissa (exponent + 1074)

/-- The number with the given view; exact whenever the mantissa has at most 53 significant bits. -/
def toFloat : Binary → Float
  | .nan => Float.ofBits 0x7ff8000000000000
  | .infinite negative => Float.ofBits (if negative then 0xfff0000000000000 else 0x7ff0000000000000)
  | .finite negative mantissa exponent => Float.ofBits (bits negative mantissa exponent).toUInt64

/-- The integer that a number is, if it is one. -/
def whole? : Binary → Option Int
  | .finite negative mantissa exponent =>
    let magnitude := scale mantissa exponent
    if 0 ≤ exponent ∨ mantissa % Nat.pow 2 (-exponent).toNat = 0 then
      some (if negative then -(magnitude : Int) else magnitude)
    else none
  | _ => none

def isFinite : Binary → Bool
  | .finite .. => true
  | _ => false

/-- The remainder of dividing towards zero, with the sign of the dividend. -/
def remainder : Binary → Binary → Binary
  | .finite negative m p, .finite _ n q =>
    let least := min p q
    if n = 0 then .nan
    else .finite negative (scale m (p - least) % scale n (q - least)) least
  | .finite negative m p, .infinite _ => .finite negative m p
  | _, _ => .nan

end Binary

namespace Number

def infinity : Float := (Binary.infinite false).toFloat

def nan : Float := Binary.nan.toFloat

/-- The integer that a number is, if it is one. -/
def whole? (x : Float) : Option Int := (Binary.ofFloat x).whole?

def isFinite (x : Float) : Bool := (Binary.ofFloat x).isFinite

def remainder (x y : Float) : Float := ((Binary.ofFloat x).remainder (Binary.ofFloat y)).toFloat

/-- Two numbers are the same if they compare equal or neither is a number. -/
def same (x y : Float) : Bool := x == y || (x.isNaN && y.isNaN)

end Number

end GlyphScript
