import GlyphScript.Number.Decimal

/-! # Numbers as text

A layout decides where positional notation ends, whether whole numbers keep a fraction and which of
two equally near decimals is written. `Number.jsonText` is the text in documents, `Number.text` the
text in messages, and `Number.read?` reads what scripts and texts may spell.
-/

namespace GlyphScript.Number

structure Layout where
  tie : Tie
  /-- Which decimal exponents are written without a power of ten. -/
  positional : Int → Bool
  /-- Whether a whole number ends in `.0`. -/
  keepsFraction : Bool

namespace Layout

/-- Documents switch to a power of ten from `10 ^ 16` on and below `10 ^ -5`; whole numbers end in
`.0`. -/
def document : Layout where
  tie := .even
  positional k := -5 < k && k ≤ 16
  keepsFraction := true

/-- Messages write every digit. -/
def message : Layout where
  tie := .larger
  positional _ := true
  keepsFraction := false

def zeros (n : Nat) : List Char := List.replicate n '0'

def positionalText (l : Layout) (d : Decimal) : List Char :=
  if d.exponent ≤ 0 then '0' :: '.' :: zeros (-d.exponent).toNat ++ d.digits
  else
    let whole := d.exponent.toNat
    if d.digits.length ≤ whole then
      d.digits ++ zeros (whole - d.digits.length) ++ if l.keepsFraction then ['.', '0'] else []
    else d.digits.take whole ++ '.' :: d.digits.drop whole

def scientificText (d : Decimal) : List Char :=
  let power := d.exponent - 1
  d.digits.take 1 ++ (if d.digits.length ≤ 1 then [] else '.' :: d.digits.drop 1)
    ++ 'e' :: (if power < 0 then '-' else '+') :: Nat.toDigits 10 power.natAbs

def finiteText (l : Layout) (mantissa : Nat) (exponent : Int) : List Char :=
  if mantissa = 0 then '0' :: if l.keepsFraction then ['.', '0'] else []
  else
    let d := Decimal.shortest l.tie mantissa exponent
    if l.positional d.exponent then l.positionalText d else scientificText d

def write (l : Layout) (x : Float) : List Char :=
  let sign (negative : Bool) : List Char := if negative then ['-'] else []
  match Binary.ofFloat x with
  | .nan => "NaN".toList
  | .infinite negative => sign negative ++ "inf".toList
  | .finite negative mantissa exponent => sign negative ++ l.finiteText mantissa exponent

end Layout

/-- The text of a finite number in a document. -/
def jsonText (x : Float) : String := String.ofList (Layout.document.write x)

/-- The text of a number in a message: whole numbers below `10 ^ 15` without sign of zero or
fraction. -/
def text (x : Float) : String :=
  match whole? x with
  | some n =>
    if n.natAbs < Nat.pow 10 15 then toString n else String.ofList (Layout.message.write x)
  | none => String.ofList (Layout.message.write x)

/-- An exponent mark with its digits, or nothing; `none` if the mark has no digits or is followed by
more. -/
def readExponent? : List Char → Option Int
  | [] => some 0
  | mark :: cs =>
    let (negative, digits) :=
      match cs with
      | '-' :: r => (true, r)
      | '+' :: r => (false, r)
      | r => (false, r)
    if (mark == 'e' || mark == 'E') && !digits.isEmpty && digits.all Char.isDigit then
      some (if negative then -(Decimal.natOfDigits digits : Int) else Decimal.natOfDigits digits)
    else none

/-- Digits with an optional point and exponent; the point needs a digit on at least one side. -/
def readUnsigned? (cs : List Char) : Option Float :=
  let whole := cs.takeWhile Char.isDigit
  let (fraction, rest) :=
    match cs.dropWhile Char.isDigit with
    | '.' :: r => (r.takeWhile Char.isDigit, r.dropWhile Char.isDigit)
    | r => ([], r)
  if whole.isEmpty && fraction.isEmpty then none
  else (readExponent? rest).map fun e =>
    Decimal.toFloat (Decimal.natOfDigits (whole ++ fraction)) (e - fraction.length)

/-- A number with an optional sign; infinities and the lack of a number are spelled in any letter
case. -/
def read? (cs : List Char) : Option Float :=
  let (negative, rest) :=
    match cs with
    | '-' :: r => (true, r)
    | '+' :: r => (false, r)
    | r => (false, r)
  let word := rest.map Char.toLower
  let magnitude :=
    if word = "inf".toList ∨ word = "infinity".toList then some infinity
    else if word = "nan".toList then some nan
    else readUnsigned? rest
  magnitude.map fun x => if negative then -x else x

end GlyphScript.Number
