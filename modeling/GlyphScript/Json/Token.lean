import GlyphScript.Json.Numeral

/-! # The leaves of JSON text

White space, strings and numerals. Each reader gives what it found and the characters after it.
Strings hold no control characters, and the surrogates in them come in pairs.
-/

namespace GlyphScript.Json.Token

def isSpace (c : Char) : Bool := c == ' ' || c == '\t' || c == '\n' || c == '\r'

def dropSpace (cs : List Char) : List Char := cs.dropWhile isSpace

def hexDigit? (c : Char) : Option Nat :=
  if '0' ≤ c ∧ c ≤ '9' then some (c.toNat - '0'.toNat)
  else if 'a' ≤ c ∧ c ≤ 'f' then some (c.toNat - 'a'.toNat + 10)
  else if 'A' ≤ c ∧ c ≤ 'F' then some (c.toNat - 'A'.toNat + 10)
  else none

def unit? (a b c d : Char) : Option Nat := do
  let a ← hexDigit? a
  let b ← hexDigit? b
  let c ← hexDigit? c
  let d ← hexDigit? d
  return ((a * 16 + b) * 16 + c) * 16 + d

def isHighSurrogate (n : Nat) : Bool := 0xd800 ≤ n && n < 0xdc00

def isLowSurrogate (n : Nat) : Bool := 0xdc00 ≤ n && n < 0xe000

def escape? : Char → Option Char
  | '"' => some '"'
  | '\\' => some '\\'
  | '/' => some '/'
  | 'b' => some '\x08'
  | 'f' => some '\x0c'
  | 'n' => some '\n'
  | 'r' => some '\r'
  | 't' => some '\t'
  | _ => none

/-- The characters up to the closing quote, and what follows it. -/
def text? : List Char → Option (List Char × List Char)
  | [] => none
  | '"' :: r => some ([], r)
  | '\\' :: 'u' :: a :: b :: c :: d :: r => do
    let n ← unit? a b c d
    if isHighSurrogate n then
      match r with
      | '\\' :: 'u' :: a' :: b' :: c' :: d' :: r' => do
        let m ← unit? a' b' c' d'
        if isLowSurrogate m then
          let (cs, rest) ← text? r'
          return (Char.ofNat (0x10000 + (n - 0xd800) * 0x400 + (m - 0xdc00)) :: cs, rest)
        else none
      | _ => none
    else if isLowSurrogate n then none
    else
      let (cs, rest) ← text? r
      return (Char.ofNat n :: cs, rest)
  | '\\' :: c :: r => do
    let e ← escape? c
    let (cs, rest) ← text? r
    return (e :: cs, rest)
  | c :: r => do
    if c.toNat < 0x20 then none
    else
      let (cs, rest) ← text? r
      return (c :: cs, rest)

/-- A run of digits without a superfluous leading zero. -/
def wholeDigits? (cs : List Char) : Option (List Char × List Char) :=
  match cs.takeWhile Char.isDigit, cs.dropWhile Char.isDigit with
  | [], _ => none
  | '0' :: _ :: _, _ => none
  | digits, rest => some (digits, rest)

def fraction? : List Char → Option (Option (List Char) × List Char)
  | '.' :: r =>
    let digits := r.takeWhile Char.isDigit
    if digits.isEmpty then none else some (some digits, r.dropWhile Char.isDigit)
  | r => some (none, r)

def exponent? (cs : List Char) : Option (Option Int × List Char) :=
  let read (negative : Bool) (r : List Char) : Option (Option Int × List Char) :=
    let digits := r.takeWhile Char.isDigit
    let n : Int := Decimal.natOfDigits digits
    if digits.isEmpty then none
      else some (some (if negative then -n else n), r.dropWhile Char.isDigit)
  match cs with
  | c :: r =>
    if c == 'e' || c == 'E' then
      match r with
      | '-' :: r => read true r
      | '+' :: r => read false r
      | r => read false r
    else some (none, cs)
  | [] => some (none, [])

def numeral? (negative : Bool) (cs : List Char) : Option (Numeral × List Char) := do
  let (whole, cs) ← wholeDigits? cs
  let (fraction, cs) ← fraction? cs
  let (exponent, cs) ← exponent? cs
  return ({ negative, whole, fraction, exponent }, cs)

end GlyphScript.Json.Token
