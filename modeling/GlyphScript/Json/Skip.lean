import GlyphScript.Json.Token

/-! # Stepping over JSON values

A value that nobody asks for only has to be well written. Its numerals may stand for numbers of any
size, its surrogates need no partners, and its arrays and objects may be inside each other to any
depth.
-/

namespace GlyphScript.Json.Skip

open Token

/-- What follows the closing quote. -/
def text? : List Char → Option (List Char)
  | [] => none
  | '"' :: r => some r
  | '\\' :: 'u' :: a :: b :: c :: d :: r => if (unit? a b c d).isSome then text? r else none
  | '\\' :: c :: r => if (escape? c).isSome then text? r else none
  | c :: r => if c.toNat < 0x20 then none else text? r

/-- What follows a value that is neither an array nor an object. -/
def leaf? : List Char → Option (List Char)
  | 'n' :: 'u' :: 'l' :: 'l' :: r => some r
  | 't' :: 'r' :: 'u' :: 'e' :: r => some r
  | 'f' :: 'a' :: 'l' :: 's' :: 'e' :: r => some r
  | '"' :: r => text? r
  | '-' :: r => (numeral? true r).map Prod.snd
  | r => (numeral? false r).map Prod.snd

/-- What is open around a place in the text. -/
inductive Bracket where
  | array
  | object
  deriving DecidableEq, Repr

/-- What has to come next. -/
inductive Awaited where
  | value
  | key
  | more
  deriving DecidableEq, Repr

/-- What follows once the given brackets, from the innermost on, are closed. Every step but the last
consumes a character. -/
def upTo? : Nat → Awaited → List Bracket → List Char → Option (List Char)
  | 0, _, _, _ => none
  | fuel + 1, .value, opened, cs =>
    match dropSpace cs with
    | '[' :: r =>
      match dropSpace r with
      | ']' :: r => upTo? fuel .more opened r
      | r => upTo? fuel .value (.array :: opened) r
    | '\x7b' :: r =>
      match dropSpace r with
      | '\x7d' :: r => upTo? fuel .more opened r
      | r => upTo? fuel .key (.object :: opened) r
    | r =>
      match leaf? r with
      | some r => upTo? fuel .more opened r
      | none => none
  | fuel + 1, .key, opened, cs =>
    match dropSpace cs with
    | '"' :: r =>
      match (text? r).map dropSpace with
      | some (':' :: r) => upTo? fuel .value opened r
      | _ => none
    | _ => none
  | _ + 1, .more, [], cs => some cs
  | fuel + 1, .more, .array :: opened, cs =>
    match dropSpace cs with
    | ',' :: r => upTo? fuel .value (.array :: opened) r
    | ']' :: r => upTo? fuel .more opened r
    | _ => none
  | fuel + 1, .more, .object :: opened, cs =>
    match dropSpace cs with
    | ',' :: r => upTo? fuel .key (.object :: opened) r
    | '\x7d' :: r => upTo? fuel .more opened r
    | _ => none

/-- What follows one value. The fuel has to exceed the number of characters. -/
def value? (fuel : Nat) (cs : List Char) : Option (List Char) := upTo? fuel .value [] cs

end GlyphScript.Json.Skip
