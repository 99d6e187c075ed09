import GlyphScript.Json.Shape
import GlyphScript.Json.Skip

/-! # Reading JSON text

`Json.read?` accepts exactly one value with white space around it. What is asked for has no more
than 127 arrays and objects around it, and its numbers are in range; the rest is stepped over.
-/

namespace GlyphScript.Json.Reader

open Token

def number? (negative : Bool) (cs : List Char) : Option (Json × List Char) := do
  let (numeral, rest) ← numeral? negative cs
  let value ← numeral.toJson?
  return (value, rest)

/-- The key of a field up to its closing quote. Numerals are taken as they are written. -/
def key? (shape : Shape) (cs : List Char) : Option (List Char × List Char) :=
  match shape with
  | .numbered _ => some (cs.takeWhile (· != '"'), (cs.dropWhile (· != '"')).tail)
  | _ => Token.text? cs

mutual

/-- One value of the given shape; `room` is how many more arrays and objects may be opened. -/
def value? : Nat → Nat → Shape → List Char → Option (Json × List Char)
  | 0, _, _, _ => none
  | fuel + 1, room, shape, cs =>
    match dropSpace cs with
    | 'n' :: 'u' :: 'l' :: 'l' :: r => some (.null, r)
    | 't' :: 'r' :: 'u' :: 'e' :: r => some (.bool true, r)
    | 'f' :: 'a' :: 'l' :: 's' :: 'e' :: r => some (.bool false, r)
    | '"' :: r => (Token.text? r).map fun (cs, rest) => (.str (String.ofList cs), rest)
    | '-' :: r => number? true r
    | '[' :: r =>
      if room = 0 then none
      else
        match dropSpace r with
        | ']' :: r => some (.arr [], r)
        | r => (items? fuel (room - 1) shape 0 r).map fun (items, rest) => (.arr items, rest)
    | '\x7b' :: r =>
      if room = 0 then none
      else
        match dropSpace r with
        | '\x7d' :: r => some (.obj [], r)
        | r => (fields? fuel (room - 1) shape r).map fun (fields, rest) => (.obj fields, rest)
    | r => number? false r

/-- The items of an array from position `i` up to its closing bracket. -/
def items? : Nat → Nat → Shape → Nat → List Char → Option (List Json × List Char)
  | 0, _, _, _, _ => none
  | fuel + 1, room, shape, i, cs => do
    let (item, rest) ← value? fuel room (shape.item i) cs
    match dropSpace rest with
    | ',' :: r =>
      let (items, rest) ← items? fuel room shape (i + 1) r
      return (item :: items, rest)
    | ']' :: r => return ([item], r)
    | _ => none

/-- The fields of an object that are asked for, up to its closing brace. -/
def fields? : Nat → Nat → Shape → List Char → Option (List (String × Json) × List Char)
  | 0, _, _, _ => none
  | fuel + 1, room, shape, cs =>
    match dropSpace cs with
    | '"' :: r => do
      let (key, rest) ← key? shape r
      let name := String.ofList key
      match dropSpace rest with
      | ':' :: r =>
        let (kept, rest) ←
          match shape.field? name with
          | some inner =>
            (value? fuel room inner r).map fun (value, rest) => ([(name, value)], rest)
          | none => (Skip.value? fuel r).map fun rest => ([], rest)
        match dropSpace rest with
        | ',' :: r =>
          let (fields, rest) ← fields? fuel room shape r
          return (kept ++ fields, rest)
        | '\x7d' :: r => return (kept, r)
        | _ => none
      | _ => none
    | _ => none

end

/-- How many arrays and objects may be inside each other. -/
def depthLimit : Nat := 127

end Reader

/-- Reads what a shape asks for. Every two nested calls of the reader consume a character, which
bounds its depth. -/
def readAs? (shape : Shape) (source : String) : Option Json :=
  let cs := source.toList
  match Reader.value? (2 * cs.length + 2) Reader.depthLimit shape cs with
  | some (value, rest) => if (Token.dropSpace rest).isEmpty then some value else none
  | none => none

/-- Reads all of a value. -/
def read? (source : String) : Option Json := readAs? .whole source

end GlyphScript.Json
