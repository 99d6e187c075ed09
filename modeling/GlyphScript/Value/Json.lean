import GlyphScript.Json.Record
import GlyphScript.Value.Basic

/-! # Values in JSON

`Value.toJson` writes a value such that numbers cannot be mistaken for places in a text table: they
are wrapped in an object with the single field `__num`. `Value.ofJson?` takes the first reading that
fits, in the order text, number, lambda, list, map. `Value.toPlainJson` is for display only.
-/

namespace GlyphScript.Value

variable {S : Type}

mutual

def toJson (ofText : S → Json) : Value S → Json
  | .null => .null
  | .bool b => .bool b
  | .text s => ofText s
  | .number x => .obj [("__num", .ofFloat x)]
  | .lambda code => .obj [("kind", .str "lambda"), ("code", .str code)]
  | .list items => .arr (toJsonItems ofText items)
  | .map entries => .obj (toJsonFields ofText entries)

def toJsonItems (ofText : S → Json) : List (Value S) → List Json
  | [] => []
  | v :: vs => toJson ofText v :: toJsonItems ofText vs

def toJsonFields (ofText : S → Json) : List (String × Value S) → List (String × Json)
  | [] => []
  | (k, v) :: vs => (k, toJson ofText v) :: toJsonFields ofText vs

end

/-- A single number, as a record with the one field `__num`. -/
def wrappedNumber? : Json → Option Float
  | .arr [j] => j.number?
  | .obj [("__num", j)] => j.number?
  | _ => none

def isLambdaKind (j : Json) : Bool :=
  (j.choice? fun s => if s = "lambda" then some () else none).isSome

/-- The code of a lambda, as a record with exactly the fields `kind` and `code`. -/
def lambdaCode? : Json → Option String
  | .arr [kind, .str code] => if isLambdaKind kind then some code else none
  | .obj [("kind", kind), ("code", .str code)] => if isLambdaKind kind then some code else none
  | .obj [("code", .str code), ("kind", kind)] => if isLambdaKind kind then some code else none
  | _ => none

mutual

def ofJson? (text? : Json → Option S) : Json → Option (Value S)
  | .null => some .null
  | .bool b => some (.bool b)
  | .arr items =>
    match wrappedNumber? (.arr items), lambdaCode? (.arr items) with
    | some x, _ => some (.number x)
    | none, some code => some (.lambda code)
    | none, none => (ofJsonItems? text? items).map .list
  | .obj fields =>
    match wrappedNumber? (.obj fields), lambdaCode? (.obj fields) with
    | some x, _ => some (.number x)
    | none, some code => some (.lambda code)
    | none, none => (ofJsonFields? text? fields).map fun pairs => .map (Entries.ofList pairs)
  | leaf =>
    match text? leaf with
    | some s => some (.text s)
    | none => leaf.number?.map .number

def ofJsonItems? (text? : Json → Option S) : List Json → Option (List (Value S))
  | [] => some []
  | j :: js => do
    let v ← ofJson? text? j
    let vs ← ofJsonItems? text? js
    return v :: vs

def ofJsonFields? (text? : Json → Option S) :
    List (String × Json) → Option (List (String × Value S))
  | [] => some []
  | (k, j) :: js => do
    let v ← ofJson? text? j
    let vs ← ofJsonFields? text? js
    return (k, v) :: vs

end

mutual

/-- Plain numbers and sorted keys. -/
def toPlainJson : Value String → Json
  | .null => .null
  | .bool b => .bool b
  | .text s => .str s
  | .number x => .ofFloat x
  | .lambda code => .sorted [("kind", .str "lambda"), ("code", .str code)]
  | .list items => .arr (toPlainItems items)
  | .map entries => .sorted (toPlainFields entries)

def toPlainItems : List (Value String) → List Json
  | [] => []
  | v :: vs => toPlainJson v :: toPlainItems vs

def toPlainFields : List (String × Value String) → List (String × Json)
  | [] => []
  | (k, v) :: vs => (k, toPlainJson v) :: toPlainFields vs

end

end GlyphScript.Value
