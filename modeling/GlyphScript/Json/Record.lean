import GlyphScript.Entries
import GlyphScript.Json.Basic
import GlyphScript.Number.Binary

/-! # Records in JSON

A record is written as an object with named fields or as an array of its fields in their order. In
both forms trailing fields may be missing. An object may have further fields, but no field of the
record twice; an array has no further items.
-/

namespace GlyphScript.Json

/-- The fields of a record that are present. -/
def record? (names : List String) : Json → Option (Entries Json)
  | .obj fields =>
    let known := fields.filter fun field => names.contains field.1
    if (known.map Prod.fst).Nodup then some known else none
  | .arr items => if items.length ≤ names.length then some (names.zip items) else none
  | _ => none

/-- A field that has to be there. -/
def required? {α : Type} (fields : Entries Json) (name : String) (read : Json → Option α) :
    Option α :=
  (fields.get? name).bind read

/-- A field that stands for `default` when it is missing. -/
def defaulted? {α : Type} (fields : Entries Json) (name : String) (default : α)
    (read : Json → Option α) : Option α :=
  match fields.get? name with
  | some j => read j
  | none => some default

def text? : Json → Option String
  | .str s => some s
  | _ => none

/-- A value or `null`. -/
def nullable? {α : Type} (read : Json → Option α) : Json → Option (Option α)
  | .null => some none
  | j => (read j).map some

/-- A whole number of 64 bits without sign. -/
def natural? : Json → Option Nat
  | .int n => if 0 ≤ n ∧ n.toNat < Nat.pow 2 64 then some n.toNat else none
  | _ => none

/-- A whole number of 64 bits with sign. -/
def integer? : Json → Option Int
  | .int n => if -(Nat.pow 2 63 : Nat) ≤ n ∧ n < (Nat.pow 2 63 : Nat) then some n else none
  | _ => none

def number? : Json → Option Float
  | .int n => some (Float.ofInt n)
  | .float x => some x
  | _ => none

def items? {α : Type} (read : Json → Option α) : Json → Option (List α)
  | .arr items => items.mapM read
  | _ => none

def entries? {α : Type} (read : Json → Option α) : Json → Option (Entries α)
  | .obj fields =>
    (fields.mapM fun (field : String × Json) => (read field.2).map (Prod.mk field.1)).map
      Entries.ofList
  | _ => none

/-- One of a few names, alone or as the only field of an object that holds `null`. -/
def choice? {α : Type} (read : String → Option α) : Json → Option α
  | .str s => read s
  | .obj [(s, .null)] => read s
  | _ => none

mutual

/-- How deep arrays and objects are inside each other. -/
def depth : Json → Nat
  | .arr items => depthItems items + 1
  | .obj fields => depthFields fields + 1
  | _ => 0

def depthItems : List Json → Nat
  | [] => 0
  | j :: js => max (depth j) (depthItems js)

def depthFields : List (String × Json) → Nat
  | [] => 0
  | (_, j) :: js => max (depth j) (depthFields js)

end

/-- Numbers that are not finite become `null`. -/
def ofFloat (x : Float) : Json := if Number.isFinite x then .float x else .null

end GlyphScript.Json
