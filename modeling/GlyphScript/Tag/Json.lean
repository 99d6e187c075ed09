import GlyphScript.Json.Record
import GlyphScript.Json.Shape
import GlyphScript.Tag.Basic

/-! # Tags in JSON -/

namespace GlyphScript

namespace TagKind

def name : TagKind → String
  | hashtag => "hashtag"
  | reference => "reference"

def ofName? (s : String) : Option TagKind :=
  if s = "hashtag" then some hashtag else if s = "reference" then some reference else none

end TagKind

namespace Tag

variable {S : Type}

def fieldNames : List String := ["root", "kind", "segments", "original", "target", "address"]

/-- The segments of a tag are read in full, with the tags inside it. -/
def shape : Json.Shape := .ofNames fieldNames []

mutual

def toJson (ofText : S → Json) : Tag S → Json
  | ⟨root, kind, segments, written, target, address⟩ =>
    .obj <|
      [("root", ofText root), ("kind", .str kind.name),
        ("segments", .arr (segmentsToJson ofText segments))]
        ++ (written.map fun s => ("original", Json.str s)).toList
        ++ (target.map fun s => ("target", Json.str s)).toList
        ++ [("address", .int address)]

def segmentToJson (ofText : S → Json) : Segment S → Json
  | .name s => ofText s
  | .nested tag => toJson ofText tag

def segmentsToJson (ofText : S → Json) : List (Segment S) → List Json
  | [] => []
  | s :: rest => segmentToJson ofText s :: segmentsToJson ofText rest

end

/-- Tags nested up to the given level. -/
def ofJsonAt? (text? : Json → Option S) : Nat → Json → Option (Tag S)
  | 0, _ => none
  | level + 1, j => do
    let fields ← j.record? fieldNames
    let root ← Json.required? fields "root" text?
    let kind ← Json.required? fields "kind" (Json.choice? TagKind.ofName?)
    let segments ← Json.defaulted? fields "segments" [] <| Json.items? fun item =>
      match text? item with
      | some s => some (.name s)
      | none => (ofJsonAt? text? level item).map .nested
    let written ← Json.defaulted? fields "original" none (Json.nullable? Json.text?)
    let target ← Json.defaulted? fields "target" none (Json.nullable? Json.text?)
    let address ← Json.defaulted? fields "address" (-1) Json.integer?
    return { root, kind, segments, written, target, address }

/-- A tag has no more levels than the tree it is read from. -/
def ofJson? (text? : Json → Option S) (j : Json) : Option (Tag S) := ofJsonAt? text? j.depth j

end Tag

end GlyphScript
