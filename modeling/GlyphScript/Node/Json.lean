import GlyphScript.Json.Reader
import GlyphScript.Node.Basic
import GlyphScript.Tag.Json
import GlyphScript.Value.Json

/-! # Forests in JSON

A forest is written as an array of nodes, or as a single node.
-/

namespace GlyphScript

namespace Node

def fieldNames : List String := ["type", "params", "body", "tags"]

/-- Nodes nested up to the given level. -/
def ofJsonAt? : Nat → Json → Option Node
  | 0, _ => none
  | level + 1, j => do
    let fields ← j.record? fieldNames
    let glyph ← Json.required? fields "type" Json.text?
    let params ← Json.defaulted? fields "params" [] (Json.entries? (Value.ofJson? Json.text?))
    let body ← Json.defaulted? fields "body" [] (Json.items? (ofJsonAt? level))
    let tags ← Json.defaulted? fields "tags" none
        (Json.nullable? (Json.items? (Tag.ofJson? Json.text?)))
    return { op := Op.ofGlyph glyph, params, body, tags := tags.getD [] }

def ofJson? (j : Json) : Option Node := ofJsonAt? j.depth j

end Node

namespace Forest

def ofJson? (j : Json) : Option Forest :=
  match Json.items? Node.ofJson? j with
  | some nodes => some nodes
  | none => (Node.ofJson? j).map ([·])

/-- Reads a forest from JSON text. -/
def read? (source : String) : Option Forest := (Json.read? source).bind ofJson?

end Forest

end GlyphScript
