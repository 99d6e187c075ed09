/-! # Shapes of JSON values

A shape says which parts of a value are asked for. The fields of a record that it does not name are
not.
-/

namespace GlyphScript.Json

inductive Shape where
  /-- All of the value. -/
  | whole
  /-- The named fields, of an object by their names and of an array by their positions. -/
  | record (fields : List (String × Shape))
  /-- An array of values of one shape. -/
  | items (item : Shape)
  /-- An object with values of one shape, whose keys are numerals and therefore have no escapes. -/
  | numbered (entry : Shape)
  deriving Inhabited

namespace Shape

/-- A record of which some fields have shapes of their own. -/
def ofNames (names : List String) (inner : List (String × Shape)) : Shape :=
  .record (names.map fun name => (name, (inner.lookup name).getD .whole))

/-- The shape of an item of an array. -/
def item (shape : Shape) (i : Nat) : Shape :=
  match shape with
  | .record fields => ((fields[i]?).map Prod.snd).getD .whole
  | .items item => item
  | .whole | .numbered _ => .whole

/-- The shape of a field of an object, if it is asked for. -/
def field? (shape : Shape) (name : String) : Option Shape :=
  match shape with
  | .record fields => fields.lookup name
  | .numbered entry => some entry
  | .whole | .items _ => some .whole

end Shape

end GlyphScript.Json
