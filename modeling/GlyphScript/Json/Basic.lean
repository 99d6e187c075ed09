/-! # JSON trees

Objects are lists of fields in the order written, so that a repeated key is still visible. Whole
numbers are apart from numbers with a fraction or an exponent.
-/

namespace GlyphScript

inductive Json where
  | null
  | bool (b : Bool)
  | int (n : Int)
  | float (x : Float)
  | str (s : String)
  | arr (items : List Json)
  | obj (fields : List (String × Json))
  deriving Inhabited

namespace Json

/-- An object with its fields in the order of their keys, by code points. -/
def sorted (fields : List (String × Json)) : Json :=
  .obj (fields.mergeSort fun a b => a.1 ≤ b.1)

end Json

end GlyphScript
