/-! # Lines and columns -/

namespace GlyphScript.Peg

/-- A place in a text, counted from one. -/
structure Location where
  line : Nat := 1
  column : Nat := 1
  deriving DecidableEq, Repr

namespace Location

/-- The location behind a text. A line ends with a line feed, or with a carriage return and a line
feed. -/
def advance : Location → List Char → Location
  | l, [] => l
  | l, '\r' :: '\n' :: cs => advance ⟨l.line + 1, 1⟩ cs
  | l, '\n' :: cs => advance ⟨l.line + 1, 1⟩ cs
  | l, _ :: cs => advance ⟨l.line, l.column + 1⟩ cs

/-- The location of a position in an input. -/
def ofPosition (input : List Char) (position : Nat) : Location := advance {} (input.take position)

end Location

end GlyphScript.Peg
