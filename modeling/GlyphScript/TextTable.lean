import GlyphScript.Entries

/-! # Tables of texts

Texts in order of first use, with an index from each text to the place of its first occurrence.
-/

namespace GlyphScript

structure TextTable where
  texts : List String := []
  index : Entries Nat := []
  deriving Repr

namespace TextTable

def size (table : TextTable) : Nat := table.texts.length

def isEmpty (table : TextTable) : Bool := table.texts.isEmpty

def get? (table : TextTable) (i : Nat) : Option String := table.texts[i]?

/-- Adds a text at the end and indexes it unless an earlier occurrence is indexed. -/
def push (table : TextTable) (s : String) : TextTable :=
  { texts := table.texts ++ [s]
    index := if table.index.contains s then table.index else table.index.insert s table.size }

/-- The place of a text, which is added first if it is new. -/
def intern (table : TextTable) (s : String) : Nat × TextTable :=
  match table.index.get? s with
  | some i => (i, table)
  | none => (table.size, table.push s)

/-- A given list of texts is kept as it is; of equal texts the first is indexed. -/
def ofList (texts : List String) : TextTable := texts.foldl push {}

end TextTable

end GlyphScript
