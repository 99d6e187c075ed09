import GlyphScript.Program.Basic
import GlyphScript.TextTable

/-! # Linking

Identifiers and hashtags define names; a later definition replaces an earlier one. Every tag is
given the address of the last of its names that is defined, and all texts move to a table in order
of first use.
-/

namespace GlyphScript.Link

abbrev Symbols := Entries Nat

/-! ## Symbols -/

mutual

/-- The names that a tag defines, those of nested tags included. -/
def names : Tag String → List String
  | ⟨root, kind, segments, _, _, _⟩ =>
    (if kind = .hashtag then [plainName root] else []) ++ segmentNames segments

def segmentNames : List (Segment String) → List String
  | [] => []
  | .name _ :: rest => segmentNames rest
  | .nested tag :: rest => names tag ++ segmentNames rest

end

/-- The names that an instruction defines. -/
def defines (instr : Instruction String) : List String :=
  (instr.id.map plainName).toList ++ instr.tags.flatMap names

/-- The names of the instructions from an address on. -/
def definitions (address : Nat) : List (Instruction String) → List (String × Nat)
  | [] => []
  | instr :: rest => (defines instr).map (·, address) ++ definitions (address + 1) rest

def symbols (code : List (Instruction String)) : Symbols := Entries.ofList (definitions 0 code)

/-! ## Tags -/

/-- The address of the last name of a path that is defined. -/
def resolvePath (symbols : Symbols) (path : List String) : Address :=
  ((path.filterMap symbols.get?).getLast?.map Int.ofNat).getD nowhere

def writtenAs (kind : TagKind) (root : String) (path : List String) : String :=
  match kind with
  | .hashtag => "#" ++ plainName root
  | .reference => "@" ++ "::".intercalate path

mutual

def resolve (symbols : Symbols) : Tag String → Tag String
  | ⟨root, kind, segments, written, target, address⟩ =>
    let path := Tag.path ⟨root, kind, segments, written, target, address⟩
    { root
      kind
      segments := resolveSegments symbols segments
      written := some (writtenAs kind root path)
      target := path.getLast?
      address := resolvePath symbols path }

def resolveSegments (symbols : Symbols) : List (Segment String) → List (Segment String)
  | [] => []
  | .name s :: rest => .name s :: resolveSegments symbols rest
  | .nested tag :: rest => .nested (resolve symbols tag) :: resolveSegments symbols rest

end

def resolveTags (symbols : Symbols) (instr : Instruction String) : Instruction String :=
  { instr with tags := instr.tags.map (resolve symbols) }

/-! ## Texts -/

/-- Takes a text to its place, adding it if it is new. -/
def intern (s : String) : StateM TextTable TextId := fun table => table.intern s

def tabulateFrom (code : List (Instruction String)) :
    StateM TextTable (List (Instruction TextId)) :=
  code.mapM (Instruction.mapTextM intern)

/-- Pairs each item with its place. -/
def numbered {α : Type} (start : Nat) : List α → List (Nat × α)
  | [] => []
  | a :: as => (start, a) :: numbered (start + 1) as

/-- Replaces all texts by their places in a new table. -/
def tabulate (code : List (Instruction String)) : List String × List (Nat × Instruction TextId) :=
  let (code, table) := (tabulateFrom code).run {}
  (table.texts, numbered 0 code)

/-- Links instructions to a program. -/
def link (code : List (Instruction String)) (entry : Nat) : Program :=
  let symbols := symbols code
  let (text, code) := tabulate (code.map (resolveTags symbols))
  { entry, symbols, text, code }

end GlyphScript.Link
