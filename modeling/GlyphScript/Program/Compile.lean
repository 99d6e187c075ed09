import GlyphScript.Program.Layout
import GlyphScript.Program.Link
import GlyphScript.Reference

/-! # Compiling a forest

Compilation fails exactly if a reference leads nowhere, with the first such reference in preorder.
-/

namespace GlyphScript

/-- A reference that leads nowhere. -/
structure CompileError where
  path : String
  segment : String
  container : String
  deriving DecidableEq, Repr

namespace CompileError

def message (e : CompileError) : String :=
  "reference " ++ e.path ++ " is unreachable: could not find '" ++ e.segment ++ "' inside '" ++
    e.container ++ "'"

end CompileError

namespace Compile

/-- What is wrong with a tag, if it is a reference. -/
def tagError? (forest : Forest) (tag : Tag String) : Option CompileError :=
  if tag.isReference then
    match Reference.find tag.path forest with
    | .ok _ => none
    | .error e => some { path := tag.display, segment := e.segment, container := e.container }
  else none

mutual

/-- The first faulty reference in a tree. -/
def nodeError? (forest : Forest) : Node → Option CompileError
  | ⟨_, _, body, tags⟩ =>
    match tags.findSome? (tagError? forest) with
    | some e => some e
    | none => nodesError? forest body

def nodesError? (forest : Forest) : List Node → Option CompileError
  | [] => none
  | node :: rest =>
    match nodeError? forest node with
    | some e => some e
    | none => nodesError? forest rest

end

end Compile

/-- Compiles a forest; every instruction carries the timestamp. -/
def compile (forest : Forest) (timestamp : Nat) : Except CompileError Program :=
  match Compile.nodesError? forest forest with
  | some e => .error e
  | none => .ok (Link.link (Layout.ofForest timestamp forest) (Layout.entry forest))

end GlyphScript
