import GlyphScript.Node.Basic

/-! # References into a forest

A path of names leads to a node: the first name is looked up anywhere, depth first, and each further
name stays at the node if it is one of its hashtags, or else leads to the first child that answers
to it.
-/

namespace GlyphScript.Reference

/-- Where a path stops. -/
structure Unreachable where
  segment : String
  container : String
  deriving DecidableEq, Repr

mutual

/-- The first node of a tree that answers to a name, in preorder. -/
def findIn (name : String) : Node → Option Node
  | ⟨op, params, body, tags⟩ =>
    if Node.isCalled ⟨op, params, body, tags⟩ name then some ⟨op, params, body, tags⟩
    else findAmong name body

def findAmong (name : String) : List Node → Option Node
  | [] => none
  | node :: nodes =>
    match findIn name node with
    | some found => some found
    | none => findAmong name nodes

end

/-- One more name from a node. -/
def next? (node : Node) (name : String) : Option Node :=
  if node.hasHashtag name then some node else node.body.find? fun child => child.isCalled name

/-- Follows bare names from a node. -/
def follow (node : Node) : List String → Except Unreachable Node
  | [] => .ok node
  | name :: names =>
    match next? node name with
    | some found => follow found names
    | none => .error { segment := name, container := node.id?.getD "unnamed node" }

/-- The node that a path leads to. -/
def find (path : List String) (forest : Forest) : Except Unreachable Node :=
  match path.map plainName with
  | [] => .error { segment := "", container := "<forest>" }
  | first :: rest =>
    match findAmong first forest with
    | some node => follow node rest
    | none => .error { segment := first, container := "<forest>" }

def isReachable (path : List String) (forest : Forest) : Bool := (find path forest).isOk

end GlyphScript.Reference
