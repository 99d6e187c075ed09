import GlyphScript.Op
import GlyphScript.Tag.Basic
import GlyphScript.Value.Basic

/-! # Nodes

A script is a forest of nodes. The identifier of a node is its text parameter `id`; a node answers
to its identifier and to the roots of its hashtags.
-/

namespace GlyphScript

structure Node where
  op : Op
  params : Params String := []
  body : List Node := []
  tags : List (Tag String) := []

abbrev Forest := List Node

/-- The parameter `id`, if it is a text. -/
def Params.id? (params : Params String) : Option String := (params.get? "id").bind Value.text?

namespace Node

def id? (node : Node) : Option String := Params.id? node.params

mutual

/-- The number of nodes in a tree. -/
def span : Node → Nat
  | ⟨_, _, body, _⟩ => 1 + spans body

def spans : List Node → Nat
  | [] => 0
  | node :: nodes => span node + spans nodes

end

/-- Hashtags name the node they stand on, references do not. -/
def hasHashtag (node : Node) (name : String) : Bool :=
  node.tags.any fun tag => tag.isHashtag && plainName tag.root == name

def isCalled (node : Node) (name : String) : Bool :=
  node.id?.map plainName == some name || node.hasHashtag name

end Node

end GlyphScript
