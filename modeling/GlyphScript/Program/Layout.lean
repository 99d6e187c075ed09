import GlyphScript.Node.Basic
import GlyphScript.Program.Basic

/-! # Laying out a forest

Every node becomes one instruction, in preorder, so that its address is the number of nodes before
it. A node goes on to its body, if it has one, and else to its default successor: the node after its
tree, or where its parent goes on. The body of a trigger returns to the trigger.
-/

namespace GlyphScript.Layout

/-- The successors of a node at an address. -/
def successors (op : Op) (address : Nat) (hasBody : Bool) (ret : Address) : List Address :=
  match op, hasBody with
  | .trigger, true | .anchor, true => [address + 1, ret]
  | .trigger, false => [address, ret]
  | .anchor, false => [ret, ret]
  | _, true => [address + 1]
  | _, false => [ret]

/-- Where the body of a node returns to. -/
def bodyReturn (op : Op) (address : Nat) (ret : Address) : Address :=
  if op = .trigger then address else ret

mutual

/-- The instructions of a tree at an address whose default successor is `ret`. -/
def ofNode (timestamp : Nat) (address : Nat) (ret : Address) : Node → List (Instruction String)
  | ⟨op, params, body, tags⟩ =>
    { id := Params.id? params
      op
      timestamp
      params
      tags
      next := successors op address (!body.isEmpty) ret
      bodyEnd := if body.isEmpty then none else some (address + 1 + Node.spans body : Nat) }
      :: ofNodes timestamp (address + 1) (bodyReturn op address ret) body

def ofNodes (timestamp : Nat) (address : Nat) (ret : Address) :
    List Node → List (Instruction String)
  | [] => []
  | node :: rest =>
    ofNode timestamp address (if rest.isEmpty then ret else (address + node.span : Nat)) node
      ++ ofNodes timestamp (address + node.span) ret rest

end

/-- The address of the first trigger at the top level. -/
def trigger? (address : Nat) : List Node → Option Nat
  | [] => none
  | node :: rest => if node.op = .trigger then some address else trigger? (address + node.span) rest

def ofForest (timestamp : Nat) (forest : Forest) : List (Instruction String) :=
  ofNodes timestamp 0 nowhere forest

/-- Where a run starts. -/
def entry (forest : Forest) : Nat := (trigger? 0 forest).getD 0

end GlyphScript.Layout
