import GlyphScript.Machine.Frame

/-! # What an expression sees

A name is looked up in the frame at the base, then along the scopes around it as long as they lie
below, and at last in all frames from top to bottom.
-/

namespace GlyphScript

structure View where
  frames : List Frame
  base : Nat

namespace View

/-- The frames from an index along the scopes. The index shrinks at each step, so that `i + 1` steps
suffice. -/
def chain (frames : List Frame) : Nat → Nat → List Frame
  | 0, _ => []
  | fuel + 1, i =>
    match frames[i]? with
    | none => []
    | some frame =>
      frame ::
        match frame.scope with
        | some scope => if scope.parent < i then chain frames fuel scope.parent else []
        | none => []

/-- The frames in the order in which they are searched. -/
def order (view : View) : List Frame :=
  chain view.frames (view.base + 1) view.base ++ view.frames.reverse

def lookup? (view : View) (name : String) : Option (Value String) :=
  view.order.findSome? (·.get? name)

def hasTag (view : View) (name : String) : Bool := view.order.any (·.hasTag name)

end View

end GlyphScript
