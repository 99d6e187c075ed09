import GlyphScript.Machine.Gather

/-! # Visiting tags

Inside a scope an instruction can visit the targets of its tags, one at a time and in order: control
jumps to the target and comes back to the instruction, which then visits the next one.
-/

namespace GlyphScript.Machine

/-- Whether a tag of the instruction at an address leads to another instruction. -/
def leadsAway (program : Program) (address : Nat) (tag : Tag String) : Bool :=
  tag.address ≠ address && tag.isResolved && program.isAddress tag.address

/-- The next target from a cursor on, with the cursor behind it. -/
def nextTarget (program : Program) (address : Nat) : Nat → List (Tag String) → Nat × Option Address
  | cursor, [] => (cursor, none)
  | cursor, tag :: tags =>
    if leadsAway program address tag then (cursor + 1, some tag.address)
    else nextTarget program address (cursor + 1) tags

/-- Visits the next target, if there is one left and a scope is open. -/
def visit (m : Machine) (here : Located) : Machine × Bool :=
  match m.scope? with
  | none => (m, false)
  | some scope =>
    let cursor := scope.cursor here.address
    match nextTarget m.program here.address cursor (here.instr.tags.drop cursor) with
    | (cursor, none) => (m.modifyScope (·.setCursor here.address cursor), false)
    | (cursor, some target) =>
      let m' := m.modifyScope (·.depart here.address cursor target)
      ((m'.gather (Gathering.subtree m.program target)).jump target, true)

end GlyphScript.Machine
