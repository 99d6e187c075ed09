import GlyphScript.Program.Basic

/-! # Well-formed programs

Addresses start at zero without gaps, every instruction has a successor and a branching one has two,
every place of a text is in the table, and the entry is an address.
-/

namespace GlyphScript

/-- What is wrong with a program. -/
inductive Program.Flaw where
  | notDense (expected found : Nat)
  | emptyNext (address : Nat)
  | branchArity (op : Op) (address found : Nat)
  | badEntry (entry : Nat)
  | danglingText (address place size : Nat)
  deriving DecidableEq, Repr

namespace Program.Flaw

def message : Flaw → String
  | notDense expected found =>
    "code is not dense, expected address " ++ toString expected ++ ", found " ++ toString found
  | emptyNext address => "instruction " ++ toString address ++ " has no successor"
  | branchArity op address found =>
    op.glyph ++ " at " ++ toString address ++ " needs exactly 2 successors, found "
      ++ toString found
  | badEntry entry => "entry " ++ toString entry ++ " is not an address in the program"
  | danglingText address place size =>
    "instruction " ++ toString address ++ " references text " ++ toString place
      ++ ", but the pool only has " ++ toString size ++ " entries"

end Program.Flaw

namespace Program

/-- Checks one instruction at the place where it is expected. -/
def checkInstruction (size expected : Nat) (entry : Nat × Instruction TextId) : Except Flaw Unit :=
  let (found, instr) := entry
  if expected ≠ found then .error (.notDense expected found)
  else if instr.next.isEmpty then .error (.emptyNext found)
  else if instr.op.isBranching ∧ instr.next.length ≠ 2 then
    .error (.branchArity instr.op found instr.next.length)
  else
    let place? (place : TextId) : Except Flaw TextId :=
      if place < size then .ok place else .error (.danglingText found place size)
    (instr.mapTextM place?).map fun _ => ()

def checkFrom (size expected : Nat) : List (Nat × Instruction TextId) → Except Flaw Unit
  | [] => .ok ()
  | entry :: rest =>
    match checkInstruction size expected entry with
    | .ok _ => checkFrom size (expected + 1) rest
    | .error e => .error e

/-- An empty program has the entry zero. -/
def check (program : Program) : Except Flaw Unit :=
  match checkFrom program.text.length 0 program.code with
  | .error e => .error e
  | .ok _ =>
    if program.entry < program.size ∨ (program.isEmpty ∧ program.entry = 0) then .ok ()
    else .error (.badEntry program.entry)

end Program

end GlyphScript
