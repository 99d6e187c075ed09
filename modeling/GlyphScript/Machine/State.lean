import GlyphScript.Lambda.Eval

/-! # The state of the machine

Four registers, a program and a stack of frames with the root frame at the bottom. The base is the
frame of the innermost scope, or the root frame.
-/

namespace GlyphScript

inductive Status where
  | running
  | halted
  deriving DecidableEq, Repr

def Status.label : Status → String
  | running => "RUNNING"
  | halted => "HALTED"

structure Registers where
  /-- The address of the next instruction. -/
  ip : Address
  status : Status := .running
  /-- The index of the topmost frame. -/
  esp : Nat := 0
  /-- The index of the base frame. -/
  bsp : Nat := 0
  deriving DecidableEq, Repr

structure Machine where
  program : Program
  registers : Registers
  /-- The frames from the root upwards. -/
  stack : List Frame := [{}]
  /-- Whether the current instruction has set the address of the next one itself. -/
  jumped : Bool := false

/-- A decoded instruction at its address. -/
structure Located where
  address : Nat
  instr : Instruction String

inductive MachineError where
  | baseMissing (bsp : Nat)
  | parentMissing (parent : Nat) (scope : String)
  /-- Any other fault, also one raised by a handler that was added to the machine. -/
  | custom (text : String)
  | rogueInheritance (address : Nat)
  | rogueReturn (address : Nat)
  | missingId (op : Op) (address : Nat)
  | unknownMode (mode : String) (address : Nat)
  | danglingText (address : Nat)
  | noInstruction (address : Address)
  deriving DecidableEq, Repr

namespace MachineError

def message : MachineError → String
  | baseMissing bsp => "Runtime error: bsp " ++ toString bsp ++ " points past the stack"
  | parentMissing parent scope =>
    "Runtime error: parent frame " ++ toString parent ++ " of " ++ scope ++ " is missing"
  | custom text => "Runtime error: " ++ text
  | rogueInheritance address =>
    "Rogue inheritance at " ++ toString address ++ ": no active trigger scope"
  | rogueReturn address => "Rogue return at " ++ toString address ++ ": nothing to return to"
  | missingId op address => op.glyph ++ " at " ++ toString address ++ " needs an id"
  | unknownMode mode address => "Unknown link mode '" ++ mode ++ "' at " ++ toString address
  | danglingText address =>
    "Instruction " ++ toString address ++ " references text that is not in the pool"
  | noInstruction address => "No instruction at " ++ toString address

end MachineError

/-- What a handler leaves behind: the machine in any case, and why it failed if it did. -/
structure Effect where
  machine : Machine
  error : Option MachineError := none

namespace Machine

/-- A machine about to run a program from its entry. -/
def start (program : Program) : Machine := { program, registers := { ip := program.entry } }

def reset (m : Machine) : Machine := start m.program

def isRunning (m : Machine) : Bool := m.registers.status = .running

def halt (m : Machine) : Machine := { m with registers := { m.registers with status := .halted } }

def setIp (m : Machine) (target : Address) : Machine :=
  { m with registers := { m.registers with ip := target } }

/-- Sets the address of the next instruction. -/
def jump (m : Machine) (target : Address) : Machine := { m.setIp target with jumped := true }

/-- The index of the topmost frame. -/
def top (m : Machine) : Nat := m.stack.length - 1

def view (m : Machine) : View := ⟨m.stack, m.registers.bsp⟩

def base? (m : Machine) : Option Frame := m.stack[m.registers.bsp]?

/-- The scope of the base frame. -/
def scope? (m : Machine) : Option Scope := m.base?.bind Frame.scope

def modifyBase (m : Machine) (f : Frame → Frame) : Machine :=
  { m with stack := m.stack.modify m.registers.bsp f }

def modifyScope (m : Machine) (f : Scope → Scope) : Machine :=
  m.modifyBase fun frame => { frame with scope := frame.scope.map f }

def decode (m : Machine) (address : Address) : Except MachineError Located :=
  match m.program.decode address with
  | .ok instr => .ok ⟨address.toNat, instr⟩
  | .error .noInstruction => .error (.noInstruction address)
  | .error .danglingText => .error (.danglingText address.toNat)

mutual

/-- Evaluates lambdas at any depth. In a list an undefined item is null, in a map it is left out. -/
def evaluate (view : View) : Value String → Option (Value String)
  | .lambda code => Lambda.evaluate view code
  | .list items => some (.list (evaluateItems view items))
  | .map entries => some (.map (evaluateEntries view entries))
  | v => some v

def evaluateItems (view : View) : List (Value String) → List (Value String)
  | [] => []
  | v :: vs => (evaluate view v).getD .null :: evaluateItems view vs

def evaluateEntries (view : View) : List (String × Value String) → List (String × Value String)
  | [] => []
  | (k, v) :: vs =>
    match evaluate view v with
    | some w => (k, w) :: evaluateEntries view vs
    | none => evaluateEntries view vs

end

/-- The value of a parameter, undefined if it is missing. -/
def param? (m : Machine) (here : Located) (key : String) : Option (Value String) :=
  (here.instr.param? key).bind (evaluate m.view)

/-- What a contextual instruction describes: its evaluated parameters and where they come from. -/
def description (m : Machine) (here : Located) : Entries (Value String) :=
  ((Entries.insert (evaluateEntries m.view here.instr.params)
      "__type" (.text here.instr.op.glyph)).insert
      "__address" (.number (Float.ofNat here.address))).insert
      "__timestamp" (.number (Float.ofNat here.instr.timestamp))

/-- Puts a frame on the stack. -/
def push (m : Machine) (frame : Frame) : Machine := { m with stack := m.stack ++ [frame] }

end Machine

end GlyphScript
