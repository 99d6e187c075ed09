import GlyphScript.Machine.Handler

/-! # Running the machine

A step decodes the instruction at the address register, lets its handler work and chooses the next
instruction, unless the handler has jumped. A run repeats this until the machine halts, stalls or
has used up its budget.
-/

namespace GlyphScript

/-- A handler that takes over a glyph. -/
abbrev Handler := Machine → Located → Effect

/-- What surrounds a machine: the time, and further handlers by their glyphs. -/
structure Host where
  now : Nat := 0
  handlers : Entries Handler := []

namespace Machine

/-- The handler of an operation, further handlers left aside. -/
def handle (host : Host) (m : Machine) (here : Located) : Effect :=
  match here.instr.op with
  | .context _ => m.describe here
  | .trigger => m.trigger here
  | .anchor => m.anchor here
  | .link => m.link here
  | .speech => speak host.now m here
  | .signal => signal host.now m here
  | .unknown _ => ⟨m, none⟩

def execute (host : Host) (m : Machine) (here : Located) : Effect :=
  match host.handlers.get? here.instr.op.glyph with
  | some handler => handler m here
  | none => handle host m here

/-- Goes to an address, and halts if there is no instruction. -/
def goTo (m : Machine) (target : Address) : Machine :=
  let m := m.setIp target
  if m.program.isAddress target then m else m.halt

/-- Whether the first instruction of a body ends the cycle: it ran without error and opened no
frame. -/
def returnsEarly (m : Machine) (here : Located) (succeeded : Bool) : Option Address :=
  match m.scope? with
  | some scope =>
    if succeeded ∧ scope.address + 1 = here.address ∧ ¬ scope.isExecuting then some scope.address
    else none
  | none => none

/-- Chooses the next instruction: back from a detour, back to the trigger, or on to the
successor. -/
def goOn (m : Machine) (here : Located) (succeeded : Bool) : Machine :=
  match m.takeDetour here.address with
  | (m, some resume) => m.goTo resume
  | (m, none) =>
    match m.returnsEarly here succeeded with
    | some trigger => m.goTo trigger
    | none => m.goTo here.instr.first

/-- The machine after a step with the error that was logged. -/
structure Stepped where
  machine : Machine
  logged : Option MachineError := none

/-- One instruction; `none` if the machine is halted or there is no instruction. -/
def step? (host : Host) (m : Machine) : Option Stepped :=
  if !m.isRunning then none
  else
    match m.program.fetch? m.registers.ip with
    | none => none
    | some raw =>
      match m.decode m.registers.ip with
      | .error e => some ⟨m.goTo raw.first, some e⟩
      | .ok here =>
        let effect := execute host { m with jumped := false } here
        let m := effect.machine
        if m.jumped then
          some ⟨if m.program.isAddress m.registers.ip then m else m.halt, effect.error⟩
        else some ⟨m.goOn here effect.error.isNone, effect.error⟩

/-- How a run ended. -/
inductive Ending where
  | halted
  | stalled
  | exhausted
  deriving DecidableEq, Repr

/-- The result of a run: the machine, how it ended, the number of steps and the errors that were
logged. -/
structure Run where
  machine : Machine
  ending : Ending
  steps : Nat
  logged : List MachineError

/-- Goes on with a run that has made some steps and logged some errors, the latest first. -/
def runFrom (host : Host) : Nat → Nat → List MachineError → Machine → Run
  | budget, steps, logged, m =>
    if !m.isRunning then ⟨m, .halted, steps, logged.reverse⟩
    else
      match budget with
      | 0 => ⟨m, .exhausted, steps, logged.reverse⟩
      | budget + 1 =>
        match step? host m with
        | none => ⟨m, .stalled, steps, logged.reverse⟩
        | some stepped =>
          runFrom host budget (steps + 1) (stepped.logged.toList ++ logged) stepped.machine

/-- Runs a machine for at most the given number of steps. -/
def run (host : Host) (budget : Nat) (m : Machine) : Run := runFrom host budget 0 [] m

/-- The budget of a run unless another one is given. -/
def defaultBudget : Nat := 10000

/-- Up to a number of steps, without regard to how they end. -/
def steps (host : Host) : Nat → Machine → Machine
  | 0, m => m
  | n + 1, m =>
    match step? host m with
    | some stepped => steps host n stepped.machine
    | none => m

end Machine

end GlyphScript
