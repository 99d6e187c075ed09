import GlyphScript.Console.Session

/-! # The command line

A command with its arguments, and what it writes. Options may stand before or after the command; the
step budget comes from an option, else from the environment.
-/

namespace GlyphScript.CommandLine

inductive Action where
  | run (script : String)
  | compile (script : String) (output : Option String)
  | exec (program : String)
  | console (script : Option String)
  deriving DecidableEq, Repr

structure Invocation where
  action : Action
  budget : Nat
  deriving DecidableEq, Repr

/-- The variable of the environment that sets the step budget. -/
def budgetVariable : String := "KRAKOA_STEP_BUDGET"

/-! ## Reading arguments -/

/-- Options that take a value, by their long names. -/
inductive Flag where
  | budget
  | log
  | output
  deriving DecidableEq, Repr

def Flag.ofLong? : List Char → Option Flag
  | ['b', 'u', 'd', 'g', 'e', 't'] => some .budget
  | ['l', 'o', 'g'] => some .log
  | ['o', 'u', 't', 'p', 'u', 't'] => some .output
  | _ => none

/-- One argument by its form. -/
inductive Argument where
  | word (text : String)
  /-- Only words follow. -/
  | divider
  | flag (flag : Flag) (value : Option String)
  | unknown

/-- A long option with an equals sign holds its value. -/
def Argument.ofLong (cs : List Char) : Argument :=
  match Flag.ofLong? (cs.takeWhile (· ≠ '=')), cs.dropWhile (· ≠ '=') with
  | some f, [] => .flag f none
  | some f, _ :: value => .flag f (some (String.ofList value))
  | none, _ => .unknown

def Argument.ofText (text : String) : Argument :=
  match text.toList with
  | ['-', '-'] => .divider
  | '-' :: '-' :: cs => .ofLong cs
  | ['-', 'o'] => .flag .output none
  | '-' :: 'o' :: '=' :: cs => .flag .output (some (String.ofList cs))
  | '-' :: 'o' :: cs => .flag .output (some (String.ofList cs))
  | '-' :: _ :: _ => .unknown
  | _ => .word text

/-- The options and words of one level. -/
structure Level where
  flags : List (Flag × String) := []
  words : List String := []

namespace Level

def addFlag? (level : Level) (f : Flag) (value : String) : Option Level :=
  if level.flags.any (·.1 = f) then none else some { level with flags := (f, value) :: level.flags }

def get? (level : Level) (f : Flag) : Option String := level.flags.lookup f

/-- Reads all arguments of a command. -/
def read? : List String → Option Level
  | [] => some {}
  | arg :: rest =>
    match Argument.ofText arg, rest with
    | .word text, rest => (read? rest).map fun level => { level with words := text :: level.words }
    | .divider, rest => some { words := rest }
    | .flag f (some value), rest => (read? rest).bind (·.addFlag? f value)
    | .flag f none, value :: rest =>
      match Argument.ofText value with
      | .word _ => (read? rest).bind (·.addFlag? f value)
      | _ => none
    | .flag _ none, [] => none
    | .unknown, _ => none

/-- Reads the options before a command, the command and its arguments. -/
def split? : List String → Option (Level × String × List String)
  | [] => none
  | arg :: rest =>
    match Argument.ofText arg, rest with
    | .word command, rest => some ({}, command, rest)
    | .flag .output _, _ => none
    | .flag f (some value), rest =>
      (split? rest).bind fun (level, tail) => (level.addFlag? f value).map (·, tail)
    | .flag f none, value :: rest =>
      match Argument.ofText value with
      | .word _ => (split? rest).bind fun (level, tail) => (level.addFlag? f value).map (·, tail)
      | _ => none
    | _, _ => none

end Level

def Action.ofWords? (command : String) (words : List String) (output : Option String) :
    Option Action :=
  match command, words, output with
  | "run", [script], none => some (.run script)
  | "compile", [script], output => some (.compile script output)
  | "exec", [program], none => some (.exec program)
  | "console", [], none => some (.console none)
  | "console", [script], none => some (.console (some script))
  | _, _, _ => none

/-- Reads a command line; `none` if it is not understood. -/
def Invocation.parse? (args : List String) (environment : List (String × String)) :
    Option Invocation := do
  let (before, command, rest) ← Level.split? args
  let level ← Level.read? rest
  let action ← Action.ofWords? command level.words (level.get? .output)
  let given :=
    (level.get? .budget).or ((before.get? .budget).or (environment.lookup budgetVariable))
  match given with
  | none => some { action, budget := Machine.defaultBudget }
  | some count => (Console.readCount count.toList).toOption.map fun budget => { action, budget }

/-! ## What a command does -/

/-- What a command leaves behind. -/
structure Outcome where
  code : Nat := 0
  out : String := ""
  err : String := ""
  /-- A file to be written. -/
  file : Option (String × String) := none

namespace Outcome

def failed (f : Failure) : Outcome := { code := 1, err := f.report }

def ofExcept : Except Failure Outcome → Outcome
  | .ok outcome => outcome
  | .error f => failed f

/-- The outcome if a file cannot be written. -/
def unwritten (path : String) (e : FileError) : Outcome := failed ⟨"writing " ++ path, [e.message]⟩

/-- Writes the file that an outcome asks for. -/
def settle (files : Files) (outcome : Outcome) : Outcome :=
  match outcome.file with
  | none => outcome
  | some (path, _) =>
    match files.canWrite path with
    | .ok _ => outcome
    | .error e => unwritten path e

end Outcome

/-- The outcome of an invocation that is not understood. -/
def misused : Outcome :=
  { code := 2, err := "usage: [--budget <n>] run | compile | exec | console\n" }

/-- Runs a program and shows its root frame. -/
def runProgram (now budget : Nat) (program : Program) : Outcome :=
  let run := Machine.run { now } budget (Machine.start program)
  let m := run.machine
  let out := (match m.stack with
    | root :: _ => root.toJson.pretty
    | [] => "") ++ "\n"
  let count := " after " ++ toString run.steps ++ " steps"
  match run.ending with
  | .halted => { out, err := m.registers.status.label ++ count ++ "\n" }
  | .stalled => { out, err := "stalled at " ++ toString m.registers.ip ++ count ++ "\n" }
  | .exhausted =>
    let failure : Failure :=
      ⟨"step budget exhausted" ++ count ++ ", ip = " ++ toString m.registers.ip, []⟩
    { code := 1, out, err := failure.report }

/-- A session over all its lines. -/
def converse (read : FileReader) (now : Nat) (console : Console) : List String → Outcome
  | [] => { out := console.prompt }
  | line :: lines =>
    let turn := console.turn read now line
    if turn.goesOn then
      let rest := converse read now turn.console lines
      { rest with out := console.prompt ++ turn.out ++ rest.out, err := turn.err ++ rest.err }
    else { out := console.prompt ++ turn.out, err := turn.err }

def openConsole (read : FileReader) (now : Nat) : Option String → Except Failure Console
  | some path => Console.ofScript read now path
  | none => .ok {}

/-- The lines of a text; a line ends with a newline that a carriage return may precede. -/
def linesOf (text : String) : List String :=
  let parts := text.splitOn "\n"
  let unreturned (line : String) : String :=
    if line.endsWith "\r" then (line.dropEnd 1).toString else line
  parts.dropLast.map unreturned ++ parts.getLast?.toList.filter (· ≠ "")

/-- Performs an action with the given standard input. -/
def perform (read : FileReader) (now : Nat) (invocation : Invocation) (input : String) : Outcome :=
  match invocation.action with
  | .run script =>
    .ofExcept ((Source.programOfFile read now script).map (runProgram now invocation.budget))
  | .exec program =>
    .ofExcept ((Source.storedProgram read program).map (runProgram now invocation.budget))
  | .compile script output =>
    .ofExcept <| (Source.programOfFile read now script).map fun program =>
      match output with
      | some path => { file := some (path, program.write) }
      | none => { out := program.write ++ "\n" }
  | .console script =>
    .ofExcept <| (openConsole read now script).map fun console =>
      let outcome := converse read now console (linesOf input)
      { outcome with out := Console.banner ++ "\n" ++ outcome.out }

/-- The whole command line over a collection of files. -/
def main? (files : Files) (now : Nat) (args : List String) (environment : List (String × String))
    (input : String) : Option Outcome :=
  (Invocation.parse? args environment).map fun invocation =>
    (perform files.read now invocation input).settle files

end GlyphScript.CommandLine
