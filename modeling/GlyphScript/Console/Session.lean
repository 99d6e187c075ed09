import GlyphScript.Console.Command
import GlyphScript.Console.Render

/-! # Sessions

Lines are collected until their braces are balanced, and are then read as one command. A command
that fails changes neither the machine nor the last command.
-/

namespace GlyphScript

structure Console where
  machine : Option Machine := none
  /-- Lines that are still open. -/
  buffer : String := ""
  last : Option Console.Command := none

namespace Console

/-- Opening minus closing braces. -/
def openBraces (cs : List Char) : Int :=
  cs.foldl
    (fun depth c => if c == '\x7b' then depth + 1 else if c == '\x7d' then depth - 1 else depth) 0

def isOpen (console : Console) : Bool := !console.buffer.isEmpty

/-- Takes a line, and gives a command once the lines so far are complete. -/
def enterLine (console : Console) (line : String) :
    Console × Except CommandError (Option Command) :=
  let buffer := console.buffer ++ line ++ "\n"
  if 0 < openBraces buffer.toList then ({ console with buffer }, .ok none)
  else ({ console with buffer := "" }, (Command.parse buffer).map some)

/-- What a command stands for; the last command stands for the one before it. -/
def resolve (console : Console) : Command → Option Command
  | .last => console.last
  | command => some command

/-- What a command leaves behind: the console, what it wrote, and whether the session goes on. -/
structure Reply where
  console : Console
  out : String := ""
  result : Except Failure Bool

/-- A machine about to run a program that was compiled now. -/
def fresh (console : Console) (command : Command) (program : Except Failure Program)
    (say : Nat → String) : Reply :=
  match program with
  | .ok program =>
    { console := { console with machine := some (Machine.start program), last := some command }
      out := say program.size ++ "\n"
      result := .ok true }
  | .error e => { console, result := .error e }

/-- Works on the machine, if there is one. -/
def onMachine (console : Console) (command : Command) (act : Machine → Machine × String) : Reply :=
  match console.machine with
  | some m =>
    let (m, out) := act m
    { console := { console with machine := some m, last := some command }, out, result := .ok true }
  | none => { console, result := .error ⟨"No program loaded. Use .load <path>", []⟩ }

def stepText (m : Machine) : String :=
  stateText m
    ++ if m.isRunning then "" else yellow "[SYSTEM]: Program execution halted." ++ "\n"

/-- Executes a command other than the last one. -/
def perform (read : FileReader) (now : Nat) (console : Console) (command : Command) : Reply :=
  match command with
  | .load path =>
    console.fresh command (Source.programOfFile read now path) fun n =>
      "loaded " ++ toString n ++ " instructions"
  | .snippet text =>
    console.fresh command (Source.programOfText now text false) fun n =>
      "compiled " ++ toString n ++ " instructions, .step to execute"
  | .step count =>
    console.onMachine command fun m =>
      let m := Machine.steps { now } count m
      (m, stepText m)
  | .print => console.onMachine command fun m => (m, (machineJson m).pretty ++ "\n")
  | .clear =>
    { console := { console with last := some command }, out := clearScreen, result := .ok true }
  | .help =>
    { console := { console with last := some command }, out := helpText ++ "\n",
      result := .ok true }
  | .exit => { console, result := .ok false }
  | .last => { console, result := .ok true }

/-- Executes a command. -/
def execute (read : FileReader) (now : Nat) (console : Console) (command : Command) : Reply :=
  match console.resolve command with
  | some command => perform read now console command
  | none => { console, result := .ok true }

/-- A console that has loaded a script; nothing is there to be repeated yet. -/
def ofScript (read : FileReader) (now : Nat) (path : String) : Except Failure Console :=
  (Source.programOfFile read now path).map fun program =>
    { machine := some (Machine.start program) }

/-- The file that a line makes the console read. -/
def wants? (console : Console) (line : String) : Option String :=
  match console.enterLine line with
  | (console, .ok (some command)) =>
    match console.resolve command with
    | some (.load path) => some path
    | _ => none
  | _ => none

/-- What a line leaves behind: the console, what was written, and whether the session goes on. -/
structure Turn where
  console : Console
  out : String := ""
  err : String := ""
  goesOn : Bool := true

/-- Takes a line and executes the command that it completes. -/
def turn (read : FileReader) (now : Nat) (console : Console) (line : String) : Turn :=
  match console.enterLine line with
  | (console, .error e) => { console, err := "Error: " ++ e.message ++ "\n" }
  | (console, .ok none) => { console }
  | (console, .ok (some command)) =>
    let reply := execute read now console command
    match reply.result with
    | .ok goesOn => { console := reply.console, out := reply.out, goesOn }
    | .error e =>
      { console := reply.console, out := reply.out, err := "Error: " ++ e.display ++ "\n" }

def prompt (console : Console) : String := if console.isOpen then "... " else ">>> "

end Console

end GlyphScript
