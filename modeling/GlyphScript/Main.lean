import GlyphScript.CommandLine
import Std.Time.DateTime.Timestamp

/-! # The program

Reads arguments, files and lines, and leaves all decisions to `GlyphScript.CommandLine`.
-/

namespace GlyphScript.Main

def now : IO Nat := do
  return (← Std.Time.Timestamp.now).toMillisecondsSinceUnixEpoch.val.toNat

def errorOf : IO.Error → FileError
  | .noFileOrDirectory .. => .notFound
  | .inappropriateType .. => .isDirectory
  | e => .other (toString e)

/-- Reads one file, and knows no other. -/
def reader (path : String) : IO FileReader := do
  let found ← try
      pure (Except.ok (← IO.FS.readFile path))
    catch e => pure (Except.error (errorOf e))
  return fun asked => if asked = path then found else .error .notFound

def noFiles : FileReader := fun _ => .error .notFound

/-- Writes what an outcome holds and gives its exit code. -/
def finish (outcome : CommandLine.Outcome) : IO UInt32 := do
  let outcome ← match outcome.file with
    | none => pure outcome
    | some (path, text) =>
      try
        IO.FS.writeFile path text
        pure outcome
      catch e => pure (.unwritten path (errorOf e))
  IO.print outcome.out
  IO.eprint outcome.err
  return outcome.code.toUInt32

partial def converse (input output : IO.FS.Stream) (console : Console) : IO Unit := do
  output.putStr console.prompt
  output.flush
  let text ← input.getLine
  match CommandLine.linesOf text with
  | [] => return
  | line :: _ =>
    let read ← match console.wants? line with
      | some path => reader path
      | none => pure noFiles
    let turn := console.turn read (← now) line
    output.putStr turn.out
    IO.eprint turn.err
    if turn.goesOn then converse input output turn.console

def session (script : Option String) : IO UInt32 := do
  let read ← match script with
    | some path => reader path
    | none => pure noFiles
  match CommandLine.openConsole read (← now) script with
  | .error f => finish (.failed f)
  | .ok console =>
    IO.println Console.banner
    converse (← IO.getStdin) (← IO.getStdout) console
    return 0

end GlyphScript.Main

open GlyphScript in
def main (args : List String) : IO UInt32 := do
  let budget := (← IO.getEnv CommandLine.budgetVariable).map (CommandLine.budgetVariable, ·)
  match CommandLine.Invocation.parse? args budget.toList with
  | none => Main.finish CommandLine.misused
  | some invocation =>
    match invocation.action with
    | .console script => Main.session script
    | .run path | .compile path _ | .exec path =>
      Main.finish (CommandLine.perform (← Main.reader path) (← Main.now) invocation "")
