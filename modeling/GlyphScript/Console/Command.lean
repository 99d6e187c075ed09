import GlyphScript.Console.Alias
import GlyphScript.Number.Decimal
import GlyphScript.Source

/-! # Commands

A line that starts with a dot is a command, an empty one repeats the last command, and anything else
is a piece of script.
-/

namespace GlyphScript.Console

inductive Command where
  | load (path : String)
  | step (count : Nat)
  | print
  | clear
  | help
  | exit
  | last
  | snippet (text : String)
  deriving DecidableEq, Repr

inductive CommandError where
  | noPath
  | invalidCount
  | countTooLarge
  | invalidCommand (name : String)
  deriving DecidableEq, Repr

namespace CommandError

def message : CommandError → String
  | noPath => "No program path has been supplied"
  | invalidCount => "invalid digit found in string"
  | countTooLarge => "number too large to fit in target type"
  | invalidCommand name => "Invalid command " ++ name ++ ", try .help"

end CommandError

/-- Appends digits to a count of 64 bits. -/
def countFrom (n : Nat) : List Char → Except CommandError Nat
  | [] => .ok n
  | c :: cs =>
    if !c.isDigit then .error .invalidCount
    else
      let n := 10 * n + (c.toNat - '0'.toNat)
      if n < Nat.pow 2 64 then countFrom n cs else .error .countTooLarge

/-- A count with an optional plus sign. -/
def readCount (cs : List Char) : Except CommandError Nat :=
  match cs with
  | ['+'] => .error .invalidCount
  | '+' :: digits => countFrom 0 digits
  | digits => countFrom 0 digits

/-- A command by its name and the text behind it. -/
def Command.ofName (name : String) (arg : List Char) : Except CommandError Command :=
  if name = ".load" ∨ name = ".loa" then
    let path := Source.pathOf (String.ofList arg)
    if path.isEmpty then .error .noPath else .ok (.load path)
  else if name = ".step" ∨ name = ".st" then
    match Text.trim arg with
    | [] => .ok (.step 1)
    | count => (readCount count).map .step
  else if name = ".print" ∨ name = ".pri" then .ok .print
  else if name = ".clear" ∨ name = ".cl" then .ok .clear
  else if name = ".help" then .ok .help
  else if name = ".exit" ∨ name = ".ex" then .ok .exit
  else .error (.invalidCommand name)

/-- Reads what was typed. -/
def Command.parse (input : String) : Except CommandError Command :=
  match Text.trim input.toList with
  | [] => .ok .last
  | '.' :: cs =>
    let name := cs.takeWhile fun c => !Text.isBlank c
    ofName (String.ofList ('.' :: name)) ((cs.dropWhile fun c => !Text.isBlank c).drop 1)
  | cs => .ok (.snippet (String.ofList (expandFrom cs)))

end GlyphScript.Console
