import GlyphScript.Console.Alias
import GlyphScript.Json.Printer
import GlyphScript.Machine.Step

/-! # What the console shows -/

namespace GlyphScript.Console

def escapeCode (code : String) : String := "\x1b[" ++ code

def bold (s : String) : String := escapeCode "1m" ++ s ++ escapeCode "0m"

def yellow (s : String) : String := escapeCode "38;5;11m" ++ s ++ escapeCode "39m"

def darkGrey (s : String) : String := escapeCode "38;5;8m" ++ s ++ escapeCode "39m"

def clearScreen : String := escapeCode "2J" ++ escapeCode "1;1H"

def banner : String := "--- 🧠 KRAKOA CONSOLE --- (.help for help)"

def helpText : String :=
  "\n".intercalate <|
    [".load <path>   compile a script into a new runtime",
      ".step [n]      execute n instructions (default 1) and show the state",
      ".print         print registers and the whole data stack",
      ".clear         clear the screen",
      ".exit          leave the console",
      "<snippet>      compile a snippet into a new runtime",
      "<enter>        repeat the last command",
      "",
      "aliases:"]
      ++ aliases.map fun (word, glyph) => "  " ++ word ++ " " ++ glyph

/-- How many instructions are shown around the current one. -/
def windowSize : Nat := 5

def padLeft (width : Nat) (s : String) : String := "".pushn ' ' (width - s.length) ++ s

/-- One instruction, marked if it is the current one. -/
def instructionLine (ip : Address) (here : Located) : String :=
  let instr := here.instr
  let pointer := if (here.address : Address) = ip then "  ==>  " else "       "
  let params := (instr.params.filter fun entry => entry.1 ≠ "id").map fun (key, value) =>
    key ++ ": " ++ value.display
  pointer ++ padLeft 3 (toString here.address) ++ ": " ++ instr.op.glyph ++ " " ++ instr.id.getD ""
    ++ " (" ++ ", ".intercalate params ++ ") -> ["
    ++ ", ".intercalate (instr.next.map toString) ++ "]"

/-- The instructions around the current one that can be decoded. -/
def window (m : Machine) : List String :=
  let ip := m.registers.ip
  let first := (ip - (windowSize / 2 : Nat)).toNat
  (List.range' first windowSize).filterMap fun (address : Nat) =>
    (m.decode address).toOption.map (instructionLine ip)

def registersLine (m : Machine) : String :=
  let r := m.registers
  "[ IP: " ++ toString r.ip ++ " | Status: " ++ r.status.label ++ " | ESP: " ++ toString r.esp
    ++ " | BSP: " ++ toString r.bsp ++ " | Symbols: " ++ toString m.program.symbols.length ++ " ]"

/-- The topmost frame, if it holds anything. -/
def contextText (m : Machine) : String :=
  match m.stack[m.registers.esp]? with
  | some frame => if frame.data.isEmpty then "empty" else frame.toJson.pretty
  | none => "empty"

/-- Registers, topmost frame and the instructions around the current one. -/
def stateText (m : Machine) : String :=
  bold (registersLine m) ++ "\n" ++ darkGrey ("Context: [ " ++ contextText m ++ " ]") ++ "\n\n"
    ++ String.join ((window m).map (· ++ "\n"))

/-- The whole machine. -/
def machineJson (m : Machine) : Json :=
  let r := m.registers
  .sorted
    [("registers", .sorted
        [("ip", .int r.ip), ("status", .str r.status.label), ("esp", .int r.esp),
          ("bsp", .int r.bsp)]),
      ("stack", .arr (m.stack.map Frame.toJson))]

end GlyphScript.Console
