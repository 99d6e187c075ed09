import GlyphScript.Json.Printer
import GlyphScript.Json.Reader
import GlyphScript.Program.Check
import GlyphScript.Tag.Json
import GlyphScript.Value.Json

/-! # Programs in JSON

`Program.write` gives the text of a program and `Program.load` reads one and checks it.
-/

namespace GlyphScript

namespace Instruction

def placeToJson (i : TextId) : Json := .int i

def toJson (instr : Instruction TextId) : Json :=
  .obj <|
    (instr.id.map fun s => ("id", Json.str s)).toList
      ++ [("type", .str instr.op.glyph), ("timestamp", .int instr.timestamp),
        ("params", .obj (Value.toJsonFields placeToJson instr.params))]
      ++ (if instr.tags.isEmpty then []
        else [("tags", .arr (instr.tags.map (Tag.toJson placeToJson)))])
      ++ [("next", .arr (instr.next.map .int))]
      ++ (instr.bodyEnd.map fun a => ("end", Json.int a)).toList

def fieldNames : List String := ["id", "type", "timestamp", "params", "tags", "next", "end"]

def shape : Json.Shape := .ofNames fieldNames [("tags", .items Tag.shape)]

def ofJson? (j : Json) : Option (Instruction TextId) := do
  let fields ← j.record? fieldNames
  let id ← Json.defaulted? fields "id" none (Json.nullable? Json.text?)
  let glyph ← Json.required? fields "type" Json.text?
  let timestamp ← Json.defaulted? fields "timestamp" 0 Json.natural?
  let params ← Json.defaulted? fields "params" [] (Json.entries? (Value.ofJson? Json.natural?))
  let tags ← Json.defaulted? fields "tags" [] (Json.items? (Tag.ofJson? Json.natural?))
  let next ← Json.required? fields "next" (Json.items? Json.integer?)
  let bodyEnd ← Json.defaulted? fields "end" none (Json.nullable? Json.integer?)
  return { id, op := Op.ofGlyph glyph, timestamp, params, tags, next, bodyEnd }

end Instruction

namespace Program

def toJson (program : Program) : Json :=
  .obj
    [("entry", .int program.entry),
      ("symbols", .obj (program.symbols.map fun (name, address) => (name, .int address))),
      ("text", .arr (program.text.map .str)),
      ("code", .obj (program.code.map fun (address, instr) => (toString address, instr.toJson)))]

def write (program : Program) : String := program.toJson.pretty

def fieldNames : List String := ["entry", "symbols", "text", "code"]

def shape : Json.Shape := .ofNames fieldNames [("code", .numbered Instruction.shape)]

/-- An address as the key of an object: a whole number without sign, blanks or superfluous zeros. -/
def addressOfKey? (key : String) : Option Nat :=
  match Json.Token.wholeDigits? key.toList with
  | some (digits, []) =>
    let n := Decimal.natOfDigits digits
    if n < Nat.pow 2 64 then some n else none
  | _ => none

/-- Puts an instruction at its place; a second one for the same address replaces the first. -/
def insertCode (address : Nat) (instr : Instruction TextId) :
    List (Nat × Instruction TextId) → List (Nat × Instruction TextId)
  | [] => [(address, instr)]
  | (a, i) :: rest =>
    if address < a then (address, instr) :: (a, i) :: rest
    else if address = a then (address, instr) :: rest
    else (a, i) :: insertCode address instr rest

def code? : Json → Option (List (Nat × Instruction TextId))
  | .obj fields => do
    let entries ← fields.mapM fun (field : String × Json) => do
      let address ← addressOfKey? field.1
      let instr ← Instruction.ofJson? field.2
      return (address, instr)
    return entries.foldl (fun code (address, instr) => insertCode address instr code) []
  | _ => none

def ofJson? (j : Json) : Option Program := do
  let fields ← j.record? fieldNames
  let entry ← Json.required? fields "entry" Json.natural?
  let symbols ← Json.required? fields "symbols" (Json.entries? Json.natural?)
  let text ← Json.required? fields "text" (Json.items? Json.text?)
  let code ← Json.required? fields "code" code?
  return { entry, symbols, text, code }

/-- Reads a program without checking it. Further fields of its records are stepped over. -/
def read? (source : String) : Option Program := (Json.readAs? shape source).bind ofJson?

/-- Why a program cannot be loaded. -/
inductive LoadError where
  | malformed
  | flawed (e : Flaw)
  deriving DecidableEq, Repr

def load (source : String) : Except LoadError Program :=
  match read? source with
  | none => .error .malformed
  | some program =>
    match program.check with
    | .ok _ => .ok program
    | .error e => .error (.flawed e)

end Program

end GlyphScript
