import GlyphScript.Files
import GlyphScript.Node.Json
import GlyphScript.Program.Compile
import GlyphScript.Program.Json
import GlyphScript.Script.Forest

/-! # Programs from files

A file with the extension `json` holds a forest in JSON, any other file a script.
-/

namespace GlyphScript.Source

def malformed : String := "malformed json"

def forest (source : String) (isJson : Bool) : Except Failure Forest :=
  if isJson then
    match Forest.read? source with
    | some forest => .ok forest
    | none => .error ⟨malformed, []⟩
  else
    match Script.parse source with
    | .ok forest => .ok forest
    | .error e => .error ⟨e.display, []⟩

/-- Compiles a text at a time. -/
def programOfText (now : Nat) (source : String) (isJson : Bool) : Except Failure Program := do
  let forest ← forest source isJson
  match compile forest now with
  | .ok program => .ok program
  | .error e => .error ⟨e.message, []⟩

def readFile (read : FileReader) (path : String) : Except Failure String :=
  match read path with
  | .ok source => .ok source
  | .error e => .error ⟨"reading " ++ path, [e.message]⟩

def programOfFile (read : FileReader) (now : Nat) (path : String) : Except Failure Program := do
  let source ← readFile read path
  match programOfText now source (Path.extension? path == some "json") with
  | .ok program => .ok program
  | .error e => .error (e.within ("compiling " ++ path))

/-- Reads a compiled program. -/
def storedProgram (read : FileReader) (path : String) : Except Failure Program := do
  let source ← readFile read path
  let failed (cause : String) : Failure := ⟨"loading program " ++ path, [cause]⟩
  match Program.load source with
  | .ok program => .ok program
  | .error .malformed => .error (failed malformed)
  | .error (.flawed e) => .error (failed e.message)

/-- Removes blanks and then quotes around the name of a file. -/
def pathOf (arg : String) : String :=
  String.ofList (Text.trimBy (fun c => c == '\x27' || c == '"') (Text.trim arg.toList))

end GlyphScript.Source
