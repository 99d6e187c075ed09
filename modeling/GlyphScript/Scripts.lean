import GlyphScript.Source

/-! # Directories of scripts

All scripts below a directory can be compiled at once, and a change of files asks for those scripts
that changed.
-/

namespace GlyphScript.Scripts

/-- How a script fared: the number of its instructions, or why it was refused. -/
structure Report where
  path : String
  outcome : Except Failure Nat

/-- Whatever is called `*.kts`. -/
def isListed (path : String) : Bool :=
  match (Path.names path).getLast? with
  | some name => name.endsWith ".kts"
  | none => false

def report (files : Files) (now : Nat) (path : String) : Report :=
  ⟨path, (Source.programOfFile files.read now path).map Program.size⟩

/-- Compiles every script, in the order of their paths. -/
def checkAll (files : Files) (now : Nat) : List Report :=
  ((files.paths.filter isListed).mergeSort Path.le).map (report files now)

/-- What happened to files. -/
inductive Event where
  | created
  | modified
  | other
  deriving DecidableEq, Repr

/-- The scripts that an event asks to compile again. -/
def affected (files : Files) (event : Event) (paths : List String) : List String :=
  if event = .other then []
  else paths.filter fun path => Path.extension? path == some "kts" && files.isFile path

end GlyphScript.Scripts
