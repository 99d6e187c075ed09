/-! # Failures

Why something could not be done, from the outermost reason to the innermost.
-/

namespace GlyphScript

structure Failure where
  reason : String
  causes : List String := []
  deriving DecidableEq, Repr

namespace Failure

/-- Puts a failure into a wider context. -/
def within (f : Failure) (context : String) : Failure := ⟨context, f.reason :: f.causes⟩

/-- All reasons on one line. -/
def display (f : Failure) : String := ": ".intercalate (f.reason :: f.causes)

/-- A cause set in by four blanks on each of its lines. -/
def indented (cause : String) : String :=
  "    " ++ String.ofList (cause.toList.flatMap fun c => if c == '\n' then "\n    ".toList else [c])

/-- The reason and, below it, its causes; several causes are numbered. -/
def report (f : Failure) : String :=
  "Error: " ++ f.reason ++ "\n" ++
    match f.causes with
    | [] => ""
    | [cause] => "\nCaused by:\n" ++ indented cause ++ "\n"
    | causes =>
      "\nCaused by:\n" ++
        String.join (causes.mapIdx fun i cause => "    " ++ toString i ++ ": " ++ cause ++ "\n")

end Failure

end GlyphScript
