import GlyphScript.Failure

/-! # Files

Paths are names between slashes. A collection of files is given by their names and contents;
directories are those that hold a file.
-/

namespace GlyphScript

inductive FileError where
  | notFound
  | notDirectory
  | isDirectory
  | nameTooLong
  | zeroInName
  | other (text : String)
  deriving DecidableEq, Repr

namespace FileError

def message : FileError → String
  | notFound => "No such file or directory (os error 2)"
  | notDirectory => "Not a directory (os error 20)"
  | isDirectory => "Is a directory (os error 21)"
  | nameTooLong => "File name too long (os error 36)"
  | zeroInName => "file name contained an unexpected NUL byte"
  | other text => text

end FileError

/-- A way to read files by their paths. -/
abbrev FileReader := String → Except FileError String

namespace Path

def split (path : String) : List String := path.splitOn "/"

/-- The names of a path, without empty ones and those that stay in place. -/
def names (path : String) : List String := (split path).filter fun name => name ≠ "" ∧ name ≠ "."

/-- The part of the last name after its last dot, unless the name starts with that dot. -/
def extension? (path : String) : Option String :=
  match (names path).getLast? with
  | none => none
  | some name =>
    let cs := name.toList.reverse
    match cs.dropWhile (· ≠ '.') with
    | '.' :: _ :: _ =>
      if name = ".." then none else some (String.ofList (cs.takeWhile (· ≠ '.')).reverse)
    | _ => none

/-- Whether a path asks for a directory. -/
def endsInDirectory (path : String) : Bool :=
  match (split path).getLast? with
  | some name => (name = "" || name = "." || name = "..") && path ≠ ""
  | none => false

/-- The order of lists of names, name by name. -/
def namesLe : List String → List String → Bool
  | [], _ => true
  | _ :: _, [] => false
  | a :: as, b :: bs =>
    match compare a b with
    | .lt => true
    | .eq => namesLe as bs
    | .gt => false

def le (a b : String) : Bool := namesLe (names a) (names b)

end Path

/-- Files with their contents. -/
structure Files where
  entries : List (String × String) := []

namespace Files

/-- What is at a place, given by its names from the top. -/
inductive Place where
  | file (content : String)
  | directory
  | nothing

def place (files : Files) (names : List String) : Place :=
  match files.entries.find? fun (path, _) => Path.names path == names with
  | some (_, content) => .file content
  | none =>
    if names.isEmpty || files.entries.any fun (path, _) => (names.isPrefixOf (Path.names path)) then
      .directory
    else .nothing

/-- How many bytes a name has at most. -/
def nameLimit : Nat := 255

/-- How many bytes a path has at most. -/
def pathLimit : Nat := 4095

/-- Follows names from a directory; two dots lead back. Above the top, which is `none`, there are
only directories and no names to follow. -/
def walk (files : Files) : Option (List String) → List String → Except FileError Place
  | none, [] => .ok .directory
  | some here, [] => .ok (files.place here)
  | here?, name :: rest =>
    match (here?.map files.place).getD .directory with
    | .file _ => .error .notDirectory
    | .nothing => .error .notFound
    | .directory =>
      if nameLimit < name.utf8ByteSize then .error .nameTooLong
      else
        match here? with
        | none => if name = ".." then walk files none rest else if rest.isEmpty then .ok
            .nothing else .error .notFound
        | some here =>
          if name ≠ ".." then walk files (some (here ++ [name])) rest
          else if here.isEmpty then walk files none rest
          else walk files (some here.dropLast) rest

/-- Where a path starts: at the top, or above it if it is absolute. -/
def start (path : String) : Option (List String) := if path.startsWith "/" then none else some []

/-- What a path leads to. -/
def find (files : Files) (path : String) : Except FileError Place :=
  if path.contains '\x00' then .error .zeroInName
  else if path.isEmpty then .error .notFound
  else if pathLimit < path.utf8ByteSize then .error .nameTooLong
  else
    match files.walk (start path) (Path.names path) with
    | .ok (.file content) =>
      if Path.endsInDirectory path then .error .notDirectory else .ok (.file content)
    | found => found

def read (files : Files) (path : String) : Except FileError String :=
  match files.find path with
  | .ok (.file content) => .ok content
  | .ok .directory => .error .isDirectory
  | .ok .nothing => .error .notFound
  | .error e => .error e

def isFile (files : Files) (path : String) : Bool :=
  match files.find path with
  | .ok (.file _) => true
  | _ => false

/-- Whether a file can be written: its directory has to be there, and no directory in its place. -/
def canWrite (files : Files) (path : String) : Except FileError Unit :=
  match files.find path with
  | .ok (.file _) => .ok ()
  | .ok .directory => .error .isDirectory
  | .error e => .error e
  | .ok .nothing =>
    match files.walk (start path) (Path.names path).dropLast with
    | .ok .directory => if Path.endsInDirectory path then .error .isDirectory else .ok ()
    | .ok (.file _) => .error .notDirectory
    | .ok .nothing => .error .notFound
    | .error e => .error e

/-- All paths below the top, directories included. -/
def paths (files : Files) : List String :=
  (files.entries.flatMap fun (path, _) =>
    let names := Path.names path
    (List.range names.length).map fun n => "/".intercalate (names.take (n + 1))).eraseDups

end Files

end GlyphScript
