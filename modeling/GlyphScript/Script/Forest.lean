import GlyphScript.Node.Basic
import GlyphScript.Peg.Location
import GlyphScript.Script.Grammar

/-! # Scripts as forests

`Script.parse` reads a script. The first positional argument of an element is its identifier if it
is a text; further ones are collected under `args`. A trigger becomes a node with its element as the
only child.
-/

namespace GlyphScript.Script

open Peg

structure SyntaxError where
  location : Location
  message : String
  deriving DecidableEq, Repr

namespace SyntaxError

def display (e : SyntaxError) : String :=
  toString e.location.line ++ ":" ++ toString e.location.column ++ ": " ++ e.message

end SyntaxError

/-- The meaning of backslashes: line feed, tabulator, carriage return, or the next character
itself. -/
def unescape : List Char → List Char
  | '\\' :: c :: cs =>
    (if c == 'n' then '\n' else if c == 't' then '\t' else if c == 'r' then '\r' else c)
      :: unescape cs
  | c :: cs => c :: unescape cs
  | [] => []

/-- Adds positional arguments to the named ones. -/
def addPositional (params : Params String) : List (Value String) → Params String
  | [] => params
  | first :: rest =>
    let params :=
      if first.text?.isSome && !params.contains "id" then params.insert "id" first
      else params.insert "args" (.list [first])
    if rest.isEmpty then params
    else
      match params.get? "args" with
      | some (.list args) => params.insert "args" (.list (args ++ rest))
      | _ => params.insert "args" (.list rest)

namespace Build

/-- The contents of a quoted string. -/
def string? : ParseTree Rule → Option String
  | .node .string _ [.node .inner cs _] => some (String.ofList (unescape cs))
  | _ => none

def key? : ParseTree Rule → Option String
  | .node .key _ [.node .ident cs _] => some (String.ofList cs)
  | .node .key _ [t] => string? t
  | _ => none

mutual

def value? : ParseTree Rule → Option (Value String)
  | .node .value _ [t] => bare? t
  | _ => none

def bare? : ParseTree Rule → Option (Value String)
  | .node .lambda _ [.node .lambdaCode cs _] => some (.lambda (String.ofList (Text.trim cs)))
  | .node .string cs ts => (string? (.node .string cs ts)).map .text
  | .node .number cs _ => (Number.read? cs).map .number
  | .node .boolean cs _ => some (.bool (cs == "true".toList))
  | .node .null _ _ => some .null
  | .node .list _ ts => (values? ts).map .list
  | .node .map _ ts => (pairs? ts).map fun pairs => .map (Entries.ofList pairs)
  | .node .word cs _ => some (.text (String.ofList cs))
  | _ => none

def values? : List (ParseTree Rule) → Option (List (Value String))
  | [] => some []
  | t :: ts => do
    let v ← value? t
    let vs ← values? ts
    return v :: vs

def pair? : ParseTree Rule → Option (String × Value String)
  | .node .pair _ [k, v] => do
    let key ← key? k
    let value ← value? v
    return (key, value)
  | _ => none

def pairs? : List (ParseTree Rule) → Option (List (String × Value String))
  | [] => some []
  | t :: ts => do
    let pair ← pair? t
    let pairs ← pairs? ts
    return pair :: pairs

end

/-- The named and the positional arguments, each in their order. -/
def arguments? : List (ParseTree Rule) → Option (List (String × Value String) × List (Value String))
  | [] => some ([], [])
  | .node .arg _ [t] :: ts => do
    let (named, positional) ← arguments? ts
    match t.rule with
    | .pair =>
      let pair ← pair? t
      return (pair :: named, positional)
    | _ =>
      let value ← value? t
      return (named, value :: positional)
  | _ => none

def params? : ParseTree Rule → Option (Params String)
  | .node .args _ ts => do
    let (named, positional) ← arguments? ts
    return addPositional (Entries.ofList named) positional
  | _ => none

/-- The text of a name. -/
def name? : ParseTree Rule → Option String
  | .node .name _ [.node .bareName cs _] => some (String.ofList cs)
  | .node .name _ [t] => string? t
  | _ => none

def segment? : ParseTree Rule → Option (Segment String)
  | .node .segment _ [.node .nested _ [t]] => (name? t).map fun s => .nested (Tag.hashtag s)
  | .node .segment _ [t] => (name? t).map .name
  | _ => none

/-- The segments of a path; the first one names the root. -/
def path? (kind : TagKind) : ParseTree Rule → Option (Tag String)
  | .node .tagPath _ ts => do
    let segments ← ts.mapM segment?
    let first ← segments.head?
    return { root := first.label, kind, segments }
  | _ => none

def tag? : ParseTree Rule → Option (Tag String)
  | .node .tag _ [.node .reference _ [t]] => path? .reference t
  | .node .tag _ [.node .hashtag _ [t]] => path? .hashtag t
  | .node .tag _ [.node .bareTag _ [t]] => path? .hashtag t
  | _ => none

def tags? : ParseTree Rule → Option (List (Tag String))
  | .node .tagList _ ts => ts.mapM tag?
  | _ => none

def origin? : ParseTree Rule → Option (Params String)
  | .node .origin _ [_] => some []
  | .node .origin _ [_, t] => params? t
  | _ => none

/-- The parts of a list of trees that belong to a rule. -/
def part? (r : Rule) (ts : List (ParseTree Rule)) : Option (ParseTree Rule) :=
  ts.find? fun t => t.rule == r

/-- A part that may be missing. -/
def optional? {α : Type} (r : Rule) (default : α) (read : ParseTree Rule → Option α)
    (ts : List (ParseTree Rule)) : Option α :=
  match part? r ts with
  | some t => read t
  | none => some default

def textEntry (key : String) (s : Option String) : Params String :=
  (s.map fun s => (key, Value.text s)).toList

mutual

def node? : ParseTree Rule → Option Node
  | .node .node _ [.node .trigger _ ts] => do
    let origin ← optional? .origin [] origin? ts
    let tags ← optional? .tagList [] tags? ts
    match ← elements? ts with
    | [element] =>
      return { op := .trigger
               params := textEntry "from" (Params.id? origin) ++ textEntry "to" element.id?
               body := [element]
               tags }
    | _ => none
  | .node .node _ [t] => element? t
  | _ => none

def element? : ParseTree Rule → Option Node
  | .node .element _ ts => do
    let glyph ← part? .glyph ts
    let params ← optional? .args [] params? ts
    let tags ← optional? .tagList [] tags? ts
    let body ← bodies? ts
    return { op := Op.ofGlyph (String.ofList glyph.text), params, body, tags }
  | _ => none

/-- The elements among the parts of a trigger. -/
def elements? : List (ParseTree Rule) → Option (List Node)
  | [] => some []
  | .node .element cs us :: ts => do
    let element ← element? (.node .element cs us)
    let elements ← elements? ts
    return element :: elements
  | _ :: ts => elements? ts

/-- The nodes in the bodies among the parts of an element. -/
def bodies? : List (ParseTree Rule) → Option (List Node)
  | [] => some []
  | .node .body _ us :: ts => do
    let nodes ← nodes? us
    let rest ← bodies? ts
    return nodes ++ rest
  | _ :: ts => bodies? ts

def nodes? : List (ParseTree Rule) → Option (List Node)
  | [] => some []
  | .node .node cs us :: ts => do
    let node ← node? (.node .node cs us)
    let nodes ← nodes? ts
    return node :: nodes
  | _ :: ts => nodes? ts

end

def forest? : List (ParseTree Rule) → Option Forest
  | [.node .file _ ts] => nodes? ts
  | _ => none

end Build

/-- Reads a script, or says where and what was expected instead. -/
def parse (source : String) : Except SyntaxError Forest :=
  let cs := source.toList
  match grammar.parse .file cs with
  | .ok trees =>
    match Build.forest? trees with
    | some forest => .ok forest
    | none => .error ⟨{}, "empty parse"⟩
  | .error trail => .error ⟨.ofPosition cs trail.position, trail.message Rule.all Rule.label⟩

end GlyphScript.Script
