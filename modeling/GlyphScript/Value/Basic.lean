import GlyphScript.Entries
import GlyphScript.Number.Text

/-! # Values

What parameters, frames and expressions hold. The texts inside are of a type `S`: strings in scripts
and at run time, places in a text table inside programs. The code of a lambda is a string in both.
-/

namespace GlyphScript

inductive Value (S : Type) where
  | null
  | bool (b : Bool)
  | text (s : S)
  | number (x : Float)
  /-- An expression that is evaluated each time its value is needed. -/
  | lambda (code : String)
  | list (items : List (Value S))
  | map (entries : List (String × Value S))
  deriving Inhabited

/-- A place in a text table. -/
abbrev TextId := Nat

/-- Named values of a node or an instruction. -/
abbrev Params (S : Type) := Entries (Value S)

namespace Value

variable {S T : Type}

def text? : Value S → Option S
  | .text s => some s
  | _ => none

def number? : Value S → Option Float
  | .number x => some x
  | _ => none

def map? : Value S → Option (Entries (Value S))
  | .map entries => some entries
  | _ => none

/-- Maps with a `__type` describe an instruction. -/
def isDescription : Value S → Bool
  | .map entries => Entries.contains entries "__type"
  | _ => false

section Replace

variable {m : Type → Type} [Monad m]

mutual

/-- Replaces every text from left to right. Lambdas and the keys of maps stay. -/
def mapTextM (f : S → m T) : Value S → m (Value T)
  | .null => pure .null
  | .bool b => pure (.bool b)
  | .text s => do
    let t ← f s
    return .text t
  | .number x => pure (.number x)
  | .lambda code => pure (.lambda code)
  | .list items => do
    let items ← mapItemsM f items
    return .list items
  | .map entries => do
    let entries ← mapEntriesM f entries
    return .map entries

def mapItemsM (f : S → m T) : List (Value S) → m (List (Value T))
  | [] => pure []
  | v :: vs => do
    let w ← mapTextM f v
    let ws ← mapItemsM f vs
    return w :: ws

def mapEntriesM (f : S → m T) : List (String × Value S) → m (List (String × Value T))
  | [] => pure []
  | (k, v) :: vs => do
    let w ← mapTextM f v
    let ws ← mapEntriesM f vs
    return (k, w) :: ws

end

end Replace

mutual

/-- Whether two values are the same. Maps are compared without regard to order. -/
def same [BEq S] : Value S → Value S → Bool
  | .null, .null => true
  | .bool a, .bool b => a == b
  | .text s, .text t => s == t
  | .number x, .number y => Number.same x y
  | .lambda c, .lambda d => c == d
  | .list vs, .list ws => sameItems vs ws
  | .map vs, .map ws => vs.length == ws.length && sameEntries vs ws
  | _, _ => false

def sameItems [BEq S] : List (Value S) → List (Value S) → Bool
  | [], [] => true
  | v :: vs, w :: ws => same v w && sameItems vs ws
  | _, _ => false

/-- Whether every entry of the first map is in the second. -/
def sameEntries [BEq S] : List (String × Value S) → List (String × Value S) → Bool
  | [], _ => true
  | (k, v) :: vs, ws =>
    (match Entries.get? ws k with
      | some w => same v w
      | none => false) && sameEntries vs ws

end

mutual

/-- The text of a value in messages and in concatenations. -/
def display : Value String → String
  | .null => "null"
  | .bool b => if b then "true" else "false"
  | .text s => s
  | .number x => Number.text x
  | .lambda code => "λ(" ++ code ++ ")"
  | .list items => "[" ++ displayItems items ++ "]"
  | .map entries => "\x7b" ++ displayEntries entries ++ "\x7d"

def displayItems : List (Value String) → String
  | [] => ""
  | [v] => display v
  | v :: vs => display v ++ ", " ++ displayItems vs

def displayEntries : List (String × Value String) → String
  | [] => ""
  | [(k, v)] => k ++ ": " ++ display v
  | (k, v) :: vs => k ++ ": " ++ display v ++ ", " ++ displayEntries vs

end

end Value

end GlyphScript
