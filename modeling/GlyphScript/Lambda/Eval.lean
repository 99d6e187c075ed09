import GlyphScript.Lambda.Parse
import GlyphScript.Machine.View
import GlyphScript.Text.Blank

/-! # Evaluating expressions

Evaluation has no effects and always gives a value or the undefined value, which is `none`. A
context object stands for its `value` in arithmetic and comparisons.
-/

namespace GlyphScript

namespace Value

/-- A context object stands for its `value`, everything else for itself. -/
def content? : Option (Value String) → Option (Value String)
  | some (.map entries) =>
    if (Value.map entries).isDescription then Entries.get? entries "value" else some (.map entries)
  | v => v

def holds : Option (Value String) → Bool
  | none => false
  | some .null => false
  | some (.bool b) => b
  | some (.number x) => !(x == 0) && !x.isNaN
  | some (.text s) => !s.isEmpty
  | some _ => true

/-- The number of a text: blank texts are zero, others are read. -/
def textNumber (s : String) : Float :=
  match Text.trim s.toList with
  | [] => 0
  | cs => (Number.read? cs).getD Number.nan

def numeric (v : Option (Value String)) : Float :=
  match content? v with
  | some .null => 0
  | some (.bool b) => if b then 1 else 0
  | some (.number x) => x
  | some (.text s) => textNumber s
  | _ => Number.nan

def displayOrUndefined : Option (Value String) → String
  | some v => v.display
  | none => "undefined"

def isSimple : Value String → Bool
  | .number _ | .bool _ | .text _ => true
  | _ => false

def isNothing : Option (Value String) → Bool
  | none | some .null => true
  | _ => false

/-- Equality that converts texts and truth values to numbers. -/
def looseEq (a b : Option (Value String)) : Bool :=
  match content? a, content? b with
  | some (.text s), some (.text t) => s == t
  | v, w =>
    if isNothing v || isNothing w then isNothing v && isNothing w
    else
      match v, w with
      | some v, some w =>
        if v.isSimple && w.isSimple then numeric (some v) == numeric (some w) else v.same w
      | _, _ => false

/-- Equality without conversion. -/
def strictEq (a b : Option (Value String)) : Bool :=
  match content? a, content? b with
  | some (.number x), some (.number y) => x == y
  | some v, some w => v.same w
  | none, none => true
  | _, _ => false

/-- The order of two texts, or else of two numbers if there is one. -/
def compare? (a b : Option (Value String)) : Option Ordering :=
  match content? a, content? b with
  | some (.text s), some (.text t) => some (compare s t)
  | v, w =>
    let x := numeric v
    let y := numeric w
    if x < y then some .lt else if x == y then some .eq else if y < x then some .gt else none

/-- The value under a key: an entry of a map, an item of a list, a character of a text, or a
length. -/
def member? : Value String → Value String → Option (Value String)
  | .map entries, .text key => Entries.get? entries key
  | .map entries, .number x => Entries.get? entries (Number.text x)
  | .list items, .text key =>
    if key = "length" then some (.number (Float.ofNat items.length)) else none
  | .text s, .text key => if key = "length" then some (.number (Float.ofNat s.length)) else none
  | .list items, .number x =>
    match Number.whole? x with
    | some (.ofNat i) => items[i]?
    | _ => none
  | .text s, .number x =>
    match Number.whole? x with
    | some (.ofNat i) => (s.toList[i]?).map fun c => .text (String.singleton c)
    | _ => none
  | _, _ => none

end Value

namespace Lambda

open Value

def BinaryOp.apply (op : BinaryOp) (a b : Option (Value String)) : Option (Value String) :=
  let test (p : Ordering → Bool) : Option (Value String) :=
    some (.bool ((compare? a b).any p))
  let arithmetic (f : Float → Float → Float) : Option (Value String) :=
    some (.number (f (numeric a) (numeric b)))
  match op with
  | .or => if holds a then a else b
  | .and => if holds a then b else a
  | .nullish => if isNothing a then b else a
  | .eq => some (.bool (looseEq a b))
  | .ne => some (.bool (!looseEq a b))
  | .strictEq => some (.bool (Value.strictEq a b))
  | .strictNe => some (.bool (!Value.strictEq a b))
  | .lt => test (· == .lt)
  | .le => test (· != .gt)
  | .gt => test (· == .gt)
  | .ge => test (· != .lt)
  | .add =>
    let v := content? a
    let w := content? b
    if (v.bind Value.text?).isSome || (w.bind Value.text?).isSome then
      some (.text (displayOrUndefined v ++ displayOrUndefined w))
    else some (.number (numeric v + numeric w))
  | .sub => arithmetic (· - ·)
  | .mul => arithmetic (· * ·)
  | .div => arithmetic (· / ·)
  | .rem => arithmetic Number.remainder

def UnaryOp.apply (op : UnaryOp) (v : Option (Value String)) : Option (Value String) :=
  match op with
  | .not => some (.bool (!holds v))
  | .neg => some (.number (-numeric v))

/-- What an expression denotes: the whole context, its hashtags, or a value. -/
inductive Denotation where
  | context
  | tags
  | value (v : Option (Value String))

namespace Denotation

def toValue (view : View) : Denotation → Option (Value String)
  | context => none
  | tags => view.lookup? tagsKey
  | value v => v

def ofName (view : View) (name : String) : Denotation :=
  if name = "ctx" then context else if name = tagsKey then tags else value (view.lookup? name)

/-- A member under a key; an unknown hashtag is false, not undefined. -/
def access (view : View) : Denotation → Option (Value String) → Denotation
  | _, none => value none
  | context, some (.text name) => if name = tagsKey then tags else value (view.lookup? name)
  | context, some _ => value none
  | tags, some (.text name) => value (some (.bool (view.hasTag name)))
  | tags, some _ => value (some (.bool false))
  | value v, some key => value (v.bind fun v => v.member? key)

end Denotation

namespace Expr

def denote (view : View) : Expr → Denotation
  | .constant v => .value v
  | .name s => .ofName view s
  | .unary op e => .value (op.apply ((denote view e).toValue view))
  | .binary op a b =>
    .value (op.apply ((denote view a).toValue view) ((denote view b).toValue view))
  | .access e key => (denote view e).access view ((denote view key).toValue view)
  | .choice c yes no =>
    if holds ((denote view c).toValue view) then denote view yes else denote view no

def eval (view : View) (e : Expr) : Option (Value String) := (e.denote view).toValue view

end Expr

/-- The value of a piece of code; code that cannot be read is undefined. -/
def evaluate (view : View) (code : String) : Option (Value String) :=
  (parse? code).bind (Expr.eval view)

end Lambda

end GlyphScript
