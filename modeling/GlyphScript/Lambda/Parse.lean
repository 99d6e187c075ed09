import GlyphScript.Lambda.Expr
import GlyphScript.Lambda.Grammar

/-! # Reading expressions -/

namespace GlyphScript.Lambda

open Peg

/-- The meaning of backslashes: line feed, tabulator, or the next character itself. -/
def unescape : List Char → List Char
  | '\\' :: c :: cs => (if c == 'n' then '\n' else if c == 't' then '\t' else c) :: unescape cs
  | c :: cs => c :: unescape cs
  | [] => []

namespace Rule

def binaryOp? : Rule → Option BinaryOp
  | or => some .or
  | nullish => some .nullish
  | and => some .and
  | strictEq => some .strictEq
  | strictNe => some .strictNe
  | eq => some .eq
  | ne => some .ne
  | le => some .le
  | ge => some .ge
  | lt => some .lt
  | gt => some .gt
  | add => some .add
  | sub => some .sub
  | mul => some .mul
  | div => some .div
  | rem => some .rem
  | _ => none

def unaryOp? : Rule → Option UnaryOp
  | not => some .not
  | neg => some .neg
  | _ => none

end Rule

namespace Build

/-- Literals and names. -/
def atom? : ParseTree Rule → Option Expr
  | .node .number cs _ => (Number.read? cs).map fun x => .constant (some (.number x))
  | .node .string _ [.node _ cs _] => some (.constant (some (.text (String.ofList (unescape cs)))))
  | .node .boolean cs _ => some (.constant (some (.bool (cs == "true".toList))))
  | .node .null _ _ => some (.constant (some .null))
  | .node .undefined _ _ => some (.constant none)
  | .node .ident cs _ => some (.name (String.ofList cs))
  | _ => none

mutual

def ternary? : ParseTree Rule → Option Expr
  | .node .ternary _ [b] => binary? b
  | .node .ternary _ [b, yes, no] => do
    let condition ← binary? b
    let yes ← ternary? yes
    let no ← ternary? no
    return .choice condition yes no
  | _ => none

def binary? : ParseTree Rule → Option Expr
  | .node .binary _ ts => do
    let tokens ← tokens? ts
    Token.toExpr? tokens
  | _ => none

def tokens? : List (ParseTree Rule) → Option (List Token)
  | [] => some []
  | t :: ts => do
    let token ← token? t
    let tokens ← tokens? ts
    return token :: tokens

def token? : ParseTree Rule → Option Token
  | .node .member _ [.node .ident cs _] =>
    some (.access (.constant (some (.text (String.ofList cs)))))
  | .node .index _ [t] => (ternary? t).map .access
  | .node .ternary cs ts => (ternary? (.node .ternary cs ts)).map .operand
  | .node r cs ts =>
    match r.binaryOp?, r.unaryOp? with
    | some op, _ => some (.binary op)
    | none, some op => some (.unary op)
    | none, none => (atom? (.node r cs ts)).map .operand

end

/-- The expression of a program; the word in front and the mark behind it mean nothing. -/
def program? : List (ParseTree Rule) → Option Expr
  | [.node .program _ ts] => (ts.find? fun t => t.rule == .ternary).bind ternary?
  | _ => none

end Build

def parse? (code : String) : Option Expr :=
  match grammar.parse .program code.toList with
  | .ok trees => Build.program? trees
  | .error _ => none

end GlyphScript.Lambda
