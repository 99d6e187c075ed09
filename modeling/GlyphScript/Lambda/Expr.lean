import GlyphScript.Value.Basic

/-! # Expressions -/

namespace GlyphScript.Lambda

inductive UnaryOp where
  | not
  | neg
  deriving DecidableEq, Repr

inductive BinaryOp where
  | or | nullish | and
  | strictEq | strictNe | eq | ne
  | le | ge | lt | gt
  | add | sub | mul | div | rem
  deriving DecidableEq, Repr

inductive Expr where
  /-- A literal; `none` is the undefined value. -/
  | constant (value : Option (Value String))
  | name (s : String)
  | unary (op : UnaryOp) (e : Expr)
  | binary (op : BinaryOp) (left right : Expr)
  /-- A member of a value, by name or by the value of an expression. -/
  | access (e key : Expr)
  | choice (condition yes no : Expr)

/-- How strongly an operator binds its operands. -/
def BinaryOp.power : BinaryOp → Nat
  | or | nullish => 1
  | and => 2
  | strictEq | strictNe | eq | ne => 3
  | le | ge | lt | gt => 4
  | add | sub => 5
  | mul | div | rem => 6

/-- Signs in front of an operand bind more strongly than operators between operands. -/
def UnaryOp.power (_ : UnaryOp) : Nat := 7

/-- Member access binds most strongly. -/
def accessPower : Nat := 8

/-- The parts of an expression without brackets, in the order written. -/
inductive Token where
  | unary (op : UnaryOp)
  | operand (e : Expr)
  | access (key : Expr)
  | binary (op : BinaryOp)

namespace Token

mutual

/-- The longest expression at the front whose operators bind more strongly than `floor`. -/
def climb? : Nat → Nat → List Token → Option (Expr × List Token)
  | 0, _, _ => none
  | fuel + 1, floor, tokens =>
    match tokens with
    | .unary op :: rest =>
      match climb? fuel (op.power - 1) rest with
      | some (e, rest) => extend? fuel floor (.unary op e) rest
      | none => none
    | .operand e :: rest => extend? fuel floor e rest
    | _ => none

/-- Extends an expression to the right. -/
def extend? : Nat → Nat → Expr → List Token → Option (Expr × List Token)
  | 0, _, _, _ => none
  | fuel + 1, floor, left, tokens =>
    match tokens with
    | .access key :: rest =>
      if floor < accessPower then extend? fuel floor (.access left key) rest
      else some (left, tokens)
    | .binary op :: rest =>
      if floor < op.power then
        match climb? fuel op.power rest with
        | some (right, rest) => extend? fuel floor (.binary op left right) rest
        | none => none
      else some (left, tokens)
    | _ => some (left, tokens)

end

/-- The expression that a sequence of tokens stands for. Every two nested calls consume a token. -/
def toExpr? (tokens : List Token) : Option Expr :=
  match climb? (2 * tokens.length + 2) 0 tokens with
  | some (e, []) => some e
  | _ => none

end Token

end GlyphScript.Lambda
