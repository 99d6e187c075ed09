/-! # Parsing expression grammars

Grammars as data: named rules over expressions with ordered choice, greedy repetition and negative
lookahead. Between the parts of a sequence or a repetition blanks are skipped, unless a rule around
them forbids it.
-/

namespace GlyphScript.Peg

inductive Expr (R : Type) where
  /-- One character of a class. -/
  | char (accepts : Char → Bool)
  | text (cs : List Char)
  /-- The start of the input. -/
  | start
  /-- The end of the input. -/
  | finish
  | rule (r : R)
  | seq (first second : Expr R)
  | alt (first second : Expr R)
  | opt (e : Expr R)
  | many (e : Expr R)
  /-- Succeeds without consuming anything if the expression does not match. -/
  | absent (e : Expr R)

namespace Expr

variable {R : Type}

instance : Append (Expr R) := ⟨seq⟩

instance : OrElse (Expr R) := ⟨fun a b => alt a (b ())⟩

def lit (s : String) : Expr R := text s.toList

def some1 (e : Expr R) : Expr R := e ++ many e

end Expr

/-- How a rule treats blanks and whether it shows up in the tree. -/
inductive Style where
  | plain
  /-- Leaves no node in the tree and is never reported. -/
  | silent
  /-- Skips no blanks; the rules inside leave no nodes and are not reported. -/
  | atomic
  /-- Skips no blanks. -/
  | compound
  deriving DecidableEq, Repr

/-- A place in the input with what follows it. -/
structure Cursor where
  position : Nat
  rest : List Char
  deriving DecidableEq, Repr

namespace Cursor

def ofText (cs : List Char) : Cursor := ⟨0, cs⟩

/-- The characters between two places. -/
def between (c d : Cursor) : List Char := c.rest.take (d.position - c.position)

/-- Steps over a text. -/
def after? : List Char → Cursor → Option Cursor
  | [], c => some c
  | x :: xs, ⟨position, y :: ys⟩ => if x = y then after? xs ⟨position + 1, ys⟩ else none
  | _ :: _, ⟨_, []⟩ => none

/-- Steps over the characters of a class. -/
def skipWhile (p : Char → Bool) : Nat → List Char → Cursor
  | position, c :: cs => if p c then skipWhile p (position + 1) cs else ⟨position, c :: cs⟩
  | position, [] => ⟨position, []⟩

end Cursor

structure Grammar (R : Type) where
  body : R → Expr R
  style : R → Style
  /-- Steps over blanks. -/
  skip : Cursor → Cursor

/-- A matched rule with its text and the rules matched inside it. -/
inductive ParseTree (R : Type) where
  | node (rule : R) (text : List Char) (children : List (ParseTree R))

namespace ParseTree

variable {R : Type}

def rule : ParseTree R → R
  | node r _ _ => r

def text : ParseTree R → List Char
  | node _ cs _ => cs

def children : ParseTree R → List (ParseTree R)
  | node _ _ ts => ts

end ParseTree

end GlyphScript.Peg
