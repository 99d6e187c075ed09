import GlyphScript.Peg.Match

/-! # The grammar of expressions -/

namespace GlyphScript.Lambda

open Peg

inductive Rule where
  | finish | program | returnWord | ternary | binary | operand | infixOp
  | or | nullish | and | strictEq | strictNe | eq | ne | le | ge | lt | gt
  | add | sub | mul | div | rem
  | prefixOp | not | neg | postfixOp | member | index | primary | number | boolean | null
  | undefined | ident | identChar | string | doubleInner | singleInner
  deriving DecidableEq, Repr

namespace Rule

def style : Rule → Style
  | operand | infixOp | prefixOp | postfixOp | primary | identChar => .silent
  | returnWord | number | boolean | null | undefined | ident | doubleInner | singleInner => .atomic
  | string => .compound
  | _ => .plain

end Rule

def isIdentStart (c : Char) : Bool := c.isAlpha || c == '_' || c == '$'

def isIdentChar (c : Char) : Bool := c.isAlphanum || c == '_' || c == '$'

def isSpace (c : Char) : Bool := c == ' ' || c == '\t' || c == '\r' || c == '\n'

def skip (c : Cursor) : Cursor := Cursor.skipWhile isSpace c.position c.rest

section

open Expr

private def numerals : Expr Rule := some1 (char Char.isDigit)

private def quotedBy (mark : Char) : Expr Rule :=
  many (char (fun c => !(c == mark || c == '\\')) <|> lit "\\" ++ char fun _ => true)

/-- A word that is not the start of a longer one. -/
private def wholeWord (s : String) : Expr Rule := lit s ++ absent (rule .identChar)

def Rule.expr : Rule → Expr Rule
  | finish => Expr.finish
  | program => start ++ opt (rule returnWord) ++ rule ternary ++ opt (lit ";") ++ rule finish
  | returnWord => wholeWord "return"
  | ternary => rule binary ++ opt (lit "?" ++ rule ternary ++ lit ":" ++ rule ternary)
  | binary => rule operand ++ many (rule infixOp ++ rule operand)
  | operand => many (rule prefixOp) ++ rule primary ++ many (rule postfixOp)
  | infixOp =>
    rule or <|> rule nullish <|> rule and <|> rule strictEq <|> rule strictNe <|> rule eq
      <|> rule ne <|> rule le <|> rule ge <|> rule lt <|> rule gt <|> rule add <|> rule sub
      <|> rule mul <|> rule div <|> rule rem
  | or => lit "||"
  | nullish => lit "??"
  | and => lit "&&"
  | strictEq => lit "==="
  | strictNe => lit "!=="
  | eq => lit "=="
  | ne => lit "!="
  | le => lit "<="
  | ge => lit ">="
  | lt => lit "<"
  | gt => lit ">"
  | add => lit "+"
  | sub => lit "-"
  | mul => lit "*"
  | div => lit "/"
  | rem => lit "%"
  | prefixOp => rule not <|> rule neg
  | not => lit "!"
  | neg => lit "-"
  | postfixOp => rule member <|> rule index
  | member => lit "." ++ rule ident
  | index => lit "[" ++ rule ternary ++ lit "]"
  | primary =>
    rule number <|> rule string <|> rule boolean <|> rule null <|> rule undefined <|> rule ident
      <|> lit "(" ++ rule ternary ++ lit ")"
  | number => numerals ++ opt (lit "." ++ numerals)
  | boolean => (lit "true" <|> lit "false") ++ absent (rule identChar)
  | null => wholeWord "null"
  | undefined => wholeWord "undefined"
  | ident => char isIdentStart ++ many (rule identChar)
  | identChar => char isIdentChar
  | string => lit "\"" ++ rule doubleInner ++ lit "\"" <|> lit "'" ++ rule singleInner ++ lit "'"
  | doubleInner => quotedBy '"'
  | singleInner => quotedBy '\x27'

end

def grammar : Grammar Rule where
  body := Rule.expr
  style := Rule.style
  skip := skip

end GlyphScript.Lambda
