import GlyphScript.Peg.Match
import GlyphScript.Text.Blank

/-! # The grammar of scripts -/

namespace GlyphScript.Script

open Peg

inductive Rule where
  | finish | file | node | trigger | origin | arrow | element | body | glyph | args | arg | pair
  | key | value | list | map | boolean | null | number | word | ident | identChar | string | inner
  | lambda | lambdaCode | lambdaPart | tagList | tag | hashtag | reference | bareTag | tagPath
  | segment | nested | name | bareName
  deriving DecidableEq, Repr

namespace Rule

/-- All rules in the order in which they are reported. -/
def all : List Rule :=
  [finish, file, node, trigger, origin, arrow, element, body, glyph, args, arg, pair, key, value,
    list, map, boolean, null, number, word, ident, identChar, string, inner, lambda, lambdaCode,
    lambdaPart, tagList, tag, hashtag, reference, bareTag, tagPath, segment, nested, name,
    bareName]

/-- How a rule is called in messages. -/
def label : Rule → String
  | finish => "EOI"
  | file => "file"
  | node => "node"
  | trigger => "trigger"
  | origin => "origin"
  | arrow => "arrow"
  | element => "element"
  | body => "body"
  | glyph => "glyph"
  | args => "args"
  | arg => "arg"
  | pair => "pair"
  | key => "key"
  | value => "value"
  | list => "list"
  | map => "map"
  | boolean => "boolean"
  | null => "null"
  | number => "number"
  | word => "word"
  | ident => "ident"
  | identChar => "ident_char"
  | string => "string"
  | inner => "inner"
  | lambda => "lambda"
  | lambdaCode => "lambda_code"
  | lambdaPart => "lambda_part"
  | tagList => "tag_list"
  | tag => "tag"
  | hashtag => "hashtag"
  | reference => "reference"
  | bareTag => "bare_tag"
  | tagPath => "tag_path"
  | segment => "segment"
  | nested => "nested"
  | name => "name"
  | bareName => "bare_name"

def style : Rule → Style
  | glyph | boolean | null | number | word | ident | inner | lambdaCode | bareName => .atomic
  | string | lambda | hashtag | reference | bareTag | tagPath | segment | nested | name => .compound
  | identChar | lambdaPart => .silent
  | _ => .plain

end Rule

/-! ## Characters -/

def isAscii (c : Char) : Bool := c.toNat < 128

/-- Characters of glyphs: neither ASCII nor blank, and not one of the three reserved signs. -/
def isGlyphChar (c : Char) : Bool :=
  !(isAscii c || Text.isBlank c || c == '➔' || c == '🔑' || c == 'λ')

def isIdentStart (c : Char) : Bool := c.isAlpha || c == '_'

def isIdentChar (c : Char) : Bool := c.isAlphanum || c == '_' || c == '-'

/-- Characters that end a bare name. -/
def isNameEnd (c : Char) : Bool :=
  Text.isBlank c || [',', '[', ']', '(', ')', '\x7b', '\x7d', ';', '"', '#', '@'].contains c

/-! ## Blanks and comments -/

def isSpace (c : Char) : Bool := c == ' ' || c == '\t' || c == '\r' || c == '\n'

mutual

/-- Steps over blanks and comments. -/
def skipFrom : Nat → List Char → Cursor
  | p, '/' :: '/' :: cs => skipLine (p + 2) cs
  | p, '/' :: '*' :: cs => (skipBlock (p + 2) cs).getD ⟨p, '/' :: '*' :: cs⟩
  | p, c :: cs => if isSpace c then skipFrom (p + 1) cs else ⟨p, c :: cs⟩
  | p, [] => ⟨p, []⟩

/-- A comment up to the end of the line. -/
def skipLine : Nat → List Char → Cursor
  | p, c :: cs => if c == '\n' || c == '\r' then skipFrom (p + 1) cs else skipLine (p + 1) cs
  | p, [] => ⟨p, []⟩

/-- A comment up to its closing mark. Without one it is no comment. -/
def skipBlock : Nat → List Char → Option Cursor
  | p, '*' :: '/' :: cs => some (skipFrom (p + 2) cs)
  | p, _ :: cs => skipBlock (p + 1) cs
  | _, [] => none

end

def skip (c : Cursor) : Cursor := skipFrom c.position c.rest

/-! ## Rules -/

section

open Expr

private def digits : Expr Rule := some1 (char Char.isDigit)

private def anything : Expr Rule := char fun _ => true

/-- Items between commas; a last comma may stand alone. -/
private def commas (item : Expr Rule) : Expr Rule :=
  opt (item ++ many (lit "," ++ item) ++ opt (lit ","))

/-- Text between marks in which a backslash keeps the next character. -/
private def escaped (mark : Char) : Expr Rule :=
  many (char (fun c => !(c == mark || c == '\\')) <|> lit "\\" ++ anything)

def Rule.expr : Rule → Expr Rule
  | finish => Expr.finish
  | file => start ++ many (rule node <|> lit ";") ++ rule finish
  | node => rule trigger <|> rule element
  | trigger => opt (rule origin) ++ rule arrow ++ opt (rule tagList) ++ rule element
  | origin => rule glyph ++ opt (rule args)
  | arrow => lit "➔" <|> lit "->"
  | element => rule glyph ++ opt (rule args) ++ opt (rule tagList) ++ opt (rule body)
  | body => lit "\x7b" ++ many (rule node <|> lit ";") ++ lit "\x7d"
  | glyph => some1 (char isGlyphChar)
  | args => lit "(" ++ commas (rule arg) ++ lit ")"
  | arg => rule pair <|> rule value
  | pair => rule key ++ lit ":" ++ rule value
  | key => rule string <|> rule ident
  | value =>
    rule lambda <|> rule string <|> rule number <|> rule boolean <|> rule null <|> rule list <|>
      rule map <|> rule word
  | list => lit "[" ++ commas (rule value) ++ lit "]"
  | map => lit "\x7b" ++ commas (rule pair) ++ lit "\x7d"
  | boolean => (lit "true" <|> lit "false") ++ absent (rule identChar)
  | null => lit "null" ++ absent (rule identChar)
  | number =>
    opt (lit "-") ++ digits ++ opt (lit "." ++ digits)
      ++ opt (char (fun c => c == 'e' || c == 'E') ++ opt (lit "+" <|> lit "-") ++ digits)
  | word => rule ident
  | ident => char isIdentStart ++ many (rule identChar)
  | identChar => char isIdentChar
  | string => lit "\"" ++ rule inner ++ lit "\""
  | inner => escaped '"'
  | lambda => lit "λ" ++ lit "(" ++ rule lambdaCode ++ lit ")"
  | lambdaCode => many (rule lambdaPart)
  | lambdaPart =>
    lit "(" ++ many (rule lambdaPart) ++ lit ")"
      <|> lit "\"" ++ many (char (fun c => !(c == '"'))) ++ lit "\""
      <|> char fun c => !(c == '(' || c == ')')
  | tagList => opt (lit "🔑") ++ lit "[" ++ commas (rule tag) ++ lit "]"
  | tag => rule hashtag <|> rule reference <|> rule bareTag
  | hashtag => lit "#" ++ rule tagPath
  | reference => lit "@" ++ rule tagPath
  | bareTag => rule tagPath
  | tagPath => rule segment ++ many (lit "::" ++ rule segment)
  | segment => rule nested <|> rule name
  | nested => lit "#" ++ rule name
  | name => rule string <|> rule bareName
  | bareName => some1 (absent (lit "::") ++ char (fun c => !isNameEnd c))

end

def grammar : Grammar Rule where
  body := Rule.expr
  style := Rule.style
  skip := skip

end GlyphScript.Script
