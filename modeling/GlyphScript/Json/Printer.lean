import GlyphScript.Json.Basic
import GlyphScript.Number.Text

/-! # Writing JSON text

`Json.compact` writes a tree without white space and `Json.pretty` with two blanks of indentation
per level.
-/

namespace GlyphScript.Json

namespace Printer

def hex4 (n : Nat) : List Char :=
  let digits := Nat.toDigits 16 n
  List.replicate (4 - digits.length) '0' ++ digits

/-- Only quotes, backslashes and control characters are escaped. -/
def escape (c : Char) : List Char :=
  if c == '"' then ['\\', '"']
  else if c == '\\' then ['\\', '\\']
  else if c == '\n' then ['\\', 'n']
  else if c == '\r' then ['\\', 'r']
  else if c == '\t' then ['\\', 't']
  else if c == '\x08' then ['\\', 'b']
  else if c == '\x0c' then ['\\', 'f']
  else if c.toNat < 0x20 then '\\' :: 'u' :: hex4 c.toNat
  else [c]

def quote (s : String) : String := "\"" ++ String.ofList (s.toList.flatMap escape) ++ "\""

/-- A line break followed by the indentation of a level. -/
def newline (level : Nat) : String := "\n" ++ "".pushn ' ' (2 * level)

mutual

def compactValue : Json → String
  | .null => "null"
  | .bool b => if b then "true" else "false"
  | .int n => toString n
  | .float x => Number.jsonText x
  | .str s => quote s
  | .arr items => "[" ++ compactItems items ++ "]"
  | .obj fields => "\x7b" ++ compactFields fields ++ "\x7d"

def compactItems : List Json → String
  | [] => ""
  | [item] => compactValue item
  | item :: items => compactValue item ++ "," ++ compactItems items

def compactFields : List (String × Json) → String
  | [] => ""
  | [(key, value)] => quote key ++ ":" ++ compactValue value
  | (key, value) :: fields => quote key ++ ":" ++ compactValue value ++ "," ++ compactFields fields

end

mutual

def prettyValue (level : Nat) : Json → String
  | .null => "null"
  | .bool b => if b then "true" else "false"
  | .int n => toString n
  | .float x => Number.jsonText x
  | .str s => quote s
  | .arr [] => "[]"
  | .arr items => "[" ++ prettyItems (level + 1) items ++ newline level ++ "]"
  | .obj [] => "\x7b\x7d"
  | .obj fields => "\x7b" ++ prettyFields (level + 1) fields ++ newline level ++ "\x7d"

def prettyItems (level : Nat) : List Json → String
  | [] => ""
  | [item] => newline level ++ prettyValue level item
  | item :: items => newline level ++ prettyValue level item ++ "," ++ prettyItems level items

def prettyFields (level : Nat) : List (String × Json) → String
  | [] => ""
  | [(key, value)] => newline level ++ quote key ++ ": " ++ prettyValue level value
  | (key, value) :: fields =>
    newline level ++ quote key ++ ": " ++ prettyValue level value ++ "," ++
      prettyFields level fields

end

end Printer

def compact (j : Json) : String := Printer.compactValue j

def pretty (j : Json) : String := Printer.prettyValue 0 j

end GlyphScript.Json
