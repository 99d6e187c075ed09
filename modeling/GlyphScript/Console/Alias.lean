/-! # Aliases

In the console a glyph can be written as a colon and a word.
-/

namespace GlyphScript.Console

/-- The aliases in the order of their names. -/
def aliases : List (String × String) :=
  [(":action", "🚀"), (":alliance", "🤝"), (":anchor", "⚓"), (":asset", "🔓"), (":authority", "🔱"),
    (":collection", "📦"), (":concept", "🧠"), (":conflict", "⚔️"), (":content", "📂"),
    (":entity", "👤"),
    (":fragment", "📑"), (":function", "💉"), (":intent", "🎭"), (":link", "🔗"), (":logic", "🧬"),
    (":shield", "🛡️"), (":signal", "📡"), (":speech", "💬"), (":stance", "🧩"), (":state", "📌"),
    (":tag", "🔑"), (":time", "⌛"), (":trigger", "➔"), (":utility", "🩺")]

/-- The glyph of a word, or the word itself. -/
def replacement (word : List Char) : List Char :=
  match aliases.lookup (String.ofList (':' :: word)) with
  | some glyph => glyph.toList
  | none => ':' :: word

mutual

/-- Replaces the aliases in a text. -/
def expandFrom : List Char → List Char
  | [] => []
  | ':' :: cs => expandWord [] cs
  | c :: cs => c :: expandFrom cs

/-- Replaces the word after a colon, of which some letters are already read, the last one first. -/
def expandWord (read : List Char) : List Char → List Char
  | [] => replacement read.reverse
  | c :: cs =>
    if c.isAlpha then expandWord (c :: read) cs
    else if c == ':' then replacement read.reverse ++ expandWord [] cs
    else replacement read.reverse ++ c :: expandFrom cs

end

def expand (text : String) : String := String.ofList (expandFrom text.toList)

end GlyphScript.Console
