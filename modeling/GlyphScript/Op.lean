/-! # Operations

Every node of a script starts with a glyph that says what it does. A context glyph describes
something by its parameters, five glyphs steer the run and speak, and all others are kept for
handlers that ask for them.
-/

namespace GlyphScript

/-- What a context glyph describes. -/
inductive Context where
  | fragment | concept | entity | collection | content | logic | asset | state | stance
  | time | shield | utility | function | action | intent | authority | alliance | conflict
  deriving DecidableEq, Repr

inductive Op where
  | context (kind : Context)
  /-- Opens a scope and runs its body once per tag. -/
  | trigger
  /-- Runs its body if a condition holds. -/
  | anchor
  | link
  | speech
  | signal
  | unknown (glyph : String)
  deriving DecidableEq, Repr

namespace Context

def glyph : Context → String
  | fragment => "📑"
  | concept => "🧠"
  | entity => "👤"
  | collection => "📦"
  | content => "📂"
  | logic => "🧬"
  | asset => "🔓"
  | state => "📌"
  | stance => "🧩"
  | time => "⌛"
  | shield => "🛡️"
  | utility => "🩺"
  | function => "💉"
  | action => "🚀"
  | intent => "🎭"
  | authority => "🔱"
  | alliance => "🤝"
  | conflict => "⚔️"

end Context

namespace Op

/-- The glyph that an operation is written with. -/
def glyph : Op → String
  | context kind => kind.glyph
  | trigger => "➔"
  | anchor => "⚓"
  | link => "🔗"
  | speech => "💬"
  | signal => "📡"
  | unknown glyph => glyph

/-- All spellings of the known operations; a few have a second one. -/
def spellings : List (String × Op) :=
  [("📑", context .fragment), ("🧠", context .concept), ("👤", context .entity),
    ("📦", context .collection), ("📂", context .content), ("🧬", context .logic),
    ("🔓", context .asset), ("📌", context .state), ("🧩", context .stance),
    ("⌛", context .time), ("⏳", context .time), ("🛡️", context .shield), ("🛡", context .shield),
    ("🩺", context .utility), ("💉", context .function), ("🚀", context .action),
    ("🎭", context .intent), ("🔱", context .authority), ("🤝", context .alliance),
    ("⚔️", context .conflict), ("⚔", context .conflict), ("➔", trigger), ("->", trigger),
    ("⚓", anchor), ("⚓️", anchor), ("🔗", link), ("💬", speech), ("📡", signal)]

def ofGlyph (glyph : String) : Op := (spellings.lookup glyph).getD (unknown glyph)

def isContextual : Op → Bool
  | context _ => true
  | _ => false

/-- Operations with two successors. -/
def isBranching (op : Op) : Bool := op = trigger || op = anchor

def isUnknown : Op → Bool
  | unknown _ => true
  | _ => false

end Op

end GlyphScript
