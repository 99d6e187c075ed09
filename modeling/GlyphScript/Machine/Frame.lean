import GlyphScript.Program.Basic
import GlyphScript.Value.Json

/-! # Frames

A frame holds named values, the hashtags seen so far under the key `Tags`, and the records of what
was said and signalled. A frame opened by a trigger also holds the scope of the trigger.
-/

namespace GlyphScript

/-- How often a body has run and is to run, and where it starts and goes on. -/
structure Cycle where
  count : Nat := 0
  maxim : Nat := 1
  start : Address
  ret : Address
  deriving DecidableEq, Repr

/-- A visit to another instruction, after which control comes back. -/
structure Detour where
  target : Address
  resume : Address
  deriving DecidableEq, Repr

/-- A trigger that is running. -/
structure Scope where
  name : String
  /-- The address of the trigger. -/
  address : Nat
  /-- The frame of the scope around this one, or the root frame. -/
  parent : Nat
  /-- Whether the body has opened a frame in this cycle. -/
  isExecuting : Bool := false
  cycle : Cycle
  /-- For each instruction that visits its tags, the number of tags done. -/
  cursors : List (Nat × Nat) := []
  detour : Option Detour := none
  deriving DecidableEq, Repr

namespace Scope

def ofTrigger (address : Nat) (label : Option String) (parent : Nat) (cycle : Cycle) : Scope :=
  { name := "__trigger@" ++ toString address ++ ":" ++ label.getD "anon", address, parent, cycle }

def cursor (scope : Scope) (address : Nat) : Nat := (scope.cursors.lookup address).getD 0

def setCursor (scope : Scope) (address : Nat) (n : Nat) : Scope :=
  { scope with cursors := (address, n) :: scope.cursors.filter fun entry => entry.1 ≠ address }

/-- Starts the next cycle. -/
def renew (scope : Scope) : Scope :=
  { scope with
    cycle := { scope.cycle with count := scope.cycle.count + 1 }
    isExecuting := false
    cursors := []
    detour := none }

/-- Leaves for a target, and remembers where to come back to and how many tags are done there. -/
def depart (scope : Scope) (resume : Nat) (done : Nat) (target : Address) : Scope :=
  { scope.setCursor resume done with detour := some { target, resume } }

end Scope

/-- Something said. -/
structure Utterance where
  timestamp : Nat
  target : Value String
  message : Value String
  channel : Value String
  source : Nat
  address : Nat

/-- Something signalled. -/
structure Signal where
  timestamp : Nat
  name : Value String
  payload : Value String
  broadcast : Bool
  source : Nat
  address : Nat

structure Frame where
  data : Entries (Value String) := []
  scope : Option Scope := none
  utterances : List Utterance := []
  signals : List Signal := []

/-- The key of the hashtags in a frame. -/
def tagsKey : String := "Tags"

namespace Frame

def get? (frame : Frame) (key : String) : Option (Value String) := frame.data.get? key

def insert (frame : Frame) (key : String) (value : Value String) : Frame :=
  { frame with data := frame.data.insert key value }

/-- The hashtags of a frame; anything but a map counts as none. -/
def tags (frame : Frame) : Entries (Value String) := ((frame.get? tagsKey).bind Value.map?).getD []

def hasTag (frame : Frame) (name : String) : Bool :=
  match frame.tags.get? name with
  | some (.bool true) => true
  | _ => false

def addTag (frame : Frame) (name : String) : Frame :=
  frame.insert tagsKey (.map (frame.tags.insert name (.bool true)))

def addTags (frame : Frame) (names : List String) : Frame := names.foldl addTag frame

/-- Takes over one entry of another frame: hashtags are added, all else replaces what was there. -/
def mergeEntry (frame : Frame) (entry : String × Value String) : Frame :=
  match entry with
  | (key, .map entries) =>
    if key = tagsKey then frame.addTags (Entries.keys entries) else frame.insert key (.map entries)
  | (key, value) => frame.insert key value

/-- Takes over the entries and records of a frame, but not its scope. -/
def merge (frame child : Frame) : Frame :=
  let merged := child.data.foldl mergeEntry frame
  { merged with
    utterances := merged.utterances ++ child.utterances
    signals := merged.signals ++ child.signals }

end Frame

namespace Scope

def toJson (scope : Scope) : Json :=
  .sorted
    [("name", .str scope.name), ("parent", .int scope.parent),
      ("isExecuting", .bool scope.isExecuting),
      ("cycle", .arr [.int scope.cycle.count, .int scope.cycle.maxim]),
      ("retAddress", .int scope.cycle.ret)]

end Scope

namespace Utterance

def toJson (c : Utterance) : Json :=
  .sorted
    [("timestamp", .int c.timestamp), ("target", c.target.toPlainJson),
      ("message", c.message.toPlainJson),
      ("channel", c.channel.toPlainJson), ("source", .int c.source), ("address", .int c.address)]

end Utterance

namespace Signal

def toJson (s : Signal) : Json :=
  .sorted
    [("timestamp", .int s.timestamp), ("name", s.name.toPlainJson),
      ("payload", s.payload.toPlainJson),
      ("broadcast", .bool s.broadcast), ("source", .int s.source), ("address", .int s.address)]

end Signal

namespace Frame

/-- What a frame shows of itself; empty parts are left out. -/
def toJson (frame : Frame) : Json :=
  .sorted <|
    [("data", Json.sorted (Value.toPlainFields frame.data))]
      ++ (frame.scope.map fun scope => ("scope", scope.toJson)).toList
      ++ (if frame.utterances.isEmpty then []
        else [("communication", .arr (frame.utterances.map Utterance.toJson))])
      ++ (if frame.signals.isEmpty then []
        else [("signals", .arr (frame.signals.map Signal.toJson))])

end Frame

end GlyphScript
