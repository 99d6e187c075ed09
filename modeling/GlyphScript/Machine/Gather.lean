import GlyphScript.Machine.State

/-! # Gathering

When a trigger is entered, or another instruction is visited, what the instructions within reach
describe is copied to the base frame, so that expressions see it before it runs. Within reach are
the body, and what references point at, with its body; a link reaches all its tags.
-/

namespace GlyphScript

/-- The machine with the addresses already reached. -/
structure Gathering where
  machine : Machine
  visited : List Nat := []

namespace Gathering

/-- The addresses of an instruction and its body, none if there is no such instruction. -/
def subtree (program : Program) (target : Address) : List Nat :=
  match program.fetch? target with
  | some instr => List.range' target.toNat (instr.stop target.toNat - target.toNat)
  | none => []

/-- The addresses that an instruction pulls in through its tags. -/
def pulls (program : Program) (instr : Instruction String) : List Nat :=
  (instr.tags.filter fun tag => instr.op = .link || tag.isReference).flatMap fun tag =>
    subtree program tag.address

/-- Copies what an instruction describes to a frame, with its hashtags. -/
def describe (id : String) (object : Entries (Value String)) (tags : List (Tag String))
    (frame : Frame) : Frame :=
  (frame.insert id (.map object)).addTags
    ((tags.filter Tag.isHashtag).map fun tag => plainName tag.root)

/-- Gathers one instruction and gives the addresses that it pulls in. Without a base frame nothing
is pulled in by an instruction that describes something. -/
def one (m : Machine) (here : Located) : Machine × List Nat :=
  let pulled := pulls m.program here.instr
  match here.instr.op.isContextual, here.instr.id with
  | true, some id =>
    if m.base?.isSome then
      (m.modifyBase (describe id (m.description here) here.instr.tags), pulled)
    else (m, [])
  | _, _ => (m, pulled)

/-- Goes through pending addresses up to the first new instruction, which is gathered before the
rest. -/
def scan (resume : List Nat → Gathering → Gathering) : List Nat → Gathering → Gathering
  | [], s => s
  | address :: rest, s =>
    if address ∈ s.visited then scan resume rest s
    else
      match s.machine.decode address with
      | .error _ => scan resume rest { s with visited := address :: s.visited }
      | .ok here =>
        let (machine, pulled) := one s.machine here
        resume (pulled ++ rest) { machine, visited := address :: s.visited }

/-- Gathers at most the given number of instructions. -/
def upTo : Nat → List Nat → Gathering → Gathering
  | 0 => fun _ s => s
  | n + 1 => scan (upTo n)

/-- Gathers all pending addresses and what they pull in. Each instruction is gathered once. -/
def all (pending : List Nat) (s : Gathering) : Gathering :=
  upTo (s.machine.program.size + 1) pending s

end Gathering

namespace Machine

/-- Gathers addresses, starting afresh. -/
def gather (m : Machine) (pending : List Nat) : Machine :=
  (Gathering.all pending { machine := m }).machine

end Machine

end GlyphScript
