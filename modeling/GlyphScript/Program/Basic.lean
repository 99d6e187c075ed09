import GlyphScript.Op
import GlyphScript.Tag.Basic
import GlyphScript.Value.Basic

/-! # Programs

A program holds one instruction per address, in ascending order, and the tables made for it. Texts
in its parameters and tags are places in the table of texts.
-/

namespace GlyphScript

/-- The address of an instruction; a negative one is nowhere. -/
abbrev Address := Int

def nowhere : Address := -1

structure Instruction (S : Type) where
  id : Option String := none
  op : Op
  timestamp : Nat := 0
  params : Params S := []
  tags : List (Tag S) := []
  /-- Where to go on: one successor, or two for operations that branch. -/
  next : List Address
  /-- One past the last address of the body, for instructions that have one. -/
  bodyEnd : Option Address := none

namespace Instruction

variable {S T : Type}

/-- Replaces the texts of the parameters and then of the tags. -/
def mapTextM {m : Type → Type} [Monad m] (f : S → m T) (instr : Instruction S) :
    m (Instruction T) := do
  let params ← Value.mapEntriesM f instr.params
  let tags ← Tag.mapTagsM f instr.tags
  return { instr with params, tags }

/-- One past the last address that belongs to the instruction at an address. -/
def stop (instr : Instruction S) (address : Nat) : Nat :=
  match instr.bodyEnd with
  | some stop => if (address : Int) < stop then stop.toNat else address + 1
  | none => address + 1

/-- The addresses of the body. -/
def bodyAddresses (instr : Instruction S) (address : Nat) : List Nat :=
  List.range' (address + 1) (instr.stop address - (address + 1))

theorem lt_stop (instr : Instruction S) (address : Nat) : address < instr.stop address := by
  unfold stop
  split
  · split
    · omega
    · omega
  · omega

theorem mem_bodyAddresses {instr : Instruction S} {address b : Nat} :
    b ∈ instr.bodyAddresses address ↔ address < b ∧ b < instr.stop address := by
  have hlt := instr.lt_stop address
  rw [bodyAddresses, List.mem_range'_1]
  omega

/-- The first successor. -/
def first (instr : Instruction S) : Address := instr.next.getD 0 nowhere

/-- The second successor. -/
def second (instr : Instruction S) : Address := instr.next.getD 1 nowhere

def param? (instr : Instruction String) (key : String) : Option (Value String) :=
  instr.params.get? key

def textParam? (instr : Instruction String) (key : String) : Option String :=
  (instr.param? key).bind Value.text?

def same [BEq S] (a b : Instruction S) : Bool :=
  a.id == b.id && a.op == b.op && a.timestamp == b.timestamp &&
    Value.same (.map a.params) (.map b.params)
    && a.tags.length == b.tags.length && (a.tags.zip b.tags).all (fun (s, t) => s.same t)
    && a.next == b.next && a.bodyEnd == b.bodyEnd

end Instruction

structure Program where
  entry : Nat
  symbols : Entries Nat
  text : List String
  code : List (Nat × Instruction TextId)

namespace Program

def size (program : Program) : Nat := program.code.length

def isEmpty (program : Program) : Bool := program.code.isEmpty

def fetch? (program : Program) (address : Address) : Option (Instruction TextId) :=
  if address < 0 then none else program.code.lookup address.toNat

def isAddress (program : Program) (address : Address) : Bool := (program.fetch? address).isSome

/-- Why an instruction cannot be decoded. -/
inductive DecodeError where
  | noInstruction
  | danglingText
  deriving DecidableEq, Repr

/-- The instruction at an address with its texts put back. -/
def decode (program : Program) (address : Address) : Except DecodeError (Instruction String) :=
  match program.fetch? address with
  | none => .error .noInstruction
  | some instr =>
    match instr.mapTextM fun i => program.text[i]? with
    | some decoded => .ok decoded
    | none => .error .danglingText

/-- Whether two programs are the same; the order of symbols does not matter. -/
def same (a b : Program) : Bool :=
  a.entry == b.entry && a.symbols.length == b.symbols.length
    && a.symbols.all (fun (name, address) => b.symbols.get? name == some address)
    && a.text == b.text && a.code.length == b.code.length
    && (a.code.zip b.code).all fun ((i, x), (j, y)) => i == j && x.same y

end Program

end GlyphScript
