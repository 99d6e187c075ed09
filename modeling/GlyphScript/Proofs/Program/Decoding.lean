import GlyphScript.Program.Basic

/-! # Decoded instructions

Putting texts back for their places keeps all of an instruction that is no text: its identifier,
operation, timestamp and successors, and the kinds and addresses of its tags.
-/

namespace GlyphScript

variable {S T : Type} {f : S → Option T}

theorem Tag.mapTextM_shape {tag : Tag S} {tag' : Tag T} (h : tag.mapTextM f = some tag') :
    tag'.kind = tag.kind ∧ tag'.address = tag.address := by
  obtain ⟨root, kind, segments, written, target, address⟩ := tag
  simp only [mapTextM, bind, Option.bind_eq_some_iff, pure, Option.some.injEq] at h
  obtain ⟨_, _, _, _, rfl⟩ := h
  exact ⟨rfl, rfl⟩

theorem Tag.mapTagsM_shape {tags : List (Tag S)} {tags' : List (Tag T)}
    (h : Tag.mapTagsM f tags = some tags') :
    tags'.map Tag.kind = tags.map Tag.kind ∧ tags'.map Tag.address = tags.map Tag.address := by
  induction tags generalizing tags' with
  | nil =>
    obtain rfl : [] = tags' := Option.some.inj h
    exact ⟨rfl, rfl⟩
  | cons tag tags ih =>
    simp only [mapTagsM, bind, Option.bind_eq_some_iff, pure, Option.some.injEq] at h
    obtain ⟨tag', ht, rest, hr, rfl⟩ := h
    obtain ⟨hk, ha⟩ := mapTextM_shape ht
    obtain ⟨hks, has⟩ := ih hr
    exact ⟨by simp [hk, hks], by simp [ha, has]⟩

namespace Instruction

structure SameShape (a : Instruction S) (b : Instruction T) : Prop where
  id : b.id = a.id
  op : b.op = a.op
  timestamp : b.timestamp = a.timestamp
  next : b.next = a.next
  bodyEnd : b.bodyEnd = a.bodyEnd
  kinds : b.tags.map Tag.kind = a.tags.map Tag.kind
  addresses : b.tags.map Tag.address = a.tags.map Tag.address

namespace SameShape

variable {a : Instruction S} {b : Instruction T}

theorem first (h : SameShape a b) : b.first = a.first := by
  rw [Instruction.first, h.next, Instruction.first]

theorem second (h : SameShape a b) : b.second = a.second := by
  rw [Instruction.second, h.next, Instruction.second]

theorem length_tags (h : SameShape a b) : b.tags.length = a.tags.length := by
  simpa using congrArg List.length h.addresses

end SameShape

theorem mapTextM_shape {instr : Instruction S} {instr' : Instruction T}
    (h : instr.mapTextM f = some instr') : SameShape instr instr' := by
  simp only [mapTextM, bind, Option.bind_eq_some_iff, pure, Option.some.injEq] at h
  obtain ⟨params, _, tags, ht, rfl⟩ := h
  obtain ⟨hk, ha⟩ := Tag.mapTagsM_shape ht
  exact ⟨rfl, rfl, rfl, rfl, rfl, hk, ha⟩

end Instruction

namespace Program

variable {program : Program} {address : Address}

theorem decode_eq_ok_iff {instr : Instruction String} :
    program.decode address = .ok instr ↔
      ∃ raw, program.fetch? address = some raw ∧
        raw.mapTextM (fun i => program.text[i]?) = some instr := by
  unfold decode
  cases program.fetch? address with
  | none => simp
  | some raw =>
    cases hd : raw.mapTextM (fun i => program.text[i]?) with
    | none => simp [hd]
    | some decoded => simp [hd]

theorem decode_eq_ok {instr : Instruction String} (h : program.decode address = .ok instr) :
    ∃ raw, program.fetch? address = some raw ∧ raw.SameShape instr := by
  obtain ⟨raw, hf, hd⟩ := decode_eq_ok_iff.mp h
  exact ⟨raw, hf, Instruction.mapTextM_shape hd⟩

theorem fetch?_nonneg {instr : Instruction TextId} (h : program.fetch? address = some instr) :
    0 ≤ address := by
  unfold fetch? at h
  split at h
  · cases h
  · next hn => exact Int.not_lt.mp hn

theorem mem_of_fetch? {instr : Instruction TextId} (h : program.fetch? address = some instr) :
    (address.toNat, instr) ∈ program.code := by
  rw [fetch?, if_neg (Int.not_lt.mpr (fetch?_nonneg h))] at h
  obtain ⟨before, after, hcode, _⟩ := List.lookup_eq_some_iff.mp h
  simp [hcode]

end Program

end GlyphScript
