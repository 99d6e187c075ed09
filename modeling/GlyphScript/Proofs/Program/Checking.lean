import GlyphScript.Program.Check
import GlyphScript.Proofs.Program.Decoding

/-! # What the check accepts

Whether the texts of an instruction can be replaced depends only on whether each text can, so an
instruction passes the check of its places exactly if it can be decoded.
-/

namespace GlyphScript

section Success

variable {α α' β β' ε S T U : Type}

theorem isOk_bind {x : Option α} {y : Except ε β} {k : α → Option α'} {l : β → Except ε β'}
    (h : x.isSome = y.isOk) (hk : ∀ a b, (k a).isSome = (l b).isOk) :
    (x >>= k).isSome = (y >>= l).isOk := by
  cases x with
  | none =>
    cases y with
    | error e => rfl
    | ok b => cases h
  | some a =>
    cases y with
    | error e => cases h
    | ok b => exact hk a b

variable {f : S → Option T} {g : S → Except ε U}

mutual

theorem Value.isOk_mapTextM (h : ∀ s, (f s).isSome = (g s).isOk) :
    ∀ v : Value S, (v.mapTextM f).isSome = (v.mapTextM g).isOk
  | .null => rfl
  | .bool _ => rfl
  | .number _ => rfl
  | .lambda _ => rfl
  | .text s => isOk_bind (h s) fun _ _ => rfl
  | .list items => isOk_bind (Value.isOk_mapItemsM h items) fun _ _ => rfl
  | .map entries => isOk_bind (Value.isOk_mapEntriesM h entries) fun _ _ => rfl

theorem Value.isOk_mapItemsM (h : ∀ s, (f s).isSome = (g s).isOk) :
    ∀ vs : List (Value S), (mapItemsM f vs).isSome = (mapItemsM g vs).isOk
  | [] => rfl
  | v :: vs =>
    isOk_bind (Value.isOk_mapTextM h v) fun _ _ =>
      isOk_bind (Value.isOk_mapItemsM h vs) fun _ _ => rfl

theorem Value.isOk_mapEntriesM (h : ∀ s, (f s).isSome = (g s).isOk) :
    ∀ vs : List (String × Value S), (mapEntriesM f vs).isSome = (mapEntriesM g vs).isOk
  | [] => rfl
  | (_, v) :: vs =>
    isOk_bind (Value.isOk_mapTextM h v) fun _ _ =>
      isOk_bind (Value.isOk_mapEntriesM h vs) fun _ _ => rfl

end

mutual

theorem Tag.isOk_mapTextM (h : ∀ s, (f s).isSome = (g s).isOk) :
    ∀ tag : Tag S, (tag.mapTextM f).isSome = (tag.mapTextM g).isOk
  | ⟨root, _, segments, _, _, _⟩ =>
    isOk_bind (h root) fun _ _ => isOk_bind (Tag.isOk_mapSegmentsM h segments) fun _ _ => rfl

theorem Tag.isOk_mapSegmentM (h : ∀ s, (f s).isSome = (g s).isOk) :
    ∀ s : Segment S, (mapSegmentM f s).isSome = (mapSegmentM g s).isOk
  | .name s => isOk_bind (h s) fun _ _ => rfl
  | .nested tag => isOk_bind (Tag.isOk_mapTextM h tag) fun _ _ => rfl

theorem Tag.isOk_mapSegmentsM (h : ∀ s, (f s).isSome = (g s).isOk) :
    ∀ ss : List (Segment S), (mapSegmentsM f ss).isSome = (mapSegmentsM g ss).isOk
  | [] => rfl
  | s :: ss =>
    isOk_bind (Tag.isOk_mapSegmentM h s) fun _ _ =>
      isOk_bind (Tag.isOk_mapSegmentsM h ss) fun _ _ => rfl

end

theorem Tag.isOk_mapTagsM (h : ∀ s, (f s).isSome = (g s).isOk) :
    ∀ tags : List (Tag S), (mapTagsM f tags).isSome = (mapTagsM g tags).isOk
  | [] => rfl
  | tag :: tags =>
    isOk_bind (Tag.isOk_mapTextM h tag) fun _ _ =>
      isOk_bind (Tag.isOk_mapTagsM h tags) fun _ _ => rfl

theorem Instruction.isOk_mapTextM (h : ∀ s, (f s).isSome = (g s).isOk) (instr : Instruction S) :
    (instr.mapTextM f).isSome = (instr.mapTextM g).isOk :=
  isOk_bind (Value.isOk_mapEntriesM h instr.params) fun _ _ =>
    isOk_bind (Tag.isOk_mapTagsM h instr.tags) fun _ _ => rfl

end Success

/-- An instruction that passes the check: it has a successor, a branching one has two, and its texts
are in the table. -/
structure Instruction.Checked (texts : List String) (p : Instruction TextId) : Prop where
  next_ne : p.next ≠ []
  branch : p.op.isBranching → p.next.length = 2
  texts : (p.mapTextM fun i => texts[i]?).isSome

namespace Program

theorem checkInstruction_eq_ok (texts : List String) (expected : Nat)
    (entry : Nat × Instruction TextId) :
    checkInstruction texts.length expected entry = .ok () ↔
      entry.1 = expected ∧ entry.2.Checked texts := by
  obtain ⟨found, p⟩ := entry
  have hplaces : ∀ i : TextId, (texts[i]?).isSome =
      (if i < texts.length then .ok i else .error (.danglingText found i texts.length) : Except Flaw
        TextId).isOk := by
    intro i
    by_cases hi : i < texts.length
    · simp [hi, Except.isOk, Except.toBool]
    · simp [hi, Except.isOk, Except.toBool]
  have hmap := Instruction.isOk_mapTextM hplaces p
  unfold checkInstruction
  dsimp only
  split
  · next hne =>
    constructor
    · intro h
      cases h
    · rintro ⟨rfl, _⟩
      exact absurd rfl hne
  split
  · next hnil =>
    constructor
    · intro h
      cases h
    · rintro ⟨_, hc⟩
      exact absurd (List.isEmpty_iff.mp hnil) hc.next_ne
  split
  · next hbranch =>
    constructor
    · intro h
      cases h
    · rintro ⟨_, hc⟩
      exact absurd (hc.branch hbranch.1) hbranch.2
  next hfound hnext hbranch =>
  generalize (p.mapTextM _ : Except Flaw (Instruction TextId)) = checked at hmap ⊢
  constructor
  · intro h
    refine ⟨(Decidable.not_not.mp hfound).symm, fun hn => hnext (by rw [hn]; rfl), fun hb => ?_, ?_⟩
    · exact Decidable.not_not.mp fun hl => hbranch ⟨hb, hl⟩
    · cases checked with
      | error e => cases h
      | ok q => exact hmap
  · rintro ⟨_, hc⟩
    cases checked with
    | error e =>
      rw [hc.texts] at hmap
      cases hmap
    | ok q => rfl

theorem checkFrom_eq_ok (texts : List String) (start : Nat)
    (code : List (Nat × Instruction TextId)) :
    checkFrom texts.length start code = .ok () ↔
      code.map Prod.fst = List.range' start code.length ∧
        ∀ entry ∈ code, entry.2.Checked texts := by
  induction code generalizing start with
  | nil => simp [checkFrom]
  | cons entry code ih =>
    have hentry := checkInstruction_eq_ok texts start entry
    rw [checkFrom]
    simp only [List.map_cons, List.length_cons, List.range'_succ, List.cons.injEq,
      List.forall_mem_cons]
    cases hc : checkInstruction texts.length start entry with
    | error e =>
      rw [hc] at hentry
      simp only [reduceCtorEq, false_iff] at hentry ⊢
      exact fun h => hentry ⟨h.1.1, h.2.1⟩
    | ok u =>
      obtain ⟨hat, hok⟩ := hentry.mp hc
      simp only [hat, hok, true_and]
      exact ih (start + 1)

theorem lookup_of_mem {code : List (Nat × Instruction TextId)} {start a : Nat}
    {p : Instruction TextId} (hd : code.map Prod.fst = List.range' start code.length)
    (h : (a, p) ∈ code) : code.lookup a = some p := by
  induction code generalizing start with
  | nil => cases h
  | cons entry code ih =>
    obtain ⟨b, q⟩ := entry
    simp only [List.map_cons, List.length_cons, List.range'_succ, List.cons.injEq] at hd
    rw [List.lookup_cons]
    cases h with
    | head => simp
    | tail _ hmem =>
      have hin : a ∈ code.map Prod.fst := List.mem_map_of_mem (f := Prod.fst) hmem
      have hlt : b < a := by
        rw [hd.2, List.mem_range'_1] at hin
        omega
      rw [show (a == b) = false by simp; omega]
      exact ih hd.2 hmem

theorem fetch?_of_mem {program : Program} {a : Nat} {p : Instruction TextId}
    (hd : program.code.map Prod.fst = List.range program.size) (h : (a, p) ∈ program.code) :
    program.fetch? a = some p := by
  rw [List.range_eq_range'] at hd
  exact lookup_of_mem hd h

/-- The check accepts addresses without gaps, checked instructions, and an entry at one of them. -/
theorem check_eq_ok {program : Program} :
    program.check = .ok () ↔
      (program.code.map Prod.fst = List.range program.size ∧
        ∀ entry ∈ program.code, entry.2.Checked program.text) ∧
        (program.entry < program.size ∨ (program.isEmpty ∧ program.entry = 0)) := by
  have hcode := checkFrom_eq_ok program.text 0 program.code
  rw [← List.range_eq_range'] at hcode
  rw [size, ← hcode]
  unfold check
  cases hc : checkFrom program.text.length 0 program.code with
  | error e => simp
  | ok u =>
    by_cases he : program.entry < program.code.length ∨ (program.isEmpty ∧ program.entry = 0)
    · simp [size, he]
    · simp [size, he]

/-- The addresses of a program that passes the check are those below its size. -/
theorem isAddress_iff {program : Program} (h : program.check = .ok ()) {a : Nat} :
    program.isAddress a ↔ a < program.size := by
  obtain ⟨⟨hdense, _⟩, _⟩ := check_eq_ok.mp h
  rw [← List.mem_range, ← hdense]
  constructor
  · intro ha
    obtain ⟨p, hp⟩ := Option.isSome_iff_exists.mp ha
    exact List.mem_map_of_mem (f := Prod.fst) (mem_of_fetch? hp)
  · intro ha
    obtain ⟨⟨b, p⟩, hmem, rfl⟩ := List.mem_map.mp ha
    rw [isAddress, fetch?_of_mem hdense hmem]
    rfl

theorem toNat_lt_size {program : Program} (h : program.check = .ok ()) {a : Address}
    {instr : Instruction TextId} (hf : program.fetch? a = some instr) : a.toNat < program.size := by
  rw [← isAddress_iff h, isAddress, Int.toNat_of_nonneg (fetch?_nonneg hf), hf]
  rfl

/-- Every instruction of a program that passes the check can be decoded. -/
theorem exists_decode_of_check {program : Program} (h : program.check = .ok ()) {address : Address}
    (ha : program.isAddress address) : ∃ instr, program.decode address = .ok instr := by
  obtain ⟨p, hp⟩ := Option.isSome_iff_exists.mp ha
  obtain ⟨⟨_, hchecked⟩, _⟩ := check_eq_ok.mp h
  obtain ⟨instr, hinstr⟩ := Option.isSome_iff_exists.mp (hchecked _ (mem_of_fetch? hp)).texts
  exact ⟨instr, decode_eq_ok_iff.mpr ⟨p, hp, hinstr⟩⟩

end Program

end GlyphScript
