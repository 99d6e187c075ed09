import GlyphScript.Program.Link
import GlyphScript.Proofs.Program.Decoding
import GlyphScript.Proofs.Program.Interning

/-! # Texts moved to a table

Moving texts to a table only adds to the table, so that a place given once stays right. Putting the
texts of the final table back gives the instructions that were there before, so a linked instruction
decodes to itself.
-/

namespace GlyphScript

theorem getElem?_of_prefix {α : Type} {l l' : List α} (h : l <+: l') {i : Nat} {a : α}
    (hi : l[i]? = some a) : l'[i]? = some a := by
  obtain ⟨r, rfl⟩ := h
  rw [List.getElem?_append_left (List.getElem?_eq_some_iff.mp hi).1, hi]

namespace Link

variable {α β : Type}

/-- A computation adds to the table, and its result reads back in whatever the table grows to. -/
def Pools (c : StateM TextTable α) (reads : List String → α → Prop) : Prop :=
  ∀ table : TextTable, table.Indexed → ∃ a table', c table = (a, table') ∧ table'.Indexed ∧
    table.texts <+: table'.texts ∧ ∀ texts, table'.texts <+: texts → reads texts a

namespace Pools

theorem pure {reads : List String → α → Prop} {a : α} (h : ∀ texts, reads texts a) :
    Pools (Pure.pure a) reads :=
  fun table ht => ⟨a, table, rfl, ht, List.prefix_rfl, fun texts _ => h texts⟩

theorem bind {c : StateM TextTable α} {k : α → StateM TextTable β} {reads : List String → α → Prop}
    {reads' : List String → β → Prop} (hc : Pools c reads)
    (hk : ∀ a, Pools (k a) fun texts b => reads texts a → reads' texts b) :
    Pools (c >>= k) reads' := by
  intro table ht
  obtain ⟨a, table₁, ha, ht₁, hp₁, hr₁⟩ := hc table ht
  obtain ⟨b, table₂, hb, ht₂, hp₂, hr₂⟩ := hk a table₁ ht₁
  refine ⟨b, table₂, ?_, ht₂, hp₁.trans hp₂, fun texts h => hr₂ texts h (hr₁ texts (hp₂.trans h))⟩
  change (do let (a, s) ← c table; k a s : Id _) = _
  rw [ha]
  exact hb

end Pools

theorem intern_pools (s : String) : Pools (intern s) fun texts i => texts[i]? = some s := by
  intro table ht
  have hs := (ht.intern s).get?_of_place (table.place_intern s)
  exact ⟨_, _, rfl, ht.intern s, table.texts_prefix_intern s,
    fun texts h => getElem?_of_prefix h hs⟩

mutual

theorem value_pools : ∀ v : Value String,
    Pools (v.mapTextM intern) fun texts w => w.mapTextM (fun i => texts[i]?) = some v
  | .null => .pure fun _ => rfl
  | .bool b => .pure fun _ => rfl
  | .number x => .pure fun _ => rfl
  | .lambda code => .pure fun _ => rfl
  | .text s => .bind (intern_pools s) fun i => .pure fun texts h => by simp [Value.mapTextM, h]
  | .list items =>
    .bind (items_pools items) fun ws => .pure fun texts h => by simp [Value.mapTextM, h]
  | .map entries =>
    .bind (entries_pools entries) fun ws => .pure fun texts h => by simp [Value.mapTextM, h]

theorem items_pools : ∀ vs : List (Value String),
    Pools (Value.mapItemsM intern vs) fun texts ws =>
      Value.mapItemsM (fun i => texts[i]?) ws = some vs
  | [] => .pure fun _ => rfl
  | v :: vs =>
    .bind (value_pools v) fun w => .bind (items_pools vs) fun ws => .pure fun texts hs h => by
      simp [Value.mapItemsM, h, hs]

theorem entries_pools : ∀ vs : List (String × Value String),
    Pools (Value.mapEntriesM intern vs) fun texts ws =>
      Value.mapEntriesM (fun i => texts[i]?) ws = some vs
  | [] => .pure fun _ => rfl
  | (k, v) :: vs =>
    .bind (value_pools v) fun w => .bind (entries_pools vs) fun ws => .pure fun texts hs h => by
      simp [Value.mapEntriesM, h, hs]

end

mutual

theorem tag_pools : ∀ tag : Tag String,
    Pools (tag.mapTextM intern) fun texts t => t.mapTextM (fun i => texts[i]?) = some tag
  | ⟨root, kind, segments, written, target, address⟩ =>
    .bind (intern_pools root) fun i => .bind (segments_pools segments) fun ss =>
      .pure fun texts hs h => by
      simp [Tag.mapTextM, h, hs]

theorem segment_pools : ∀ s : Segment String,
    Pools (Tag.mapSegmentM intern s) fun texts t => Tag.mapSegmentM (fun i => texts[i]?) t = some s
  | .name s => .bind (intern_pools s) fun i => .pure fun texts h => by simp [Tag.mapSegmentM, h]
  | .nested tag => .bind (tag_pools tag) fun t => .pure fun texts h => by simp [Tag.mapSegmentM, h]

theorem segments_pools : ∀ ss : List (Segment String),
    Pools (Tag.mapSegmentsM intern ss) fun texts ts =>
      Tag.mapSegmentsM (fun i => texts[i]?) ts = some ss
  | [] => .pure fun _ => rfl
  | s :: ss =>
    .bind (segment_pools s) fun t => .bind (segments_pools ss) fun ts => .pure fun texts hs h => by
      simp [Tag.mapSegmentsM, h, hs]

end

theorem tags_pools : ∀ tags : List (Tag String),
    Pools (Tag.mapTagsM intern tags) fun texts ts =>
      Tag.mapTagsM (fun i => texts[i]?) ts = some tags
  | [] => .pure fun _ => rfl
  | tag :: tags =>
    .bind (tag_pools tag) fun t => .bind (tags_pools tags) fun ts => .pure fun texts hs h => by
      simp [Tag.mapTagsM, h, hs]

theorem instruction_pools (instr : Instruction String) :
    Pools (instr.mapTextM intern) fun texts p => p.mapTextM (fun i => texts[i]?) = some instr :=
  .bind (entries_pools instr.params) fun ps =>
    .bind (tags_pools instr.tags) fun ts => .pure fun texts hs h => by
    simp [Instruction.mapTextM, h, hs]

def ReadsAs (texts : List String) (pooled : List (Instruction TextId))
    (code : List (Instruction String)) : Prop :=
  pooled.length = code.length ∧
    ∀ (i : Nat) (instr : Instruction String), code[i]? = some instr →
      ∃ p : Instruction TextId, pooled[i]? = some p ∧ p.mapTextM (fun i => texts[i]?) = some instr

theorem tabulateFrom_pools (code : List (Instruction String)) :
    Pools (tabulateFrom code) fun texts pooled => ReadsAs texts pooled code := by
  unfold tabulateFrom
  induction code with
  | nil =>
    rw [List.mapM_nil]
    exact .pure fun _ => ⟨rfl, by simp⟩
  | cons instr code ih =>
    rw [List.mapM_cons]
    refine .bind (instruction_pools instr) fun p => .bind ih fun ps => .pure fun texts hs h => ?_
    refine ⟨by simp [hs.1], fun i instr' hi => ?_⟩
    cases i with
    | zero =>
      obtain rfl : instr = instr' := by simpa using hi
      exact ⟨p, rfl, h⟩
    | succ i => exact hs.2 i instr' (by simpa using hi)

theorem map_fst_numbered {α : Type} (start : Nat) (l : List α) :
    (numbered start l).map Prod.fst = List.range' start l.length := by
  induction l generalizing start with
  | nil => rfl
  | cons a l ih => simp [numbered, ih, List.range'_succ]

theorem lookup_numbered {α : Type} (start : Nat) (l : List α) (i : Nat) :
    (numbered start l).lookup (start + i) = l[i]? := by
  induction l generalizing start i with
  | nil => rfl
  | cons a l ih =>
    rw [numbered, List.lookup_cons]
    cases i with
    | zero => simp
    | succ i =>
      have hne : (start + (i + 1) == start) = false := by simp
      rw [hne]
      simpa [Nat.add_assoc, Nat.add_comm 1] using ih (start + 1) i

/-- Addresses without gaps, and instructions that read back. -/
theorem tabulate_spec (code : List (Instruction String)) :
    (tabulate code).2.map Prod.fst = List.range code.length ∧
      ∀ (i : Nat) (instr : Instruction String), code[i]? = some instr →
        ∃ p, (tabulate code).2.lookup i = some p ∧
          p.mapTextM (fun i => (tabulate code).1[i]?) = some instr := by
  obtain ⟨pooled, table, hrun, _, _, hreads⟩ := tabulateFrom_pools code {} .empty
  obtain ⟨hlen, hread⟩ := hreads table.texts List.prefix_rfl
  have ht : tabulate code = (table.texts, numbered 0 pooled) := by
    unfold tabulate
    rw [StateT.run, hrun]
  rw [ht]
  refine ⟨by rw [map_fst_numbered, hlen, List.range_eq_range'], fun i instr hi => ?_⟩
  obtain ⟨p, hp, hd⟩ := hread i instr hi
  have hl := lookup_numbered 0 pooled i
  rw [Nat.zero_add] at hl
  exact ⟨p, hl.trans hp, hd⟩

theorem map_fst_link (code : List (Instruction String)) (entry : Nat) :
    (link code entry).code.map Prod.fst = List.range code.length := by
  have hdense := (tabulate_spec (code.map (resolveTags (symbols code)))).1
  rw [List.length_map] at hdense
  exact hdense

/-- A linked instruction decodes to itself with its tags resolved. -/
theorem decode_link {code : List (Instruction String)} (entry : Nat) {a : Nat}
    {instr : Instruction String} (h : code[a]? = some instr) :
    (link code entry).decode a = .ok (resolveTags (symbols code) instr) := by
  have hresolved : (code.map (resolveTags (symbols code)))[a]? =
      some (resolveTags (symbols code) instr) := by
    rw [List.getElem?_map, h, Option.map_some]
  exact Program.decode_eq_ok_iff.mpr ((tabulate_spec _).2 a _ hresolved)

end Link

end GlyphScript
