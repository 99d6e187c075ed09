import GlyphScript.Proofs.Program.Pooling

/-! # Texts in order of first use

The texts of an instruction have an order: parameters before tags, the root of a tag before its
segments, and nested tags in place. Moving instructions to a table interns their texts in this
order, so the table holds each of them once, where it was first used, and nothing else. Putting the
texts back and moving them again gives the same table.
-/

namespace GlyphScript

variable {S T : Type}

/-! ## The texts of an instruction -/

namespace Value

mutual

def texts : Value S → List S
  | .null => []
  | .bool _ => []
  | .text s => [s]
  | .number _ => []
  | .lambda _ => []
  | .list items => itemTexts items
  | .map entries => entryTexts entries

def itemTexts : List (Value S) → List S
  | [] => []
  | v :: vs => texts v ++ itemTexts vs

def entryTexts : List (String × Value S) → List S
  | [] => []
  | (_, v) :: vs => texts v ++ entryTexts vs

end

end Value

namespace Tag

mutual

def texts : Tag S → List S
  | ⟨root, _, segments, _, _, _⟩ => root :: segmentsTexts segments

def segmentTexts : Segment S → List S
  | .name s => [s]
  | .nested tag => texts tag

def segmentsTexts : List (Segment S) → List S
  | [] => []
  | s :: rest => segmentTexts s ++ segmentsTexts rest

end

def tagsTexts : List (Tag S) → List S
  | [] => []
  | tag :: tags => tag.texts ++ tagsTexts tags

end Tag

def Instruction.texts (instr : Instruction S) : List S :=
  Value.entryTexts instr.params ++ Tag.tagsTexts instr.tags

/-! ## Replacing texts -/

section Replace

variable {f : S → Option T}

mutual

theorem Value.texts_of_mapTextM : ∀ (v : Value S) {w : Value T}, v.mapTextM f = some w →
    v.texts.map f = w.texts.map some
  | .null, w, h => by cases h; rfl
  | .bool b, w, h => by cases h; rfl
  | .number x, w, h => by cases h; rfl
  | .lambda code, w, h => by cases h; rfl
  | .text s, w, h => by
    obtain ⟨t, ht, he⟩ := Option.bind_eq_some_iff.mp h
    cases he
    simp [texts, ht]
  | .list items, w, h => by
    obtain ⟨ws, hws, he⟩ := Option.bind_eq_some_iff.mp h
    cases he
    exact itemTexts_of_mapItemsM items hws
  | .map entries, w, h => by
    obtain ⟨ws, hws, he⟩ := Option.bind_eq_some_iff.mp h
    cases he
    exact entryTexts_of_mapEntriesM entries hws

theorem Value.itemTexts_of_mapItemsM :
    ∀ (vs : List (Value S)) {ws : List (Value T)}, mapItemsM f vs = some ws →
      (itemTexts vs).map f = (itemTexts ws).map some
  | [], ws, h => by cases h; rfl
  | v :: vs, ws, h => by
    obtain ⟨w, hw, h⟩ := Option.bind_eq_some_iff.mp h
    obtain ⟨rest, hrest, he⟩ := Option.bind_eq_some_iff.mp h
    cases he
    rw [itemTexts, itemTexts, List.map_append, List.map_append, texts_of_mapTextM v hw,
      itemTexts_of_mapItemsM vs hrest]

theorem Value.entryTexts_of_mapEntriesM :
    ∀ (vs : List (String × Value S)) {ws : List (String × Value T)},
      mapEntriesM f vs = some ws → (entryTexts vs).map f = (entryTexts ws).map some
  | [], ws, h => by cases h; rfl
  | (k, v) :: vs, ws, h => by
    obtain ⟨w, hw, h⟩ := Option.bind_eq_some_iff.mp h
    obtain ⟨rest, hrest, he⟩ := Option.bind_eq_some_iff.mp h
    cases he
    rw [entryTexts, entryTexts, List.map_append, List.map_append, texts_of_mapTextM v hw,
      entryTexts_of_mapEntriesM vs hrest]

end

mutual

theorem Tag.texts_of_mapTextM : ∀ (tag : Tag S) {tag' : Tag T}, tag.mapTextM f = some tag' →
    tag.texts.map f = tag'.texts.map some
  | ⟨root, kind, segments, written, target, address⟩, tag', h => by
    obtain ⟨root', hroot, h⟩ := Option.bind_eq_some_iff.mp h
    obtain ⟨segments', hsegments, he⟩ := Option.bind_eq_some_iff.mp h
    cases he
    rw [texts, texts, List.map_cons, List.map_cons, hroot,
      segmentsTexts_of_mapSegmentsM segments hsegments]

theorem Tag.segmentTexts_of_mapSegmentM :
    ∀ (s : Segment S) {s' : Segment T}, mapSegmentM f s = some s' →
      (segmentTexts s).map f = (segmentTexts s').map some
  | .name s, s', h => by
    obtain ⟨t, ht, he⟩ := Option.bind_eq_some_iff.mp h
    cases he
    simp [segmentTexts, ht]
  | .nested tag, s', h => by
    obtain ⟨tag', htag, he⟩ := Option.bind_eq_some_iff.mp h
    cases he
    exact texts_of_mapTextM tag htag

theorem Tag.segmentsTexts_of_mapSegmentsM : ∀ (ss : List (Segment S)) {ss' : List (Segment T)},
    mapSegmentsM f ss = some ss' → (segmentsTexts ss).map f = (segmentsTexts ss').map some
  | [], ss', h => by cases h; rfl
  | s :: ss, ss', h => by
    obtain ⟨s', hs, h⟩ := Option.bind_eq_some_iff.mp h
    obtain ⟨rest, hrest, he⟩ := Option.bind_eq_some_iff.mp h
    cases he
    rw [segmentsTexts, segmentsTexts, List.map_append, List.map_append,
      segmentTexts_of_mapSegmentM s hs, segmentsTexts_of_mapSegmentsM ss hrest]

end

theorem Tag.tagsTexts_of_mapTagsM {tags : List (Tag S)} {tags' : List (Tag T)}
    (h : mapTagsM f tags = some tags') : (tagsTexts tags).map f = (tagsTexts tags').map some := by
  induction tags generalizing tags' with
  | nil => cases h; rfl
  | cons tag tags ih =>
    obtain ⟨tag', htag, h⟩ := Option.bind_eq_some_iff.mp h
    obtain ⟨rest, hrest, he⟩ := Option.bind_eq_some_iff.mp h
    cases he
    rw [tagsTexts, tagsTexts, List.map_append, List.map_append, texts_of_mapTextM tag htag,
      ih hrest]

/-- The texts of an instruction are replaced one by one. -/
theorem Instruction.texts_of_mapTextM {instr : Instruction S} {instr' : Instruction T}
    (h : instr.mapTextM f = some instr') : instr.texts.map f = instr'.texts.map some := by
  obtain ⟨params, hparams, h⟩ := Option.bind_eq_some_iff.mp h
  obtain ⟨tags, htags, he⟩ := Option.bind_eq_some_iff.mp h
  cases he
  rw [texts, texts, List.map_append, List.map_append, Value.entryTexts_of_mapEntriesM _ hparams,
    Tag.tagsTexts_of_mapTagsM htags]

end Replace

/-! ## Tables -/

namespace TextTable

/-- A table that holds the texts used so far, in order of first use, and finds just these. -/
structure Collects (table : TextTable) (used : List String) : Prop where
  texts : table.texts = used.eraseDups
  nodup : table.texts.Nodup
  found : ∀ s, table.index.get? s = none ↔ s ∉ used

theorem collects_internAll (used : List String) : Collects (internAll {} used) used := by
  have htexts : (internAll {} used).texts = used.eraseDups := by
    have htable : internAll {} used = ofList (newTexts [] used) := internAll_ofList [] used
    rw [htable, texts_ofList, newTexts, List.removeAll_nil]
  refine ⟨htexts, htexts ▸ nodup_eraseDups used, fun s => ?_⟩
  rw [(Indexed.empty.internAll used).places, List.idxOf?_eq_none_iff, htexts, List.mem_eraseDups]

end TextTable

/-! ## Moving texts to a table -/

namespace Link

variable {α β : Type} {used used' : List String}

/-- A computation interns given texts in order and does nothing else to the table. -/
def Uses (c : StateM TextTable α) (used : List String) : Prop :=
  ∀ table, (c table).2 = table.internAll used

namespace Uses

theorem pure (a : α) : Uses (Pure.pure a) [] := fun _ => rfl

theorem bind {c : StateM TextTable α} {k : α → StateM TextTable β} (hc : Uses c used)
    (hk : ∀ a, Uses (k a) used') : Uses (c >>= k) (used ++ used') := by
  intro table
  change (k (c table).1 (c table).2).2 = _
  rw [hk, hc, TextTable.internAll, TextTable.internAll, TextTable.internAll, List.foldl_append]

theorem map {c : StateM TextTable α} {g : α → β} (hc : Uses c used) :
    Uses (c >>= fun a => Pure.pure (g a)) used := by
  simpa using hc.bind fun a => pure (g a)

end Uses

theorem intern_uses (s : String) : Uses (intern s) [s] := fun _ => rfl

mutual

theorem value_uses : ∀ v : Value String, Uses (v.mapTextM intern) v.texts
  | .null => .pure _
  | .bool _ => .pure _
  | .number _ => .pure _
  | .lambda _ => .pure _
  | .text s => (intern_uses s).map
  | .list items => (items_uses items).map
  | .map entries => (entries_uses entries).map

theorem items_uses :
    ∀ vs : List (Value String), Uses (Value.mapItemsM intern vs) (Value.itemTexts vs)
  | [] => .pure _
  | v :: vs => (value_uses v).bind fun _ => (items_uses vs).map

theorem entries_uses :
    ∀ vs : List (String × Value String), Uses (Value.mapEntriesM intern vs) (Value.entryTexts vs)
  | [] => .pure _
  | (_, v) :: vs => (value_uses v).bind fun _ => (entries_uses vs).map

end

mutual

theorem tag_uses : ∀ tag : Tag String, Uses (tag.mapTextM intern) tag.texts
  | ⟨root, _, segments, _, _, _⟩ => (intern_uses root).bind fun _ => (segments_uses segments).map

theorem segment_uses : ∀ s : Segment String, Uses (Tag.mapSegmentM intern s) (Tag.segmentTexts s)
  | .name s => (intern_uses s).map
  | .nested tag => (tag_uses tag).map

theorem segments_uses :
    ∀ ss : List (Segment String), Uses (Tag.mapSegmentsM intern ss) (Tag.segmentsTexts ss)
  | [] => .pure _
  | s :: ss => (segment_uses s).bind fun _ => (segments_uses ss).map

end

theorem tags_uses : ∀ tags : List (Tag String), Uses (Tag.mapTagsM intern tags) (Tag.tagsTexts tags)
  | [] => .pure _
  | tag :: tags => (tag_uses tag).bind fun _ => (tags_uses tags).map

theorem instruction_uses (instr : Instruction String) : Uses (instr.mapTextM intern) instr.texts :=
  (entries_uses instr.params).bind fun _ => (tags_uses instr.tags).map

theorem tabulateFrom_uses (code : List (Instruction String)) :
    Uses (tabulateFrom code) (code.flatMap Instruction.texts) := by
  unfold tabulateFrom
  induction code with
  | nil =>
    rw [List.mapM_nil]
    exact .pure _
  | cons instr code ih =>
    rw [List.mapM_cons, List.flatMap_cons]
    exact (instruction_uses instr).bind fun _ => ih.map

/-- A table holds the texts of the instructions, each where it was first used. -/
theorem tabulate_collects (code : List (Instruction String)) :
    (tabulate code).1 = (code.flatMap Instruction.texts).eraseDups ∧ (tabulate code).1.Nodup := by
  have hcollects := TextTable.collects_internAll (code.flatMap Instruction.texts)
  rw [← tabulateFrom_uses code {}] at hcollects
  exact ⟨hcollects.texts, hcollects.nodup⟩

/-- Each place of the table is used by an instruction. -/
theorem exists_mem_texts {code : List (Instruction String)} {i : Nat}
    (hi : i < (tabulate code).1.length) : ∃ e ∈ (tabulate code).2, i ∈ e.2.texts := by
  obtain ⟨htexts, hnodup⟩ := tabulate_collects code
  have hmem : (tabulate code).1[i] ∈ code.flatMap Instruction.texts := by
    rw [← List.mem_eraseDups, ← htexts]
    exact List.getElem_mem hi
  obtain ⟨instr, hinstr, hs⟩ := List.mem_flatMap.mp hmem
  obtain ⟨a, ha⟩ := List.mem_iff_getElem?.mp hinstr
  obtain ⟨p, hp, hread⟩ := (tabulate_spec code).2 a instr ha
  have hin : some (tabulate code).1[i] ∈ p.texts.map fun j => (tabulate code).1[j]? := by
    rw [Instruction.texts_of_mapTextM hread]
    exact List.mem_map_of_mem hs
  obtain ⟨j, hj, hget⟩ := List.mem_map.mp hin
  obtain ⟨hlt, hget⟩ := List.getElem?_eq_some_iff.mp hget
  obtain ⟨before, after, hcode, _⟩ := List.lookup_eq_some_iff.mp hp
  refine ⟨(a, p), by simp [hcode], ?_⟩
  -- The place that the instruction uses holds the same text, and no text stands at two places.
  rwa [← (List.getElem_inj hnodup).mp hget]

/-- Instructions that are moved to a table decode to themselves. The table holds their texts in
order of first use, and each of its places is used. Moving what was decoded gives the same table and
the same instructions. -/
theorem tabulate_round_trip (code : List (Instruction String)) (entry : Nat) (symbols : Symbols) :
    (tabulate code).2.map Prod.fst = List.range code.length ∧
    (∀ (a : Nat) (instr : Instruction String), code[a]? = some instr →
      Program.decode ⟨entry, symbols, (tabulate code).1, (tabulate code).2⟩ (a : Nat) = .ok instr) ∧
    (tabulate code).1.Nodup ∧
    (∀ i < (tabulate code).1.length, ∃ e ∈ (tabulate code).2, i ∈ e.2.texts) ∧
    (tabulate code).1 = (code.flatMap Instruction.texts).eraseDups ∧
    ∀ decoded : List (Instruction String), decoded.length = (tabulate code).2.length →
      (∀ (a : Nat) (instr : Instruction String), decoded[a]? = some instr →
        Program.decode ⟨entry, symbols, (tabulate code).1, (tabulate code).2⟩ (a : Nat) =
          .ok instr) →
      tabulate decoded = tabulate code := by
  obtain ⟨hdense, hread⟩ := tabulate_spec code
  obtain ⟨htexts, hnodup⟩ := tabulate_collects code
  have hdecode : ∀ (a : Nat) (instr : Instruction String), code[a]? = some instr →
      Program.decode ⟨entry, symbols, (tabulate code).1, (tabulate code).2⟩ (a : Nat) = .ok instr :=
    fun a instr ha => Program.decode_eq_ok_iff.mpr (hread a instr ha)
  refine ⟨hdense, hdecode, hnodup, fun i hi => exists_mem_texts hi, htexts,
    fun decoded hlen hdecoded => ?_⟩
  have hlength : (tabulate code).2.length = code.length := by
    simpa using congrArg List.length hdense
  congr 1
  refine List.ext_getElem (hlen.trans hlength) fun a ha hb => ?_
  have hboth := (hdecoded a _ (List.getElem?_eq_getElem ha)).symm.trans
    (hdecode a _ (List.getElem?_eq_getElem hb))
  exact Except.ok.inj hboth

/-- Two instructions with a text in common, which one of them holds in a list and the other one in a
tag. -/
def costumes : List (Instruction String) :=
  [{ op := .speech,
     params :=
       [("message", .list [.text "red", .lambda "Wade", .text "red"]), ("to", .text "Wade")],
     next := [1] },
    { op := .context .entity, id := some "Wade",
      params := [("suit", .map [("color", .text "grey")])],
      tags :=
        [{ root := "hero", kind := .hashtag,
           segments := [.nested { root := "red", kind := .hashtag, segments := [.name "late"] }] }],
      next := [-1] }]

theorem tabulate_round_trip_costumes :
    (tabulate costumes).1 = ["red", "Wade", "grey", "hero", "late"] ∧
      (∃ e ∈ (tabulate costumes).2, 4 ∈ e.2.texts) ∧
      (∃ instr, costumes[1]? = some instr ∧
        Program.decode ⟨0, [], (tabulate costumes).1, (tabulate costumes).2⟩ (1 : Nat) =
          .ok instr) ∧
      ∀ decoded : List (Instruction String), decoded.length = 2 →
        (∀ (a : Nat) (instr : Instruction String), decoded[a]? = some instr →
          Program.decode ⟨0, [], (tabulate costumes).1, (tabulate costumes).2⟩ (a : Nat) =
            .ok instr) →
        tabulate decoded = tabulate costumes := by
  obtain ⟨_, hdecode, _, hused, htexts, hagain⟩ := tabulate_round_trip costumes 0 []
  refine ⟨htexts.trans (by decide +kernel), hused 4 (by decide +kernel), ⟨_, rfl, hdecode 1 _ rfl⟩,
    fun decoded hlen => ?_⟩
  apply hagain decoded
  rw [hlen]
  decide +kernel

end Link

end GlyphScript
