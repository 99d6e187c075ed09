import GlyphScript.TextTable

/-! # Interning

A table is determined by its texts: the index holds each of them once, with the place where it
stands first. Interning a text that is there changes nothing, and a new text goes to the end. So the
texts that a table was made of stay in front, a text that is added stands there once, and the place
of a text never changes.
-/

namespace GlyphScript

theorem nodup_eraseDups (l : List String) : l.eraseDups.Nodup := by
  match l with
  | [] => exact .nil
  | s :: l =>
    have hshort : (l.filter fun t => !t == s).length < l.length + 1 :=
      Nat.lt_succ_of_le (List.length_filter_le _ l)
    rw [List.eraseDups_cons, List.nodup_cons]
    exact ⟨by simp, nodup_eraseDups _⟩
termination_by l.length

theorem idxOf?_of_mem {l : List String} {s : String} (h : s ∈ l) : l.idxOf? s = some (l.idxOf s) :=
  List.findIdx?_eq_some_iff_findIdx_eq.mpr ⟨List.idxOf_lt_length_of_mem h, rfl⟩

theorem idxOf?_concat (l : List String) (s t : String) :
    (l ++ [s]).idxOf? t = if t = s ∧ s ∉ l then some l.length else l.idxOf? t := by
  by_cases ht : t ∈ l
  · have hold : ¬ (t = s ∧ s ∉ l) := fun h => h.2 (h.1 ▸ ht)
    rw [if_neg hold, idxOf?_of_mem ht, idxOf?_of_mem (List.mem_append_left _ ht), List.idxOf_append,
      if_pos ht]
  · by_cases hs : t = s
    · subst hs
      rw [if_pos ⟨rfl, ht⟩, idxOf?_of_mem List.mem_concat_self, List.idxOf_append, if_neg ht]
      simp
    · rw [if_neg fun h => hs h.1, List.idxOf?_eq_none_iff.mpr ht]
      simp [ht, hs]

namespace TextTable

def internAll (table : TextTable) (used : List String) : TextTable :=
  used.foldl (fun t s => (t.intern s).2) table

/-! ## The places of texts -/

section Places

variable {table : TextTable}

theorem index_push_of_new {s : String} (h : table.index.get? s = none) :
    (table.push s).index = table.index.insert s table.size := by
  simp [push, Entries.contains, h]

theorem place_intern (table : TextTable) (s : String) :
    (table.intern s).2.index.get? s = some (table.intern s).1 := by
  unfold intern
  cases hs : table.index.get? s with
  | some i => exact hs
  | none => simp [index_push_of_new hs, Entries.get?_insert]

theorem texts_prefix_intern (table : TextTable) (s : String) :
    table.texts <+: (table.intern s).2.texts := by
  unfold intern
  cases table.index.get? s with
  | some i => exact List.prefix_rfl
  | none => exact List.prefix_append _ _

/-- A place that was given out is not given up. -/
theorem place_of_intern {s : String} {i : Nat} (h : table.index.get? s = some i) (t : String) :
    (table.intern t).2.index.get? s = some i := by
  unfold intern
  cases ht : table.index.get? t with
  | some j => exact h
  | none =>
    have hne : s ≠ t := by
      rintro rfl
      cases h.symm.trans ht
    simp [index_push_of_new ht, Entries.get?_insert, hne, h]

theorem place_of_internAll {s : String} {i : Nat} (h : table.index.get? s = some i)
    (used : List String) : (table.internAll used).index.get? s = some i := by
  induction used generalizing table with
  | nil => exact h
  | cons t used ih => exact ih (place_of_intern h t)

end Places

/-! ## The index -/

/-- The index holds each text once, with the place where it stands first. -/
structure Indexed (table : TextTable) : Prop where
  keys : table.index.keys.Nodup
  places : ∀ s, table.index.get? s = table.texts.idxOf? s

namespace Indexed

variable {table : TextTable}

theorem empty : Indexed {} := ⟨.nil, fun _ => rfl⟩

theorem push (h : table.Indexed) (s : String) : (table.push s).Indexed := by
  by_cases hs : s ∈ table.texts
  · have hindex : (table.push s).index = table.index := by
      refine if_pos ?_
      rwa [Entries.contains, h.places, List.isSome_idxOf?]
    refine ⟨hindex ▸ h.keys, fun t => ?_⟩
    have hold : ¬ (t = s ∧ s ∉ table.texts) := fun hnew => hnew.2 hs
    rw [hindex, h.places, TextTable.push, idxOf?_concat, if_neg hold]
  · have hindex := index_push_of_new ((h.places s).trans (List.idxOf?_eq_none_iff.mpr hs))
    refine ⟨hindex ▸ Entries.nodup_keys_insert h.keys s _, fun t => ?_⟩
    rw [hindex, Entries.get?_insert, h.places, TextTable.push, idxOf?_concat]
    simp [hs, size]

theorem intern (h : table.Indexed) (s : String) : (table.intern s).2.Indexed := by
  unfold TextTable.intern
  cases table.index.get? s with
  | some i => exact h
  | none => exact h.push s

theorem internAll (h : table.Indexed) (used : List String) : (table.internAll used).Indexed := by
  induction used generalizing table with
  | nil => exact h
  | cons s used ih => exact ih (h.intern s)

/-- What the index finds stands at its place. -/
theorem get?_of_place (h : table.Indexed) {s : String} {i : Nat}
    (hi : table.index.get? s = some i) : table.get? i = some s := by
  obtain ⟨hlt, hs, _⟩ := List.idxOf?_eq_some_iff.mp ((h.places s).symm.trans hi)
  exact List.getElem?_eq_some_iff.mpr ⟨hlt, hs⟩

end Indexed

/-! ## Tables made of a list -/

theorem ofList_concat (texts : List String) (s : String) :
    ofList (texts ++ [s]) = (ofList texts).push s := by
  rw [ofList, List.foldl_append]
  rfl

theorem texts_ofList (texts : List String) : (ofList texts).texts = texts := by
  have hall : ∀ table : TextTable, (texts.foldl push table).texts = table.texts ++ texts := by
    induction texts with
    | nil => exact fun table => (List.append_nil _).symm
    | cons s texts ih =>
      intro table
      rw [List.foldl_cons, ih, List.append_cons]
      rfl
  exact hall {}

theorem indexed_ofList (texts : List String) : (ofList texts).Indexed := by
  have hall : ∀ table : TextTable, table.Indexed → (texts.foldl push table).Indexed := by
    induction texts with
    | nil => exact fun table h => h
    | cons s texts ih => exact fun table h => ih _ (h.push s)
  exact hall {} .empty

/-- A text is interned where it stands first, and at the end if it is new. -/
theorem intern_ofList (texts : List String) (s : String) :
    (ofList texts).intern s =
      (texts.idxOf s, ofList (if s ∈ texts then texts else texts ++ [s])) := by
  have hplace := (indexed_ofList texts).places s
  rw [texts_ofList] at hplace
  by_cases hs : s ∈ texts
  · rw [idxOf?_of_mem hs] at hplace
    simp only [intern, hplace, if_pos hs]
  · rw [List.idxOf?_eq_none_iff.mpr hs] at hplace
    simp only [intern, hplace, if_neg hs, ofList_concat, size, texts_ofList,
      List.idxOf_eq_length hs]

theorem intern_eq_self_iff {texts : List String} {s : String} :
    ((ofList texts).intern s).2 = ofList texts ↔ s ∈ texts := by
  rw [intern_ofList]
  refine ⟨fun h => Decidable.byContradiction fun hs => ?_, fun hs => by rw [if_pos hs]⟩
  have hlonger := congrArg TextTable.texts h
  rw [if_neg hs, texts_ofList, texts_ofList] at hlonger
  simp at hlonger

theorem texts_intern_eq_concat_iff {texts : List String} {s : String} :
    ((ofList texts).intern s).2.texts = texts ++ [s] ↔ s ∉ texts := by
  rw [intern_ofList, texts_ofList]
  refine ⟨fun h hs => ?_, fun hs => if_neg hs⟩
  rw [if_pos hs] at h
  simp at h

/-! ## Interning several texts -/

/-- The texts that are new to a list, each once and in order of first use. -/
def newTexts (texts used : List String) : List String := (used.removeAll texts).eraseDups

theorem nodup_newTexts (texts used : List String) : (newTexts texts used).Nodup := nodup_eraseDups _

theorem mem_newTexts {texts used : List String} {s : String} :
    s ∈ newTexts texts used ↔ s ∈ used ∧ s ∉ texts := by
  simp [newTexts, List.removeAll]

theorem newTexts_cons_of_mem {texts : List String} {s : String} (h : s ∈ texts)
    (used : List String) : newTexts texts (s :: used) = newTexts texts used := by
  simp [newTexts, List.cons_removeAll, h]

theorem newTexts_cons_of_not_mem {texts : List String} {s : String} (h : s ∉ texts)
    (used : List String) : newTexts texts (s :: used) = s :: newTexts (texts ++ [s]) used := by
  have hrest : used.removeAll (texts ++ [s]) = (used.removeAll texts).filter fun t => !t == s := by
    rw [List.removeAll, List.removeAll, List.filter_filter]
    refine List.filter_congr fun t _ => ?_
    by_cases ht : t = s <;> simp [ht]
  have hnew : (s :: used).removeAll texts = s :: used.removeAll texts := by
    simp [List.cons_removeAll, h]
  rw [newTexts, hnew, List.eraseDups_cons, newTexts, hrest]

/-- Interning several texts is making a table of a longer list. -/
theorem internAll_ofList (texts used : List String) :
    (ofList texts).internAll used = ofList (texts ++ newTexts texts used) := by
  -- What is new depends on the list, which grows with each new text.
  induction used generalizing texts with
  | nil => simp [internAll, newTexts]
  | cons s used ih =>
    have hfirst : (ofList texts).internAll (s :: used) =
        ((ofList texts).intern s).2.internAll used := rfl
    rw [hfirst, intern_ofList]
    by_cases hs : s ∈ texts
    · rw [if_pos hs, ih, newTexts_cons_of_mem hs]
    · rw [if_neg hs, ih, newTexts_cons_of_not_mem hs, List.append_assoc, List.singleton_append]

/-- A table made of any list, after any texts were interned. The index holds just the texts of the
table, each with the place where it stands first. The list stays in front, and what is added to it
is new and added once. One more text goes to the end if it is not there, otherwise nothing changes;
its place holds it at once and after all that is interned later, and stays the first one. The texts
alone give the table back. -/
theorem interned_texts_keep_places (initial used : List String) {table : TextTable}
    (h : table = (ofList initial).internAll used) :
    table.index.keys.Nodup ∧
    (∀ s, table.index.get? s = table.texts.idxOf? s) ∧
    table.texts = initial ++ newTexts initial used ∧
    (newTexts initial used).Nodup ∧
    (∀ s, s ∈ newTexts initial used ↔ s ∈ used ∧ s ∉ initial) ∧
    (∀ s, ((table.intern s).2 = table ↔ s ∈ table.texts) ∧
      ((table.intern s).2.texts = table.texts ++ [s] ↔ s ∉ table.texts)) ∧
    (∀ s more, ((table.intern s).2.internAll more).index.get? s = some (table.intern s).1 ∧
      ((table.intern s).2.internAll more).get? (table.intern s).1 = some s) ∧
    ofList table.texts = table := by
  have hindexed : table.Indexed := h ▸ (indexed_ofList initial).internAll used
  have htable : table = ofList (initial ++ newTexts initial used) :=
    h.trans (internAll_ofList initial used)
  have htexts : table.texts = initial ++ newTexts initial used := by rw [htable, texts_ofList]
  refine ⟨hindexed.keys, hindexed.places, htexts, nodup_newTexts _ _,
    fun s => mem_newTexts, fun s => ?_, fun s more => ?_, by rw [htexts, htable]⟩
  · rw [htable, texts_ofList]
    exact ⟨intern_eq_self_iff, texts_intern_eq_concat_iff⟩
  · have hplace := place_of_internAll (table.place_intern s) more
    exact ⟨hplace, ((hindexed.intern s).internAll more).get?_of_place hplace⟩

/-- A name that stands twice in the given list keeps its first place. -/
theorem interned_texts_keep_places_twice :
    ∃ table, table = (ofList ["Wade", "Health", "Wade"]).internAll ["Mask", "Wade", "Mask"] ∧
      table.texts = ["Wade", "Health", "Wade", "Mask"] ∧ table.index.get? "Wade" = some 0 ∧
      (table.intern "Wade").2 = table ∧ (table.intern "Chimi").2.texts = table.texts ++ ["Chimi"] ∧
      ((table.intern "Chimi").2.internAll ["Wade", "Blade"]).get? (table.intern "Chimi").1 =
        some "Chimi" := by
  obtain ⟨table, htable⟩ : ∃ table,
      table = (ofList ["Wade", "Health", "Wade"]).internAll ["Mask", "Wade", "Mask"] :=
    ⟨_, rfl⟩
  obtain ⟨_, hplaces, htexts, _, _, hintern, hstays, _⟩ := interned_texts_keep_places _ _ htable
  have hfour : table.texts = ["Wade", "Health", "Wade", "Mask"] := htexts.trans (by decide)
  refine ⟨table, htable, hfour, ?_, (hintern "Wade").1.mpr ?_, (hintern "Chimi").2.mpr ?_,
    (hstays _ _).2⟩
  · rw [hplaces, hfour]
    decide
  · rw [hfour]
    decide
  · rw [hfour]
    decide

end TextTable

end GlyphScript
