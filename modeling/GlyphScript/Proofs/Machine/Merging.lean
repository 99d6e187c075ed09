import GlyphScript.Proofs.Machine.Footprint

/-! # Merging frames

Merging takes over the entries of a frame one after the other. What was there under a key is
replaced in its place, new keys go to the end, and hashtags are added to those that are there. This
is associative for frames whose hashtags, if there are any, are a map with something in it: an empty
map would leave no key behind, and anything but a map would make the earlier hashtags be forgotten.
-/

namespace GlyphScript

namespace Entries

variable {α : Type}

/-- Keys with one more, which goes to the end unless it is there. -/
def addKey (keys : List String) (key : String) : List String :=
  if key ∈ keys then keys else keys ++ [key]

def addKeys (keys more : List String) : List String := more.foldl addKey keys

section Keys

variable {keys more further : List String} {key k : String}

theorem mem_addKey : k ∈ addKey keys key ↔ k ∈ keys ∨ k = key := by
  unfold addKey
  split
  · next h =>
    constructor
    · exact .inl
    · rintro (hk | rfl)
      · exact hk
      · exact h
  · simp

theorem mem_addKeys : k ∈ addKeys keys more ↔ k ∈ keys ∨ k ∈ more := by
  induction more generalizing keys with
  | nil => simp [addKeys]
  | cons key more ih =>
    have hstep : k ∈ addKeys keys (key :: more) ↔ k ∈ addKey keys key ∨ k ∈ more := ih
    rw [hstep, mem_addKey, List.mem_cons, or_assoc]

theorem addKeys_addKey (keys more : List String) (key : String) :
    addKeys keys (addKey more key) = addKey (addKeys keys more) key := by
  by_cases hk : key ∈ more
  · rw [addKey, if_pos hk, addKey, if_pos (mem_addKeys.mpr (.inr hk))]
  · rw [addKey, if_neg hk, addKeys, List.foldl_append]
    rfl

theorem addKeys_assoc (keys more further : List String) :
    addKeys (addKeys keys more) further = addKeys keys (addKeys more further) := by
  induction further generalizing more with
  | nil => rfl
  | cons key further ih =>
    calc addKeys (addKeys keys more) (key :: further)
      _ = addKeys (addKey (addKeys keys more) key) further := rfl
      _ = addKeys (addKeys keys (addKey more key)) further := by rw [addKeys_addKey]
      _ = addKeys keys (addKeys (addKey more key) further) := ih _

end Keys

theorem keys_insert_eq_addKey (m : Entries α) (k : String) (v : α) :
    (m.insert k v).keys = addKey m.keys k :=
  keys_insert m k v

theorem insert_insert (m : Entries α) (k : String) (v w : α) :
    (m.insert k v).insert k w = m.insert k w := by
  induction m with
  | nil => simp [insert]
  | cons e m ih =>
    obtain ⟨k', v'⟩ := e
    by_cases hk : k' = k
    · simp [insert, hk]
    · simp [insert, hk, ih]

theorem insert_of_get? {m : Entries α} {k : String} {v : α} (h : m.get? k = some v) :
    m.insert k v = m := by
  induction m with
  | nil => cases h
  | cons e m ih =>
    obtain ⟨k', v'⟩ := e
    rw [get?_cons] at h
    by_cases hk : k = k'
    · rw [if_pos hk] at h
      cases h
      rw [insert, if_pos hk.symm]
    · rw [if_neg hk] at h
      rw [insert, if_neg fun he => hk he.symm, ih h]

/-- Entries with different keys are given by their keys and what is found under each. -/
theorem eq_of_keys_of_get? {m m' : Entries α} (hm : m.keys.Nodup) (hk : m.keys = m'.keys)
    (hg : ∀ k, m.get? k = m'.get? k) : m = m' := by
  induction m generalizing m' with
  | nil =>
    cases m' with
    | nil => rfl
    | cons e' m' => cases hk
  | cons e m ih =>
    cases m' with
    | nil => cases hk
    | cons e' m' =>
      obtain ⟨k, v⟩ := e
      obtain ⟨k', v'⟩ := e'
      obtain ⟨rfl, hrest⟩ : k = k' ∧ keys m = keys m' := List.cons.inj hk
      obtain ⟨hnew, hnodup⟩ : k ∉ keys m ∧ (keys m).Nodup := List.nodup_cons.mp hm
      have hv := hg k
      rw [get?_cons, get?_cons, if_pos rfl, if_pos rfl] at hv
      cases hv
      congr 1
      refine ih hnodup hrest fun key => ?_
      by_cases hkey : key = k
      · rw [hkey, (get?_eq_none_iff m k).mpr hnew, (get?_eq_none_iff m' k).mpr (hrest ▸ hnew)]
      · have h := hg key
        rwa [get?_cons, get?_cons, if_neg hkey, if_neg hkey] at h

end Entries

/-! ## Hashtags -/

def mark (tags : Entries (Value String)) (names : List String) : Entries (Value String) :=
  names.foldl (fun tags name => tags.insert name (.bool true)) tags

section Mark

variable {tags : Entries (Value String)} {names : List String} {name : String}

theorem keys_mark (tags : Entries (Value String)) (names : List String) :
    (mark tags names).keys = Entries.addKeys tags.keys names := by
  induction names generalizing tags with
  | nil => rfl
  | cons name names ih =>
    have hstep : (mark tags (name :: names)).keys =
        Entries.addKeys (tags.insert name (.bool true)).keys names := ih _
    rw [hstep, Entries.keys_insert_eq_addKey]
    rfl

theorem get?_mark (tags : Entries (Value String)) (names : List String) (name : String) :
    (mark tags names).get? name = if name ∈ names then some (.bool true) else tags.get? name := by
  induction names generalizing tags with
  | nil => simp [mark]
  | cons first names ih =>
    have hstep : (mark tags (first :: names)).get? name =
        if name ∈ names then some (.bool true) else (tags.insert first (.bool true)).get? name :=
      ih _
    rw [hstep, Entries.get?_insert]
    by_cases hn : name ∈ names
    · simp [hn]
    · simp [hn]

theorem mark_append (tags : Entries (Value String)) (names more : List String) :
    mark tags (names ++ more) = mark (mark tags names) more := List.foldl_append

theorem mark_addKey (tags : Entries (Value String)) (names : List String) (name : String) :
    mark tags (Entries.addKey names name) = mark (mark tags names) [name] := by
  by_cases hn : name ∈ names
  · have hold : (mark tags names).get? name = some (.bool true) := by rw [get?_mark, if_pos hn]
    rw [Entries.addKey, if_pos hn]
    exact (Entries.insert_of_get? hold).symm
  · rw [Entries.addKey, if_neg hn, mark_append]

/-- Marking what is marked elsewhere comes to marking both. -/
theorem mark_addKeys (tags : Entries (Value String)) (names more : List String) :
    mark tags (Entries.addKeys names more) = mark (mark tags names) more := by
  induction more generalizing names with
  | nil => rfl
  | cons name more ih =>
    calc mark tags (Entries.addKeys names (name :: more))
      _ = mark (mark tags (Entries.addKey names name)) more := ih _
      _ = mark (mark (mark tags names) [name]) more := by rw [mark_addKey]
      _ = mark (mark tags names) (name :: more) := rfl

theorem mark_ne_nil (hn : names ≠ []) : mark tags names ≠ [] := by
  obtain ⟨name, hname⟩ := List.exists_mem_of_ne_nil names hn
  intro hnil
  have hget := get?_mark tags names name
  rw [hnil, if_pos hname] at hget
  cases hget

end Mark

namespace Frame

variable {frame child p c₁ c₂ : Frame} {key : String} {value : Value String}

theorem get?_insert (frame : Frame) (key k : String) (value : Value String) :
    (frame.insert key value).get? k = if k = key then some value else frame.get? k :=
  Entries.get?_insert frame.data key k value

theorem tags_eq (frame : Frame) : frame.tags = ((frame.get? tagsKey).bind Value.map?).getD [] := rfl

theorem tags_insert_of_ne (hk : key ≠ tagsKey) : (frame.insert key value).tags = frame.tags := by
  rw [tags_eq, get?_insert, if_neg hk.symm, tags_eq]

theorem addTags_eq {names : List String} (hn : names ≠ []) :
    frame.addTags names = frame.insert tagsKey (.map (mark frame.tags names)) := by
  induction names generalizing frame with
  | nil => exact absurd rfl hn
  | cons name names ih =>
    cases names with
    | nil => rfl
    | cons next names =>
      have htags : (frame.addTag name).tags = frame.tags.insert name (.bool true) := by
        rw [addTag, tags_eq, get?_insert, if_pos rfl]
        rfl
      calc frame.addTags (name :: next :: names)
        _ = (frame.addTag name).insert tagsKey
          (.map (mark (frame.addTag name).tags (next :: names))) := ih (by simp)
        _ = frame.insert tagsKey (.map (mark (frame.addTag name).tags (next :: names))) := by
          simp only [addTag, insert, Entries.insert_insert]
        _ = frame.insert tagsKey (.map (mark frame.tags (name :: next :: names))) := by
          rw [htags]
          rfl

/-! ## Merging -/

/-- The keys of a frame are different, and its hashtags, if there are any, are a map with something
in it. -/
structure Tidy (frame : Frame) : Prop where
  nodup : frame.data.keys.Nodup
  tags : ∀ value, frame.get? tagsKey = some value → ∃ tags, value = .map tags ∧ tags ≠ []

def takenOver (frame : Frame) (key : String) (value : Value String) : Value String :=
  if key = tagsKey then .map (mark frame.tags (Entries.keys (value.map?.getD []))) else value

theorem takenOver_of_ne (frame : Frame) (hk : key ≠ tagsKey) : frame.takenOver key = id := by
  funext value
  exact if_neg hk

theorem takenOver_insert_of_ne {k : String} (hk : key ≠ k) :
    (frame.insert k value).takenOver key = frame.takenOver key := by
  funext w
  unfold takenOver
  by_cases ht : key = tagsKey
  · rw [tags_insert_of_ne (ht ▸ hk.symm)]
  · rw [if_neg ht, if_neg ht]

theorem mergeEntry_eq (frame : Frame) (h : key = tagsKey → ∃ tags, value = .map tags ∧ tags ≠ []) :
    frame.mergeEntry (key, value) = frame.insert key (frame.takenOver key value) := by
  by_cases hk : key = tagsKey
  · obtain ⟨tags, rfl, hne⟩ := h hk
    have hkeys : Entries.keys tags ≠ [] := by simpa [Entries.keys] using hne
    rw [mergeEntry, takenOver, if_pos hk, if_pos hk, addTags_eq hkeys, hk]
    rfl
  · rw [takenOver, if_neg hk]
    cases value with
    | map entries => rw [mergeEntry, if_neg hk]
    | _ => rfl

section Entries

variable {entries : Entries (Value String)}
  (ht : ∀ key value, (key, value) ∈ entries → key = tagsKey → ∃ tags, value = .map tags ∧ tags ≠ [])

include ht

theorem keys_mergeEntries (frame : Frame) :
    (entries.foldl mergeEntry frame).data.keys = Entries.addKeys frame.data.keys entries.keys := by
  induction entries generalizing frame with
  | nil => rfl
  | cons entry entries ih =>
    obtain ⟨key, value⟩ := entry
    rw [List.foldl_cons, ih fun k v hmem => ht k v (List.mem_cons_of_mem _ hmem),
      mergeEntry_eq frame (ht key value List.mem_cons_self), insert, Entries.keys_insert_eq_addKey]
    rfl

theorem get?_mergeEntries (hn : entries.keys.Nodup) (frame : Frame) (key : String) :
    (entries.foldl mergeEntry frame).get? key =
      ((entries.get? key).map (frame.takenOver key)).or (frame.get? key) := by
  induction entries generalizing frame with
  | nil => rfl
  | cons entry entries ih =>
    obtain ⟨k, v⟩ := entry
    obtain ⟨hnew, hn⟩ : k ∉ Entries.keys entries ∧ (Entries.keys entries).Nodup :=
      List.nodup_cons.mp hn
    rw [List.foldl_cons, ih (fun k v hmem => ht k v (List.mem_cons_of_mem _ hmem)) hn,
      mergeEntry_eq frame (ht k v List.mem_cons_self), get?_insert, Entries.get?_cons]
    by_cases hk : key = k
    · rw [hk, (Entries.get?_eq_none_iff entries k).mpr hnew]
      simp
    · rw [if_neg hk, if_neg hk, takenOver_insert_of_ne hk]

end Entries

theorem Tidy.entries (h : frame.Tidy) :
    ∀ key value, (key, value) ∈ frame.data → key = tagsKey →
      ∃ tags, value = .map tags ∧ tags ≠ [] := by
  rintro key value hmem rfl
  exact h.tags value (Entries.get?_of_mem h.nodup hmem)

theorem keys_merge (frame : Frame) (h : child.Tidy) :
    (frame.merge child).data.keys = Entries.addKeys frame.data.keys child.data.keys :=
  keys_mergeEntries h.entries frame

/-- A merged frame holds what it takes over, and else what it had. -/
theorem get?_merge (frame : Frame) (h : child.Tidy) (key : String) :
    (frame.merge child).get? key = ((child.get? key).map (frame.takenOver key)).or
      (frame.get? key) :=
  get?_mergeEntries h.entries h.nodup frame key

theorem isSome_get?_merge (frame : Frame) (h : child.Tidy) (key : String) :
    ((frame.merge child).get? key).isSome =
      ((child.get? key).isSome || (frame.get? key).isSome) := by
  rw [get?_merge frame h, Option.isSome_or, Option.isSome_map]

theorem tags_merge (frame : Frame) (h : child.Tidy) :
    (frame.merge child).tags = mark frame.tags child.tags.keys := by
  rw [tags_eq, get?_merge frame h, tags_eq child]
  cases hc : child.get? tagsKey with
  | none => rfl
  | some value =>
    obtain ⟨tags, rfl, _⟩ := h.tags value hc
    rfl

theorem nodup_addTags (h : frame.data.keys.Nodup) (names : List String) :
    (frame.addTags names).data.keys.Nodup := by
  induction names generalizing frame with
  | nil => exact h
  | cons name names ih => exact ih (Entries.nodup_keys_insert h tagsKey _)

theorem nodup_mergeEntry (h : frame.data.keys.Nodup) (entry : String × Value String) :
    (frame.mergeEntry entry).data.keys.Nodup := by
  unfold mergeEntry
  split
  · split
    · exact nodup_addTags h _
    · exact Entries.nodup_keys_insert h _ _
  · exact Entries.nodup_keys_insert h _ _

theorem nodup_mergeEntries (h : frame.data.keys.Nodup) (entries : Entries (Value String)) :
    (entries.foldl mergeEntry frame).data.keys.Nodup := by
  induction entries generalizing frame with
  | nil => exact h
  | cons entry entries ih => exact ih (nodup_mergeEntry h entry)

theorem nodup_merge (h : frame.data.keys.Nodup) (child : Frame) :
    (frame.merge child).data.keys.Nodup :=
  nodup_mergeEntries h child.data

theorem Tidy.merge (h : frame.Tidy) (hc : child.Tidy) : (frame.merge child).Tidy := by
  refine ⟨nodup_merge h.nodup child, fun value hv => ?_⟩
  rw [get?_merge frame hc] at hv
  cases hget : child.get? tagsKey with
  | none =>
    rw [hget] at hv
    exact h.tags value hv
  | some taken =>
    obtain ⟨tags, rfl, hne⟩ := hc.tags taken hget
    rw [hget] at hv
    cases hv
    exact ⟨_, rfl, mark_ne_nil (by simpa [Value.map?, Entries.keys] using hne)⟩

/-- What is taken over from a merged frame is taken over from its parts one after the other. -/
theorem takenOver_merge (h₁ : c₁.Tidy) (h₂ : c₂.Tidy) {v : Value String}
    (hv : c₂.get? key = some v) :
    p.takenOver key (c₁.takenOver key v) = (p.merge c₁).takenOver key v := by
  unfold takenOver
  by_cases hk : key = tagsKey
  · obtain ⟨tags, rfl, _⟩ := h₂.tags v (hk ▸ hv)
    simp only [if_pos hk, Value.map?, Option.getD_some, tags_merge p h₁, keys_mark, mark_addKeys]
  · simp only [if_neg hk]

theorem merge_assoc (hp : p.Tidy) (h₁ : c₁.Tidy) (h₂ : c₂.Tidy) :
    (p.merge c₁).merge c₂ = p.merge (c₁.merge c₂) := by
  have h₁₂ := h₁.merge h₂
  have hdata : ((p.merge c₁).merge c₂).data = (p.merge (c₁.merge c₂)).data := by
    refine Entries.eq_of_keys_of_get? (nodup_merge (nodup_merge hp.nodup c₁) c₂) ?_ fun key => ?_
    · rw [keys_merge _ h₂, keys_merge _ h₁, keys_merge _ h₁₂, keys_merge _ h₂,
        Entries.addKeys_assoc]
    · have hget : ((p.merge c₁).merge c₂).get? key = (p.merge (c₁.merge c₂)).get? key := by
        rw [get?_merge _ h₂, get?_merge _ h₁, get?_merge _ h₁₂, get?_merge _ h₂, ← Option.or_assoc]
        cases hv : c₂.get? key with
        | none => rfl
        | some v =>
          simp only [Option.map_some, Option.some_or, takenOver_merge h₁ h₂ hv]
      exact hget
  rw [merge_eq (p.merge c₁) c₂, merge_eq p (c₁.merge c₂)] at hdata ⊢
  dsimp only at hdata
  simp only [hdata, scope_merge, utterances_merge, signals_merge, List.append_assoc]

/-! ## Merging several frames -/

/-- Frames that are merged into one first and then into another one may as well be merged into it
one by one. -/
theorem merge_foldl (hp : p.Tidy) {base : Frame} (hb : base.Tidy) {frames : List Frame}
    (hf : ∀ child ∈ frames, child.Tidy) :
    p.merge (frames.foldl Frame.merge base) = (base :: frames).foldl Frame.merge p := by
  induction frames generalizing base with
  | nil => rfl
  | cons child frames ih =>
    obtain ⟨hc, hf⟩ := List.forall_mem_cons.mp hf
    rw [List.foldl_cons, ih (hb.merge hc) hf, List.foldl_cons, ← merge_assoc hp hb hc]
    rfl

theorem getLast?_filterMap_cons {α β : Type} (g : α → Option β) (a : α) (l : List α) :
    ((a :: l).filterMap g).getLast? = (l.filterMap g).getLast?.or (g a) := by
  cases hg : g a with
  | none => rw [List.filterMap_cons_none hg, Option.or_none]
  | some b =>
    rw [List.filterMap_cons_some hg, List.getLast?_cons]
    cases (l.filterMap g).getLast? <;> rfl

/-- Of several frames that hold a key the last one counts. -/
theorem get?_foldl_merge (frame : Frame) {frames : List Frame} (hf : ∀ child ∈ frames, child.Tidy)
    (hk : key ≠ tagsKey) :
    (frames.foldl Frame.merge frame).get? key =
      ((frame :: frames).filterMap (·.get? key)).getLast? := by
  induction frames generalizing frame with
  | nil =>
    rw [getLast?_filterMap_cons]
    rfl
  | cons child frames ih =>
    obtain ⟨hc, hf⟩ := List.forall_mem_cons.mp hf
    rw [List.foldl_cons, ih (frame.merge child) hf, getLast?_filterMap_cons,
      getLast?_filterMap_cons,
      getLast?_filterMap_cons, Option.or_assoc, get?_merge frame hc, takenOver_of_ne frame hk,
      Option.map_id]
    rfl

theorem isSome_get?_foldl_merge (frame : Frame) {frames : List Frame}
    (hf : ∀ child ∈ frames, child.Tidy) (h : ∃ holder ∈ frame :: frames, (holder.get? key).isSome) :
    ((frames.foldl Frame.merge frame).get? key).isSome := by
  induction frames generalizing frame with
  | nil => simpa using h
  | cons child frames ih =>
    obtain ⟨hc, hf⟩ := List.forall_mem_cons.mp hf
    refine ih (frame.merge child) hf ?_
    obtain ⟨holder, hmem, hholder⟩ := h
    rcases List.mem_cons.mp hmem with rfl | hmem
    · exact ⟨_, List.mem_cons_self, by simp [isSome_get?_merge _ hc, hholder]⟩
    · rcases List.mem_cons.mp hmem with rfl | hmem
      · exact ⟨_, List.mem_cons_self, by simp [isSome_get?_merge _ hc, hholder]⟩
      · exact ⟨holder, List.mem_cons_of_mem _ hmem, hholder⟩

end Frame

end GlyphScript
