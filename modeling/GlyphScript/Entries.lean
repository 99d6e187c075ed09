/-! # Entries in insertion order

A small map from names to values. Writing an existing key keeps its place, a new key goes to the
end.
-/

namespace GlyphScript

abbrev Entries (α : Type) := List (String × α)

namespace Entries

variable {α β : Type}

def get? (m : Entries α) (key : String) : Option α := m.lookup key

def contains (m : Entries α) (key : String) : Bool := (m.get? key).isSome

def keys (m : Entries α) : List String := m.map Prod.fst

def insert : Entries α → String → α → Entries α
  | [], key, value => [(key, value)]
  | (k, v) :: rest, key, value =>
    if k = key then (k, value) :: rest else (k, v) :: insert rest key value

def insertAll (m : Entries α) (pairs : List (String × α)) : Entries α :=
  pairs.foldl (fun m (key, value) => m.insert key value) m

/-- The entries written one after the other. -/
def ofList (pairs : List (String × α)) : Entries α := insertAll [] pairs

@[simp] theorem get?_nil (key : String) : get? ([] : Entries α) key = none := rfl

theorem get?_cons (k key : String) (v : α) (m : Entries α) :
    get? ((k, v) :: m) key = if key = k then some v else m.get? key := by
  rw [get?, List.lookup_cons]
  by_cases h : key = k
  · rw [if_pos h, beq_iff_eq.mpr h]
  · rw [if_neg h, beq_eq_false_iff_ne.mpr h]
    rfl

theorem get?_insert (m : Entries α) (k key : String) (v : α) :
    (m.insert k v).get? key = if key = k then some v else m.get? key := by
  induction m with
  | nil => simp [insert, get?_cons]
  | cons e m ih =>
    obtain ⟨k', v'⟩ := e
    by_cases h : k' = k
    · subst h
      by_cases hk : key = k' <;> simp [insert, get?_cons, hk]
    · by_cases hk : key = k'
      · have : ¬ key = k := by rintro rfl; exact h hk.symm
        simp [insert, h, get?_cons, hk]
      · simp [insert, h, get?_cons, hk, ih]

/-- A new key goes to the end, an old one keeps its place. -/
theorem keys_insert (m : Entries α) (k : String) (v : α) :
    (m.insert k v).keys = if k ∈ m.keys then m.keys else m.keys ++ [k] := by
  induction m with
  | nil => simp [insert, keys]
  | cons e m ih =>
    obtain ⟨k', v'⟩ := e
    by_cases h : k' = k
    · subst h; simp [insert, keys]
    · have ih' : (insert m k v).map Prod.fst = if k ∈ m.map Prod.fst then m.map Prod.fst
          else m.map Prod.fst ++ [k] := ih
      have hk : ¬ k = k' := fun e => h e.symm
      by_cases hm : k ∈ m.map Prod.fst
      · simp [insert, keys, h, ih', hm]
      · simp [insert, keys, h, hk, ih', hm]

theorem keys_prefix_insert (m : Entries α) (k : String) (v : α) :
    m.keys <+: (m.insert k v).keys := by
  rw [keys_insert]
  split
  · exact List.prefix_rfl
  · exact List.prefix_append _ _

theorem mem_keys_insert (m : Entries α) (k : String) (v : α) : k ∈ (m.insert k v).keys := by
  rw [keys_insert]
  split
  · assumption
  · simp

theorem mem_of_get? {m : Entries α} {key : String} {v : α} (h : m.get? key = some v) :
    (key, v) ∈ m := by
  obtain ⟨before, after, rfl, _⟩ := List.lookup_eq_some_iff.mp h
  simp

theorem mem_insert {m : Entries α} {k key : String} {v w : α} (h : (key, w) ∈ m.insert k v) :
    (key = k ∧ w = v) ∨ (key, w) ∈ m := by
  induction m with
  | nil => simpa [insert] using h
  | cons e m ih =>
    obtain ⟨k', v'⟩ := e
    by_cases hk : k' = k
    · subst hk
      simp only [insert, if_pos, List.mem_cons, Prod.mk.injEq] at h ⊢
      rcases h with h | h
      · exact .inl h
      · exact .inr (.inr h)
    · simp only [insert, if_neg hk, List.mem_cons] at h ⊢
      rcases h with h | h
      · exact .inr (.inl h)
      · rcases ih h with hnew | hold
        · exact .inl hnew
        · exact .inr (.inr hold)

theorem get?_eq_none_iff (m : Entries α) (key : String) : m.get? key = none ↔ key ∉ m.keys := by
  induction m with
  | nil => simp [keys]
  | cons e m ih =>
    obtain ⟨k, v⟩ := e
    have ih' : get? m key = none ↔ key ∉ m.map Prod.fst := ih
    by_cases h : key = k
    · simp [get?_cons, keys, h]
    · simp [get?_cons, keys, h, ih']

theorem insert_of_not_mem {m : Entries α} {k : String} (h : k ∉ m.keys) (v : α) :
    m.insert k v = m ++ [(k, v)] := by
  induction m with
  | nil => rfl
  | cons e m ih =>
    obtain ⟨k', v'⟩ := e
    simp only [keys, List.map_cons, List.mem_cons, not_or] at h
    rw [insert, if_neg fun he => h.1 he.symm, ih h.2, List.cons_append]

theorem nodup_keys_insert {m : Entries α} (h : m.keys.Nodup) (k : String) (v : α) :
    (m.insert k v).keys.Nodup := by
  rw [keys_insert]
  split
  · exact h
  · next hk =>
    refine List.nodup_append.mpr ⟨h, by simp, ?_⟩
    intro a ha b hb
    obtain rfl := List.mem_singleton.mp hb
    rintro rfl
    exact hk ha

theorem nodup_keys_ofList (pairs : List (String × α)) : (ofList pairs).keys.Nodup := by
  have hall : ∀ m : Entries α, m.keys.Nodup → (insertAll m pairs).keys.Nodup := by
    induction pairs with
    | nil => exact fun m h => h
    | cons pair pairs ih => exact fun m h => ih _ (nodup_keys_insert h pair.1 pair.2)
  exact hall [] List.nodup_nil

theorem mem_of_mem_ofList {pairs : List (String × α)} {k : String} {v : α}
    (h : (k, v) ∈ ofList pairs) : (k, v) ∈ pairs := by
  have hall : ∀ m : Entries α, (k, v) ∈ insertAll m pairs → (k, v) ∈ m ∨ (k, v) ∈ pairs := by
    clear h
    induction pairs with
    | nil => exact fun m h => .inl h
    | cons pair pairs ih =>
      intro m h
      rcases ih _ h with h | h
      · rcases mem_insert h with ⟨rfl, rfl⟩ | h
        · exact .inr List.mem_cons_self
        · exact .inl h
      · exact .inr (List.mem_cons_of_mem _ h)
  rcases hall [] h with h | h
  · cases h
  · exact h

/-- Entries with different keys stay as they are. -/
theorem ofList_of_nodup {pairs : List (String × α)} (h : (keys pairs).Nodup) :
    ofList pairs = pairs := by
  have hall : ∀ m : Entries α, (keys (m ++ pairs)).Nodup → insertAll m pairs = m ++ pairs := by
    clear h
    induction pairs with
    | nil => simp [insertAll]
    | cons pair pairs ih =>
      obtain ⟨k, v⟩ := pair
      intro m h
      have hk : k ∉ m.keys := by
        simp only [keys, List.map_append, List.map_cons] at h ⊢
        intro hmem
        exact (List.nodup_append.mp h).2.2 k hmem k List.mem_cons_self rfl
      have hstep := ih (m.insert k v) (by rw [insert_of_not_mem hk]; simpa using h)
      rw [insert_of_not_mem hk] at hstep
      simpa [insertAll, insert_of_not_mem hk] using hstep
  exact hall [] h

theorem get?_of_mem {m : Entries α} (h : m.keys.Nodup) {k : String} {v : α} (hmem : (k, v) ∈ m) :
    m.get? k = some v := by
  induction m with
  | nil => cases hmem
  | cons e m ih =>
    obtain ⟨k', v'⟩ := e
    obtain ⟨hnew, hm⟩ := List.nodup_cons.mp h
    rw [get?_cons]
    rcases List.mem_cons.mp hmem with he | hrest
    · cases he
      exact if_pos rfl
    · have hne : k ≠ k' := by
        rintro rfl
        exact hnew (List.mem_map.mpr ⟨(k, v), hrest, rfl⟩)
      rw [if_neg hne]
      exact ih hm hrest

end Entries

end GlyphScript
