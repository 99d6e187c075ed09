import GlyphScript.Json.Record

/-! # Reading back what was written

A record whose fields were written in their order has all its fields, and numbers that fit in a
machine word are read as they are. Lists and objects are read back item by item.
-/

namespace GlyphScript

theorem mapM_map_eq_some {α β γ : Type} {read : β → Option γ} {write : α → β} {g : α → γ}
    {l : List α} (h : ∀ a ∈ l, read (write a) = some (g a)) :
    (l.map write).mapM read = some (l.map g) := by
  induction l with
  | nil => rfl
  | cons a l ih =>
    obtain ⟨ha, hl⟩ := List.forall_mem_cons.mp h
    simp [ha, ih hl]

namespace Json

def InWord (n : Int) : Prop := -(Nat.pow 2 63 : Nat) ≤ n ∧ n < (Nat.pow 2 63 : Nat)

theorem natural?_int {n : Nat} (h : n < Nat.pow 2 64) : natural? (.int n) = some n := by
  simp only [natural?, Int.toNat_natCast]
  exact if_pos ⟨Int.natCast_nonneg n, h⟩

theorem integer?_int {n : Int} (h : InWord n) : integer? (.int n) = some n := if_pos h

theorem record?_obj {names : List String} (hn : names.Nodup) {fields : Entries Json}
    (hs : fields.keys.Sublist names) : record? names (.obj fields) = some fields := by
  have hknown : (fields.filter fun field => names.contains field.1) = fields := by
    refine List.filter_eq_self.mpr fun field hf => ?_
    exact List.contains_iff_mem.mpr (hs.subset (List.mem_map_of_mem (f := Prod.fst) hf))
  simp only [record?, hknown]
  exact if_pos (hs.nodup hn)

/-- A field that is only written if there is something to write. -/
theorem defaulted?_optional {α : Type} {fields : Entries Json} {name : String} {o : Option α}
    {read : Json → Option α} (write : α → Json) (hget : fields.get? name = o.map write)
    (hread : ∀ a ∈ o, nullable? read (write a) = some (some a)) :
    defaulted? fields name none (nullable? read) = some o := by
  rw [defaulted?, hget]
  cases o with
  | none => rfl
  | some a => exact hread a rfl

theorem items?_arr {α : Type} {read : Json → Option α} {write : α → Json} {l : List α}
    (h : ∀ a ∈ l, read (write a) = some a) : items? read (.arr (l.map write)) = some l := by
  rw [items?, mapM_map_eq_some h, List.map_id']

theorem entries?_obj {α β : Type} {read : Json → Option β} {write : α → Json} {g : α → β}
    {m : Entries α} (hk : m.keys.Nodup) (h : ∀ k a, (k, a) ∈ m → read (write a) = some (g a)) :
    entries? read (.obj (m.map fun e => (e.1, write e.2))) =
      some (m.map fun e => (e.1, g e.2)) := by
  have hread : ∀ e ∈ m, (read (write e.2)).map (Prod.mk e.1) = some (e.1, g e.2) := by
    rintro ⟨k, a⟩ he
    rw [h k a he, Option.map_some]
  have hkeys : Entries.keys (m.map fun e => (e.1, g e.2)) = m.keys := by
    simp [Entries.keys, Function.comp_def]
  rw [entries?, mapM_map_eq_some (g := fun e => (e.1, g e.2)) hread, Option.map_some,
    Entries.ofList_of_nodup]
  rw [hkeys]
  exact hk

end Json

end GlyphScript
