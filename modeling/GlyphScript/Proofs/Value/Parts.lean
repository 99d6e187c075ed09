import GlyphScript.Value.Basic

/-! # Values at any depth

A test holds everywhere in a value if it holds of the value and of all items and entries in it.
-/

namespace GlyphScript.Value

variable {S : Type} {p : Value S → Bool}

mutual

/-- Whether a test holds of a value and of all that is in it. -/
def everywhere (p : Value S → Bool) : Value S → Bool
  | .list items => p (.list items) && everywhereItems p items
  | .map entries => p (.map entries) && everywhereEntries p entries
  | v => p v

def everywhereItems (p : Value S → Bool) : List (Value S) → Bool
  | [] => true
  | v :: vs => everywhere p v && everywhereItems p vs

def everywhereEntries (p : Value S → Bool) : List (String × Value S) → Bool
  | [] => true
  | (_, v) :: vs => everywhere p v && everywhereEntries p vs

end

theorem everywhereItems_iff (items : List (Value S)) :
    everywhereItems p items ↔ ∀ v ∈ items, v.everywhere p := by
  induction items with
  | nil => simp [everywhereItems]
  | cons v vs ih => simp [everywhereItems, ih]

theorem everywhereEntries_iff (entries : List (String × Value S)) :
    everywhereEntries p entries ↔ ∀ k v, (k, v) ∈ entries → v.everywhere p := by
  induction entries with
  | nil => simp [everywhereEntries]
  | cons e es ih =>
    obtain ⟨k, v⟩ := e
    simp only [everywhereEntries, Bool.and_eq_true, ih, List.mem_cons, Prod.mk.injEq]
    constructor
    · rintro ⟨hv, hes⟩ k' v' (⟨rfl, rfl⟩ | hmem)
      · exact hv
      · exact hes k' v' hmem
    · intro h
      exact ⟨h k v (.inl ⟨rfl, rfl⟩), fun k' v' hmem => h k' v' (.inr hmem)⟩

theorem everywhere_list (items : List (Value S)) :
    (Value.list items).everywhere p ↔ p (.list items) ∧ ∀ v ∈ items, v.everywhere p := by
  rw [everywhere, Bool.and_eq_true, everywhereItems_iff]

theorem everywhere_map (entries : List (String × Value S)) :
    (Value.map entries).everywhere p ↔
      p (.map entries) ∧ ∀ k v, (k, v) ∈ entries → v.everywhere p := by
  rw [everywhere, Bool.and_eq_true, everywhereEntries_iff]

def isLambda : Value S → Bool
  | .lambda _ => true
  | _ => false

def isPlain (v : Value S) : Bool := v.everywhere (!·.isLambda)

@[simp] theorem isPlain_null : (Value.null : Value S).isPlain := rfl

@[simp] theorem isPlain_bool (b : Bool) : (Value.bool b : Value S).isPlain := rfl

@[simp] theorem isPlain_text (s : S) : (Value.text s).isPlain := rfl

@[simp] theorem isPlain_number (x : Float) : (Value.number x : Value S).isPlain := rfl

@[simp] theorem not_isPlain_lambda (code : String) :
    (Value.lambda code : Value S).isPlain = false := rfl

@[simp] theorem isPlain_list (items : List (Value S)) :
    (Value.list items).isPlain ↔ ∀ v ∈ items, v.isPlain := by
  simp [isPlain, everywhere_list, isLambda]

@[simp] theorem isPlain_map (entries : List (String × Value S)) :
    (Value.map entries).isPlain ↔ ∀ k v, (k, v) ∈ entries → v.isPlain := by
  simp [isPlain, everywhere_map, isLambda]

theorem isPlain_getD {v : Option (Value S)} {w : Value S} (hv : ∀ u ∈ v, u.isPlain)
    (hw : w.isPlain) : (v.getD w).isPlain := by
  cases v with
  | none => exact hw
  | some u => exact hv u rfl

theorem isPlain_or {v w : Option (Value S)} (hv : ∀ u ∈ v, u.isPlain) (hw : ∀ u ∈ w, u.isPlain) :
    ∀ u ∈ v.or w, u.isPlain := by
  cases v with
  | none => simpa using hw
  | some x => simpa using hv

end GlyphScript.Value
