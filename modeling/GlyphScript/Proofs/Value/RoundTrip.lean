import GlyphScript.Program.Json
import GlyphScript.Proofs.Json.Records
import GlyphScript.Proofs.Value.Parts

/-! # Values written and read back

Texts are written as bare numbers, so a list or an entry `__num` that holds nothing but a text looks
like a number, and a number that is not finite is lost. `Value.reread` says what comes back of any
value, and nothing else is misread.
-/

namespace GlyphScript

theorem Number.same_self (x : Float) : Number.same x x := by
  change (x.toModel.unpack.beq x.toModel.unpack ||
      (x.toModel.unpack.isNaN && x.toModel.unpack.isNaN)) = true
  cases x.toModel.unpack with
  | notANumber => rfl
  | infinity sign => cases sign <;> rfl
  | zero sign => rfl
  | finite sign mantissa exponent _ =>
    have hsame : (compare exponent exponent).then (compare mantissa mantissa) = .eq := by simp
    cases sign with
    | positive =>
      change
        (some ((compare exponent exponent).then (compare mantissa mantissa)) == some .eq || false)
          = true
      rw [hsame]
      rfl
    | negative =>
      change (some ((compare exponent exponent).then (compare mantissa mantissa)).swap ==
          some .eq || false) = true
      rw [hsame]
      rfl

namespace Value

open Instruction (placeToJson)

/-- Whether a value looks like another one when it is written. -/
def isAmbiguous : Value TextId → Bool
  | .number x => !Number.isFinite x
  | .list [.text _] => true
  | .map [("__num", .text _)] => true
  | _ => false

def isClear (v : Value TextId) : Bool := v.everywhere (!·.isAmbiguous)

/-- The number that a list or a map looks like when it is written. -/
def likeNumber? : Value TextId → Option Float
  | .list [.text i] => some (Float.ofInt i)
  | .map [("__num", .text i)] => some (Float.ofInt i)
  | _ => none

mutual

def reread : Value TextId → Value TextId
  | .number x => if Number.isFinite x then .number x else .map [("__num", .null)]
  | .list items =>
    match likeNumber? (.list items) with
    | some x => .number x
    | none => .list (rereadItems items)
  | .map entries =>
    match likeNumber? (.map entries) with
    | some x => .number x
    | none => .map (rereadEntries entries)
  | v => v

def rereadItems : List (Value TextId) → List (Value TextId)
  | [] => []
  | v :: vs => reread v :: rereadItems vs

def rereadEntries : List (String × Value TextId) → List (String × Value TextId)
  | [] => []
  | (k, v) :: vs => (k, reread v) :: rereadEntries vs

end

/-- A text whose place fits in a machine word, or a map without repeated keys. -/
def isStorable : Value TextId → Bool
  | .text i => i < Nat.pow 2 64
  | .map entries => (Entries.keys entries).Nodup
  | _ => true

def Storable (v : Value TextId) : Prop := v.everywhere isStorable

theorem storable_list {items : List (Value TextId)} (h : (Value.list items).Storable) :
    ∀ v ∈ items, v.Storable :=
  ((everywhere_list _).mp h).2

theorem storable_map {entries : List (String × Value TextId)} (h : (Value.map entries).Storable) :
    (Entries.keys entries).Nodup ∧ ∀ k v, (k, v) ∈ entries → v.Storable := by
  obtain ⟨hkeys, hentries⟩ := (everywhere_map _).mp h
  exact ⟨of_decide_eq_true hkeys, hentries⟩

theorem isClear_list (items : List (Value TextId)) :
    (Value.list items).isClear ↔ likeNumber? (.list items) = none ∧ ∀ v ∈ items, v.isClear := by
  have hhead : isAmbiguous (.list items) = (likeNumber? (.list items)).isSome := by
    unfold isAmbiguous likeNumber?
    split <;> simp_all
  rw [isClear, everywhere_list, hhead]
  simp [isClear]

theorem isClear_map (entries : List (String × Value TextId)) :
    (Value.map entries).isClear ↔ likeNumber? (.map entries) = none ∧ ∀ k v, (k, v) ∈ entries →
      v.isClear := by
  have hhead : isAmbiguous (.map entries) = (likeNumber? (.map entries)).isSome := by
    unfold isAmbiguous likeNumber?
    split <;> simp_all
  rw [isClear, everywhere_map, hhead]
  simp [isClear]

theorem rereadEntries_eq (entries : List (String × Value TextId)) :
    rereadEntries entries = entries.map fun e => (e.1, e.2.reread) := by
  induction entries with
  | nil => rfl
  | cons e es ih => rw [rereadEntries, ih, List.map_cons]

theorem toJsonFields_eq {S : Type} (ofText : S → Json) (entries : List (String × Value S)) :
    toJsonFields ofText entries = entries.map fun e => (e.1, e.2.toJson ofText) := by
  induction entries with
  | nil => rfl
  | cons e es ih => rw [toJsonFields, ih, List.map_cons]

theorem length_rereadEntries (entries : List (String × Value TextId)) :
    (rereadEntries entries).length = entries.length := by
  simp [rereadEntries_eq]

theorem keys_rereadEntries (entries : List (String × Value TextId)) :
    Entries.keys (rereadEntries entries) = Entries.keys entries := by
  simp [rereadEntries_eq, Entries.keys, Function.comp_def]

theorem get?_rereadEntries {entries : List (String × Value TextId)}
    (hk : (Entries.keys entries).Nodup) {k : String} {v : Value TextId} (h : (k, v) ∈ entries) :
    Entries.get? (rereadEntries entries) k = some v.reread := by
  refine Entries.get?_of_mem (keys_rereadEntries entries ▸ hk) ?_
  rw [rereadEntries_eq]
  exact List.mem_map.mpr ⟨(k, v), h, rfl⟩

/-! ## Reading -/

theorem toJson_ne_str (v : Value TextId) (s : String) : v.toJson placeToJson ≠ .str s := by
  cases v <;> simp [toJson, placeToJson]

theorem str_not_mem_toJsonItems (items : List (Value TextId)) (s : String) :
    .str s ∉ toJsonItems placeToJson items := by
  induction items with
  | nil => simp [toJsonItems]
  | cons v vs ih => simp [toJsonItems, ih, (toJson_ne_str v s).symm]

theorem str_not_mem_toJsonFields (entries : List (String × Value TextId)) (k s : String) :
    (k, .str s) ∉ toJsonFields placeToJson entries := by
  rw [toJsonFields_eq]
  intro h
  obtain ⟨e, _, he⟩ := List.mem_map.mp h
  exact toJson_ne_str e.2 s (Prod.mk.inj he).2

/-- The code of a lambda is the only string that is written, so no list is taken for a lambda. -/
theorem lambdaCode?_items (items : List (Value TextId)) :
    lambdaCode? (.arr (toJsonItems placeToJson items)) = none := by
  unfold lambdaCode?
  split
  · next kind code he =>
    have hmem : .str code ∈ toJsonItems placeToJson items := by simp [Json.arr.inj he]
    exact absurd hmem (str_not_mem_toJsonItems items code)
  · next he => cases he
  · next he => cases he
  · rfl

theorem lambdaCode?_fields (entries : List (String × Value TextId)) :
    lambdaCode? (.obj (toJsonFields placeToJson entries)) = none := by
  unfold lambdaCode?
  split
  · next he => cases he
  · next kind code he =>
    have hmem : ("code", .str code) ∈ toJsonFields placeToJson entries := by simp [Json.obj.inj he]
    exact absurd hmem (str_not_mem_toJsonFields entries "code" code)
  · next code kind he =>
    have hmem : ("code", .str code) ∈ toJsonFields placeToJson entries := by simp [Json.obj.inj he]
    exact absurd hmem (str_not_mem_toJsonFields entries "code" code)
  · rfl

/-- Of the lists only one with a single text is taken for a number. -/
theorem wrappedNumber?_items (items : List (Value TextId)) :
    wrappedNumber? (.arr (toJsonItems placeToJson items)) = likeNumber? (.list items) := by
  rcases items with _ | ⟨v, _ | ⟨w, rest⟩⟩
  · rfl
  · cases v <;> rfl
  · cases v <;> rfl

theorem wrappedNumber?_fields (entries : List (String × Value TextId)) :
    wrappedNumber? (.obj (toJsonFields placeToJson entries)) = likeNumber? (.map entries) := by
  rcases entries with _ | ⟨⟨k, v⟩, _ | ⟨e, rest⟩⟩
  · rfl
  · by_cases hk : k = "__num"
    · subst hk
      cases v <;> rfl
    · cases v <;> simp [toJsonFields, wrappedNumber?, likeNumber?, hk]
  · simp [toJsonFields, wrappedNumber?, likeNumber?]

mutual

theorem ofJson?_toJson : ∀ v : Value TextId, v.Storable →
    ofJson? Json.natural? (v.toJson placeToJson) = some v.reread
  | .null, _ => rfl
  | .bool _, _ => rfl
  | .text i, h => by
    have hi : Json.natural? (.int i) = some i := Json.natural?_int (of_decide_eq_true h)
    simp [toJson, placeToJson, ofJson?, hi, reread]
  | .number x, _ => by
    by_cases hx : Number.isFinite x
    · simp [toJson, Json.ofFloat, hx, ofJson?, wrappedNumber?, Json.number?, reread]
    · simp [toJson, Json.ofFloat, hx, ofJson?, ofJsonFields?, wrappedNumber?, lambdaCode?,
        Json.number?, reread, Entries.ofList, Entries.insertAll, Entries.insert]
  | .lambda code, _ => by
    simp [toJson, ofJson?, wrappedNumber?, lambdaCode?, isLambdaKind, Json.choice?, reread]
  | .list items, h => by
    rw [toJson, ofJson?, lambdaCode?_items, wrappedNumber?_items, reread]
    cases likeNumber? (.list items) with
    | some x => rfl
    | none => simp [ofJsonItems?_toJsonItems items (storable_list h)]
  | .map entries, h => by
    obtain ⟨hkeys, hentries⟩ := storable_map h
    rw [toJson, ofJson?, lambdaCode?_fields, wrappedNumber?_fields, reread]
    cases likeNumber? (.map entries) with
    | some x => rfl
    | none =>
      have hlist : Entries.ofList (rereadEntries entries) = rereadEntries entries :=
        Entries.ofList_of_nodup (keys_rereadEntries entries ▸ hkeys)
      simp [ofJsonFields?_toJsonFields entries hentries, hlist]

theorem ofJsonItems?_toJsonItems : ∀ items : List (Value TextId), (∀ v ∈ items, v.Storable) →
    ofJsonItems? Json.natural? (toJsonItems placeToJson items) = some (rereadItems items)
  | [], _ => rfl
  | v :: vs, h => by
    obtain ⟨hv, hvs⟩ := List.forall_mem_cons.mp h
    simp [toJsonItems, ofJsonItems?, rereadItems, ofJson?_toJson v hv,
      ofJsonItems?_toJsonItems vs hvs]

theorem ofJsonFields?_toJsonFields : ∀ entries : List (String × Value TextId),
    (∀ k v, (k, v) ∈ entries → v.Storable) →
    ofJsonFields? Json.natural? (toJsonFields placeToJson entries) = some (rereadEntries entries)
  | [], _ => rfl
  | (k, v) :: vs, h => by
    have hv := ofJson?_toJson v (h k v List.mem_cons_self)
    have hvs :=
      ofJsonFields?_toJsonFields vs fun k' v' hmem => h k' v' (List.mem_cons_of_mem _ hmem)
    simp [toJsonFields, ofJsonFields?, rereadEntries, hv, hvs]

end

/-! ## Comparing -/

mutual

theorem reread_of_isClear : ∀ v : Value TextId, v.isClear → v.reread = v
  | .null, _ => rfl
  | .bool _, _ => rfl
  | .text _, _ => rfl
  | .lambda _, _ => rfl
  | .number x, h => by
    have hx : Number.isFinite x := by simpa [isClear, everywhere, isAmbiguous] using h
    rw [reread, if_pos hx]
  | .list items, h => by
    obtain ⟨hlike, hitems⟩ := (isClear_list items).mp h
    rw [reread, hlike, rereadItems_of_isClear items hitems]
  | .map entries, h => by
    obtain ⟨hlike, hentries⟩ := (isClear_map entries).mp h
    rw [reread, hlike, rereadEntries_of_isClear entries hentries]

theorem rereadItems_of_isClear :
    ∀ items : List (Value TextId), (∀ v ∈ items, v.isClear) → rereadItems items = items
  | [], _ => rfl
  | v :: vs, h => by
    obtain ⟨hv, hvs⟩ := List.forall_mem_cons.mp h
    rw [rereadItems, reread_of_isClear v hv, rereadItems_of_isClear vs hvs]

theorem rereadEntries_of_isClear : ∀ entries : List (String × Value TextId),
    (∀ k v, (k, v) ∈ entries → v.isClear) → rereadEntries entries = entries
  | [], _ => rfl
  | (k, v) :: vs, h => by
    have hv := reread_of_isClear v (h k v List.mem_cons_self)
    have hvs := rereadEntries_of_isClear vs fun k' v' hmem => h k' v' (List.mem_cons_of_mem _ hmem)
    rw [rereadEntries, hv, hvs]

end

mutual

theorem same_reread_iff : ∀ v : Value TextId, v.Storable → (v.same v.reread ↔ v.isClear)
  | .null, _ => ⟨fun _ => rfl, fun _ => rfl⟩
  | .bool b, _ => by simp [reread, same, isClear, everywhere, isAmbiguous]
  | .text i, _ => by simp [reread, same, isClear, everywhere, isAmbiguous]
  | .lambda code, _ => by simp [reread, same, isClear, everywhere, isAmbiguous]
  | .number x, _ => by
    by_cases hx : Number.isFinite x
    · rw [reread, if_pos hx]
      simp [same, Number.same_self, isClear, everywhere, isAmbiguous, hx]
    · rw [reread, if_neg hx]
      simp [same, isClear, everywhere, isAmbiguous, hx]
  | .list items, h => by
    rw [isClear_list, reread]
    cases likeNumber? (.list items) with
    | some x => simp [same]
    | none => simpa [same] using sameItems_reread_iff items (storable_list h)
  | .map entries, h => by
    obtain ⟨hkeys, hentries⟩ := storable_map h
    rw [isClear_map, reread]
    cases likeNumber? (.map entries) with
    | some x => simp [same]
    | none =>
      have hiff := sameEntries_reread_iff entries (rereadEntries entries) hentries fun _ _ =>
        get?_rereadEntries hkeys
      simpa [same, length_rereadEntries] using hiff

theorem sameItems_reread_iff : ∀ items : List (Value TextId), (∀ v ∈ items, v.Storable) →
    (sameItems items (rereadItems items) ↔ ∀ v ∈ items, v.isClear)
  | [], _ => by simp [rereadItems, sameItems]
  | v :: vs, h => by
    obtain ⟨hv, hvs⟩ := List.forall_mem_cons.mp h
    rw [rereadItems, sameItems, Bool.and_eq_true, same_reread_iff v hv, sameItems_reread_iff vs hvs,
      List.forall_mem_cons]

theorem sameEntries_reread_iff : ∀ entries ws : List (String × Value TextId),
    (∀ k v, (k, v) ∈ entries → v.Storable) →
    (∀ k v, (k, v) ∈ entries → Entries.get? ws k = some v.reread) →
    (sameEntries entries ws ↔ ∀ k v, (k, v) ∈ entries → v.isClear)
  | [], ws, _, _ => by simp [sameEntries]
  | (k, v) :: vs, ws, h, hget => by
    have hv := same_reread_iff v (h k v List.mem_cons_self)
    have hvs :=
      sameEntries_reread_iff vs ws (fun k' v' hmem => h k' v' (List.mem_cons_of_mem _ hmem))
      fun k' v' hmem => hget k' v' (List.mem_cons_of_mem _ hmem)
    simp only [sameEntries, hget k v List.mem_cons_self, Bool.and_eq_true, hv, hvs, List.mem_cons,
      Prod.mk.injEq]
    constructor
    · rintro ⟨hclear, hrest⟩ k' v' (⟨rfl, rfl⟩ | hmem)
      · exact hclear
      · exact hrest k' v' hmem
    · intro hall
      exact ⟨hall k v (.inl ⟨rfl, rfl⟩), fun k' v' hmem => hall k' v' (.inr hmem)⟩

end

end Value

end GlyphScript
