import GlyphScript.Program.Json
import GlyphScript.Proofs.Json.Records

/-! # Tags written and read back

A tag is read with as many levels as its tree is deep, which is enough for the tags inside it.
-/

namespace GlyphScript

namespace Json

theorem depth_le_depthFields {fields : List (String × Json)} {k : String} {j : Json}
    (h : (k, j) ∈ fields) : j.depth ≤ depthFields fields := by
  induction fields with
  | nil => cases h
  | cons f fs ih =>
    obtain ⟨k', j'⟩ := f
    rw [depthFields]
    rcases List.mem_cons.mp h with he | h
    · cases he
      exact Nat.le_max_left _ _
    · exact Nat.le_trans (ih h) (Nat.le_max_right _ _)

end Json

namespace Tag

open Instruction (placeToJson)

mutual

def Storable : Tag TextId → Prop
  | ⟨root, _, segments, _, _, address⟩ =>
    root < Nat.pow 2 64 ∧ SegmentsStorable segments ∧ Json.InWord address

def SegmentStorable : Segment TextId → Prop
  | .name s => s < Nat.pow 2 64
  | .nested tag => Storable tag

def SegmentsStorable : List (Segment TextId) → Prop
  | [] => True
  | s :: rest => SegmentStorable s ∧ SegmentsStorable rest

end

theorem choice?_kind (kind : TagKind) :
    Json.choice? TagKind.ofName? (.str kind.name) = some kind := by
  cases kind <;> rfl

def writtenFields (tag : Tag TextId) : Entries Json :=
  [("root", placeToJson tag.root), ("kind", .str tag.kind.name),
      ("segments", .arr (segmentsToJson placeToJson tag.segments))]
    ++ (tag.written.map fun s => ("original", Json.str s)).toList
    ++ (tag.target.map fun s => ("target", Json.str s)).toList
    ++ [("address", .int tag.address)]

theorem toJson_eq (tag : Tag TextId) : tag.toJson placeToJson = .obj tag.writtenFields := by
  cases tag
  rfl

theorem record?_toJson (tag : Tag TextId) :
    Json.record? fieldNames (tag.toJson placeToJson) = some tag.writtenFields := by
  rw [toJson_eq]
  refine Json.record?_obj (by decide) ?_
  cases hw : tag.written <;> cases ht : tag.target <;>
    simp [writtenFields, hw, ht, Entries.keys, fieldNames]

/-- Where each field stands among those that are written. -/
theorem get?_writtenFields (tag : Tag TextId) :
    tag.writtenFields.get? "root" = some (placeToJson tag.root) ∧
      tag.writtenFields.get? "kind" = some (.str tag.kind.name) ∧
      tag.writtenFields.get? "segments" = some (.arr (segmentsToJson placeToJson tag.segments)) ∧
      tag.writtenFields.get? "original" = tag.written.map .str ∧
      tag.writtenFields.get? "target" = tag.target.map .str ∧
      tag.writtenFields.get? "address" = some (.int tag.address) := by
  cases hw : tag.written <;> cases ht : tag.target <;>
    simp [writtenFields, hw, ht, Entries.get?_cons]

/-- Reads a name, or a tag nested up to the given level. -/
def segmentAt? (level : Nat) (item : Json) : Option (Segment TextId) :=
  match Json.natural? item with
  | some s => some (.name s)
  | none => (ofJsonAt? Json.natural? level item).map .nested

/-- A tag is read back if its segments are. -/
theorem ofJsonAt?_of_segments {tag : Tag TextId} {level : Nat} (hroot : tag.root < Nat.pow 2 64)
    (haddress : Json.InWord tag.address)
    (hsegments : (segmentsToJson placeToJson tag.segments).mapM (segmentAt? level) =
      some tag.segments) :
    ofJsonAt? Json.natural? (level + 1) (tag.toJson placeToJson) = some tag := by
  obtain ⟨hgroot, hgkind, hgsegments, hgwritten, hgtarget, hgaddress⟩ := tag.get?_writtenFields
  have hroot' : Json.required? tag.writtenFields "root" Json.natural? = some tag.root := by
    rw [Json.required?, hgroot, Option.bind_some, placeToJson, Json.natural?_int hroot]
  have hkind : Json.required? tag.writtenFields "kind" (Json.choice? TagKind.ofName?) =
      some tag.kind := by
    rw [Json.required?, hgkind, Option.bind_some, choice?_kind]
  have hsegs : Json.defaulted? tag.writtenFields "segments" [] (Json.items? (segmentAt? level)) =
      some tag.segments := by
    simp only [Json.defaulted?, hgsegments, Json.items?, hsegments]
  have hwritten : Json.defaulted? tag.writtenFields "original" none (Json.nullable? Json.text?) =
      some tag.written :=
    Json.defaulted?_optional Json.str hgwritten fun s _ => rfl
  have htarget : Json.defaulted? tag.writtenFields "target" none (Json.nullable? Json.text?) =
      some tag.target :=
    Json.defaulted?_optional Json.str hgtarget fun s _ => rfl
  have haddress' : Json.defaulted? tag.writtenFields "address" (-1) Json.integer? =
      some tag.address := by
    simp only [Json.defaulted?, hgaddress, Json.integer?_int haddress]
  have hread : ∀ read, (∀ item, read item = segmentAt? level item) →
      Json.items? read = Json.items? (segmentAt? level) :=
      fun _ h => congrArg Json.items? (funext h)
  unfold ofJsonAt?
  simp only [record?_toJson, Option.bind_eq_bind, Option.bind_some, hroot', hkind]
  rw [hread]
  · simp only [hsegs, hwritten, htarget, haddress', Option.bind_some]
    cases tag
    rfl
  · intro item
    unfold segmentAt?
    cases Json.natural? item <;> rfl

mutual

theorem ofJsonAt?_toJson : ∀ (tag : Tag TextId) (level : Nat), tag.Storable →
    (tag.toJson placeToJson).depth ≤ level →
      ofJsonAt? Json.natural? level (tag.toJson placeToJson) = some tag
  | ⟨root, kind, segments, written, target, address⟩, level, ⟨hroot, hsegments, haddress⟩, hd => by
    have hmem : ("segments", .arr (segmentsToJson placeToJson segments)) ∈
        writtenFields ⟨root, kind, segments, written, target, address⟩ := by simp [writtenFields]
    have hfield := Json.depth_le_depthFields hmem
    rw [toJson_eq, Json.depth] at hd
    rw [Json.depth] at hfield
    obtain ⟨level, rfl⟩ : ∃ n, level = n + 1 := ⟨level - 1, by omega⟩
    exact ofJsonAt?_of_segments hroot haddress
      (segmentsAt?_toJson segments level hsegments (by omega))

theorem segmentsAt?_toJson :
    ∀ (segments : List (Segment TextId)) (level : Nat), SegmentsStorable segments →
      Json.depthItems (segmentsToJson placeToJson segments) ≤ level →
      (segmentsToJson placeToJson segments).mapM (segmentAt? level) = some segments
  | [], _, _, _ => rfl
  | .name s :: rest, level, ⟨hs, hrest⟩, hd => by
    simp only [segmentsToJson, segmentToJson, Json.depthItems] at hd ⊢
    have hname : segmentAt? level (placeToJson s) = some (.name s) := by
      simp [segmentAt?, placeToJson, Json.natural?_int hs]
    simp [hname, segmentsAt?_toJson rest level hrest (by omega)]
  | .nested tag :: rest, level, ⟨htag, hrest⟩, hd => by
    simp only [segmentsToJson, segmentToJson, Json.depthItems] at hd ⊢
    have hnested : segmentAt? level (tag.toJson placeToJson) = some (.nested tag) := by
      have hno : Json.natural? (tag.toJson placeToJson) = none := by
        rw [toJson_eq]
        rfl
      simp [segmentAt?, hno, ofJsonAt?_toJson tag level htag (by omega)]
    simp [hnested, segmentsAt?_toJson rest level hrest (by omega)]

end

theorem ofJson?_toJson {tag : Tag TextId} (h : tag.Storable) :
    ofJson? Json.natural? (tag.toJson placeToJson) = some tag :=
  ofJsonAt?_toJson tag _ h (Nat.le_refl _)

mutual

theorem same_self : ∀ tag : Tag TextId, tag.same tag
  | ⟨root, kind, segments, written, target, address⟩ => by simp [same, sameSegments_self segments]

theorem sameSegments_self : ∀ segments : List (Segment TextId), sameSegments segments segments
  | [] => rfl
  | .name s :: rest => by simp [sameSegments, sameSegment, sameSegments_self rest]
  | .nested tag :: rest => by
    simp [sameSegments, sameSegment, same_self tag, sameSegments_self rest]

end

end Tag

end GlyphScript
