import GlyphScript.Proofs.Tag.RoundTrip
import GlyphScript.Proofs.Value.RoundTrip
import Mathlib.Data.List.TakeWhile

/-! # Programs written and read back

All of a program comes back as it was but the parameters that are ambiguous, if its numbers fit in
machine words and its operations are those of their glyphs. So it is the same program exactly if no
parameter has an ambiguous part.
-/

namespace GlyphScript

theorem Op.ofGlyph_glyph_ofGlyph (glyph : String) :
    Op.ofGlyph (Op.ofGlyph glyph).glyph = Op.ofGlyph glyph := by
  have hknown : ∀ e ∈ spellings, ofGlyph e.2.glyph = e.2 := by decide
  cases h : spellings.lookup glyph with
  | none => simp [ofGlyph, h, Op.glyph]
  | some op =>
    obtain ⟨before, after, hmem, _⟩ := List.lookup_eq_some_iff.mp h
    have hop := hknown (glyph, op) (by simp [hmem])
    simpa [ofGlyph, h] using hop

/-! ## Addresses as keys -/

theorem head?_toDigits {n : Nat} (h : 0 < n) : (Nat.toDigits 10 n).head? ≠ some '0' := by
  induction n using Nat.strongRecOn with
  | ind n ih =>
    rcases Nat.lt_or_ge n 10 with hlt | hge
    · have hdigit : ∀ d < 10, 0 < d → Nat.digitChar d ≠ '0' := by decide
      rw [Nat.toDigits_of_lt_base hlt]
      simpa using hdigit n hlt h
    · have hfirst := ih (n / 10) (by omega) (by omega)
      obtain ⟨d, ds, hd⟩ :=
        List.exists_cons_of_ne_nil (Nat.toDigits_ne_nil : Nat.toDigits 10 (n / 10) ≠ [])
      rw [hd] at hfirst
      rw [Nat.toDigits_of_base_le (by omega) hge, hd]
      exact hfirst

theorem Program.addressOfKey?_toString {n : Nat} (h : n < Nat.pow 2 64) :
    addressOfKey? (toString n) = some n := by
  have hdigits : ∀ c ∈ Nat.toDigits 10 n, c.isDigit = true := fun c hc =>
    Nat.isDigit_of_mem_toDigits (by omega) (by omega) hc
  have htake := List.takeWhile_eq_self_iff.mpr hdigits
  have hdrop := List.dropWhile_eq_nil_iff.mpr hdigits
  have hwhole : Json.Token.wholeDigits? (toString n).toList = some (Nat.toDigits 10 n, []) := by
    rw [Json.Token.wholeDigits?, Nat.toString_eq_ofList_toDigits, String.toList_ofList, htake,
      hdrop]
    split
    · next he => exact absurd he Nat.toDigits_ne_nil
    · next he =>
      rcases Nat.eq_zero_or_pos n with rfl | hpos
      · simp at he
      · exact absurd (by rw [he]; rfl) (head?_toDigits hpos)
    · rfl
  have hvalue : Decimal.natOfDigits (Nat.toDigits 10 n) = n := Nat.ofDigitChars_ten_toDigits
  simp only [addressOfKey?, hwhole, hvalue]
  exact if_pos h

theorem all_zip_map {α β : Type} (g : α → β) (r : α × β → Bool) (l : List α) :
    (l.zip (l.map g)).all r = l.all fun a => r (a, g a) := by
  induction l with
  | nil => rfl
  | cons a l ih => simp [ih]

/-! ## Instructions -/

namespace Instruction

def writtenFields (instr : Instruction TextId) : Entries Json :=
  (instr.id.map fun s => ("id", Json.str s)).toList
    ++ [("type", .str instr.op.glyph), ("timestamp", .int instr.timestamp),
      ("params", .obj (Value.toJsonFields placeToJson instr.params))]
    ++ (if instr.tags.isEmpty then []
      else [("tags", .arr (instr.tags.map (Tag.toJson placeToJson)))])
    ++ [("next", .arr (instr.next.map .int))]
    ++ (instr.bodyEnd.map fun a => ("end", Json.int a)).toList

/-- The operation has a glyph of its own, and all numbers fit in machine words. -/
structure Storable (instr : Instruction TextId) : Prop where
  op : Op.ofGlyph instr.op.glyph = instr.op
  timestamp : instr.timestamp < Nat.pow 2 64
  params : (Value.map instr.params).Storable
  tags : ∀ tag ∈ instr.tags, tag.Storable
  next : ∀ a ∈ instr.next, Json.InWord a
  bodyEnd : ∀ a ∈ instr.bodyEnd, Json.InWord a

def reread (instr : Instruction TextId) : Instruction TextId :=
  { instr with params := Value.rereadEntries instr.params }

def isClear (instr : Instruction TextId) : Bool := instr.params.all fun param => param.2.isClear

variable {instr : Instruction TextId}

theorem isClear_iff : instr.isClear ↔ ∀ k v, (k, v) ∈ instr.params → v.isClear := by
  rw [isClear, List.all_eq_true]
  constructor
  · exact fun h k v hmem => h (k, v) hmem
  · rintro h ⟨k, v⟩ hmem
    exact h k v hmem

theorem record?_toJson (instr : Instruction TextId) :
    Json.record? fieldNames instr.toJson = some instr.writtenFields := by
  refine Json.record?_obj (by decide) ?_
  rcases instr with ⟨_ | id, op, timestamp, params, _ | ⟨tag, tags⟩, next, _ | bodyEnd⟩ <;>
    simp [Entries.keys, fieldNames]

/-- Where each field stands among those that are written. -/
theorem get?_writtenFields (instr : Instruction TextId) :
    instr.writtenFields.get? "id" = instr.id.map .str ∧
      instr.writtenFields.get? "type" = some (.str instr.op.glyph) ∧
      instr.writtenFields.get? "timestamp" = some (.int instr.timestamp) ∧
      instr.writtenFields.get? "params" =
        some (.obj (Value.toJsonFields placeToJson instr.params)) ∧
      instr.writtenFields.get? "tags" =
        (if instr.tags.isEmpty then none
          else some (.arr (instr.tags.map (Tag.toJson placeToJson)))) ∧
      instr.writtenFields.get? "next" = some (.arr (instr.next.map .int)) ∧
      instr.writtenFields.get? "end" = instr.bodyEnd.map .int := by
  rcases instr with ⟨_ | id, op, timestamp, params, _ | ⟨tag, tags⟩, next, _ | bodyEnd⟩ <;>
    simp [writtenFields, Entries.get?_cons]

theorem ofJson?_toJson (h : instr.Storable) : ofJson? instr.toJson = some instr.reread := by
  obtain ⟨hgid, hgtype, hgtimestamp, hgparams, hgtags, hgnext, hgend⟩ := instr.get?_writtenFields
  have hid : Json.defaulted? instr.writtenFields "id" none (Json.nullable? Json.text?) =
      some instr.id :=
    Json.defaulted?_optional Json.str hgid fun s _ => rfl
  have hglyph : Json.required? instr.writtenFields "type" Json.text? = some instr.op.glyph := by
    rw [Json.required?, hgtype, Option.bind_some, Json.text?]
  have htimestamp : Json.defaulted? instr.writtenFields "timestamp" 0 Json.natural? =
      some instr.timestamp := by
    simp only [Json.defaulted?, hgtimestamp, Json.natural?_int h.timestamp]
  have hparams : Json.defaulted? instr.writtenFields "params" []
      (Json.entries? (Value.ofJson? Json.natural?)) = some (Value.rereadEntries instr.params) := by
    obtain ⟨hkeys, hvalues⟩ := Value.storable_map h.params
    have hread := Json.entries?_obj hkeys fun k v hmem => Value.ofJson?_toJson v (hvalues k v hmem)
    rw [← Value.toJsonFields_eq, ← Value.rereadEntries_eq] at hread
    simp only [Json.defaulted?, hgparams, hread]
  have htags : Json.defaulted? instr.writtenFields "tags" []
      (Json.items? (Tag.ofJson? Json.natural?)) = some instr.tags := by
    have hread := Json.items?_arr fun tag hmem => Tag.ofJson?_toJson (h.tags tag hmem)
    rw [Json.defaulted?, hgtags]
    by_cases hnil : instr.tags = []
    · simp [hnil]
    · simp [hnil, hread]
  have hnext : Json.required? instr.writtenFields "next" (Json.items? Json.integer?) =
      some instr.next := by
    rw [Json.required?, hgnext, Option.bind_some]
    exact Json.items?_arr fun a hmem => Json.integer?_int (h.next a hmem)
  have hend : Json.defaulted? instr.writtenFields "end" none (Json.nullable? Json.integer?) =
      some instr.bodyEnd := by
    refine Json.defaulted?_optional Json.int hgend fun a ha => ?_
    simp [Json.nullable?, Json.integer?_int (h.bodyEnd a ha)]
  simp only [ofJson?, record?_toJson, Option.bind_eq_bind, Option.bind_some, hid, hglyph,
    htimestamp, hparams, htags, hnext, hend, h.op]
  rfl

theorem same_reread_iff (h : instr.Storable) : instr.same instr.reread ↔ instr.isClear := by
  obtain ⟨hkeys, hvalues⟩ := Value.storable_map h.params
  have hparams :=
    Value.sameEntries_reread_iff instr.params (Value.rereadEntries instr.params) hvalues
    fun _ _ => Value.get?_rereadEntries hkeys
  have htags : (instr.tags.zip instr.tags).all (fun (s, t) => s.same t) := by
    have hall := all_zip_map (fun tag => tag) (fun (s, t) => Tag.same s t) instr.tags
    rw [List.map_id'] at hall
    simp [hall, Tag.same_self]
  rw [isClear_iff, ← hparams]
  simp [same, reread, htags, Value.same, Value.length_rereadEntries]

theorem reread_of_isClear (h : instr.isClear) : instr.reread = instr := by
  rw [reread, Value.rereadEntries_of_isClear instr.params (isClear_iff.mp h)]

end Instruction

/-! ## Programs -/

namespace Program

theorem insertCode_of_lt {code : List (Nat × Instruction TextId)} {a : Nat}
    (h : ∀ e ∈ code, e.1 < a) (p : Instruction TextId) :
    insertCode a p code = code ++ [(a, p)] := by
  induction code with
  | nil => rfl
  | cons e code ih =>
    obtain ⟨b, q⟩ := e
    obtain ⟨hb, hcode⟩ := List.forall_mem_cons.mp h
    have hb : b < a := hb
    rw [insertCode, if_neg (by omega), if_neg (by omega), ih hcode, List.cons_append]

theorem foldl_insertCode (code before : List (Nat × Instruction TextId))
    (h : ((before ++ code).map Prod.fst).Pairwise (· < ·)) :
    code.foldl (fun code (address, instr) => insertCode address instr code) before =
      before ++ code := by
  induction code generalizing before with
  | nil => simp
  | cons e code ih =>
    obtain ⟨a, p⟩ := e
    have hlt : ∀ e ∈ before, e.1 < a := by
      intro e he
      rw [List.map_append] at h
      exact (List.pairwise_append.mp h).2.2 e.1 (List.mem_map_of_mem he) a (by simp)
    rw [List.foldl_cons]
    dsimp only
    rw [insertCode_of_lt hlt, ih _ (by simpa using h), List.append_assoc, List.singleton_append]

/-- The addresses ascend, the names differ, and all numbers fit in machine words. -/
structure Storable (program : Program) : Prop where
  entry : program.entry < Nat.pow 2 64
  names : program.symbols.keys.Nodup
  symbols : ∀ name a, (name, a) ∈ program.symbols → a < Nat.pow 2 64
  ascending : (program.code.map Prod.fst).Pairwise (· < ·)
  addresses : ∀ a p, (a, p) ∈ program.code → a < Nat.pow 2 64
  code : ∀ a p, (a, p) ∈ program.code → p.Storable

def reread (program : Program) : Program :=
  { program with code := program.code.map fun e => (e.1, e.2.reread) }

def isClear (program : Program) : Bool := program.code.all fun e => e.2.isClear

variable {program : Program}

theorem reread_of_isClear (h : program.isClear) : program.reread = program := by
  have hcode : (program.code.map fun e => (e.1, e.2.reread)) = program.code := by
    refine (List.map_congr_left fun e he => ?_).trans (List.map_id' program.code)
    rw [Instruction.reread_of_isClear (List.all_eq_true.mp h e he)]
  rw [reread, hcode]

theorem code?_toJson (h : program.Storable) :
    code? (.obj (program.code.map fun e => (toString e.1, e.2.toJson))) =
      some program.reread.code := by
  have hread : ∀ e ∈ program.code, (do
      let address ← addressOfKey? (toString e.1)
      let instr ← Instruction.ofJson? e.2.toJson
      return (address, instr) : Option _) = some (e.1, e.2.reread) := by
    rintro ⟨a, p⟩ hmem
    simp only [addressOfKey?_toString (h.addresses a p hmem),
      Instruction.ofJson?_toJson (h.code a p hmem), Option.bind_eq_bind, Option.bind_some]
    rfl
  have hascending : (program.reread.code.map Prod.fst).Pairwise (· < ·) := by
    simpa [reread, Function.comp_def] using h.ascending
  rw [code?, mapM_map_eq_some hread]
  exact congrArg some (foldl_insertCode program.reread.code [] hascending)

theorem ofJson?_toJson (h : program.Storable) : ofJson? program.toJson = some program.reread := by
  let symbols := Json.obj (program.symbols.map fun e => (e.1, .int e.2))
  let code := Json.obj (program.code.map fun e => (toString e.1, e.2.toJson))
  have hrecord : Json.record? fieldNames program.toJson =
      some [("entry", .int program.entry), ("symbols", symbols),
        ("text", .arr (program.text.map .str)),
        ("code", code)] := Json.record?_obj (by decide) (List.Sublist.refl fieldNames)
  have hsymbols : Json.entries? Json.natural? symbols = some program.symbols := by
    have hread :=
      Json.entries?_obj h.names fun name a hmem => Json.natural?_int (h.symbols name a hmem)
    exact hread.trans (congrArg some (List.map_id' _))
  have htext : Json.items? Json.text? (.arr (program.text.map .str)) = some program.text :=
    Json.items?_arr fun s _ => rfl
  have hcode : code? code = some program.reread.code := code?_toJson h
  simp only [ofJson?, hrecord, Json.required?, Entries.get?_cons, Option.bind_eq_bind,
    Option.bind_some]
  simp [Json.natural?_int h.entry, hsymbols, htext, hcode, reread]

theorem same_reread_iff (h : program.Storable) : program.same program.reread ↔ program.isClear := by
  have hsymbols : ∀ e ∈ program.symbols, program.symbols.get? e.1 = some e.2 := fun e he =>
    Entries.get?_of_mem h.names he
  have hcode : ∀ e ∈ program.code, (e.2.same e.2.reread ↔ e.2.isClear) := fun e he =>
    Instruction.same_reread_iff (h.code e.1 e.2 he)
  simp only [same, reread, all_zip_map, isClear, List.all_eq_true, Bool.and_eq_true]
  constructor
  · rintro ⟨_, hsame⟩ e he
    exact (hcode e he).mp (hsame e he).2
  · intro hclear
    refine ⟨?_, fun e he => ⟨beq_self_eq_true e.1, (hcode e he).mpr (hclear e he)⟩⟩
    simpa using fun name a hmem => hsymbols (name, a) hmem

end Program

end GlyphScript
