import GlyphScript.Proofs.Program.Placement
import GlyphScript.Proofs.Program.RoundTrip

/-! # Compiled programs read back

What a compiled program holds besides the parameters of its nodes are places of texts, addresses and
glyphs, and these are always read back. So whether it reads back as the same program depends on its
parameters alone.
-/

namespace GlyphScript

/-! ## Places of texts -/

def Value.hasDistinctKeys {S : Type} : Value S → Bool
  | .map entries => (Entries.keys entries).Nodup
  | _ => true

namespace Value

variable {f : TextId → Option String}

theorem keys_mapEntriesM {vs : List (String × Value TextId)} {ws : List (String × Value String)}
    (h : mapEntriesM f vs = some ws) : Entries.keys ws = Entries.keys vs := by
  induction vs generalizing ws with
  | nil =>
    cases h
    rfl
  | cons e vs ih =>
    obtain ⟨k, v⟩ := e
    simp only [mapEntriesM, Option.bind_eq_bind, Option.bind_eq_some_iff, Option.pure_def,
      Option.some.injEq] at h
    obtain ⟨w, _, ws, hws, rfl⟩ := h
    have hkeys : ws.map Prod.fst = vs.map Prod.fst := ih hws
    simp [Entries.keys, hkeys]

mutual

theorem storable_of_mapTextM (hf : ∀ i s, f i = some s → i < Nat.pow 2 64) : ∀ (v : Value TextId)
    (w : Value String), v.mapTextM f = some w → w.everywhere hasDistinctKeys → v.Storable
  | .null, _, _, _ => rfl
  | .bool _, _, _, _ => rfl
  | .number _, _, _, _ => rfl
  | .lambda _, _, _, _ => rfl
  | .text i, w, h, _ => by
    obtain ⟨s, hs, _⟩ := Option.bind_eq_some_iff.mp h
    exact decide_eq_true (hf i s hs)
  | .list items, w, h, hd => by
    obtain ⟨ws, hws, he⟩ := Option.bind_eq_some_iff.mp h
    cases he
    exact (everywhere_list items).mpr
      ⟨rfl, storable_of_mapItemsM hf items ws hws ((everywhere_list ws).mp hd).2⟩
  | .map entries, w, h, hd => by
    obtain ⟨ws, hws, he⟩ := Option.bind_eq_some_iff.mp h
    cases he
    obtain ⟨hkeys, hvalues⟩ := (everywhere_map ws).mp hd
    rw [hasDistinctKeys, keys_mapEntriesM hws] at hkeys
    exact (everywhere_map entries).mpr ⟨hkeys, storable_of_mapEntriesM hf entries ws hws hvalues⟩

theorem storable_of_mapItemsM (hf : ∀ i s, f i = some s → i < Nat.pow 2 64) :
    ∀ (vs : List (Value TextId))
      (ws : List (Value String)), mapItemsM f vs = some ws →
        (∀ w ∈ ws, w.everywhere hasDistinctKeys) →
      ∀ v ∈ vs, v.Storable
  | [], _, _, _ => by simp
  | v :: vs, ws, h, hd => by
    simp only [mapItemsM, Option.bind_eq_bind, Option.bind_eq_some_iff, Option.pure_def,
      Option.some.injEq] at h
    obtain ⟨w, hw, ws, hws, rfl⟩ := h
    obtain ⟨hdw, hdws⟩ := List.forall_mem_cons.mp hd
    exact List.forall_mem_cons.mpr
      ⟨storable_of_mapTextM hf v w hw hdw, storable_of_mapItemsM hf vs ws hws hdws⟩

theorem storable_of_mapEntriesM (hf : ∀ i s, f i = some s → i < Nat.pow 2 64) :
    ∀ (vs : List (String × Value TextId)) (ws : List (String × Value String)),
      mapEntriesM f vs = some ws →
    (∀ k w, (k, w) ∈ ws → w.everywhere hasDistinctKeys) → ∀ k v, (k, v) ∈ vs → v.Storable
  | [], _, _, _ => by simp
  | (k, v) :: vs, ws, h, hd => by
    simp only [mapEntriesM, Option.bind_eq_bind, Option.bind_eq_some_iff, Option.pure_def,
      Option.some.injEq] at h
    obtain ⟨w, hw, ws, hws, rfl⟩ := h
    intro k' v' hmem
    rcases List.mem_cons.mp hmem with he | hmem
    · cases he
      exact storable_of_mapTextM hf v w hw (hd k w List.mem_cons_self)
    · have hdws : ∀ k w, (k, w) ∈ ws → w.everywhere hasDistinctKeys := fun k w hw =>
        hd k w (List.mem_cons_of_mem _ hw)
      exact storable_of_mapEntriesM hf vs ws hws hdws k' v' hmem

end

end Value

/-! ## Addresses -/

theorem inWord_nowhere : Json.InWord nowhere := ⟨by decide, by decide⟩

theorem inWord_natCast {n : Nat} (h : n < Nat.pow 2 63) : Json.InWord n :=
  ⟨Int.le_trans (by decide) (Int.natCast_nonneg n), Int.ofNat_lt.mpr h⟩

namespace Link

theorem lt_of_mem_definitions {code : List (Instruction String)} {start a : Nat} {name : String}
    (h : (name, a) ∈ definitions start code) : a < start + code.length := by
  induction code generalizing start with
  | nil => cases h
  | cons instr code ih =>
    rw [List.length_cons]
    rcases List.mem_append.mp h with h | h
    · obtain ⟨_, _, he⟩ := List.mem_map.mp h
      cases he
      omega
    · have hlt := ih h
      omega

theorem lt_of_mem_symbols {code : List (Instruction String)} {a : Nat} {name : String}
    (h : (name, a) ∈ symbols code) : a < code.length := by
  simpa using lt_of_mem_definitions (Entries.mem_of_mem_ofList h)

variable {symbols : Symbols} {f : TextId → Option String}

theorem inWord_resolvePath (hs : ∀ name a, symbols.get? name = some a → a < Nat.pow 2 63)
    (path : List String) : Json.InWord (resolvePath symbols path) := by
  unfold resolvePath
  cases hl : (path.filterMap symbols.get?).getLast? with
  | none => exact inWord_nowhere
  | some a =>
    obtain ⟨name, _, ha⟩ := List.mem_filterMap.mp (List.mem_of_getLast? hl)
    exact inWord_natCast (hs name a ha)

mutual

theorem storable_of_resolve (hf : ∀ i s, f i = some s → i < Nat.pow 2 64)
    (hs : ∀ name a, symbols.get? name = some a → a < Nat.pow 2 63) :
    ∀ (tag : Tag TextId) (tag' : Tag String),
      tag.mapTextM f = some (resolve symbols tag') → tag.Storable
  | ⟨root, kind, segments, written, target, address⟩,
      ⟨root', kind', segments', written', target', address'⟩, h => by
    simp only [Tag.mapTextM, Option.bind_eq_bind, Option.bind_eq_some_iff, Option.pure_def,
      Option.some.injEq, resolve, Tag.mk.injEq] at h
    obtain ⟨s, hroot, ss, hss, _, _, rfl, _, _, rfl⟩ := h
    exact ⟨hf root s hroot, storable_of_resolveSegments hf hs segments segments' hss,
      inWord_resolvePath hs _⟩

theorem storable_of_resolveSegments (hf : ∀ i s, f i = some s → i < Nat.pow 2 64)
    (hs : ∀ name a, symbols.get? name = some a → a < Nat.pow 2 63) :
    ∀ (segments : List (Segment TextId))
      (segments' : List (Segment String)),
      Tag.mapSegmentsM f segments = some (resolveSegments symbols segments') →
      Tag.SegmentsStorable segments
  | [], _, _ => trivial
  | .name i :: rest, segments', h => by
    simp only [Tag.mapSegmentsM, Tag.mapSegmentM, Option.bind_eq_bind, Option.bind_eq_some_iff,
      Option.pure_def, Option.some.injEq] at h
    obtain ⟨_, ⟨s, hi, rfl⟩, ts, hts, he⟩ := h
    rcases segments' with _ | ⟨_ | _, rest'⟩
    · cases he
    · cases he
      exact ⟨hf i s hi, storable_of_resolveSegments hf hs rest rest' hts⟩
    · cases he
  | .nested tag :: rest, segments', h => by
    simp only [Tag.mapSegmentsM, Tag.mapSegmentM, Option.bind_eq_bind, Option.bind_eq_some_iff,
      Option.pure_def, Option.some.injEq] at h
    obtain ⟨_, ⟨t, ht, rfl⟩, ts, hts, he⟩ := h
    rcases segments' with _ | ⟨_ | tag', rest'⟩
    · cases he
    · cases he
    · cases he
      exact ⟨storable_of_resolve hf hs tag tag' ht,
        storable_of_resolveSegments hf hs rest rest' hts⟩

end

end Link

def WithinForest (forest : Forest) (d : Address) : Prop :=
  d = nowhere ∨ ∃ b ≤ Node.spans forest, d = (b : Nat)

theorem WithinForest.inWord {forest : Forest} {d : Address} (h : WithinForest forest d)
    (hsize : Node.spans forest < Nat.pow 2 63) : Json.InWord d := by
  rcases h with rfl | ⟨b, hb, rfl⟩
  · exact inWord_nowhere
  · exact inWord_natCast (Nat.lt_of_le_of_lt hb hsize)

namespace Siblings

variable {forest : Forest} {a : Nat} {ret : Address} {node : Node} {nodes rest : List Node}

theorem withinForest_successor (hr : WithinForest forest ret)
    (hle : a + Node.spans (node :: rest) ≤ Node.spans forest) :
    WithinForest forest (successor a ret node rest) := by
  rw [Node.spans] at hle
  unfold successor
  split
  · exact hr
  · exact .inr ⟨a + node.span, by omega, rfl⟩

theorem bounds (h : Siblings forest a ret nodes) :
    a + Node.spans nodes ≤ Node.spans forest ∧ WithinForest forest ret := by
  induction h with
  | top => exact ⟨by omega, .inl rfl⟩
  | next _ ih =>
    rw [Node.spans] at ih
    exact ⟨by omega, ih.2⟩
  | body _ ih =>
    obtain ⟨hle, hr⟩ := ih
    have hnext := withinForest_successor hr hle
    rw [Node.spans, Node.span_eq] at hle
    refine ⟨by omega, ?_⟩
    split
    · exact .inr ⟨_, by omega, rfl⟩
    · exact hnext

end Siblings

theorem Placed.bounds {forest : Forest} {node : Node} {a : Nat} {d : Address}
    (h : Placed forest node a d) : a + node.span ≤ Node.spans forest ∧ WithinForest forest d := by
  obtain ⟨ret, rest, hs, rfl⟩ := h
  obtain ⟨hle, hr⟩ := hs.bounds
  have hnext := Siblings.withinForest_successor hr hle
  rw [Node.spans] at hle
  exact ⟨by omega, hnext⟩

/-! ## Compiled programs -/

theorem Link.storable_of_resolveTags {symbols : Symbols} {f : TextId → Option String}
    (hf : ∀ i s, f i = some s → i < Nat.pow 2 64)
    (hs : ∀ name a, symbols.get? name = some a → a < Nat.pow 2 63) {tags : List (Tag TextId)}
    {tags' : List (Tag String)} (h : Tag.mapTagsM f tags = some (tags'.map (resolve symbols))) :
    ∀ tag ∈ tags, tag.Storable := by
  induction tags generalizing tags' with
  | nil => simp
  | cons tag tags ih =>
    simp only [Tag.mapTagsM, Option.bind_eq_bind, Option.bind_eq_some_iff, Option.pure_def,
      Option.some.injEq] at h
    obtain ⟨t, ht, ts, hts, he⟩ := h
    rcases tags' with _ | ⟨tag', tags'⟩
    · cases he
    · cases he
      exact List.forall_mem_cons.mpr ⟨storable_of_resolve hf hs tag tag' ht, ih hts⟩

theorem Image.storable {symbols : Link.Symbols} {timestamp a : Nat} {d : Address} {node : Node}
    {instr : Instruction String} (h : Image symbols timestamp node a d instr) {forest : Forest}
    (hp : Placed forest node a d) {texts : List String} {p : Instruction TextId}
    (hread : p.mapTextM (fun i => texts[i]?) = some instr)
    (hop : ∃ glyph, node.op = Op.ofGlyph glyph)
    (hkeys : (Value.map node.params).everywhere Value.hasDistinctKeys)
    (htime : timestamp < Nat.pow 2 64) (htexts : texts.length ≤ Nat.pow 2 64)
    (hsize : Node.spans forest < Nat.pow 2 63)
    (hs : ∀ name a, symbols.get? name = some a → a < Nat.pow 2 63) : p.Storable := by
  have hf : ∀ i s, texts[i]? = some s → i < Nat.pow 2 64 := fun i s hi =>
    Nat.lt_of_lt_of_le (List.getElem?_eq_some_iff.mp hi).1 htexts
  obtain ⟨hle, hd⟩ := hp.bounds
  have hspan := node.span_eq
  simp only [Instruction.mapTextM, Option.bind_eq_bind, Option.bind_eq_some_iff, Option.pure_def,
    Option.some.injEq] at hread
  obtain ⟨params, hparams, tags, htags, rfl⟩ := hread
  constructor
  case op =>
    obtain ⟨glyph, hglyph⟩ := hop
    have hop' : p.op = Op.ofGlyph glyph := h.op.trans hglyph
    rw [hop', Op.ofGlyph_glyph_ofGlyph]
  case timestamp =>
    exact h.timestamp ▸ htime
  case params =>
    have hvalue : (Value.map p.params).mapTextM (fun i => texts[i]?) = some (.map params) := by
      simp [Value.mapTextM, hparams]
    obtain rfl : params = node.params := h.params
    exact Value.storable_of_mapTextM hf _ _ hvalue hkeys
  case tags =>
    exact Link.storable_of_resolveTags hf hs (htags.trans (congrArg some h.tags))
  case next =>
    intro x hx
    rcases h.mem_next hx with ⟨rfl, _⟩ | ⟨rfl, _⟩ | rfl
    · exact inWord_natCast (by omega)
    · exact inWord_natCast (by omega)
    · exact hd.inWord hsize
  case bodyEnd =>
    intro x hx
    have hend : p.bodyEnd = if node.body = [] then none else some (a + node.span : Nat) := h.bodyEnd
    rw [hend] at hx
    split at hx
    · cases hx
    · cases hx
      exact inWord_natCast (by omega)

section Compiled

variable {forest : Forest} {timestamp : Nat} {program : Program}

theorem compile_storable (hops : ∀ node ∈ Node.preorder forest, ∃ glyph, node.op = Op.ofGlyph glyph)
    (hkeys : ∀ node ∈ Node.preorder forest,
      (Value.map node.params).everywhere Value.hasDistinctKeys)
    (h : compile forest timestamp = .ok program) (htime : timestamp < Nat.pow 2 64)
    (hsize : program.size < Nat.pow 2 63) (htext : program.text.length ≤ Nat.pow 2 64) :
    program.Storable := by
  rw [compile_size h] at hsize
  have hword : Nat.pow 2 63 ≤ Nat.pow 2 64 := by decide
  have hsymbols : ∀ name a, (name, a) ∈ program.symbols → a < Nat.pow 2 63 := by
    intro name a hmem
    rw [compile_eq_ok h] at hmem
    have hlt := Link.lt_of_mem_symbols hmem
    rw [Layout.ofForest, Layout.length_ofNodes] at hlt
    omega
  constructor
  case entry =>
    have hentry := compile_entry h
    by_cases hne : forest = []
    · subst hne
      rw [hentry.nil]
      decide
    · have hlt := hentry.lt_spans hne
      omega
  case names =>
    rw [compile_eq_ok h]
    exact Entries.nodup_keys_ofList _
  case symbols =>
    intro name a hmem
    have hlt := hsymbols name a hmem
    omega
  case ascending =>
    rw [compile_addresses h]
    exact List.pairwise_lt_range
  case addresses =>
    intro a p hmem
    obtain ⟨node, d, instr, hp, _⟩ := compile_mem h hmem
    have hle := hp.bounds.1
    omega
  case code =>
    intro a p hmem
    obtain ⟨node, d, instr, hp, hread, himage⟩ := compile_mem h hmem
    have hnode : node ∈ Node.preorder forest := List.mem_of_getElem? hp.preorder
    exact himage.storable hp hread (hops node hnode) (hkeys node hnode) htime htext hsize
      fun name a hget => hsymbols name a (Entries.mem_of_get? hget)

/-- If its numbers fit in machine words, a compiled program is read back as the same program exactly
if no parameter has, at any depth, a number that is not finite, a list of a single text, or a map
with the single key `__num` that holds a text. -/
theorem compile_reloads (hops : ∀ node ∈ Node.preorder forest, ∃ glyph, node.op = Op.ofGlyph glyph)
    (hkeys : ∀ node ∈ Node.preorder forest,
      (Value.map node.params).everywhere Value.hasDistinctKeys)
    (h : compile forest timestamp = .ok program) (htime : timestamp < Nat.pow 2 64)
    (hsize : program.size < Nat.pow 2 63) (htext : program.text.length ≤ Nat.pow 2 64) :
    ((∃ q, Program.ofJson? program.toJson = some q ∧ q.check = .ok () ∧ program.same q) ↔
      program.isClear) ∧ (program.isClear → Program.ofJson? program.toJson = some program) := by
  have hs := compile_storable hops hkeys h htime hsize htext
  have hread := Program.ofJson?_toJson hs
  have hclear : program.isClear → Program.ofJson? program.toJson = some program := by
    intro hc
    rw [hread, Program.reread_of_isClear hc]
  refine ⟨⟨?_, ?_⟩, hclear⟩
  · rintro ⟨q, hq, _, hsame⟩
    rw [hread] at hq
    cases hq
    exact (Program.same_reread_iff hs).mp hsame
  · intro hc
    have hsame := (Program.same_reread_iff hs).mpr hc
    rw [Program.reread_of_isClear hc] at hsame
    exact ⟨program, hclear hc, compile_checked h, hsame⟩

end Compiled

/-- A trigger that visits the chest after it, in which there are some things. -/
def chest (things : List (Value String)) : Forest :=
  [{ op := .trigger
     params := [("id", .text "Open")]
     tags := [{ root := "Chest", kind := .reference, segments := [] }]
     body := [{ op := .speech, params := [("text", .lambda "1 + 1")] }] },
    { op := .context .fragment, params := [("id", .text "Chest"), ("things", .list things)] }]

def supplies : List (Value String) :=
  [.map [("name", .text "Rope"), ("length", .number 2)], .text "Lamp"]

def openChest (things : List (Value String)) : Program :=
  Link.link (Layout.ofForest 7 (chest things)) (Layout.entry (chest things))

theorem ofGlyph_of_mem_chest (things : List (Value String)) :
    ∀ node ∈ Node.preorder (chest things), ∃ glyph, node.op = Op.ofGlyph glyph := by
  have hops : (Node.preorder (chest things)).map (·.op) = ["➔", "💬", "📑"].map Op.ofGlyph := rfl
  intro node hnode
  have hop : node.op ∈ (Node.preorder (chest things)).map (·.op) := List.mem_map_of_mem hnode
  rw [hops] at hop
  obtain ⟨glyph, _, hglyph⟩ := List.mem_map.mp hop
  exact ⟨glyph, hglyph.symm⟩

/-- Two things are read back as they were, a single text is not. -/
theorem compile_reloads_chest :
    (∃ program, compile (chest supplies) 7 = .ok program ∧
      Program.ofJson? program.toJson = some program) ∧
      ∃ program, compile (chest [.text "Lamp"]) 7 = .ok program ∧
        ¬ ∃ q, Program.ofJson? program.toJson = some q ∧ q.check = .ok () ∧ program.same q := by
  have hcompile : ∀ things, compile (chest things) 7 = .ok (openChest things) := fun _ => rfl
  constructor
  · have hreads :=
      (compile_reloads (ofGlyph_of_mem_chest _) (by decide +kernel) (hcompile supplies) (by decide)
      (by decide) (by decide)).2
    exact ⟨_, hcompile supplies, hreads (by decide +kernel)⟩
  · have hreads :=
      (compile_reloads (ofGlyph_of_mem_chest _) (by decide +kernel) (hcompile [.text "Lamp"])
      (by decide) (by decide) (by decide)).1
    exact ⟨_, hcompile [.text "Lamp"], fun h => absurd (hreads.mp h) (by decide +kernel)⟩

end GlyphScript
