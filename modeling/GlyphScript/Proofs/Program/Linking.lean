import GlyphScript.Proofs.Program.Naming

/-! # What linking adds

The symbols are the names that some instruction defines, and each stands for the last instruction
that does. Every tag, nested ones included, is given the address of the last name of its path that
is a symbol, the last name itself and the way it is written. Nothing else of the instructions
changes.
-/

namespace GlyphScript

namespace Tag

structure LinkedBy (symbols : Link.Symbols) (tag : Tag String) : Prop where
  /-- The address is that of the last name that is a symbol. -/
  address : ∀ before name after a, tag.path = before ++ name :: after → symbols.get? name = some a →
    (∀ later ∈ after, symbols.get? later = none) → tag.address = (a : Nat)
  address_nowhere : tag.address = nowhere ↔ ∀ name ∈ tag.path, symbols.get? name = none
  target : ∃ last, tag.path.getLast? = some last ∧ tag.target = some last
  hashtag : tag.isHashtag → tag.written = some ("#" ++ plainName tag.root)
  reference : tag.isReference → tag.written = some ("@" ++ "::".intercalate tag.path)

end Tag

namespace Link

/-! ## Symbols -/

section Symbols

variable {code : List (Instruction String)} {name : String} {a b : Nat}

theorem sorted_definitions (start : Nat) (code : List (Instruction String)) :
    (definitions start code).Pairwise fun d e => d.2 ≤ e.2 := by
  induction code generalizing start with
  | nil => exact .nil
  | cons instr code ih =>
    rw [definitions, List.pairwise_append]
    refine ⟨?_, ih (start + 1), ?_⟩
    · rw [List.pairwise_map]
      exact List.pairwise_of_forall fun _ _ => Nat.le_refl start
    · rintro d hd ⟨name, a⟩ he
      obtain ⟨_, _, rfl⟩ := List.mem_map.mp hd
      obtain ⟨i, _, _, rfl, _⟩ := mem_definitions.mp he
      dsimp only
      omega

/-- No instruction behind the address of a symbol defines it again. -/
theorem le_of_get?_symbols (h : (symbols code).get? name = some a) {other : Instruction String}
    (hb : code[b]? = some other) (hd : other.Defines name) : b ≤ a := by
  have hmem : (name, b) ∈ (definitions 0 code).reverse :=
    List.mem_reverse.mpr (mem_definitions.mpr ⟨b, other, hb, (Nat.zero_add b).symm, hd⟩)
  have hsorted := List.pairwise_reverse.mpr (sorted_definitions 0 code)
  rw [symbols, Entries.get?_ofList] at h
  obtain ⟨behind, before, hsplit, hbehind⟩ := List.lookup_eq_some_iff.mp h
  rw [hsplit] at hmem hsorted
  rcases List.mem_append.mp hmem with hin | hin
  · simpa using hbehind _ hin
  · rcases List.mem_cons.mp hin with heq | hin
    · cases heq
      exact Nat.le_refl _
    · exact List.rel_of_pairwise_cons (List.pairwise_append.mp hsorted).2.1 hin

theorem get?_symbols_iff : (symbols code).get? name = some a ↔
    (∃ instr, code[a]? = some instr ∧ instr.Defines name) ∧
      ∀ (b : Nat) (other : Instruction String), code[b]? = some other → other.Defines name →
        b ≤ a := by
  constructor
  · intro h
    exact ⟨defines_of_get?_symbols h, fun b other hb hd => le_of_get?_symbols h hb hd⟩
  · rintro ⟨⟨instr, hi, hd⟩, hlast⟩
    obtain ⟨b, hb⟩ := exists_get?_symbols hi hd
    obtain ⟨other, hother, hdefines⟩ := defines_of_get?_symbols hb
    rw [hb, Nat.le_antisymm (hlast b other hother hdefines) (le_of_get?_symbols hb hi hd)]

theorem mem_keys_symbols_iff :
    name ∈ (symbols code).keys ↔
      ∃ (a : Nat) (instr : Instruction String), code[a]? = some instr ∧ instr.Defines name := by
  have hkey : name ∈ (symbols code).keys ↔ ∃ a, (symbols code).get? name = some a := by
    rw [← Option.isSome_iff_exists, Option.isSome_iff_ne_none, Ne, Entries.get?_eq_none_iff,
      Decidable.not_not]
  rw [hkey]
  constructor
  · rintro ⟨a, ha⟩
    exact ⟨a, defines_of_get?_symbols ha⟩
  · rintro ⟨a, instr, hi, hd⟩
    exact exists_get?_symbols hi hd

end Symbols

/-! ## Tags -/

variable {symbols : Symbols}

theorem resolvePath_eq_nowhere_iff {path : List String} :
    resolvePath symbols path = nowhere ↔ ∀ name ∈ path, symbols.get? name = none := by
  rw [← List.filterMap_eq_nil_iff, resolvePath]
  rcases List.eq_nil_or_concat (path.filterMap symbols.get?) with hnil | ⟨found, a, hlast⟩
  · simp [hnil]
  · simp [hlast, nowhere]

theorem mem_resolveSegments {segments : List (Segment String)} {tag : Tag String}
    (h : .nested tag ∈ resolveSegments symbols segments) :
    ∃ source, .nested source ∈ segments ∧ tag = resolve symbols source := by
  induction segments with
  | nil => cases h
  | cons segment rest ih =>
    cases segment with
    | name s =>
      rw [resolveSegments] at h
      obtain ⟨source, hmem, rfl⟩ := ih (by simpa using h)
      exact ⟨source, List.mem_cons_of_mem _ hmem, rfl⟩
    | nested first =>
      rw [resolveSegments] at h
      rcases List.mem_cons.mp h with heq | h
      · exact ⟨first, List.mem_cons_self, Segment.nested.inj heq⟩
      · obtain ⟨source, hmem, rfl⟩ := ih h
        exact ⟨source, List.mem_cons_of_mem _ hmem, rfl⟩

/-- The tags within a resolved tag are resolved. -/
theorem within_resolve {inner tag : Tag String} (h : Tag.Within inner (resolve symbols tag)) :
    ∃ source, Tag.Within source tag ∧ inner = resolve symbols source := by
  generalize hresolved : resolve symbols tag = resolved at h
  induction h generalizing tag with
  | self => exact ⟨tag, .self tag, hresolved.symm⟩
  | nested _ hmem ih =>
    rw [← hresolved, resolve_eq] at hmem
    obtain ⟨middle, hmiddle, rfl⟩ := mem_resolveSegments hmem
    obtain ⟨source, hwithin, rfl⟩ := ih rfl
    exact ⟨source, .nested hwithin hmiddle, rfl⟩

theorem linkedBy_resolve (symbols : Symbols) (tag : Tag String) :
    (resolve symbols tag).LinkedBy symbols := by
  have hpath := Tag.path_resolve symbols tag
  obtain ⟨last, hlast⟩ := tag.exists_last
  constructor
  · intro before name after a hsplit ha hafter
    rw [hpath] at hsplit
    rw [resolve_eq, hsplit]
    exact resolvePath_eq_of_last ha hafter
  · rw [hpath, resolve_eq]
    exact resolvePath_eq_nowhere_iff
  · rw [hpath, resolve_eq]
    exact ⟨last, hlast, hlast⟩
  · intro hkind
    rw [resolve_eq] at hkind ⊢
    have hhashtag : tag.kind = .hashtag := of_decide_eq_true hkind
    simp only [writtenAs, hhashtag]
  · intro hkind
    rw [hpath]
    rw [resolve_eq] at hkind ⊢
    have hreference : tag.kind = .reference := of_decide_eq_true hkind
    simp only [writtenAs, hreference]

/-! ## Programs -/

/-- The symbols of a linked program are the names that are defined, each with the last address that
defines it. Its instructions are the given ones but for what linking writes to their tags at every
depth. -/
theorem link_symbols_and_tags (code : List (Instruction String)) (entry : Nat) :
    (link code entry).symbols.keys.Nodup ∧
    (∀ name, name ∈ (link code entry).symbols.keys ↔
      ∃ (a : Nat) (instr : Instruction String), code[a]? = some instr ∧ instr.Defines name) ∧
    (∀ name a, (link code entry).symbols.get? name = some a ↔
      (∃ instr, code[a]? = some instr ∧ instr.Defines name) ∧
        ∀ (b : Nat) (other : Instruction String), code[b]? = some other → other.Defines name →
          b ≤ a) ∧
    (link code entry).code.map Prod.fst = List.range code.length ∧
    ∀ (a : Nat) (instr : Instruction String), code[a]? = some instr →
      ∃ linked, (link code entry).decode (a : Nat) = .ok linked ∧
        linked = { instr with tags := linked.tags } ∧
      linked.tags.map Tag.unlinked = instr.tags.map Tag.unlinked ∧
      ∀ tag ∈ linked.tags, ∀ inner, Tag.Within inner tag →
        inner.LinkedBy (link code entry).symbols := by
  refine ⟨Entries.nodup_keys_ofList _, fun name => mem_keys_symbols_iff,
    fun name a => get?_symbols_iff,
    map_fst_link code entry, fun a instr hi => ⟨_, decode_link entry hi, rfl, ?_, ?_⟩⟩
  · simp [resolveTags, Tag.unlinked_resolve]
  · intro tag htag inner hwithin
    obtain ⟨source, _, rfl⟩ := List.mem_map.mp htag
    obtain ⟨origin, _, rfl⟩ := within_resolve hwithin
    exact linkedBy_resolve _ origin

/-- A name that is defined twice, and a reference to it that goes on to a hashtag and a name that is
not defined. -/
def reprise : List (Instruction String) :=
  [{ op := .context .entity, id := some "#Wade", next := [1],
      tags :=
        [{ root := "@Wade", kind := .reference,
            segments :=
              [.name "@Wade", .nested { root := "#Cable", kind := .hashtag, segments := [] },
                .name "Mask"] }] },
    { op := .context .entity, id := some "Wade", next := [-1] }]

theorem link_symbols_and_tags_reprise :
    (∀ (b : Nat) (other : Instruction String), reprise[b]? = some other → other.Defines "Wade" →
      b ≤ 1) ∧ "Mask" ∉ (link reprise 0).symbols.keys ∧
      ∃ linked, (link reprise 0).decode (0 : Nat) = .ok linked ∧
        linked.tags.map (fun tag => (tag.address, tag.target, tag.written)) =
          [(0, some "Mask", some "@Wade::Cable::Mask")] ∧
        ∀ tag ∈ linked.tags, ∀ inner, Tag.Within inner tag →
          inner.LinkedBy (link reprise 0).symbols := by
  obtain ⟨_, _, hget, _, htags⟩ := link_symbols_and_tags reprise 0
  obtain ⟨linked, hd, _, _, hlinked⟩ := htags 0 _ rfl
  have hwritten : ((link reprise 0).decode (0 : Nat)).toOption.map
      (·.tags.map fun tag => (tag.address, tag.target, tag.written)) =
        some [(0, some "Mask", some "@Wade::Cable::Mask")] := by decide +kernel
  rw [hd] at hwritten
  exact ⟨((hget "Wade" 1).mp (by decide +kernel)).2,
    by decide +kernel, linked, hd, Option.some.inj hwritten, hlinked⟩

end Link

end GlyphScript
