import GlyphScript.Proofs.Program.Placement

/-! # What references point at

A node defines its identifier and the hashtags on it, nested ones included. References are looked up
twice: along the tree when they are verified, and by name in the symbols when they are linked. Both
lead to a definition of the last name of the path, and to the same one if no two nodes define the
same name. A name that is written with two marks is the exception: the verifier strips both of them
and the linker only one.
-/

namespace GlyphScript

def isMarked (name : String) : Bool :=
  name.toList.head? = some '@' || name.toList.head? = some '#'

theorem plainName_of_not_marked {name : String} (h : isMarked name = false) :
    plainName name = name := by
  unfold plainName
  split
  · next hc => simp [isMarked, hc] at h
  · next hc => simp [isMarked, hc] at h
  · rfl

/-! ## Definitions -/

/-- A tag is another one, or nested in it at some depth. -/
inductive Tag.Within : Tag String → Tag String → Prop where
  | self (tag : Tag String) : Within tag tag
  | nested {inner middle tag : Tag String} : Within inner middle → .nested middle ∈ tag.segments →
      Within inner tag

/-- A name is that of an identifier, or of a hashtag on or within some tags. -/
def Names (id : Option String) (tags : List (Tag String)) (name : String) : Prop :=
  (∃ s, id = some s ∧ plainName s = name) ∨
    ∃ tag ∈ tags, ∃ inner, Tag.Within inner tag ∧ inner.isHashtag ∧ plainName inner.root = name

def Node.Defines (node : Node) (name : String) : Prop := Names node.id? node.tags name

def Instruction.Defines (instr : Instruction String) (name : String) : Prop :=
  Names instr.id instr.tags name

def Node.names (node : Node) : List String :=
  (node.id?.map plainName).toList ++ node.tags.flatMap Link.names

namespace Link

variable {name : String}

mutual

theorem mem_names : ∀ tag : Tag String,
    name ∈ names tag ↔ ∃ inner, Tag.Within inner tag ∧ inner.isHashtag ∧ plainName inner.root = name
  | ⟨root, kind, segments, written, target, address⟩ => by
    rw [names, List.mem_append, mem_segmentNames segments]
    constructor
    · rintro (h | ⟨middle, hmem, inner, hw, hi⟩)
      · by_cases hk : kind = .hashtag
        · have hname : name = plainName root := by simpa [hk] using h
          exact ⟨_, .self _, by simp [Tag.isHashtag, hk], hname.symm⟩
        · simp [hk] at h
      · exact ⟨inner, .nested hw hmem, hi⟩
    · rintro ⟨inner, hw, hk, hname⟩
      cases hw with
      | self =>
        have hkind : kind = .hashtag := of_decide_eq_true hk
        exact .inl (by simp [hkind, ← hname])
      | nested hw hmem => exact .inr ⟨_, hmem, inner, hw, hk, hname⟩

theorem mem_segmentNames : ∀ segments : List (Segment String),
    name ∈ segmentNames segments ↔ ∃ middle, .nested middle ∈ segments ∧
      ∃ inner, Tag.Within inner middle ∧ inner.isHashtag ∧ plainName inner.root = name
  | [] => by simp [segmentNames]
  | .name s :: rest => by
    rw [segmentNames, mem_segmentNames rest]
    simp
  | .nested tag :: rest => by
    rw [segmentNames, List.mem_append, mem_names tag, mem_segmentNames rest]
    simp

end

theorem mem_iff_names {id : Option String} {tags : List (Tag String)} :
    name ∈ (id.map plainName).toList ++ tags.flatMap names ↔ Names id tags name := by
  simp only [Names, List.mem_append, Option.mem_toList, Option.map_eq_some_iff, List.mem_flatMap,
    mem_names]

theorem mem_defines {instr : Instruction String} : name ∈ defines instr ↔ instr.Defines name :=
  mem_iff_names

mutual

theorem names_resolve (symbols : Symbols) :
    ∀ tag : Tag String, names (resolve symbols tag) = names tag
  | ⟨root, kind, segments, written, target, address⟩ => by
    simp only [resolve, names, segmentNames_resolve symbols segments]

theorem segmentNames_resolve (symbols : Symbols) : ∀ segments : List (Segment String),
    segmentNames (resolveSegments symbols segments) = segmentNames segments
  | [] => rfl
  | .name s :: rest => by
    simp only [resolveSegments, segmentNames, segmentNames_resolve symbols rest]
  | .nested tag :: rest => by
    simp only [resolveSegments, segmentNames, names_resolve symbols tag,
      segmentNames_resolve symbols rest]

end

end Link

theorem Node.mem_names {node : Node} {name : String} : name ∈ node.names ↔ node.Defines name :=
  Link.mem_iff_names

/-! ## Symbols -/

theorem Entries.get?_ofList {α : Type} (pairs : List (String × α)) (key : String) :
    (ofList pairs).get? key = pairs.reverse.lookup key := by
  have hall : ∀ m : Entries α, (insertAll m pairs).get? key =
      (pairs.reverse.lookup key).or (m.get? key) := by
    induction pairs with
    | nil => intro m; rfl
    | cons pair pairs ih =>
      intro m
      have hstep : insertAll m (pair :: pairs) = insertAll (m.insert pair.1 pair.2) pairs := rfl
      rw [hstep, ih, get?_insert, List.reverse_cons, List.lookup_append, List.lookup_cons,
        Option.or_assoc]
      by_cases hk : key = pair.1
      · simp [hk]
      · simp [hk, beq_eq_false_iff_ne.mpr hk]
  exact (hall []).trans Option.or_none

namespace Link

variable {code : List (Instruction String)} {name : String} {a : Nat}

theorem mem_definitions {start : Nat} :
    (name, a) ∈ definitions start code ↔
      ∃ i instr, code[i]? = some instr ∧ a = start + i ∧ instr.Defines name := by
  induction code generalizing start with
  | nil => simp [definitions]
  | cons instr code ih =>
    rw [definitions, List.mem_append, ih]
    constructor
    · rintro (h | ⟨i, instr', hi, rfl, hd⟩)
      · obtain ⟨name', hmem, heq⟩ := List.mem_map.mp h
        cases heq
        exact ⟨0, instr, rfl, rfl, mem_defines.mp hmem⟩
      · exact ⟨i + 1, instr', hi, by omega, hd⟩
    · rintro ⟨i, instr', hi, rfl, hd⟩
      cases i with
      | zero =>
        obtain rfl : instr = instr' := by simpa using hi
        exact .inl (List.mem_map.mpr ⟨name, mem_defines.mpr hd, rfl⟩)
      | succ i => exact .inr ⟨i, instr', hi, by omega, hd⟩

/-- The address of a symbol is that of an instruction which defines it. -/
theorem defines_of_get?_symbols (h : (symbols code).get? name = some a) :
    ∃ instr, code[a]? = some instr ∧ instr.Defines name := by
  obtain ⟨i, instr, hi, rfl, hd⟩ :=
    mem_definitions.mp (Entries.mem_of_mem_ofList (Entries.mem_of_get? h))
  rw [Nat.zero_add]
  exact ⟨instr, hi, hd⟩

/-- Every defined name is a symbol. -/
theorem exists_get?_symbols {instr : Instruction String} (hi : code[a]? = some instr)
    (hd : instr.Defines name) : ∃ b, (symbols code).get? name = some b := by
  have hmem : (name, a) ∈ definitions 0 code :=
    mem_definitions.mpr ⟨a, instr, hi, (Nat.zero_add a).symm, hd⟩
  cases hg : (symbols code).get? name with
  | some b => exact ⟨b, rfl⟩
  | none =>
    rw [symbols, Entries.get?_ofList, List.lookup_eq_none_iff] at hg
    simpa using hg (name, a) (List.mem_reverse.mpr hmem)

/-! ## Paths -/

/-- What a resolved tag consists of. -/
theorem resolve_eq (symbols : Symbols) (tag : Tag String) :
    resolve symbols tag =
      { root := tag.root
        kind := tag.kind
        segments := resolveSegments symbols tag.segments
        written := some (writtenAs tag.kind tag.root tag.path)
        target := tag.path.getLast?
        address := resolvePath symbols tag.path } := by
  cases tag
  rw [resolve]

/-- Of the names that are symbols the last one counts. -/
theorem resolvePath_eq_of_last {symbols : Symbols} {before after : List String}
    (ha : symbols.get? name = some a) (hafter : ∀ later ∈ after, symbols.get? later = none) :
    resolvePath symbols (before ++ name :: after) = a := by
  have hnone : after.filterMap symbols.get? = [] := List.filterMap_eq_nil_iff.mpr hafter
  simp [resolvePath, List.filterMap_append, ha, hnone]

theorem labels_resolveSegments (symbols : Symbols) (segments : List (Segment String)) :
    (resolveSegments symbols segments).map Segment.label = segments.map Segment.label := by
  induction segments with
  | nil => rfl
  | cons segment segments ih =>
    cases segment with
    | name s => simpa [resolveSegments] using ih
    | nested tag =>
      cases tag
      simpa [resolveSegments, resolve, Segment.label] using ih

end Link

namespace Tag

theorem path_eq (tag : Tag String) :
    tag.path = if tag.segments.map Segment.label = [] then [plainName tag.root]
      else (tag.segments.map Segment.label).map plainName := by
  unfold path
  cases tag.segments with
  | nil => rfl
  | cons segment segments => simp

theorem path_resolve (symbols : Link.Symbols) (tag : Tag String) :
    (Link.resolve symbols tag).path = tag.path := by
  cases tag
  simp only [path_eq, Link.resolve, Link.labels_resolveSegments]

theorem exists_last (tag : Tag String) : ∃ name, tag.path.getLast? = some name := by
  have hne : tag.path ≠ [] := by
    rw [path_eq]
    split
    · simp
    · next h => simpa using h
  exact ⟨_, List.getLast?_eq_some_getLast hne⟩

theorem address_resolve {symbols : Link.Symbols} {tag : Tag String} {name : String} {a : Nat}
    (hl : tag.path.getLast? = some name) (ha : symbols.get? name = some a) :
    (Link.resolve symbols tag).address = a := by
  obtain ⟨before, hpath⟩ := List.getLast?_eq_some_iff.mp hl
  rw [Link.resolve_eq, hpath]
  exact Link.resolvePath_eq_of_last ha (by simp)

end Tag

/-! ## Verification -/

namespace Node

theorem mem_nodes_self (node : Node) : node ∈ node.nodes := by
  rw [nodes_eq]
  exact List.mem_cons_self

theorem nodes_subset_preorder {node : Node} {siblings : List Node} (h : node ∈ siblings) :
    node.nodes ⊆ preorder siblings := by
  induction siblings with
  | nil => cases h
  | cons sibling siblings ih =>
    rw [preorder]
    rcases List.mem_cons.mp h with rfl | h
    · exact List.subset_append_left _ _
    · exact List.Subset.trans (ih h) (List.subset_append_right _ _)

mutual

theorem body_subset_nodes :
    ∀ (tree : Node) {node : Node}, node ∈ tree.nodes → node.body ⊆ tree.nodes
  | ⟨op, params, body, tags⟩, node, h => by
    rw [nodes] at h ⊢
    rcases List.mem_cons.mp h with rfl | h
    · intro child hchild
      exact List.mem_cons_of_mem _ (nodes_subset_preorder hchild child.mem_nodes_self)
    · exact List.Subset.trans (body_subset_preorder body h) (List.subset_cons_self _ _)

/-- With each node a forest holds its children. -/
theorem body_subset_preorder : ∀ (forest : List Node) {node : Node}, node ∈ preorder forest →
    node.body ⊆ preorder forest
  | [], node, h => by cases h
  | tree :: rest, node, h => by
    rw [preorder] at h ⊢
    rcases List.mem_append.mp h with h | h
    · exact List.Subset.trans (body_subset_nodes tree h) (List.subset_append_left _ _)
    · exact List.Subset.trans (body_subset_preorder rest h) (List.subset_append_right _ _)

end

theorem defines_of_isCalled {node : Node} {name : String} (h : node.isCalled name) :
    node.Defines name := by
  rcases Bool.or_eq_true_iff.mp h with hid | htag
  · obtain ⟨s, hs, hname⟩ := Option.map_eq_some_iff.mp (beq_iff_eq.mp hid)
    exact .inl ⟨s, hs, hname⟩
  · obtain ⟨tag, hmem, htag⟩ := List.any_eq_true.mp htag
    obtain ⟨hkind, hroot⟩ := Bool.and_eq_true_iff.mp htag
    exact .inr ⟨tag, hmem, tag, .self tag, hkind, beq_iff_eq.mp hroot⟩

end Node

namespace Reference

variable {forest : Forest} {name : String} {node found : Node}

mutual

theorem findIn_eq_some : ∀ (tree : Node) {found : Node}, findIn name tree = some found →
    found ∈ tree.nodes ∧ found.isCalled name
  | ⟨op, params, body, tags⟩, found, h => by
    rw [findIn] at h
    rw [Node.nodes]
    split at h
    · next hc =>
      cases h
      exact ⟨List.mem_cons_self, hc⟩
    · obtain ⟨hmem, hc⟩ := findAmong_eq_some body h
      exact ⟨List.mem_cons_of_mem _ hmem, hc⟩

theorem findAmong_eq_some :
    ∀ (nodes : List Node) {found : Node}, findAmong name nodes = some found →
      found ∈ Node.preorder nodes ∧ found.isCalled name
  | [], found, h => by cases h
  | tree :: rest, found, h => by
    rw [findAmong] at h
    rw [Node.preorder]
    split at h
    · next other hfound =>
      cases h
      obtain ⟨hmem, hc⟩ := findIn_eq_some tree hfound
      exact ⟨List.mem_append_left _ hmem, hc⟩
    · obtain ⟨hmem, hc⟩ := findAmong_eq_some rest h
      exact ⟨List.mem_append_right _ hmem, hc⟩

end

theorem next?_eq_some (h : next? node name = some found) :
    (found = node ∨ found ∈ node.body) ∧ found.isCalled name := by
  unfold next? at h
  split at h
  · next htag =>
    cases h
    exact ⟨.inl rfl, by simp [Node.isCalled, htag]⟩
  · exact ⟨.inr (List.mem_of_find?_eq_some h),
      List.find?_some (p := fun child : Node => child.isCalled name) h⟩

/-- Each name leads to a node of the forest that answers to it. -/
theorem follow_eq_ok {names : List String} (h : follow node names = .ok found)
    (hmem : node ∈ Node.preorder forest) (hc : node.isCalled name) {last : String}
    (hl : (name :: names).getLast? = some last) :
    found ∈ Node.preorder forest ∧ found.isCalled last := by
  induction names generalizing node name with
  | nil =>
    cases h
    cases hl
    exact ⟨hmem, hc⟩
  | cons next names ih =>
    rw [follow] at h
    split at h
    · next reached hnext =>
      obtain ⟨hwhere, hcalled⟩ := next?_eq_some hnext
      have hreached : reached ∈ Node.preorder forest := by
        rcases hwhere with rfl | hchild
        · exact hmem
        · exact Node.body_subset_preorder forest hmem hchild
      exact ih h hreached hcalled (by rwa [List.getLast?_cons_cons] at hl)
    · cases h

theorem find_eq_ok {path : List String} (h : find path forest = .ok found) {last : String}
    (hl : path.getLast? = some last) :
    found ∈ Node.preorder forest ∧ found.isCalled (plainName last) := by
  have hlast : (path.map plainName).getLast? = some (plainName last) := by
    rw [List.getLast?_map, hl]; rfl
  unfold find at h
  split at h
  · cases h
  · next first rest hpath =>
    rw [hpath] at hlast
    split at h
    · next node hfirst =>
      obtain ⟨hmem, hc⟩ := findAmong_eq_some forest hfirst
      exact follow_eq_ok h hmem hc hlast
    · cases h

end Reference

namespace Compile

variable {forest : Forest}

mutual

theorem nodeError?_eq_findSome? : ∀ tree : Node,
    nodeError? forest tree = tree.nodes.findSome? fun node => node.tags.findSome? (tagError? forest)
  | ⟨op, params, body, tags⟩ => by
    rw [nodeError?, Node.nodes, List.findSome?_cons, nodesError?_eq_findSome? body]
    cases tags.findSome? (tagError? forest) with
    | some e => rfl
    | none => rfl

/-- The tags of all nodes are checked in preorder, up to the first error. -/
theorem nodesError?_eq_findSome? : ∀ nodes : List Node,
    nodesError? forest nodes = (Node.preorder nodes).findSome? fun node =>
      node.tags.findSome? (tagError? forest)
  | [] => rfl
  | tree :: rest => by
    rw [nodesError?, Node.preorder, List.findSome?_append, nodeError?_eq_findSome? tree,
      nodesError?_eq_findSome? rest]
    cases tree.nodes.findSome? fun node => node.tags.findSome? (tagError? forest) with
    | some e => rfl
    | none => rfl

end

/-- A forest without an error has none at any of its tags. -/
theorem tagError?_of_nodesError? {nodes : List Node} (h : nodesError? forest nodes = none) :
    ∀ node ∈ Node.preorder nodes, ∀ tag ∈ node.tags, tagError? forest tag = none := by
  intro node hnode
  rw [nodesError?_eq_findSome?] at h
  exact List.findSome?_eq_none_iff.mp (List.findSome?_eq_none_iff.mp h node hnode)

theorem exists_find_of_tagError? {tag : Tag String} (h : tagError? forest tag = none)
    (href : tag.isReference) : ∃ found, Reference.find tag.path forest = .ok found := by
  rw [tagError?, if_pos href] at h
  split at h
  · next found hfound => exact ⟨found, hfound⟩
  · cases h

end Compile

/-! ## Compiled references -/

section Compiled

variable {forest : Forest} {timestamp : Nat} {program : Program} {name : String} {node : Node}
  {a : Nat}

theorem compile_find (h : compile forest timestamp = .ok program) (hn : node ∈ Node.preorder forest)
    {tag : Tag String} (ht : tag ∈ node.tags) (href : tag.isReference) :
    ∃ found, Reference.find tag.path forest = .ok found := by
  have herror : Compile.nodesError? forest forest = none := by
    unfold compile at h
    split at h
    · cases h
    · next hnone => exact hnone
  exact Compile.exists_find_of_tagError?
    (Compile.tagError?_of_nodesError? herror node hn tag ht) href

theorem exists_placed (hn : (Node.preorder forest)[a]? = some node) :
    ∃ d, Placed forest node a d := by
  have hlt := (List.getElem?_eq_some_iff.mp hn).1
  rw [Node.length_preorder] at hlt
  obtain ⟨other, d, hp⟩ := lt_spans_iff_placed.mp hlt
  obtain rfl : other = node := Option.some.inj (hp.preorder.symm.trans hn)
  exact ⟨d, hp⟩

/-- An instruction defines the names of its node. -/
theorem Image.defines_iff {symbols : Link.Symbols} {d : Address} {instr : Instruction String}
    (h : Image symbols timestamp node a d instr) : instr.Defines name ↔ node.Defines name := by
  have hnames : (node.tags.map (Link.resolve symbols)).flatMap Link.names =
      node.tags.flatMap Link.names := by
    simp [List.flatMap_map, Link.names_resolve]
  unfold Instruction.Defines Node.Defines
  rw [h.id, h.tags, ← Link.mem_iff_names, hnames, Link.mem_iff_names]

theorem layout_defines (timestamp : Nat) (hn : (Node.preorder forest)[a]? = some node) :
    ∃ instr, (Layout.ofForest timestamp forest)[a]? = some instr ∧
      ∀ name, instr.Defines name ↔ node.Defines name := by
  obtain ⟨d, ret, rest, hs, rfl⟩ := exists_placed hn
  have hcode := (hs.layout timestamp).left
  obtain ⟨op, params, body, tags⟩ := node
  rw [Layout.ofNode] at hcode
  exact ⟨_, hcode.head, fun name => Iff.rfl⟩

/-- A name that some node defines is a symbol, which stands for a node that defines it. -/
theorem compile_symbol (h : compile forest timestamp = .ok program) {other : Node}
    (hn : (Node.preorder forest)[a]? = some other) (hd : other.Defines name) :
    ∃ b node, program.symbols.get? name = some b ∧ (Node.preorder forest)[b]? = some node ∧
      node.Defines name := by
  have hsymbols : program.symbols = Link.symbols (Layout.ofForest timestamp forest) := by
    rw [compile_eq_ok h]
    rfl
  obtain ⟨instr, hi, hiff⟩ := layout_defines timestamp hn
  obtain ⟨b, hb⟩ := Link.exists_get?_symbols hi ((hiff name).mpr hd)
  obtain ⟨definer, hdefiner, hdefines⟩ := Link.defines_of_get?_symbols hb
  have hlt := (List.getElem?_eq_some_iff.mp hdefiner).1
  rw [Layout.ofForest, Layout.length_ofNodes, ← Node.length_preorder] at hlt
  have hnode := List.getElem?_eq_getElem hlt
  obtain ⟨instr', hi', hiff'⟩ := layout_defines timestamp hnode
  cases hdefiner.symm.trans hi'
  exact ⟨b, _, by rw [hsymbols, hb], hnode, (hiff' name).mp hdefines⟩

/-- A reference whose last name carries no further mark is verified against a node that defines this
name. -/
theorem find_defines (h : compile forest timestamp = .ok program) (hn : node ∈ Node.preorder forest)
    {tag : Tag String} (ht : tag ∈ node.tags) (href : tag.isReference)
    (hl : tag.path.getLast? = some name) (hm : isMarked name = false) :
    ∃ found, Reference.find tag.path forest = .ok found ∧ found ∈ Node.preorder forest ∧
      found.Defines name := by
  obtain ⟨found, hfind⟩ := compile_find h hn ht href
  obtain ⟨hmem, hc⟩ := Reference.find_eq_ok hfind hl
  rw [plainName_of_not_marked hm] at hc
  exact ⟨found, hfind, hmem, Node.defines_of_isCalled hc⟩

/-- A reference of a compiled program points at an instruction that defines its last name, unless
that name still carries a mark and no instruction defines it. -/
theorem reference_points_at_definition (h : compile forest timestamp = .ok program) {x : Address}
    {instr : Instruction String} (hd : program.decode x = .ok instr) {tag : Tag String}
    (ht : tag ∈ instr.tags) (href : tag.isReference) :
    ∃ name, tag.path.getLast? = some name ∧
      ((∃ target, program.decode tag.address = .ok target ∧ target.Defines name) ↔
        isMarked name = false ∨ ∃ y other, program.decode y = .ok other ∧ other.Defines name) := by
  obtain ⟨node, a, d, hp, -, himage⟩ := compile_decode h hd
  rw [himage.tags] at ht
  obtain ⟨tag, hmem, rfl⟩ := List.mem_map.mp ht
  have hkind : (Link.resolve program.symbols tag).kind = tag.kind := by
    cases tag
    rw [Link.resolve]
  rw [Tag.isReference, hkind] at href
  rw [Tag.path_resolve]
  obtain ⟨name, hl⟩ := tag.exists_last
  refine ⟨name, hl, ?_⟩
  have hpoints : ∀ {b : Nat} {other : Node}, (Node.preorder forest)[b]? = some other →
      other.Defines name →
      ∃ target, program.decode (Link.resolve program.symbols tag).address = .ok target ∧
        target.Defines name := by
    intro b other hb hother
    obtain ⟨c, definer, hsymbol, hc, hdefines⟩ := compile_symbol h hb hother
    obtain ⟨_, hplaced⟩ := exists_placed hc
    obtain ⟨target, htarget, himage'⟩ := hplaced.image h
    rw [Tag.address_resolve hl hsymbol]
    exact ⟨target, htarget, himage'.defines_iff.mpr hdefines⟩
  constructor
  · rintro ⟨target, htarget, hdefines⟩
    exact .inr ⟨_, target, htarget, hdefines⟩
  · rintro (hm | ⟨y, other, hy, hother⟩)
    · obtain ⟨found, -, hin, hdefines⟩ :=
        find_defines h (List.mem_of_getElem? hp.preorder) hmem href hl hm
      obtain ⟨b, hb⟩ := List.mem_iff_getElem?.mp hin
      exact hpoints hb hdefines
    · obtain ⟨definer, b, _, hplaced, -, himage'⟩ := compile_decode h hy
      exact hpoints hplaced.preorder (himage'.defines_iff.mp hother)

/-- A state, and an entity with a reference to it and one to a name with two marks. -/
def markedTwice : Forest :=
  [{ op := .context .state, params := [("id", .text "Armor")] },
    { op := .context .entity, params := [("id", .text "Wade")],
      tags := [.ofPath .reference ["@Armor"], .ofPath .reference ["@@Armor"]] }]

theorem reference_points_at_definition_armor :
    ∃ program instr tag, compile markedTwice 0 = .ok program ∧ program.decode 1 = .ok instr ∧
      instr.tags[0]? = some tag ∧ tag.isReference ∧
      ∃ target, program.decode tag.address = .ok target ∧ target.Defines "Armor" := by
  have h : compile markedTwice 0 =
      .ok (Link.link (Layout.ofForest 0 markedTwice) (Layout.entry markedTwice)) := rfl
  refine ⟨_, _, _, h, rfl, rfl, by decide +kernel, ?_⟩
  obtain ⟨name, hl, hiff⟩ :=
    reference_points_at_definition h (x := 1) rfl List.mem_cons_self (by decide +kernel)
  cases hl.symm.trans (show _ = some "Armor" by decide +kernel)
  exact hiff.mpr (.inl (by decide +kernel))

/-- Both marks of a name are stripped when a reference is verified, but only one when it is
linked. -/
theorem reference_points_nowhere :
    ∃ program instr tag, compile markedTwice 0 = .ok program ∧ program.decode 1 = .ok instr ∧
      instr.tags[1]? = some tag ∧ tag.isReference ∧ tag.path.getLast? = some "@Armor" ∧
      tag.address = nowhere ∧
      ∀ y other, program.decode y = .ok other → ¬ other.Defines "@Armor" := by
  have h : compile markedTwice 0 =
      .ok (Link.link (Layout.ofForest 0 markedTwice) (Layout.entry markedTwice)) := rfl
  have hnames : ∀ node ∈ Node.preorder markedTwice, "@Armor" ∉ node.names := by decide +kernel
  refine ⟨_, _, _, h, rfl, rfl,
    by decide +kernel, by decide +kernel, by decide +kernel, fun y other hy hother => ?_⟩
  obtain ⟨node, a, d, hp, -, himage⟩ := compile_decode h hy
  exact hnames node (List.mem_of_getElem? hp.preorder)
    (Node.mem_names.mpr (himage.defines_iff.mp hother))

def Unambiguous (forest : Forest) : Prop :=
  ∀ (a b : Nat) (node other : Node) (name : String), (Node.preorder forest)[a]? = some node →
    (Node.preorder forest)[b]? = some other → node.Defines name → other.Defines name → a = b

theorem unambiguous_iff : Unambiguous forest ↔
    (Node.preorder forest).Pairwise fun node other => ∀ name ∈ node.names, name ∉ other.names := by
  simp only [Node.mem_names, List.pairwise_iff_getElem]
  constructor
  · intro h a b ha hb hab name hname hother
    have heq :=
      h a b _ _ name (List.getElem?_eq_getElem ha) (List.getElem?_eq_getElem hb) hname hother
    omega
  · intro h a b node other name hnode hother hname hname'
    obtain ⟨ha, rfl⟩ := List.getElem?_eq_some_iff.mp hnode
    obtain ⟨hb, rfl⟩ := List.getElem?_eq_some_iff.mp hother
    rcases Nat.lt_trichotomy a b with hab | hab | hab
    · exact absurd hname' (h a b ha hb hab name hname)
    · exact hab
    · exact absurd hname (h b a hb ha hab name hname')

instance (forest : Forest) : Decidable (Unambiguous forest) := decidable_of_iff' _ unambiguous_iff

/-- If names are unambiguous, a reference is linked to the very node that it was verified against,
which stands at no other place of the forest. -/
theorem reference_points_at_found (h : compile forest timestamp = .ok program)
    (hu : Unambiguous forest) (hn : (Node.preorder forest)[a]? = some node) {i : Nat}
    {tag : Tag String} (ht : node.tags[i]? = some tag) (href : tag.isReference)
    (hm : ∀ name ∈ tag.path, isMarked name = false) :
    ∃ found b instr linked, Reference.find tag.path forest = .ok found ∧
      (∀ c, (Node.preorder forest)[c]? = some found ↔ c = b) ∧ program.decode a = .ok instr ∧
      instr.tags[i]? = some linked ∧ linked.address = (b : Nat) := by
  obtain ⟨name, hl⟩ := tag.exists_last
  obtain ⟨found, hfind, hin, hdefines⟩ :=
    find_defines h (List.mem_of_getElem? hn) (List.mem_of_getElem? ht) href hl
    (hm name (List.mem_of_getLast? hl))
  obtain ⟨b, hb⟩ := List.mem_iff_getElem?.mp hin
  have hunique : ∀ c, (Node.preorder forest)[c]? = some found ↔ c = b := by
    intro c
    constructor
    · intro hc
      exact hu c b found found name hc hb hdefines hdefines
    · rintro rfl
      exact hb
  obtain ⟨c, definer, hsymbol, hc, hdefiner⟩ := compile_symbol h hb hdefines
  obtain rfl : c = b := hu c b definer found name hc hb hdefiner hdefines
  obtain ⟨d, hp⟩ := exists_placed hn
  obtain ⟨instr, hd, himage⟩ := hp.image h
  refine ⟨found, c, instr, Link.resolve program.symbols tag, hfind, hunique, hd, ?_,
    Tag.address_resolve hl hsymbol⟩
  rw [himage.tags, List.getElem?_map, ht]
  rfl

end Compiled

/-- A concept with a hashtag of its own and nested nodes, and two references into it. -/
def kinForest : Forest :=
  [{ op := .context .concept, params := [("id", .text "Core")], tags := [.hashtag "#System"],
      body :=
        [{ op := .context .entity, params := [("id", .text "Wade")],
            body := [{ op := .context .fragment, params := [("id", .text "Meta")] }] },
          { op := .context .asset, params := [("id", .text "Gear")] }] },
    { op := .link, params := [("id", .text "Inheritance")],
      tags :=
        [.ofPath .reference ["Core", "#System", "Gear"], .ofPath .reference ["Wade", "Meta"]] }]

theorem reference_points_at_found_meta :
    ∃ program found instr linked, compile kinForest 0 = .ok program ∧ Unambiguous kinForest ∧
      Reference.find ["Wade", "Meta"] kinForest = .ok found ∧
      (Node.preorder kinForest)[2]? = some found ∧
      program.decode 4 = .ok instr ∧ instr.tags[1]? = some linked ∧ linked.address = 2 := by
  have h : compile kinForest 0 =
      .ok (Link.link (Layout.ofForest 0 kinForest) (Layout.entry kinForest)) := rfl
  have hu : Unambiguous kinForest := by decide +kernel
  obtain ⟨found, b, instr, linked, hfind, hunique, hd, hlinked, haddress⟩ :=
    reference_points_at_found h hu (a := 4) (i := 1) rfl rfl (by decide +kernel) (by decide +kernel)
  have hmeta : (Node.preorder kinForest)[2]? = some found := by
    cases hfind
    rfl
  obtain rfl : 2 = b := (hunique 2).mp hmeta
  exact ⟨_, found, instr, linked, h, hu, hfind, hmeta, hd, hlinked, haddress⟩

end GlyphScript
