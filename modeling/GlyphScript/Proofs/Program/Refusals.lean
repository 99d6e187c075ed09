import GlyphScript.Proofs.Program.Paths

/-! # Which forests are refused

The references on all nodes are checked against the whole forest, in preorder and on each node from
left to right, and the forest is refused at the first one that leads nowhere. Nothing else is
checked. A hashtag counts only by its root and a reference only by its path, so what is nested in
their segments does not matter, and neither does it matter whether a name stands before or behind a
reference to it.
-/

namespace GlyphScript

namespace Compile

def Accepts (forest : Forest) (tag : Tag String) : Prop :=
  tag.isReference → ∃ found, Reference.find tag.path forest = .ok found

/-- A reference stops on its way, and all references on the nodes before its own and to its left
lead somewhere. -/
def FirstRefused (forest : Forest) (tag : Tag String) (stop : Reference.Unreachable) : Prop :=
  ∃ before node after left right, Node.preorder forest = before ++ node :: after ∧
    node.tags = left ++ tag :: right ∧
    tag.isReference ∧ Reference.find tag.path forest = .error stop ∧
    (∀ earlier ∈ before, ∀ other ∈ earlier.tags, Accepts forest other) ∧
    ∀ other ∈ left, Accepts forest other

def report (tag : Tag String) (stop : Reference.Unreachable) : CompileError :=
  { path := tag.display, segment := stop.segment, container := stop.container }

variable {forest : Forest} {timestamp : Nat} {tag : Tag String} {e : CompileError}

theorem tagError?_eq_none_iff : tagError? forest tag = none ↔ Accepts forest tag := by
  unfold tagError? Accepts
  by_cases href : tag.isReference
  · cases hfind : Reference.find tag.path forest with
    | ok found => simp [href]
    | error stop => simp [href]
  · simp [href]

theorem tagError?_eq_some_iff : tagError? forest tag = some e ↔
    tag.isReference ∧ ∃ stop, Reference.find tag.path forest = .error stop ∧
      e = report tag stop := by
  unfold tagError? report
  by_cases href : tag.isReference
  · cases hfind : Reference.find tag.path forest with
    | ok found => simp [href]
    | error stop => simp [href, eq_comm]
  · simp [href]

theorem nodesError?_eq_none_iff : nodesError? forest forest = none ↔
    ∀ node ∈ Node.preorder forest, ∀ tag ∈ node.tags, Accepts forest tag := by
  simp only [nodesError?_eq_findSome?, List.findSome?_eq_none_iff, tagError?_eq_none_iff]

theorem nodesError?_eq_some_iff : nodesError? forest forest = some e ↔
    ∃ tag stop, FirstRefused forest tag stop ∧ e = report tag stop := by
  simp only [nodesError?_eq_findSome?, List.findSome?_eq_some_iff, List.findSome?_eq_none_iff,
    tagError?_eq_none_iff, tagError?_eq_some_iff]
  constructor
  · rintro ⟨before, node, after, hnodes, ⟨left, tag, right, htags, ⟨href, stop, hstop, rfl⟩, hleft⟩,
      hbefore⟩
    exact ⟨tag, stop,
      ⟨before, node, after, left, right, hnodes, htags, href, hstop, hbefore, hleft⟩, rfl⟩
  · rintro ⟨tag, stop,
      ⟨before, node, after, left, right, hnodes, htags, href, hstop, hbefore, hleft⟩, rfl⟩
    exact ⟨before, node, after, hnodes, ⟨left, tag, right, htags, ⟨href, stop, hstop, rfl⟩, hleft⟩,
      hbefore⟩

theorem compile_eq_error_iff :
    compile forest timestamp = .error e ↔ nodesError? forest forest = some e := by
  unfold compile
  cases nodesError? forest forest with
  | none => simp
  | some e' => simp

theorem exists_compile_iff :
    (∃ program, compile forest timestamp = .ok program) ↔ nodesError? forest forest = none := by
  unfold compile
  cases nodesError? forest forest with
  | none => simp
  | some e => simp

end Compile

/-! ## Changing what does not count -/

/-- A change of tags that keeps their kinds, the roots of hashtags and the paths of references. -/
structure Tag.KeepsNames (f : Tag String → Tag String) : Prop where
  kind : ∀ tag, (f tag).kind = tag.kind
  root : ∀ tag, tag.isHashtag → (f tag).root = tag.root
  path : ∀ tag, tag.isReference → (f tag).path = tag.path

namespace Node

mutual

def mapTags (f : Tag String → Tag String) : Node → Node
  | ⟨op, params, body, tags⟩ => ⟨op, params, mapForest f body, tags.map f⟩

def mapForest (f : Tag String → Tag String) : List Node → List Node
  | [] => []
  | node :: rest => mapTags f node :: mapForest f rest

end

variable {f : Tag String → Tag String}

theorem mapForest_eq_map (nodes : List Node) : mapForest f nodes = nodes.map (mapTags f) := by
  induction nodes with
  | nil => rfl
  | cons node rest ih => rw [mapForest, ih, List.map_cons]

theorem tags_mapTags (node : Node) : (mapTags f node).tags = node.tags.map f := by
  cases node
  rw [mapTags]

theorem id?_mapTags (node : Node) : (mapTags f node).id? = node.id? := by
  cases node
  rw [mapTags]
  rfl

theorem body_mapTags (node : Node) : (mapTags f node).body = node.body.map (mapTags f) := by
  cases node
  rw [mapTags, mapForest_eq_map]

mutual

theorem nodes_mapTags : ∀ tree : Node, (mapTags f tree).nodes = tree.nodes.map (mapTags f)
  | ⟨op, params, body, tags⟩ => by
    rw [nodes, List.map_cons, ← preorder_mapForest body, mapTags, nodes]

theorem preorder_mapForest :
    ∀ nodes : List Node, preorder (mapForest f nodes) = (preorder nodes).map (mapTags f)
  | [] => rfl
  | tree :: rest => by
    rw [mapForest, preorder, preorder, List.map_append, nodes_mapTags tree, preorder_mapForest rest]

end

end Node

namespace Tag.KeepsNames

variable {f : Tag String → Tag String} {forest : Forest}

theorem isReference (hf : KeepsNames f) (tag : Tag String) :
    (f tag).isReference = tag.isReference := by
  rw [Tag.isReference, hf.kind, Tag.isReference]

theorem hasHashtag (hf : KeepsNames f) (node : Node) (name : String) :
    (node.mapTags f).hasHashtag name = node.hasHashtag name := by
  rw [Node.hasHashtag, Node.tags_mapTags, List.any_map, Node.hasHashtag]
  congr 1
  funext tag
  have hkind : (f tag).isHashtag = tag.isHashtag := by rw [Tag.isHashtag, hf.kind, Tag.isHashtag]
  by_cases htag : tag.isHashtag
  · simp [hkind, htag, hf.root tag htag]
  · simp [hkind, htag]

theorem isCalled (hf : KeepsNames f) (node : Node) (name : String) :
    (node.mapTags f).isCalled name = node.isCalled name := by
  rw [Node.isCalled, Node.id?_mapTags, hf.hasHashtag, Node.isCalled]

mutual

theorem findIn (hf : KeepsNames f) (name : String) : ∀ tree : Node,
    Reference.findIn name (tree.mapTags f) = (Reference.findIn name tree).map (Node.mapTags f)
  | ⟨op, params, body, tags⟩ => by
    have hcalled := hf.isCalled ⟨op, params, body, tags⟩ name
    have hbody := findAmong hf name body
    rw [Node.mapTags] at hcalled ⊢
    rw [Reference.findIn, Reference.findIn, hcalled, hbody]
    split
    · rw [Option.map_some, Node.mapTags]
    · rfl

theorem findAmong (hf : KeepsNames f) (name : String) : ∀ nodes : List Node,
    Reference.findAmong name (Node.mapForest f nodes) =
      (Reference.findAmong name nodes).map (Node.mapTags f)
  | [] => rfl
  | tree :: rest => by
    rw [Node.mapForest, Reference.findAmong, findIn hf name tree, findAmong hf name rest,
      Reference.findAmong]
    cases Reference.findIn name tree with
    | some found => rfl
    | none => rfl

end

theorem next? (hf : KeepsNames f) (node : Node) (name : String) :
    Reference.next? (node.mapTags f) name = (Reference.next? node name).map (Node.mapTags f) := by
  unfold Reference.next?
  rw [hf.hasHashtag, Node.body_mapTags, List.find?_map]
  split
  · rfl
  · congr 2
    funext child
    exact hf.isCalled child name

theorem follow (hf : KeepsNames f) (node : Node) (names : List String) :
    Reference.follow (node.mapTags f) names =
      (Reference.follow node names).map (Node.mapTags f) := by
  induction names generalizing node with
  | nil => rfl
  | cons name names ih =>
    rw [Reference.follow, Reference.follow, hf.next?, Node.id?_mapTags]
    cases Reference.next? node name with
    | some found => exact ih found
    | none => rfl

theorem find (hf : KeepsNames f) (path : List String) :
    Reference.find path (Node.mapForest f forest) =
      (Reference.find path forest).map (Node.mapTags f) := by
  unfold Reference.find
  cases path.map plainName with
  | nil => rfl
  | cons first rest =>
    dsimp only
    rw [hf.findAmong]
    cases Reference.findAmong first forest with
    | some node => exact hf.follow node rest
    | none => rfl

theorem tagError? (hf : KeepsNames f) (tag : Tag String) :
    Compile.tagError? (Node.mapForest f forest) (f tag) = Compile.tagError? forest tag := by
  unfold Compile.tagError?
  rw [hf.isReference]
  by_cases href : tag.isReference
  · rw [if_pos href, if_pos href, hf.path tag href, hf.find]
    have hdisplay : (f tag).display = tag.display := by
      rw [Tag.display, hf.path tag href, hf.kind, Tag.display]
    cases Reference.find tag.path forest with
    | ok found => rfl
    | error stop => rw [hdisplay]; rfl
  · rw [if_neg href, if_neg href]

theorem nodesError? (hf : KeepsNames f) :
    Compile.nodesError? (Node.mapForest f forest) (Node.mapForest f forest) =
      Compile.nodesError? forest forest := by
  rw [Compile.nodesError?_eq_findSome?, Compile.nodesError?_eq_findSome?, Node.preorder_mapForest,
    List.findSome?_map]
  congr 1
  funext node
  rw [Function.comp_apply, Node.tags_mapTags, List.findSome?_map]
  congr 1
  funext tag
  exact hf.tagError? tag

end Tag.KeepsNames

/-- A tag with what counts of it: a hashtag without segments, and a reference with the names of its
segments. -/
def Tag.bare (tag : Tag String) : Tag String :=
  { tag with
    segments :=
      if tag.isReference then tag.segments.map fun segment => .name segment.label else [] }

theorem Tag.bare_keepsNames : KeepsNames Tag.bare := by
  constructor
  · intro tag
    rfl
  · intro tag _
    rfl
  · intro tag href
    simp [path_eq, bare, href, Function.comp_def, Segment.label]

/-! ## Refusals -/

/-- A node is found by its name wherever it stands. -/
theorem Reference.exists_find_of_isCalled {forest : Forest} {node : Node}
    (hn : node ∈ Node.preorder forest) {name : String} (hc : node.isCalled (plainName name)) :
    ∃ found, find [name] forest = .ok found := by
  cases hfind : findAmong (plainName name) forest with
  | none => exact absurd hc (not_isCalled_of_findAmong forest hfind node hn)
  | some found => exact ⟨found, by simp [find, hfind, follow]⟩

/-- A forest is compiled exactly if all references on its nodes lead somewhere, and is refused with
a report of the first one that does not. Hashtags alone never make it fail, a name may stand behind
a reference to it, and a hashtag counts only by its root and a reference only by its path. -/
theorem compile_refuses_first_unreachable (forest : Forest) (timestamp : Nat) :
    ((∃ program, compile forest timestamp = .ok program) ↔
      ∀ node ∈ Node.preorder forest, ∀ tag ∈ node.tags, tag.isReference →
        ∃ found, Reference.find tag.path forest = .ok found) ∧
    (∀ e, compile forest timestamp = .error e ↔ ∃ tag stop, Compile.FirstRefused forest tag stop ∧
      e = { path := tag.display, segment := stop.segment, container := stop.container }) ∧
    ((∀ node ∈ Node.preorder forest, ∀ tag ∈ node.tags, tag.isHashtag) →
      ∃ program, compile forest timestamp = .ok program) ∧
    (∀ node ∈ Node.preorder forest, ∀ name, node.isCalled (plainName name) →
      ∃ found, Reference.find [name] forest = .ok found) ∧
    ∀ f, Tag.KeepsNames f → ∀ e,
      compile (Node.mapForest f forest) timestamp = .error e ↔
        compile forest timestamp = .error e := by
  have hok : (∃ program, compile forest timestamp = .ok program) ↔
      ∀ node ∈ Node.preorder forest, ∀ tag ∈ node.tags, Compile.Accepts forest tag :=
    Compile.exists_compile_iff.trans Compile.nodesError?_eq_none_iff
  refine ⟨hok, fun e => ?_, fun htags => hok.mpr ?_, fun node hn name hc => ?_, fun f hf e => ?_⟩
  · exact Compile.compile_eq_error_iff.trans Compile.nodesError?_eq_some_iff
  · intro node hn tag ht href
    have hkind : tag.kind = .hashtag := of_decide_eq_true (htags node hn tag ht)
    simp [Tag.isReference, hkind] at href
  · exact Reference.exists_find_of_isCalled hn hc
  · rw [Compile.compile_eq_error_iff, Compile.compile_eq_error_iff, hf.nodesError?]

/-- A signal with a reference to a node behind it and a hashtag that leads nowhere, and an entity
with two references that lead nowhere. -/
def flares : Forest :=
  [{ op := .signal, params := [("id", .text "Flare")],
      tags :=
        [{ root := "Beacon", kind := .hashtag,
           segments :=
             [.name "Phantom", .nested { root := "Nobody", kind := .reference, segments := [] }] },
          .ofPath .reference ["Later", "Armor"]] },
    { op := .context .entity, params := [("id", .text "Later")],
      body :=
        [{ op := .context .state, params := [("id", .text "Armor")],
            tags := [.ofPath .reference ["Beacon"], .ofPath .reference ["@Later", "Phantom"]] }],
      tags := [.ofPath .reference ["Flare"]] },
    { op := .context .entity, params := [("id", .text "Wade")],
      tags := [.ofPath .reference ["Nobody"]] }]

theorem compile_refuses_first_unreachable_flares :
    compile flares 0 =
      .error { path := "@Later::Phantom", segment := "Phantom", container := "Later" } ∧
      (∃ tag stop, Compile.FirstRefused flares tag stop ∧ tag.display = "@Later::Phantom") ∧
      compile (Node.mapForest Tag.bare flares) 0 =
        .error { path := "@Later::Phantom", segment := "Phantom", container := "Later" } ∧
      (∃ program,
        compile [{ op := .signal, tags := [.hashtag "Beacon", .ofPath .hashtag ["A", "B"]] }] 0 =
          .ok program) ∧
      ∃ found, Reference.find ["#Beacon"] flares = .ok found := by
  obtain ⟨-, herror, -, hnames, hbare⟩ := compile_refuses_first_unreachable flares 0
  obtain ⟨-, -, hhashtags, -⟩ := compile_refuses_first_unreachable
    [{ op := .signal, tags := [.hashtag "Beacon", .ofPath .hashtag ["A", "B"]] }] 0
  have hfails : compile flares 0 =
      .error { path := "@Later::Phantom", segment := "Phantom", container := "Later" } := by
    rw [Compile.compile_eq_error_iff]
    decide +kernel
  obtain ⟨tag, stop, hfirst, he⟩ := (herror _).mp hfails
  refine ⟨hfails, ⟨tag, stop, hfirst, (congrArg CompileError.path he).symm⟩, ?_, hhashtags ?_, ?_⟩
  · exact (hbare Tag.bare Tag.bare_keepsNames _).mpr hfails
  · decide +kernel
  · exact hnames _ List.mem_cons_self "#Beacon" (by decide +kernel)

end GlyphScript
