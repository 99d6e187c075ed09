import GlyphScript.Proofs.Program.Placement
import GlyphScript.Proofs.Script.Rules

/-! # The shape of parsed forests

A node of a parsed forest comes from the tree of a trigger or of an element. A trigger has its
element as the only child and nothing but its two ends as parameters. An element is no trigger,
since the glyphs of triggers are no glyphs of elements. The tags of both are as they were written,
not yet linked.
-/

namespace GlyphScript

/-- A trigger leads to its only child: its parameters are texts that say from where and to where. -/
structure Node.LeadsTo (node child : Node) : Prop where
  body : node.body = [child]
  unnamed : node.id? = none
  keys : node.params.keys.Nodup
  ends : ∀ key v, (key, v) ∈ node.params → (key = "from" ∨ key = "to") ∧ ∃ s, v = .text s
  target : node.params.get? "to" = child.id?.map .text

structure Tag.Unlinked (tag : Tag String) : Prop where
  written : tag.written = none
  target : tag.target = none
  address : tag.address = -1

/-- A tag as it is written: its first segment names its root, and hashtags in it have one segment,
their root. -/
structure Tag.Fresh (tag : Tag String) : Prop extends tag.Unlinked where
  root : tag.segments.head?.map Segment.label = some tag.root
  nested : ∀ inner, .nested inner ∈ tag.segments →
    inner.kind = .hashtag ∧ inner.segments = [.name inner.root] ∧ inner.Unlinked

structure Node.Shaped (node : Node) : Prop where
  trigger : node.op = .trigger → ∃ child, node.LeadsTo child
  tags : ∀ tag ∈ node.tags, tag.Fresh

namespace Node

variable {P : Node → Prop}

mutual

theorem forall_nodes (hchild : ∀ node, P node → ∀ child ∈ node.body, P child) :
    ∀ tree : Node, P tree → ∀ node ∈ tree.nodes, P node
  | ⟨op, params, body, tags⟩, h => by
    rw [nodes]
    exact List.forall_mem_cons.mpr ⟨h, forall_preorder hchild body (hchild _ h)⟩

/-- What children inherit holds at every depth. -/
theorem forall_preorder (hchild : ∀ node, P node → ∀ child ∈ node.body, P child) :
    ∀ forest : List Node, (∀ node ∈ forest, P node) → ∀ node ∈ preorder forest, P node
  | [], _ => fun _ h => by cases h
  | tree :: rest, h => by
    obtain ⟨htree, hrest⟩ := List.forall_mem_cons.mp h
    rw [preorder]
    exact List.forall_mem_append.mpr
      ⟨forall_nodes hchild tree htree, forall_preorder hchild rest hrest⟩

end

end Node

/-- Triggers have two spellings. -/
theorem Op.ofGlyph_eq_trigger {glyph : String} (h : ofGlyph glyph = .trigger) :
    glyph = "➔" ∨ glyph = "->" := by
  cases hl : spellings.lookup glyph with
  | none =>
    rw [ofGlyph, hl] at h
    cases h
  | some op =>
    rw [ofGlyph, hl, Option.getD_some] at h
    subst h
    have hmem : (glyph, Op.trigger) ∈ spellings := Entries.mem_of_get? hl
    simpa [spellings] using hmem

theorem mem_of_mapM {α β : Type} {f : α → Option β} {xs : List α} {ys : List β}
    (h : xs.mapM f = some ys) {y : β} (hy : y ∈ ys) : ∃ x ∈ xs, f x = some y := by
  induction xs generalizing ys with
  | nil =>
    cases h
    cases hy
  | cons x xs ih =>
    rw [List.mapM_cons] at h
    obtain ⟨z, hz, h⟩ := Option.bind_eq_some_iff.mp h
    obtain ⟨zs, hzs, h⟩ := Option.bind_eq_some_iff.mp h
    cases h
    rcases List.mem_cons.mp hy with rfl | hy
    · exact ⟨x, List.mem_cons_self, hz⟩
    · obtain ⟨x', hx', hread⟩ := ih hzs hy
      exact ⟨x', List.mem_cons_of_mem x hx', hread⟩

namespace Script

open Peg

/-! ## Trees of scripts -/

/-- The body of the rule of a tree derives its text and its children. -/
def Derived (t : ParseTree Rule) : Prop :=
  ∃ m : Mode,
    grammar.Derives (m.inside (grammar.style t.rule)) (grammar.body t.rule) t.text t.children

theorem Derived.child {t u : ParseTree Rule} (h : Derived t) (hu : u ∈ t.children) : Derived u := by
  obtain ⟨m, hderives⟩ := h
  exact (hderives.tree hu).2

/-- A glyph begins with a character of glyphs, and so is no spelling of a trigger. -/
theorem Derived.ofGlyph_ne_trigger {t : ParseTree Rule} (h : Derived t) (hrule : t.rule = .glyph) :
    Op.ofGlyph (String.ofList t.text) ≠ .trigger := by
  obtain ⟨m, hderives⟩ := h
  rw [hrule] at hderives
  obtain ⟨s, w, s', ts, ts', hfirst, _, _, htext, _⟩ := hderives.seq_inv
  cases hfirst with
  | @char _ _ c hc =>
    intro htrigger
    have hlist : ∀ g : String, String.ofList t.text = g → g.toList.head? = some c := by
      rintro g rfl
      rw [String.toList_ofList, htext]
      rfl
    -- neither spelling of a trigger begins with a character of glyphs
    rcases Op.ofGlyph_eq_trigger htrigger with harrow | harrow
    · cases hlist _ harrow
      exact absurd hc (by decide)
    · cases hlist _ harrow
      exact absurd hc (by decide)

namespace Build

/-! ## Tags -/

theorem segment?_nested {t : ParseTree Rule} {inner : Tag String}
    (h : segment? t = some (.nested inner)) : ∃ s, inner = Tag.hashtag s := by
  unfold segment? at h
  split at h
  · obtain ⟨s, _, hs⟩ := Option.map_eq_some_iff.mp h
    cases hs
    exact ⟨s, rfl⟩
  · obtain ⟨s, _, hs⟩ := Option.map_eq_some_iff.mp h
    cases hs
  · cases h

theorem path?_fresh {kind : TagKind} {t : ParseTree Rule} {tag : Tag String}
    (h : path? kind t = some tag) : tag.Fresh := by
  unfold path? at h
  split at h
  · obtain ⟨segments, hsegments, h⟩ := Option.bind_eq_some_iff.mp h
    obtain ⟨first, hfirst, h⟩ := Option.bind_eq_some_iff.mp h
    cases h
    refine ⟨⟨rfl, rfl, rfl⟩, congrArg (Option.map Segment.label) hfirst, fun inner hinner => ?_⟩
    obtain ⟨u, _, hu⟩ := mem_of_mapM hsegments hinner
    obtain ⟨s, rfl⟩ := segment?_nested hu
    exact ⟨rfl, rfl, rfl, rfl, rfl⟩
  · cases h

theorem tag?_fresh {t : ParseTree Rule} {tag : Tag String} (h : tag? t = some tag) : tag.Fresh := by
  unfold tag? at h
  split at h
  · exact path?_fresh h
  · exact path?_fresh h
  · exact path?_fresh h
  · cases h

theorem tags?_fresh {ts : List (ParseTree Rule)} {tags : List (Tag String)}
    (h : optional? .tagList [] tags? ts = some tags) : ∀ tag ∈ tags, tag.Fresh := by
  intro tag htag
  unfold optional? at h
  split at h
  · unfold tags? at h
    split at h
    · obtain ⟨t, _, ht⟩ := mem_of_mapM h htag
      exact tag?_fresh ht
    · cases h
  · cases h
    cases htag

/-! ## Nodes -/

theorem node?_trigger {s s' : List Char} {ts : List (ParseTree Rule)} {node : Node}
    (h : node? (.node .node s [.node .trigger s' ts]) = some node) : ∃ source element tags,
    elements? ts = some [element] ∧ optional? .tagList [] tags? ts = some tags ∧
      node = { op := .trigger
               params := textEntry "from" source ++ textEntry "to" element.id?
               body := [element]
               tags } := by
  unfold node? at h
  obtain ⟨origin, _, h⟩ := Option.bind_eq_some_iff.mp h
  obtain ⟨tags, htags, h⟩ := Option.bind_eq_some_iff.mp h
  obtain ⟨elements, helements, h⟩ := Option.bind_eq_some_iff.mp h
  split at h
  · cases h
    exact ⟨_, _, tags, helements, htags, rfl⟩
  · cases h

theorem element?_eq_some {s : List Char} {ts : List (ParseTree Rule)} {node : Node}
    (h : element? (.node .element s ts) = some node) : ∃ glyph params tags body,
    part? .glyph ts = some glyph ∧ optional? .tagList [] tags? ts = some tags ∧
    bodies? ts = some body ∧
      node = { op := Op.ofGlyph (String.ofList glyph.text), params, body, tags } := by
  unfold element? at h
  obtain ⟨glyph, hglyph, h⟩ := Option.bind_eq_some_iff.mp h
  obtain ⟨params, _, h⟩ := Option.bind_eq_some_iff.mp h
  obtain ⟨tags, htags, h⟩ := Option.bind_eq_some_iff.mp h
  obtain ⟨body, hbody, h⟩ := Option.bind_eq_some_iff.mp h
  cases h
  exact ⟨glyph, params, tags, body, hglyph, htags, hbody, rfl⟩

theorem mem_textEntry {key key' : String} {s : Option String} {v : Value String}
    (h : (key', v) ∈ textEntry key s) : key' = key ∧ ∃ s, v = .text s := by
  cases s with
  | none => cases h
  | some s =>
    cases List.mem_singleton.mp h
    exact ⟨rfl, s, rfl⟩

theorem leadsTo_of_ends {node child : Node} (hbody : node.body = [child]) {source : Option String}
    (hparams : node.params = textEntry "from" source ++ textEntry "to" child.id?) :
    node.LeadsTo child := by
  have hid : node.params.get? "id" = none := by
    rw [hparams]
    cases source <;> cases child.id? <;> rfl
  refine ⟨hbody, congrArg (Option.bind · Value.text?) hid, ?_, ?_, ?_⟩
  · rw [hparams]
    cases source <;> cases child.id? <;> simp [textEntry, Entries.keys]
  · intro key v hmem
    rw [hparams] at hmem
    rcases List.mem_append.mp hmem with hsource | htarget
    · obtain ⟨rfl, htext⟩ := mem_textEntry hsource
      exact ⟨.inl rfl, htext⟩
    · obtain ⟨rfl, htext⟩ := mem_textEntry htarget
      exact ⟨.inr rfl, htext⟩
  · rw [hparams]
    cases source <;> cases child.id? <;> rfl

theorem part?_eq_some {r : Rule} {ts : List (ParseTree Rule)} {t : ParseTree Rule}
    (h : part? r ts = some t) : t ∈ ts ∧ t.rule = r := by
  unfold part? at h
  have hrule := List.find?_some h
  exact ⟨List.mem_of_find?_eq_some h, beq_iff_eq.mp hrule⟩

section Parts

variable {α : Type} {f : List (ParseTree Rule) → Option (List α)} {r : Rule} (hnil : f [] = some [])
  (hother : ∀ r' cs us ts, r' ≠ r → f (.node r' cs us :: ts) = f ts) {ts : List (ParseTree Rule)}
  {xs : List α} {x : α}

include hnil hother

/-- A function that puts together what it reads from the trees of a rule finds nothing else. -/
theorem mem_of_parts (read : ParseTree Rule → Option (List α))
    (hpart : ∀ cs us ts, f (.node r cs us :: ts) = (read (.node r cs us)).bind fun xs =>
      (f ts).map (xs ++ ·))
    (h : f ts = some xs) (hx : x ∈ xs) : ∃ t ∈ ts, ∃ ys, read t = some ys ∧ x ∈ ys := by
  induction ts generalizing xs with
  | nil =>
    cases hnil.symm.trans h
    cases hx
  | cons t ts ih =>
    have hlater : ∀ {xs}, f ts = some xs → x ∈ xs →
        ∃ u ∈ t :: ts, ∃ ys, read u = some ys ∧ x ∈ ys := by
      intro xs h hx
      obtain ⟨u, hu, hread⟩ := ih h hx
      exact ⟨u, List.mem_cons_of_mem t hu, hread⟩
    obtain ⟨r', cs, us⟩ := t
    by_cases hr : r' = r
    · subst hr
      rw [hpart] at h
      obtain ⟨ys, hys, h⟩ := Option.bind_eq_some_iff.mp h
      obtain ⟨zs, hzs, rfl⟩ := Option.map_eq_some_iff.mp h
      rcases List.mem_append.mp hx with hnew | hold
      · exact ⟨_, List.mem_cons_self, ys, hys, hnew⟩
      · exact hlater hzs hold
    · rw [hother r' cs us ts hr] at h
      exact hlater h hx

theorem mem_of_part (read : ParseTree Rule → Option α)
    (hpart : ∀ cs us ts, f (.node r cs us :: ts) = (read (.node r cs us)).bind fun x =>
      (f ts).map (x :: ·))
    (h : f ts = some xs) (hx : x ∈ xs) : ∃ t ∈ ts, read t = some x := by
  have hsingle : ∀ cs us ts, f (.node r cs us :: ts) =
      ((read (.node r cs us)).map ([·])).bind fun xs => (f ts).map (xs ++ ·) := by
    intro cs us ts
    rw [hpart]
    cases read (.node r cs us) <;> rfl
  obtain ⟨t, ht, ys, hread, hmem⟩ :=
    mem_of_parts hnil hother (fun t => (read t).map ([·])) hsingle h hx
  obtain ⟨y, hy, rfl⟩ := Option.map_eq_some_iff.mp hread
  obtain rfl := List.mem_singleton.mp hmem
  exact ⟨t, ht, hy⟩

end Parts

theorem mem_elements? {ts : List (ParseTree Rule)} {nodes : List Node}
    (h : elements? ts = some nodes) {node : Node} (hnode : node ∈ nodes) :
    ∃ t ∈ ts, element? t = some node := by
  refine mem_of_part (f := elements?) (r := .element) rfl ?_ element? ?_ h hnode
  · intro r cs us ts hr
    rw [elements?]
    rintro _ _ ⟨⟩
    exact hr rfl
  · intro cs us ts
    rw [elements?]
    cases element? (.node .element cs us) <;> cases elements? ts <;> rfl

theorem mem_nodes? {ts : List (ParseTree Rule)} {nodes : List Node} (h : nodes? ts = some nodes)
    {node : Node} (hnode : node ∈ nodes) : ∃ t ∈ ts, node? t = some node := by
  refine mem_of_part (f := nodes?) (r := .node) rfl ?_ node? ?_ h hnode
  · intro r cs us ts hr
    rw [nodes?]
    rintro _ _ ⟨⟩
    exact hr rfl
  · intro cs us ts
    rw [nodes?]
    cases node? (.node .node cs us) <;> cases nodes? ts <;> rfl

theorem mem_bodies? {ts : List (ParseTree Rule)} {nodes : List Node} (h : bodies? ts = some nodes)
    {node : Node} (hnode : node ∈ nodes) :
    ∃ t ∈ ts, ∃ inner, nodes? t.children = some inner ∧ node ∈ inner := by
  refine mem_of_parts (f := bodies?) (r := .body) rfl ?_ (fun t => nodes? t.children) ?_ h hnode
  · intro r cs us ts hr
    rw [bodies?]
    rintro _ _ ⟨⟩
    exact hr rfl
  · intro cs us ts
    have hchildren : (ParseTree.node Rule.body cs us).children = us := rfl
    rw [bodies?, hchildren]
    cases nodes? us <;> cases bodies? ts <;> rfl

inductive Makes : Node → Prop
  | trigger {s s' : List Char} {ts : List (ParseTree Rule)} {node : Node}
      (ht : Derived (.node .trigger s' ts))
      (h : node? (.node .node s [.node .trigger s' ts]) = some node) : Makes node
  | element {s : List Char} {ts : List (ParseTree Rule)} {node : Node}
      (ht : Derived (.node .element s ts))
      (h : element? (.node .element s ts) = some node) : Makes node

theorem Makes.shaped {node : Node} (h : Makes node) : node.Shaped := by
  cases h with
  | trigger _ h =>
    obtain ⟨source, element, tags, _, htags, rfl⟩ := node?_trigger h
    exact ⟨fun _ => ⟨element, leadsTo_of_ends rfl rfl⟩, tags?_fresh htags⟩
  | element ht h =>
    obtain ⟨glyph, params, tags, body, hglyph, htags, _, rfl⟩ := element?_eq_some h
    obtain ⟨hmem, hrule⟩ := part?_eq_some hglyph
    exact ⟨fun htrigger => absurd htrigger ((ht.child hmem).ofGlyph_ne_trigger hrule),
      tags?_fresh htags⟩

theorem makes_of_element? {t : ParseTree Rule} (ht : Derived t) {node : Node}
    (h : element? t = some node) : Makes node := by
  have h' := h
  unfold element? at h'
  split at h'
  · exact .element ht h
  · cases h'

theorem makes_of_node? {t : ParseTree Rule} (ht : Derived t) {node : Node}
    (h : node? t = some node) : Makes node := by
  have h' := h
  unfold node? at h'
  split at h'
  · exact .trigger (ht.child List.mem_cons_self) h
  · exact makes_of_element? (ht.child List.mem_cons_self) h'
  · cases h'

theorem makes_of_nodes? {ts : List (ParseTree Rule)} (hts : ∀ t ∈ ts, Derived t) {nodes : List Node}
    (h : nodes? ts = some nodes) : ∀ node ∈ nodes, Makes node := by
  intro node hnode
  obtain ⟨t, ht, hread⟩ := mem_nodes? h hnode
  exact makes_of_node? (hts t ht) hread

/-- The children of such a node are made of trees inside its own. -/
theorem Makes.child {node : Node} (h : Makes node) : ∀ child ∈ node.body, Makes child := by
  cases h with
  | trigger ht h =>
    obtain ⟨_, element, _, helements, _, rfl⟩ := node?_trigger h
    intro child hchild
    obtain ⟨t, hmem, hread⟩ := mem_elements? helements hchild
    exact makes_of_element? (ht.child hmem) hread
  | element ht h =>
    obtain ⟨_, _, _, body, _, _, hbody, rfl⟩ := element?_eq_some h
    intro child hchild
    obtain ⟨t, hmem, inner, hinner, hread⟩ := mem_bodies? hbody hchild
    exact makes_of_nodes? (fun u hu => (ht.child hmem).child hu) hinner child hread

end Build

/-- The nodes of a parsed forest have the shape of triggers and elements, at every depth. -/
theorem parse_shaped {source : String} {forest : Forest} (h : parse source = .ok forest) :
    ∀ node ∈ Node.preorder forest, node.Shaped := by
  obtain ⟨d, trees, hyields, hforest⟩ := (parse_eq_ok source forest).mp h
  obtain ⟨s, _, hderives⟩ := hyields.derives grammar_skipsForward
  unfold Build.forest? at hforest
  split at hforest
  · have hfile : Derived _ := (hderives.tree List.mem_cons_self).2
    have hmakes := Build.makes_of_nodes? (fun t ht => hfile.child ht) hforest
    intro node hnode
    exact (Node.forall_preorder (fun _ hmake => hmake.child) forest hmakes node hnode).shaped
  · cases hforest

theorem parse_shaped_trigger : ∃ forest,
    parse "📂(L)\x7b 👤(x) -> [#a::#b, @\"c d\"::e] 💬(y) \x7d" = .ok forest ∧
      (Node.preorder forest).map (fun node => (node.op, node.tags.map Tag.path, node.params.keys)) =
        [(.context .content, [], ["id"]), (.trigger, [["a", "b"], ["c d", "e"]], ["from", "to"]),
          (.speech, [], ["id"])] ∧
      ∀ node ∈ Node.preorder forest, node.Shaped := by
  have hread : (parse "📂(L)\x7b 👤(x) -> [#a::#b, @\"c d\"::e] 💬(y) \x7d").toOption.map
      (fun forest => (Node.preorder forest).map fun node =>
        (node.op, node.tags.map Tag.path, node.params.keys)) =
      some [(.context .content, [], ["id"]), (.trigger, [["a", "b"], ["c d", "e"]], ["from", "to"]),
        (.speech, [], ["id"])] := by decide +kernel
  cases hp : parse "📂(L)\x7b 👤(x) -> [#a::#b, @\"c d\"::e] 💬(y) \x7d" with
  | error e =>
    rw [hp] at hread
    cases hread
  | ok forest =>
    rw [hp] at hread
    exact ⟨forest, rfl, Option.some.inj hread, parse_shaped hp⟩

end Script

end GlyphScript
