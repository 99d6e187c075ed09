import GlyphScript.Program.Compile
import GlyphScript.Proofs.Program.Checking
import GlyphScript.Proofs.Program.Pooling

/-! # Where nodes are placed

The node with the number `a` in preorder becomes the instruction at the address `a`. Where it goes
on without a body follows from its siblings and its parents: to its next sibling, or from a last
sibling back to a trigger around it, or behind its parent.
-/

namespace GlyphScript

namespace Node

mutual

def nodes : Node → List Node
  | ⟨op, params, body, tags⟩ => ⟨op, params, body, tags⟩ :: preorder body

def preorder : List Node → List Node
  | [] => []
  | node :: rest => nodes node ++ preorder rest

end

theorem span_eq (node : Node) : node.span = 1 + spans node.body := by
  cases node
  rw [span]

theorem spans_append (l r : List Node) : spans (l ++ r) = spans l + spans r := by
  induction l with
  | nil => simp [spans]
  | cons node l ih => rw [List.cons_append, spans, spans, ih, Nat.add_assoc]

theorem nodes_eq (node : Node) : node.nodes = node :: preorder node.body := by
  cases node
  rw [nodes]

mutual

theorem length_nodes : ∀ node : Node, node.nodes.length = node.span
  | ⟨op, params, body, tags⟩ => by
    have ih := length_preorder body
    simp only [nodes, span, List.length_cons]
    omega

theorem length_preorder : ∀ nodes : List Node, (preorder nodes).length = spans nodes
  | [] => rfl
  | node :: rest => by
    rw [preorder, spans, List.length_append, length_nodes node, length_preorder rest]

end

end Node

/-- The default successor of a node: its next sibling, or where its siblings go on after the last
one. -/
def Siblings.successor (a : Nat) (ret : Address) (node : Node) (rest : List Node) : Address :=
  if rest.isEmpty then ret else (a + node.span : Nat)

/-- Siblings in a forest from the one at an address to the last one, with where control goes after
that one: nowhere at the top, from the body of a trigger to the trigger, and from another body
behind the parent. -/
inductive Siblings (forest : Forest) : Nat → Address → List Node → Prop where
  | top : Siblings forest 0 nowhere forest
  | next {a : Nat} {ret : Address} {node : Node} {rest : List Node} :
      Siblings forest a ret (node :: rest) → Siblings forest (a + node.span) ret rest
  | body {a : Nat} {ret : Address} {node : Node} {rest : List Node} :
      Siblings forest a ret (node :: rest) →
      Siblings forest (a + 1)
        (if node.op = .trigger then a else Siblings.successor a ret node rest) node.body

def Placed (forest : Forest) (node : Node) (a : Nat) (d : Address) : Prop :=
  ∃ ret rest, Siblings forest a ret (node :: rest) ∧ d = Siblings.successor a ret node rest

namespace Layout

mutual

theorem length_ofNode (timestamp : Nat) : ∀ (a : Nat) (ret : Address) (node : Node),
    (ofNode timestamp a ret node).length = node.span
  | a, ret, ⟨op, params, body, tags⟩ => by
    have ih := length_ofNodes timestamp (a + 1) (bodyReturn op a ret) body
    simp only [ofNode, Node.span, List.length_cons]
    omega

theorem length_ofNodes (timestamp : Nat) : ∀ (a : Nat) (ret : Address) (nodes : List Node),
    (ofNodes timestamp a ret nodes).length = Node.spans nodes
  | a, ret, [] => rfl
  | a, ret, node :: rest => by
    rw [ofNodes, Node.spans, List.length_append, length_ofNode, length_ofNodes]

end

end Layout

def HoldsAt {α : Type} (whole piece : List α) (a : Nat) : Prop :=
  ∃ before after, before.length = a ∧ whole = before ++ (piece ++ after)

namespace HoldsAt

variable {α : Type} {whole l r : List α} {x : α} {a : Nat}

theorem self (whole : List α) : HoldsAt whole whole 0 := ⟨[], [], rfl, by simp⟩

theorem left (h : HoldsAt whole (l ++ r) a) : HoldsAt whole l a := by
  obtain ⟨before, after, ha, rfl⟩ := h
  exact ⟨before, r ++ after, ha, by simp⟩

theorem right (h : HoldsAt whole (l ++ r) a) : HoldsAt whole r (a + l.length) := by
  obtain ⟨before, after, rfl, rfl⟩ := h
  exact ⟨before ++ l, after, by simp, by simp⟩

theorem head (h : HoldsAt whole (x :: r) a) : whole[a]? = some x := by
  obtain ⟨before, after, rfl, rfl⟩ := h
  simp

end HoldsAt

namespace Siblings

variable {forest : Forest} {a : Nat} {ret : Address} {nodes : List Node}

theorem after {before : List Node} (h : Siblings forest a ret (before ++ nodes)) :
    Siblings forest (a + Node.spans before) ret nodes := by
  induction before generalizing a with
  | nil => exact h
  | cons node before ih =>
    rw [Node.spans, ← Nat.add_assoc]
    exact ih h.next

theorem preorder (h : Siblings forest a ret nodes) :
    HoldsAt (Node.preorder forest) (Node.preorder nodes) a := by
  induction h with
  | top => exact .self _
  | @next a ret node rest _ ih =>
    rw [← Node.length_nodes]
    exact ih.right
  | @body a ret node rest _ ih =>
    rw [Node.preorder, Node.nodes_eq] at ih
    exact HoldsAt.right (l := [node]) ih.left

theorem layout (h : Siblings forest a ret nodes) (timestamp : Nat) :
    HoldsAt (Layout.ofForest timestamp forest) (Layout.ofNodes timestamp a ret nodes) a := by
  induction h with
  | top => exact .self _
  | @next a ret node rest _ ih =>
    have hrest := ih.right
    rwa [Layout.length_ofNode] at hrest
  | @body a ret node rest _ ih =>
    obtain ⟨op, params, body, tags⟩ := node
    rw [Layout.ofNodes, Layout.ofNode] at ih
    exact HoldsAt.right (l := [_]) ih.left

end Siblings

mutual

theorem Placed.exists_inside {forest : Forest} {ret : Address} {rest : List Node} :
    ∀ (node : Node) {a i : Nat}, Siblings forest a ret (node :: rest) →
      a ≤ i → i < a + node.span →
      ∃ n d, Placed forest n i d ∧ i + n.span ≤ a + node.span
  | ⟨op, params, body, tags⟩, a, i, h, hai, hi => by
    rcases Nat.eq_or_lt_of_le hai with rfl | hlt
    · exact ⟨_, _, ⟨ret, rest, h, rfl⟩, Nat.le_refl _⟩
    · rw [Node.span] at hi ⊢
      obtain ⟨n, d, hp, hle⟩ := Placed.exists_among body h.body hlt (by omega)
      exact ⟨n, d, hp, by omega⟩

/-- At each address among some siblings is a node, and its tree lies among them. -/
theorem Placed.exists_among {forest : Forest} : ∀ (nodes : List Node) {a i : Nat} {ret : Address},
    Siblings forest a ret nodes → a ≤ i → i < a + Node.spans nodes →
    ∃ n d, Placed forest n i d ∧ i + n.span ≤ a + Node.spans nodes
  | [], a, i, ret, h, hai, hi => by
    rw [Node.spans] at hi
    omega
  | node :: rest, a, i, ret, h, hai, hi => by
    rw [Node.spans] at hi ⊢
    rcases Nat.lt_or_ge i (a + node.span) with hlt | hge
    · obtain ⟨n, d, hp, hle⟩ := Placed.exists_inside node h hai hlt
      exact ⟨n, d, hp, by omega⟩
    · obtain ⟨n, d, hp, hle⟩ := Placed.exists_among rest h.next hge (by omega)
      exact ⟨n, d, hp, by omega⟩

end

theorem Placed.preorder {forest : Forest} {node : Node} {a : Nat} {d : Address}
    (h : Placed forest node a d) : (Node.preorder forest)[a]? = some node := by
  obtain ⟨ret, rest, hs, _⟩ := h
  have hnodes := hs.preorder.left
  rw [Node.nodes_eq] at hnodes
  exact hnodes.head

theorem lt_spans_iff_placed {forest : Forest} {a : Nat} :
    a < Node.spans forest ↔ ∃ node d, Placed forest node a d := by
  constructor
  · intro h
    obtain ⟨node, d, hp, _⟩ := Placed.exists_among forest .top (Nat.zero_le a) (by omega)
    exact ⟨node, d, hp⟩
  · rintro ⟨node, d, h⟩
    rw [← Node.length_preorder]
    exact (List.getElem?_eq_some_iff.mp h.preorder).1

/-! ## Tags up to linking -/

namespace Tag

mutual

def unlinked : Tag String → Tag String
  | ⟨root, kind, segments, _, _, _⟩ => { root, kind, segments := unlinkedSegments segments }

def unlinkedSegments : List (Segment String) → List (Segment String)
  | [] => []
  | .name s :: rest => .name s :: unlinkedSegments rest
  | .nested tag :: rest => .nested (unlinked tag) :: unlinkedSegments rest

end

mutual

theorem unlinked_resolve (symbols : Link.Symbols) : ∀ tag : Tag String,
    (Link.resolve symbols tag).unlinked = tag.unlinked
  | ⟨root, kind, segments, written, target, address⟩ => by
    simp only [Link.resolve, unlinked, unlinkedSegments_resolve symbols segments]

theorem unlinkedSegments_resolve (symbols : Link.Symbols) : ∀ segments : List (Segment String),
    unlinkedSegments (Link.resolveSegments symbols segments) = unlinkedSegments segments
  | [] => rfl
  | .name s :: rest => by
    simp only [Link.resolveSegments, unlinkedSegments, unlinkedSegments_resolve symbols rest]
  | .nested tag :: rest => by
    simp only [Link.resolveSegments, unlinkedSegments, unlinked_resolve symbols tag,
      unlinkedSegments_resolve symbols rest]

end

end Tag

/-! ## Successors -/

/-- Where control goes when it leaves some addresses in a row: nowhere, to an instruction behind
them, or back to a trigger whose body holds them. -/
inductive Exit (forest : Forest) (a n : Nat) : Address → Prop where
  | ends : Exit forest a n nowhere
  | ahead {b : Nat} : a + n ≤ b → b < Node.spans forest → Exit forest a n b
  | back {node : Node} {b : Nat} {d : Address} : Placed forest node b d → node.op = .trigger →
      b < a → a + n ≤ b + node.span → Exit forest a n b

namespace Exit

variable {forest : Forest} {a n : Nat} {d : Address}

theorem inner (h : Exit forest a n d) {a' n' : Nat} (ha : a ≤ a') (hn : a' + n' ≤ a + n) :
    Exit forest a' n' d := by
  cases h with
  | ends => exact .ends
  | ahead hb hlt => exact .ahead (by omega) hlt
  | back hp hop hlt hin => exact .back hp hop (by omega) (by omega)

theorem ne (h : Exit forest a n d) (hn : 0 < n) : d ≠ a := by
  cases h with
  | ends => exact fun heq => by cases heq
  | ahead hb _ =>
    intro heq
    have := Int.ofNat_inj.mp heq
    omega
  | back _ _ hlt _ =>
    intro heq
    have := Int.ofNat_inj.mp heq
    omega

end Exit

namespace Siblings

variable {forest : Forest} {a : Nat} {ret : Address} {node : Node} {nodes rest : List Node}

theorem exit_successor (h : Siblings forest a ret (node :: rest))
    (he : Exit forest a (Node.spans (node :: rest)) ret) :
    Exit forest a node.span (successor a ret node rest) := by
  rw [Node.spans] at he
  cases rest with
  | nil => exact he.inner (Nat.le_refl a) (by omega)
  | cons sibling rest =>
    have hnext : a + node.span < Node.spans forest :=
      lt_spans_iff_placed.mpr ⟨sibling, _, ret, rest, h.next, rfl⟩
    exact .ahead (Nat.le_refl _) hnext

/-- Siblings are left to an exit from all of them. -/
theorem exit (h : Siblings forest a ret nodes) : Exit forest a (Node.spans nodes) ret := by
  induction h with
  | top => exact .ends
  | next _ ih =>
    rw [Node.spans] at ih
    exact ih.inner (by omega) (by omega)
  | @body a ret node rest h ih =>
    have hspan := node.span_eq
    split
    · next hop => exact .back ⟨ret, rest, h, rfl⟩ hop (by omega) (by omega)
    · exact (exit_successor h ih).inner (by omega) (by omega)

end Siblings

theorem Placed.exit {forest : Forest} {node : Node} {a : Nat} {d : Address}
    (h : Placed forest node a d) : Exit forest a node.span d := by
  obtain ⟨ret, rest, hs, rfl⟩ := h
  exact Siblings.exit_successor hs hs.exit

/-- No instruction is its own default successor. -/
theorem Placed.successor_ne {forest : Forest} {node : Node} {a : Nat} {d : Address}
    (h : Placed forest node a d) : d ≠ a := by
  apply h.exit.ne
  rw [Node.span_eq]
  omega

/-! ## Instructions -/

structure Image (symbols : Link.Symbols) (timestamp : Nat) (node : Node) (a : Nat) (d : Address)
    (instr : Instruction String) : Prop where
  op : instr.op = node.op
  id : instr.id = node.id?
  timestamp : instr.timestamp = timestamp
  params : instr.params = node.params
  tags : instr.tags = node.tags.map (Link.resolve symbols)
  unlinked : instr.tags.map Tag.unlinked = node.tags.map Tag.unlinked
  branch : node.op = .trigger ∨ node.op = .anchor → node.body ≠ [] →
  instr.next = [(a : Address) + 1, d]
  emptyTrigger : node.op = .trigger → node.body = [] → instr.next = [(a : Address), d]
  emptyAnchor : node.op = .anchor → node.body = [] → instr.next = [d, d]
  inner : node.op ≠ .trigger → node.op ≠ .anchor → node.body ≠ [] → instr.next = [(a : Address) + 1]
  leaf : node.op ≠ .trigger → node.op ≠ .anchor → node.body = [] → instr.next = [d]
  bodyEnd : instr.bodyEnd = if node.body = [] then none else some (a + node.span : Nat)

theorem image_ofNode (symbols : Link.Symbols) (timestamp a : Nat) (d : Address) (node : Node) :
    ∃ instr, (Layout.ofNode timestamp a d node).head? = some instr ∧
      Image symbols timestamp node a d (Link.resolveTags symbols instr) := by
  obtain ⟨op, params, body, tags⟩ := node
  rw [Layout.ofNode, List.head?_cons]
  refine ⟨_, rfl, rfl, rfl, rfl, rfl, rfl, ?_, ?_, ?_, ?_, ?_, ?_, ?_⟩
  · simp [Link.resolveTags, Tag.unlinked_resolve]
  · intro hop hbody
    obtain ⟨child, children, rfl⟩ := List.exists_cons_of_ne_nil hbody
    rcases hop with rfl | rfl
    · rfl
    · rfl
  · rintro rfl rfl
    rfl
  · rintro rfl rfl
    rfl
  · intro ht ha hbody
    obtain ⟨child, children, rfl⟩ := List.exists_cons_of_ne_nil hbody
    simp [Link.resolveTags, Layout.successors]
  · rintro ht ha rfl
    simp [Link.resolveTags, Layout.successors]
  · by_cases hbody : body = []
    · simp [Link.resolveTags, hbody]
    · simp [Link.resolveTags, hbody, Node.span, Nat.add_assoc]

namespace Image

variable {symbols : Link.Symbols} {timestamp a : Nat} {d : Address} {node : Node}
  {instr : Instruction String}

theorem next_branching (h : Image symbols timestamp node a d instr)
    (hop : node.op = .trigger ∨ node.op = .anchor) :
    ∃ x, instr.next = [x, d] ∧
      (x = (a : Nat) ∧ node.op = .trigger ∧ node.body = [] ∨
        x = (a + 1 : Nat) ∧ node.body ≠ [] ∨ x = d) := by
  by_cases hbody : node.body = []
  · rcases hop with ht | ha
    · exact ⟨_, h.emptyTrigger ht hbody, .inl ⟨rfl, ht, hbody⟩⟩
    · exact ⟨_, h.emptyAnchor ha hbody, .inr (.inr rfl)⟩
  · exact ⟨_, h.branch hop hbody, .inr (.inl ⟨rfl, hbody⟩)⟩

theorem next_single (h : Image symbols timestamp node a d instr)
    (hop : ¬ (node.op = .trigger ∨ node.op = .anchor)) :
    ∃ x, instr.next = [x] ∧ (x = (a + 1 : Nat) ∧ node.body ≠ [] ∨ x = d) := by
  obtain ⟨ht, ha⟩ := not_or.mp hop
  by_cases hbody : node.body = []
  · exact ⟨_, h.leaf ht ha hbody, .inr rfl⟩
  · exact ⟨_, h.inner ht ha hbody, .inl ⟨rfl, hbody⟩⟩

theorem next_ne (h : Image symbols timestamp node a d instr) : instr.next ≠ [] := by
  by_cases hop : node.op = .trigger ∨ node.op = .anchor
  · obtain ⟨x, hx, _⟩ := h.next_branching hop
    simp [hx]
  · obtain ⟨x, hx, _⟩ := h.next_single hop
    simp [hx]

/-- An instruction leads to its default successor, into its body, or to itself if it is a trigger
without one. -/
theorem mem_next (h : Image symbols timestamp node a d instr) {x : Address} (hx : x ∈ instr.next) :
    x = (a : Nat) ∧ node.op = .trigger ∧ node.body = [] ∨ x = (a + 1 : Nat) ∧ node.body ≠ [] ∨
      x = d := by
  by_cases hop : node.op = .trigger ∨ node.op = .anchor
  · obtain ⟨y, hy, hwhere⟩ := h.next_branching hop
    have hcases : x = y ∨ x = d := by simpa [hy] using hx
    rcases hcases with rfl | rfl
    · exact hwhere
    · exact .inr (.inr rfl)
  · obtain ⟨y, hy, hwhere⟩ := h.next_single hop
    obtain rfl : x = y := by simpa [hy] using hx
    exact .inr hwhere

theorem length_next (h : Image symbols timestamp node a d instr) (hop : instr.op.isBranching) :
    instr.next.length = 2 := by
  have hbranch : node.op = .trigger ∨ node.op = .anchor := by
    rw [h.op] at hop
    cases ho : node.op <;> simp_all [Op.isBranching]
  obtain ⟨x, hx, _⟩ := h.next_branching hbranch
  rw [hx]
  rfl

theorem first_leaf (h : Image symbols timestamp node a d instr) (hop : node.op ≠ .trigger)
    (hbody : node.body = []) : instr.first = d := by
  by_cases hanchor : node.op = .anchor
  · rw [Instruction.first, h.emptyAnchor hanchor hbody]
    rfl
  · rw [Instruction.first, h.leaf hop hanchor hbody]
    rfl

theorem first_inner (h : Image symbols timestamp node a d instr) (hbody : node.body ≠ []) :
    instr.first = (a + 1 : Nat) := by
  by_cases hop : node.op = .trigger ∨ node.op = .anchor
  · rw [Instruction.first, h.branch hop hbody]
    rfl
  · obtain ⟨ht, ha⟩ := not_or.mp hop
    rw [Instruction.first, h.inner ht ha hbody]
    rfl

theorem second_eq (h : Image symbols timestamp node a d instr)
    (hop : node.op = .trigger ∨ node.op = .anchor) : instr.second = d := by
  obtain ⟨x, hx, _⟩ := h.next_branching hop
  rw [Instruction.second, hx]
  rfl

theorem checked (h : Image symbols timestamp node a d instr) {texts : List String}
    {p : Instruction TextId} (hp : p.mapTextM (fun i => texts[i]?) = some instr) :
    p.Checked texts := by
  have hshape := Instruction.mapTextM_shape hp
  refine ⟨hshape.next ▸ h.next_ne, fun hop => ?_, by rw [hp]; rfl⟩
  rw [← hshape.next]
  exact h.length_next (hshape.op ▸ hop)

end Image

/-! ## Compiled programs -/

/-- The address of the first trigger at the top level, or zero. -/
def IsEntry (forest : Forest) (entry : Nat) : Prop :=
  (∃ before node after, forest = before ++ node :: after ∧ (∀ n ∈ before, n.op ≠ .trigger) ∧
    node.op = .trigger ∧ entry = Node.spans before) ∨
  ((∀ n ∈ forest, n.op ≠ .trigger) ∧ entry = 0)

theorem trigger?_spec (a : Nat) (nodes : List Node) :
    (∃ before node after, nodes = before ++ node :: after ∧ (∀ n ∈ before, n.op ≠ .trigger) ∧
      node.op = .trigger ∧ Layout.trigger? a nodes = some (a + Node.spans before)) ∨
    ((∀ n ∈ nodes, n.op ≠ .trigger) ∧ Layout.trigger? a nodes = none) := by
  induction nodes generalizing a with
  | nil => exact .inr ⟨by simp, rfl⟩
  | cons node nodes ih =>
    rw [Layout.trigger?]
    by_cases hop : node.op = .trigger
    · exact .inl ⟨[], node, nodes, rfl, by simp, hop, by simp [hop, Node.spans]⟩
    · rw [if_neg hop]
      rcases ih (a + node.span) with ⟨before, found, after, rfl, hno, hfound, heq⟩ | ⟨hno, heq⟩
      · refine .inl ⟨node :: before, found, after, rfl, ?_, hfound, ?_⟩
        · exact List.forall_mem_cons.mpr ⟨hop, hno⟩
        · rw [heq, Node.spans, Nat.add_assoc]
      · exact .inr ⟨List.forall_mem_cons.mpr ⟨hop, hno⟩, heq⟩

theorem isEntry_entry (forest : Forest) : IsEntry forest (Layout.entry forest) := by
  rcases trigger?_spec 0 forest with ⟨before, node, after, hf, hno, hop, heq⟩ | ⟨hno, heq⟩
  · exact .inl ⟨before, node, after, hf, hno, hop, by simp [Layout.entry, heq]⟩
  · exact .inr ⟨hno, by simp [Layout.entry, heq]⟩

theorem IsEntry.nil {entry : Nat} (h : IsEntry [] entry) : entry = 0 := by
  rcases h with ⟨before, node, after, hf, _⟩ | ⟨_, he⟩
  · simp at hf
  · exact he

/-- The nodes at the top level from the first trigger on, or all of them if there is none. -/
def fromEntry (forest : Forest) : List Node :=
  if forest.any (·.op = .trigger) then forest.dropWhile (·.op ≠ .trigger) else forest

theorem IsEntry.split {forest : Forest} {entry : Nat} (h : IsEntry forest entry)
    (hne : forest ≠ []) :
    ∃ before, forest = before ++ fromEntry forest ∧ fromEntry forest ≠ [] ∧
      entry = Node.spans before := by
  rcases h with ⟨before, node, after, hf, hno, hop, he⟩ | ⟨hno, he⟩
  · have hfrom : fromEntry forest = node :: after := by
      have hpos : ∀ n ∈ before, decide (n.op ≠ .trigger) = true :=
        fun n hn => decide_eq_true (hno n hn)
      rw [fromEntry, hf, if_pos (by simp [hop]), List.dropWhile_append_of_pos hpos,
        List.dropWhile_cons_of_neg (by simp [hop])]
    exact ⟨before, by rw [hfrom, hf], by rw [hfrom]; simp, he⟩
  · have hfrom : fromEntry forest = forest := by
      rw [fromEntry, if_neg (by simpa using hno)]
    exact ⟨[], hfrom.symm, by rwa [hfrom], he⟩

theorem IsEntry.lt_spans {forest : Forest} {entry : Nat} (h : IsEntry forest entry)
    (hne : forest ≠ []) : entry < Node.spans forest := by
  obtain ⟨before, hf, hafter, rfl⟩ := h.split hne
  obtain ⟨node, rest, hfrom⟩ := List.exists_cons_of_ne_nil hafter
  rw [hf, hfrom, Node.spans_append, Node.spans, Node.span_eq]
  omega

section Compiled

variable {forest : Forest} {timestamp : Nat} {program : Program}

theorem compile_eq_ok (h : compile forest timestamp = .ok program) :
    program = Link.link (Layout.ofForest timestamp forest) (Layout.entry forest) := by
  unfold compile at h
  split at h
  · cases h
  · exact (Except.ok.inj h).symm

theorem compile_addresses (h : compile forest timestamp = .ok program) :
    program.code.map Prod.fst = List.range (Node.spans forest) := by
  rw [compile_eq_ok h, Link.map_fst_link, Layout.ofForest, Layout.length_ofNodes]

theorem compile_entry (h : compile forest timestamp = .ok program) :
    IsEntry forest program.entry := by
  rw [compile_eq_ok h]
  exact isEntry_entry forest

theorem Placed.image {node : Node} {a : Nat} {d : Address} (hp : Placed forest node a d)
    (h : compile forest timestamp = .ok program) :
    ∃ instr, program.decode a = .ok instr ∧ Image program.symbols timestamp node a d instr := by
  obtain ⟨ret, rest, hs, rfl⟩ := hp
  rw [compile_eq_ok h]
  have hcode := (hs.layout timestamp).left
  obtain ⟨instr, hhead, himage⟩ :=
    image_ofNode (Link.symbols (Layout.ofForest timestamp forest)) timestamp a
    (Siblings.successor a ret node rest) node
  obtain ⟨tail, htail⟩ := List.head?_eq_some_iff.mp hhead
  unfold Siblings.successor at htail
  rw [htail] at hcode
  exact ⟨_, Link.decode_link _ hcode.head, himage⟩

theorem compile_size (h : compile forest timestamp = .ok program) :
    program.size = Node.spans forest := by
  simpa [Program.size] using congrArg List.length (compile_addresses h)

/-- Every instruction of a compiled program is the image of a node. -/
theorem compile_mem (h : compile forest timestamp = .ok program) {a : Nat} {p : Instruction TextId}
    (hmem : (a, p) ∈ program.code) :
    ∃ node d instr, Placed forest node a d ∧ p.mapTextM (fun i => program.text[i]?) = some instr ∧
      Image program.symbols timestamp node a d instr := by
  have haddresses := compile_addresses h
  have hlt : a < Node.spans forest := by
    have hin := List.mem_map_of_mem (f := Prod.fst) hmem
    rwa [haddresses, List.mem_range] at hin
  obtain ⟨node, d, hp⟩ := lt_spans_iff_placed.mp hlt
  obtain ⟨instr, hdecode, himage⟩ := hp.image h
  obtain ⟨raw, hraw, hread⟩ := Program.decode_eq_ok_iff.mp hdecode
  rw [← compile_size h] at haddresses
  rw [Program.fetch?_of_mem haddresses hmem] at hraw
  cases hraw
  exact ⟨node, d, instr, hp, hread, himage⟩

theorem compile_decode (h : compile forest timestamp = .ok program) {x : Address}
    {instr : Instruction String} (hd : program.decode x = .ok instr) :
    ∃ node a d, Placed forest node a d ∧ x = (a : Nat) ∧
      Image program.symbols timestamp node a d instr := by
  obtain ⟨raw, hf, hread⟩ := Program.decode_eq_ok_iff.mp hd
  obtain ⟨node, d, instr', hp, hread', himage⟩ := compile_mem h (Program.mem_of_fetch? hf)
  obtain rfl : instr' = instr := Option.some.inj (hread'.symm.trans hread)
  exact ⟨node, x.toNat, d, hp, (Int.toNat_of_nonneg (Program.fetch?_nonneg hf)).symm, himage⟩

theorem compile_checked (h : compile forest timestamp = .ok program) : program.check = .ok () := by
  have hsize := compile_size h
  have hentry := compile_entry h
  refine Program.check_eq_ok.mpr ⟨⟨hsize ▸ compile_addresses h, ?_⟩, ?_⟩
  · rintro ⟨a, p⟩ hmem
    obtain ⟨node, d, instr, _, hread, himage⟩ := compile_mem h hmem
    exact himage.checked hread
  · by_cases hne : forest = []
    · subst hne
      exact .inr ⟨List.isEmpty_iff.mpr (List.length_eq_zero_iff.mp hsize), hentry.nil⟩
    · exact .inl (hsize ▸ hentry.lt_spans hne)

/-- Every node becomes the instruction at its number in preorder, and these are all instructions;
where they go on is said by the default successors. A compiled program starts at its first trigger
and passes the check. -/
theorem compile_layout (h : compile forest timestamp = .ok program) :
    program.code.map Prod.fst = List.range (Node.spans forest) ∧
      (∀ a, a < Node.spans forest ↔ ∃ node d, Placed forest node a d) ∧
      (∀ node a d, Placed forest node a d → (Node.preorder forest)[a]? = some node ∧
        ∃ instr, program.decode a = .ok instr ∧ Image program.symbols timestamp node a d instr) ∧
      IsEntry forest program.entry ∧ program.check = .ok () :=
  ⟨compile_addresses h, fun _ => lt_spans_iff_placed,
    fun _ _ _ hp => ⟨hp.preorder, hp.image h⟩, compile_entry h, compile_checked h⟩

end Compiled

/-- A trigger between two leaves, whose body ends in the body of an anchor. -/
def nestedForest : Forest :=
  [{ op := .context .fragment },
    { op := .trigger, body := [{ op := .anchor, body := [{ op := .speech }] }] },
    { op := .unknown "🌋" }]

theorem compile_layout_nested :
    ∃ program instr, compile nestedForest 7 = .ok program ∧
      Placed nestedForest { op := .speech } 3 1 ∧ program.decode 3 = .ok instr ∧ instr.next = [1] ∧
      program.entry = 1 ∧ program.check = .ok () := by
  have h : compile nestedForest 7 =
      .ok (Link.link (Layout.ofForest 7 nestedForest) (Layout.entry nestedForest)) := rfl
  have htrigger := (Siblings.top : Siblings nestedForest 0 nowhere nestedForest).next
  have hp : Placed nestedForest { op := .speech } 3 1 := ⟨1, [], htrigger.body.body, rfl⟩
  obtain ⟨_, _, hplaced, _, hcheck⟩ := compile_layout h
  obtain ⟨_, instr, hdecode, himage⟩ := hplaced _ _ _ hp
  exact ⟨_, instr, h, hp, hdecode, himage.leaf (by decide) (by decide) rfl, rfl, hcheck⟩

end GlyphScript
