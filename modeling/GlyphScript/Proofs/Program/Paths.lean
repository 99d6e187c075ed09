import GlyphScript.Proofs.Program.Naming

/-! # Where paths lead

A path leads to a node if some choice of nodes answers to its names. The verifier makes one choice
for each name, the first node or child that answers and a hashtag before any child, and does not
take it back. So what it finds is led to, but it misses a node if its choice is a dead end and
another one is not. It misses none if the names before the last one leave no choice.
-/

namespace GlyphScript.Reference

/-- Names lead from a node to another one: a hashtag of a node stays there, and a name of a child
leads to the child. -/
inductive Leads : Node → List String → Node → Prop where
  | here (node : Node) : Leads node [] node
  | stays {node found : Node} {name : String} {names : List String} : node.hasHashtag name →
      Leads node names found → Leads node (name :: names) found
  | child {node child found : Node} {name : String} {names : List String} : child ∈ node.body →
      child.isCalled name → Leads child names found → Leads node (name :: names) found

/-- A path leads to a node of a forest: the first name is that of a node anywhere, and the others
lead on from there. -/
def Reaches (forest : Forest) : List String → Node → Prop
  | [], _ => False
  | first :: rest, found =>
    ∃ node ∈ Node.preorder forest, node.isCalled first ∧ Leads node rest found

/-- The verifier has come to a node that has no way on, while its names so far also lead to another
node, from which the rest of the path leads on. -/
def Missed (forest : Forest) (path : List String) : Prop :=
  ∃ before name after node other, path = before ++ name :: after ∧ find before forest = .ok node ∧
    next? node name = none ∧ Reaches forest before other ∧
    ∃ found, Leads other (name :: after) found

/-- No part of a path that ends before its last name leads to two different nodes. -/
def Straight (forest : Forest) (path : List String) : Prop :=
  ∀ before after, path = before ++ after → after ≠ [] →
    ∀ node other, Reaches forest before node → Reaches forest before other → node = other

variable {forest : Forest} {name : String} {names before after : List String} {node found : Node}

/-! ## One name -/

mutual

theorem not_isCalled_of_findIn :
    ∀ (tree : Node), findIn name tree = none → ∀ node ∈ tree.nodes, ¬ node.isCalled name
  | ⟨op, params, body, tags⟩, h, node, hmem => by
    rw [findIn] at h
    rw [Node.nodes] at hmem
    split at h
    · cases h
    · next hc =>
      rcases List.mem_cons.mp hmem with rfl | hbody
      · exact hc
      · exact not_isCalled_of_findAmong body h node hbody

theorem not_isCalled_of_findAmong : ∀ (nodes : List Node), findAmong name nodes = none →
    ∀ node ∈ Node.preorder nodes, ¬ node.isCalled name
  | [], _, node, hmem => by cases hmem
  | tree :: rest, h, node, hmem => by
    rw [findAmong] at h
    rw [Node.preorder] at hmem
    split at h
    · cases h
    · next htree =>
      rcases List.mem_append.mp hmem with hmem | hmem
      · exact not_isCalled_of_findIn tree htree node hmem
      · exact not_isCalled_of_findAmong rest h node hmem

end

theorem not_leads_of_next? (h : next? node name = none) : ¬ Leads node (name :: names) found := by
  unfold next? at h
  split at h
  · cases h
  · next htag =>
    intro hleads
    cases hleads with
    | stays htag' _ => exact htag htag'
    | child hmem hc _ => exact List.find?_eq_none.mp h _ hmem hc

theorem leads_of_next? {reached : Node} (h : next? node name = some reached)
    (hl : Leads reached names found) : Leads node (name :: names) found := by
  unfold next? at h
  split at h
  · next htag =>
    cases h
    exact .stays htag hl
  · exact .child (List.mem_of_find?_eq_some h)
      (List.find?_some (p := fun child : Node => child.isCalled name) h) hl

/-! ## Several names -/

theorem Leads.split (h : Leads node (before ++ after) found) :
    ∃ middle, Leads node before middle ∧ Leads middle after found := by
  induction before generalizing node with
  | nil => exact ⟨node, .here node, h⟩
  | cons name before ih =>
    cases h with
    | stays htag hrest =>
      obtain ⟨middle, hbefore, hafter⟩ := ih hrest
      exact ⟨middle, .stays htag hbefore, hafter⟩
    | child hmem hc hrest =>
      obtain ⟨middle, hbefore, hafter⟩ := ih hrest
      exact ⟨middle, .child hmem hc hbefore, hafter⟩

theorem leads_of_follow (h : follow node names = .ok found) : Leads node names found := by
  induction names generalizing node with
  | nil =>
    cases h
    exact .here _
  | cons name names ih =>
    rw [follow] at h
    split at h
    · next reached hnext => exact leads_of_next? hnext (ih h)
    · cases h

/-- Following names stops at the first one that has no way on. -/
theorem follow_eq_error {e : Unreachable} (h : follow node names = .error e) :
    ∃ before name after stop, names = before ++ name :: after ∧ follow node before = .ok stop ∧
      next? stop name = none := by
  induction names generalizing node with
  | nil => cases h
  | cons name names ih =>
    rw [follow] at h
    split at h
    · next reached hnext =>
      obtain ⟨before, name', after, stop, rfl, hfollow, hstop⟩ := ih h
      refine ⟨name :: before, name', after, stop, rfl, ?_, hstop⟩
      rw [follow, hnext]
      exact hfollow
    · next hnext => exact ⟨[], name, names, node, rfl, rfl, hnext⟩

theorem follow_append {middle : Node} (h : follow node before = .ok middle) :
    follow node (before ++ after) = follow middle after := by
  induction before generalizing node with
  | nil =>
    cases h
    rfl
  | cons name before ih =>
    rw [follow] at h
    split at h
    · next reached hnext =>
      rw [List.cons_append, follow, hnext]
      exact ih h
    · cases h

/-! ## Paths in a forest -/

section Paths

variable {path : List String}

theorem isReachable_iff_exists :
    isReachable path forest = true ↔ ∃ found, find path forest = .ok found := by
  unfold isReachable
  cases hfind : find path forest with
  | error e => simp [Except.isOk, Except.toBool]
  | ok found => simp [Except.isOk, Except.toBool]

theorem find_cons_eq_ok_iff {first : String} {rest : List String}
    (hplain : ∀ name ∈ first :: rest, isMarked name = false) :
    find (first :: rest) forest = .ok found ↔
      ∃ node, findAmong first forest = some node ∧ follow node rest = .ok found := by
  have hmap : (first :: rest).map plainName = first :: rest :=
    (List.map_congr_left fun name hname => plainName_of_not_marked (hplain name hname)).trans
      (List.map_id _)
  rw [find, hmap]
  cases hfirst : findAmong first forest with
  | none => simp [hfirst]
  | some node => simp [hfirst]

theorem reaches_of_find (hplain : ∀ name ∈ path, isMarked name = false)
    (h : find path forest = .ok found) : Reaches forest path found := by
  cases path with
  | nil => cases h
  | cons first rest =>
    obtain ⟨node, hfirst, hfollow⟩ := (find_cons_eq_ok_iff hplain).mp h
    obtain ⟨hmem, hc⟩ := findAmong_eq_some forest hfirst
    exact ⟨node, hmem, hc, leads_of_follow hfollow⟩

theorem not_marked_of_append (hplain : ∀ name ∈ before ++ after, isMarked name = false) :
    ∀ name ∈ before, isMarked name = false :=
  fun name hname => hplain name (List.mem_append_left _ hname)

theorem not_missed_of_find (hplain : ∀ name ∈ path, isMarked name = false)
    (h : find path forest = .ok found) : ¬ Missed forest path := by
  rintro ⟨before, name, after, stop, other, rfl, hbefore, hstop, _⟩
  cases before with
  | nil => cases hbefore
  | cons first before =>
    rw [List.cons_append] at h hplain
    obtain ⟨node, hfirst, hfollow⟩ := (find_cons_eq_ok_iff (not_marked_of_append hplain)).mp hbefore
    obtain ⟨node', hfirst', hfollow'⟩ := (find_cons_eq_ok_iff hplain).mp h
    cases hfirst.symm.trans hfirst'
    rw [follow_append hfollow, follow, hstop] at hfollow'
    cases hfollow'

/-- What is led to is found, or it is missed at the first name that has no way on. -/
theorem find_or_missed (hplain : ∀ name ∈ path, isMarked name = false)
    (h : Reaches forest path found) :
    (∃ found, find path forest = .ok found) ∨ Missed forest path := by
  cases path with
  | nil => cases h
  | cons first rest =>
    obtain ⟨start, hmem, hc, hleads⟩ := h
    cases hfirst : findAmong first forest with
    | none => exact absurd hc (not_isCalled_of_findAmong forest hfirst start hmem)
    | some node =>
      cases hfollow : follow node rest with
      | ok reached => exact .inl ⟨reached, (find_cons_eq_ok_iff hplain).mpr ⟨node, hfirst, hfollow⟩⟩
      | error e =>
        obtain ⟨before, name, after, stop, rfl, hbefore, hstop⟩ := follow_eq_error hfollow
        obtain ⟨middle, hstart, hrest⟩ := hleads.split
        have hplain' : ∀ name ∈ first :: before, isMarked name = false :=
          not_marked_of_append hplain
        exact .inr ⟨first :: before, name, after, stop, middle, rfl,
          (find_cons_eq_ok_iff hplain').mpr ⟨node, hfirst, hbefore⟩, hstop,
          ⟨start, hmem, hc, hstart⟩, found, hrest⟩

theorem Straight.not_missed (h : Straight forest path)
    (hplain : ∀ name ∈ path, isMarked name = false) : ¬ Missed forest path := by
  rintro ⟨before, name, after, stop, other, rfl, hbefore, hstop, hother, found, hleads⟩
  have hreaches := reaches_of_find (not_marked_of_append hplain) hbefore
  obtain rfl := h before (name :: after) rfl (by simp) stop other hreaches hother
  exact not_leads_of_next? hstop hleads

/-- The verifier accepts a path of bare names exactly if it leads somewhere and is not missed. Where
the path leaves no choice before its last name, it accepts exactly what leads somewhere. -/
theorem isReachable_iff_reaches (hplain : ∀ name ∈ path, isMarked name = false) :
    (isReachable path forest = true ↔ (∃ found, Reaches forest path found) ∧ ¬ Missed forest path) ∧
      (Straight forest path →
        (isReachable path forest = true ↔ ∃ found, Reaches forest path found)) := by
  have hiff : isReachable path forest = true ↔
      (∃ found, Reaches forest path found) ∧ ¬ Missed forest path := by
    rw [isReachable_iff_exists]
    constructor
    · rintro ⟨found, hfind⟩
      exact ⟨⟨found, reaches_of_find hplain hfind⟩, not_missed_of_find hplain hfind⟩
    · rintro ⟨⟨found, hreaches⟩, hmissed⟩
      exact (find_or_missed hplain hreaches).resolve_right hmissed
  exact ⟨hiff,
    fun hstraight => hiff.trans ⟨And.left, fun hreaches => ⟨hreaches, hstraight.not_missed hplain⟩⟩⟩

end Paths

/-- A path of two names leaves no choice if one node at most answers to the first. -/
theorem straight_pair {first second : String}
    (h : ((Node.preorder forest).filter (·.isCalled first)).length ≤ 1) :
    Straight forest [first, second] := by
  intro before after hpath hne node other hnode hother
  have hmem : ∀ found, Reaches forest [first] found →
      found ∈ (Node.preorder forest).filter (·.isCalled first) := by
    rintro found ⟨node, hmem, hc, hleads⟩
    cases hleads
    exact List.mem_filter.mpr ⟨hmem, hc⟩
  rcases before with _ | ⟨name, _ | ⟨name', before⟩⟩
  · cases hnode
  · obtain rfl : first = name := (List.cons.inj hpath).1
    generalize (Node.preorder forest).filter (·.isCalled first) = called at h hmem
    rcases called with _ | ⟨only, _ | ⟨next, rest⟩⟩
    · cases hmem node hnode
    · exact (List.mem_singleton.mp (hmem node hnode)).trans
        (List.mem_singleton.mp (hmem other hother)).symm
    · simp at h
  · have hlen := congrArg List.length hpath
    have hpos := List.length_pos_iff.mpr hne
    simp only [List.length_append, List.length_cons, List.length_nil] at hlen
    omega

theorem isReachable_iff_reaches_meta :
    (∀ name ∈ ["Core", "System", "Wade", "Meta"], isMarked name = false) ∧
      isReachable ["Core", "System", "Wade", "Meta"] kinForest = true ∧
      (∃ found, Reaches kinForest ["Core", "System", "Wade", "Meta"] found) ∧
      ¬ Missed kinForest ["Core", "System", "Wade", "Meta"] ∧
      Straight kinForest ["Core", "System"] ∧
      ∃ found, Reaches kinForest ["Core", "System"] found := by
  have hplain : ∀ name ∈ ["Core", "System", "Wade", "Meta"], isMarked name = false := by decide
  have hfound : isReachable ["Core", "System", "Wade", "Meta"] kinForest = true := by decide +kernel
  obtain ⟨hreaches, hmissed⟩ := (isReachable_iff_reaches hplain).1.mp hfound
  have hstraight : Straight kinForest ["Core", "System"] := straight_pair (by decide +kernel)
  have hpair : ∀ name ∈ ["Core", "System"], isMarked name = false := by decide
  have hstart : isReachable ["Core", "System"] kinForest = true := by decide +kernel
  exact ⟨hplain, hfound, hreaches, hmissed, hstraight,
    ((isReachable_iff_reaches hpair).2 hstraight).mp hstart⟩

/-- Two collections of one name, the second of which holds a state. -/
def namesakes : Forest :=
  [{ op := .context .collection, params := [("id", .text "Team")] },
    { op := .context .collection, params := [("id", .text "Team")],
      body := [{ op := .context .state, params := [("id", .text "Wade")] }] }]

/-- A path that leads to the state in the second collection is refused, since the first one has no
such child. -/
theorem namesake_missed :
    (∀ name ∈ ["Team", "Wade"], isMarked name = false) ∧
      Reaches namesakes ["Team", "Wade"]
        { op := .context .state, params := [("id", .text "Wade")] } ∧
      isReachable ["Team", "Wade"] namesakes = false := by
  refine ⟨by decide, ?_, by decide +kernel⟩
  exact ⟨_, List.mem_cons_of_mem _ List.mem_cons_self, by decide +kernel,
    .child List.mem_cons_self (by decide +kernel) (.here _)⟩

end GlyphScript.Reference
