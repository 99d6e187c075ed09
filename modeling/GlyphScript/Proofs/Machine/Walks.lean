import GlyphScript.Proofs.Machine.Crossing
import GlyphScript.Proofs.Program.Placement

/-! # Compiled programs walk their trees

A run of a compiled program goes through the forest node by node: a trigger runs its body once per
tag, and inside a trigger a node that speaks, signals or inherits visits its tags before its body.
Anchors and links that return, and first nodes of a body that open no frame, can only cut such a
walk short. So every run ends, within a bound that can be read off the forest, and leaves no scope
open.
-/

namespace GlyphScript

/-- The mode of a link: its text parameter `mode`, or else its identifier. -/
def Params.mode? (params : Params String) : Option String :=
  ((params.get? "mode").bind Value.text?).or (Params.id? params)

namespace Node

def mode? (node : Node) : Option String := Params.mode? node.params

/-- The most steps that visits to the tags of a node take. -/
def fare (op : Op) (tags : List (Tag String)) : Nat :=
  if op = .link ∨ op = .speech ∨ op = .signal then 2 * tags.length else 0

mutual

/-- The most steps that a run of a tree takes. -/
def bound : Node → Nat
  | ⟨op, _, body, tags⟩ =>
    if op = .trigger then 1 + max 1 tags.length * (1 + bounds body)
    else 1 + fare op tags + bounds body

def bounds : List Node → Nat
  | [] => 0
  | node :: rest => bound node + bounds rest

end

def isVisiting (op : Op) (params : Params String) : Bool :=
  op = .speech || op = .signal || op = .link && Params.mode? params = some "Inheritance"

def visits (program : Program) (inside : Bool) (a : Nat) (op : Op) (params : Params String)
    (tags : List (Tag String)) : List Address :=
  if inside && isVisiting op params then program.visits a (tags.map (Link.resolve program.symbols))
  else []

mutual

/-- The addresses that a tree at an address executes, inside or outside of triggers. -/
def walk (program : Program) (inside : Bool) (a : Nat) : Node → List Address
  | ⟨op, params, body, tags⟩ =>
    if op = .trigger then
      let cycle := walks program true (a + 1) body ++ [(a : Address)]
      (a : Address) :: (List.replicate (max 1 tags.length) cycle).flatten
    else
      (a : Address) :: (visits program inside a op params tags ++ walks program inside (a + 1) body)

def walks (program : Program) (inside : Bool) (a : Nat) : List Node → List Address
  | [] => []
  | node :: rest => walk program inside a node ++ walks program inside (a + node.span) rest

end

theorem bound_trigger {node : Node} (h : node.op = .trigger) :
    node.bound = 1 + max 1 node.tags.length * (1 + bounds node.body) := by
  obtain ⟨op, params, body, tags⟩ := node
  rw [bound, if_pos h]

theorem bound_of_ne {node : Node} (h : node.op ≠ .trigger) :
    node.bound = 1 + fare node.op node.tags + bounds node.body := by
  obtain ⟨op, params, body, tags⟩ := node
  rw [bound, if_neg h]

theorem bounds_append (l r : List Node) : bounds (l ++ r) = bounds l + bounds r := by
  induction l with
  | nil => simp [bounds]
  | cons node l ih => rw [List.cons_append, bounds, bounds, ih, Nat.add_assoc]

section Walk

variable {node : Node} (program : Program) (inside : Bool) (a : Nat)

theorem walk_trigger (h : node.op = .trigger) :
    node.walk program inside a = (a : Address) :: (List.replicate (max 1 node.tags.length)
      (walks program true (a + 1) node.body ++ [(a : Address)])).flatten := by
  obtain ⟨op, params, body, tags⟩ := node
  rw [walk, if_pos h]

theorem walk_of_ne (h : node.op ≠ .trigger) :
    node.walk program inside a =
      (a : Address) :: visits program inside a node.op node.params node.tags ++
        walks program inside (a + 1) node.body := by
  obtain ⟨op, params, body, tags⟩ := node
  rw [walk, if_neg h, List.cons_append]

end Walk

/-- Nodes that no run cuts short: no anchors and no links that return, and triggers whose body
starts with a context glyph, be it one with an identifier or one that fails for want of it. -/
structure Plain (node : Node) : Prop where
  no_anchor : node.op ≠ .anchor
  no_return : node.op = .link → node.mode? ≠ some "Return"
  starts : node.op = .trigger → ∀ first ∈ node.body.head?, first.op.isContextual

instance (node : Node) : Decidable node.Plain :=
  decidable_of_iff (node.op ≠ .anchor ∧ (node.op = .link → node.mode? ≠ some "Return") ∧
      (node.op = .trigger → ∀ first ∈ node.body.head?, first.op.isContextual))
    ⟨fun ⟨ha, hr, hs⟩ => ⟨ha, hr, hs⟩, fun ⟨ha, hr, hs⟩ => ⟨ha, hr, hs⟩⟩

end Node

namespace Machine

variable {clock : Nat → Nat} {i : Nat} {program : Program} {plain : Prop} {forest : Forest}
  {timestamp : Nat}

def StartsPlain (a : Nat) (scopes : List Scope) (nodes : List Node) : Prop :=
  ∀ s ∈ scopes.head?, s.address + 1 = a → ∀ node ∈ nodes.head?, node.op.isContextual

/-- From wherever a run comes to the first of some siblings, it crosses all of them. -/
def Crossable (clock : Nat → Nat) (program : Program) (plain : Prop) (a : Nat) (ret : Address)
    (nodes : List Node) : Prop :=
  ∀ i m scopes, Stands program m a scopes → Ready a scopes → (plain → StartsPlain a scopes nodes) →
    Crosses clock i program plain m scopes (a + Node.spans nodes) ret (Node.bounds nodes)
      (Node.walks program (!scopes.isEmpty) a nodes)

theorem crossable_singleton {a : Nat} {d : Address} {node : Node}
    (h : ∀ i m scopes, Stands program m a scopes → Ready a scopes →
      (plain → StartsPlain a scopes [node]) →
      Crosses clock i program plain m scopes (a + node.span) d node.bound
        (node.walk program (!scopes.isEmpty) a)) :
    Crossable clock program plain a d [node] := by
  intro i m scopes hm hr hstarts
  simp only [Node.spans, Node.bounds, Node.walks, Nat.add_zero, List.append_nil]
  exact h i m scopes hm hr hstarts

section Nodes

variable {node : Node} {a : Nat} {d : Address} {instr : Instruction String} {m : Machine}
  {scopes : List Scope}

theorem linkMode_eq (h : Image program.symbols timestamp node a d instr) (mode : String)
    (hne : mode ≠ "") : linkMode instr = mode ↔ node.mode? = some mode := by
  have hmode : linkMode instr = node.mode?.getD "" := by
    rw [linkMode, Instruction.textParam?, Instruction.param?, h.params, h.id]
    rfl
  rw [hmode]
  cases node.mode? with
  | none => simp [hne.symm]
  | some found => simp

/-- After its own instruction a node runs its body. -/
theorem crosses_body (himage : Image program.symbols timestamp node a d instr)
    (ht : node.op ≠ .trigger)
    (hbody : node.body ≠ [] → Crossable clock program plain (a + 1) d node.body)
    (hr : Ready a scopes) {bound : Nat} {walk : List Address}
    (hown : Crosses clock i program plain m scopes (a + 1) instr.first bound walk) :
    Crosses clock i program plain m scopes (a + node.span) d (bound + Node.bounds node.body)
      (walk ++ Node.walks program (!scopes.isEmpty) (a + 1) node.body) := by
  rw [node.span_eq, ← Nat.add_assoc]
  by_cases hb : node.body = []
  · rw [himage.first_leaf ht hb] at hown
    rw [hb]
    exact hown.mono (Nat.le_add_right _ _) (Nat.le_refl _) fun _ => (List.append_nil walk).symm
  · rw [himage.first_inner hb] at hown
    refine hown.trans (Nat.le_add_right _ _) fun i m' scopes' h' hkept hr' => ?_
    rw [← hkept.isEmpty_eq]
    refine hbody hb i m' scopes' h' hr' fun _ s' hs' hfirst => ?_
    -- The trigger around lies before the node, so the body of the node is not its first node.
    obtain ⟨s, hs, haddress⟩ := hkept.exists_head hs'
    have := (hr s hs).1
    omega

section Inner

variable (hcheck : program.check = .ok ()) (htargets : program.PlainTargets)
  (hd : program.decode a = .ok instr) (himage : Image program.symbols timestamp node a d instr)

include hcheck htargets hd himage

/-- A node that visits its tags. -/
theorem crosses_visits (h : Stands program m a scopes) (hr : Ready a scopes)
    (hv : Visits instr (!scopes.isEmpty)) (hvisiting : Node.isVisiting node.op node.params)
    (hp : plain → ∀ s ∈ scopes.head?, s.address + 1 ≠ a) :
    Crosses clock i program plain m scopes (a + 1) instr.first (1 + 2 * node.tags.length)
      ((a : Address) :: Node.visits program (!scopes.isEmpty) a node.op node.params node.tags) := by
  have hcross : Crosses clock i program plain m scopes _ _ _ _ :=
    .of_visitor hcheck htargets h hr hd hv hp
  rw [himage.tags, List.length_map] at hcross
  refine hcross.mono (Nat.le_refl _) (Nat.le_refl _) fun _ => ?_
  rw [Node.visits, hvisiting, Bool.and_true]
  cases scopes.isEmpty <;> rfl

/-- A link inherits, returns or fails. -/
theorem crosses_link (hop : node.op = .link) (h : Stands program m a scopes) (hr : Ready a scopes)
    (hp : plain → ∀ s ∈ scopes.head?, s.address + 1 ≠ a) (hplain : plain → node.Plain) :
    Crosses clock i program plain m scopes (a + 1) instr.first (1 + 2 * node.tags.length)
      ((a : Address) :: Node.visits program (!scopes.isEmpty) a node.op node.params node.tags) := by
  have hlink : instr.op = .link := himage.op.trans hop
  have hinherits := linkMode_eq himage "Inheritance" (by decide)
  have hvisiting : Node.isVisiting node.op node.params =
      decide (node.mode? = some "Inheritance") := by
    rw [Node.isVisiting, hop]
    rfl
  cases scopes with
  | nil =>
    have hcross : Crosses clock i program plain m [] _ _ _ _ :=
      .of_failure h hr (h.failsToLink hd hlink (.inl rfl))
    exact hcross.mono (Nat.le_refl _) (Nat.le_add_right 1 _) fun _ => rfl
  | cons s rest =>
    by_cases hi : linkMode instr = "Inheritance"
    · refine crosses_visits hcheck htargets hd himage h hr (.inr (.inr ⟨hlink, hi, rfl⟩)) ?_ hp
      rw [hvisiting]
      exact decide_eq_true (hinherits.mp hi)
    · have hnone : Node.visits program true a node.op node.params node.tags = [] := by
        rw [Node.visits, hvisiting, decide_eq_false fun hmode => hi (hinherits.mpr hmode)]
        rfl
      by_cases hreturn : linkMode instr = "Return"
      · have hback : StepsTo (clock i) program m s.address (s :: rest) :=
          h.goesBack hd hlink hreturn (Nat.ne_of_lt (hr s rfl).1)
        have hcross : Crosses clock i program plain m (s :: rest) (a + 1) instr.first 1
            [(a : Address)] := by
          refine .of_step h hback (.refl _) (hr.mono (Nat.le_succ a)) (.inr ⟨s, rfl, rfl⟩)
            fun hq => ?_
          exact absurd ((linkMode_eq himage "Return" (by decide)).mp hreturn)
            ((hplain hq).no_return hop)
        exact hcross.mono (Nat.le_refl _) (Nat.le_add_right 1 _) fun _ => congrArg _ hnone.symm
      · have hcross : Crosses clock i program plain m (s :: rest) _ _ _ _ :=
          .of_failure h hr (h.failsToLink hd hlink (.inr ⟨hi, hreturn⟩))
        exact hcross.mono (Nat.le_refl _) (Nat.le_add_right 1 _) fun _ => congrArg _ hnone.symm

/-- The instruction of a node, before its body. -/
theorem crosses_own (ht : node.op ≠ .trigger) (ha : node.op ≠ .anchor)
    (h : Stands program m a scopes) (hr : Ready a scopes)
    (hstarts : plain → StartsPlain a scopes [node]) (hplain : plain → node.Plain) :
    Crosses clock i program plain m scopes (a + 1) instr.first (1 + Node.fare node.op node.tags)
      ((a : Address) :: Node.visits program (!scopes.isEmpty) a node.op node.params node.tags) := by
  have hlater : node.op.isContextual = false → plain → ∀ s ∈ scopes.head?, s.address + 1 ≠ a := by
    intro hop hp s hs hfirst
    rw [hstarts hp s hs hfirst node rfl] at hop
    cases hop
  have hop := himage.op
  cases hnode : node.op with
  | trigger => exact absurd hnode ht
  | anchor => exact absurd hnode ha
  | context kind =>
    have hcross : Crosses clock i program plain m scopes _ _ _ _ :=
      .of_context h hr hd (hop.trans hnode)
    exact hcross.mono (Nat.le_refl _) (Nat.le_refl _) fun _ => by
      simp [Node.visits, Node.isVisiting]
  | unknown glyph =>
    have hcross : Crosses clock i program plain m scopes _ _ _ _ :=
      .of_success h hr (h.ignores hd (hop.trans hnode)) (hlater (by rw [hnode]; rfl))
    exact hcross.mono (Nat.le_refl _) (Nat.le_refl _) fun _ => by
      simp [Node.visits, Node.isVisiting]
  | speech =>
    rw [← hnode, Node.fare, if_pos (.inr (.inl hnode))]
    exact crosses_visits hcheck htargets hd himage h hr (.inl (hop.trans hnode))
      (by rw [hnode]; rfl) (hlater (by rw [hnode]; rfl))
  | signal =>
    rw [← hnode, Node.fare, if_pos (.inr (.inr hnode))]
    exact crosses_visits hcheck htargets hd himage h hr (.inr (.inl (hop.trans hnode)))
      (by rw [hnode]; rfl) (hlater (by rw [hnode]; rfl))
  | link =>
    rw [← hnode, Node.fare, if_pos (.inl hnode)]
    exact crosses_link hcheck htargets hd himage hnode h hr (hlater (by rw [hnode]; rfl)) hplain

theorem crossable_inner (ht : node.op ≠ .trigger) (ha : node.op ≠ .anchor)
    (hplain : plain → node.Plain)
    (hbody : node.body ≠ [] → Crossable clock program plain (a + 1) d node.body) :
    Crossable clock program plain a d [node] := by
  refine crossable_singleton fun i m scopes h hr hstarts => ?_
  rw [Node.bound_of_ne ht, Node.walk_of_ne program _ a ht]
  exact crosses_body himage ht hbody hr
    (crosses_own hcheck htargets hd himage ht ha h hr hstarts hplain)

end Inner

theorem crossable_anchor (hd : program.decode a = .ok instr)
    (himage : Image program.symbols timestamp node a d instr) (ha : node.op = .anchor)
    (hplain : plain → node.Plain)
    (hbody : node.body ≠ [] → Crossable clock program plain (a + 1) d node.body) :
    Crossable clock program plain a d [node] := by
  have ht : node.op ≠ .trigger := by
    rw [ha]
    decide
  have hno : ¬ plain := fun hp => (hplain hp).no_anchor ha
  refine crossable_singleton fun i m scopes h hr _ => ?_
  rw [Node.bound_of_ne ht]
  have hchoice : StepsTo (clock i) program m _ _ ∨ StepsTo (clock i) program m _ _ :=
    h.chooses hd (himage.op.trans ha)
  rcases hchoice with hs | hs
  · have hown : Crosses clock i program plain m scopes _ _ _ _ :=
      .of_success h hr hs fun hp => absurd hp hno
    exact (crosses_body himage ht hbody hr hown).mono (Nat.le_refl _) (by omega) fun hp =>
      absurd hp hno
  · rw [himage.second_eq (.inr ha)] at hs
    have hcross : Crosses clock i program plain m scopes (a + node.span) d _ _ :=
      .of_step h hs (.refl scopes) (hr.mono (Nat.le_add_right _ _)) (.inl rfl) fun _ => rfl
    exact hcross.mono (Nat.le_refl _) (by omega) fun hp => absurd hp hno

/-! ## Triggers -/

theorem ready_fresh {count : Nat} {s : Scope} (hs : Scope.Fresh a instr count s)
    (rest : List Scope) : Ready (a + 1) (s :: rest) := by
  rintro s' ⟨⟩
  refine ⟨by rw [hs.address]; exact Nat.lt_succ_self a, hs.detour, fun b _ => ?_⟩
  rw [Scope.cursor, hs.cursors]
  rfl

/-- One cycle of a trigger ends at the trigger, whether or not its body is cut short. -/
theorem runs_cycle (himage : Image program.symbols timestamp node a d instr)
    (ht : node.op = .trigger) (hplain : plain → node.Plain)
    (hbody : node.body ≠ [] → Crossable clock program plain (a + 1) a node.body) {count : Nat}
    {s : Scope} {rest : List Scope} (hs : Scope.Fresh a instr count s)
    (h : Stands program m instr.first (s :: rest)) :
    ∃ as m' s', Runs clock i m as m' ∧ Stands program m' a (s' :: rest) ∧ s'.address = a ∧
      s'.cycle = s.cycle ∧ as.length ≤ Node.bounds node.body ∧
      (plain → as = Node.walks program true (a + 1) node.body) := by
  by_cases hb : node.body = []
  · have hfirst : instr.first = a := by
      rw [Instruction.first, himage.emptyTrigger ht hb]
      rfl
    rw [hfirst] at h
    exact ⟨[], m, s, .nil i m, h, hs.address, rfl, Nat.zero_le _, fun _ => by rw [hb]; rfl⟩
  · rw [himage.first_inner hb] at h
    have hstarts : plain → StartsPlain (a + 1) (s :: rest) node.body :=
      fun hp _ _ _ => (hplain hp).starts ht
    obtain ⟨as, m', x, scopes', hrun, hc⟩ := hbody hb i m _ h (ready_fresh hs rest) hstarts
    have hx : x = a := by
      rcases hc.exit with hx | ⟨s', hs', hx⟩
      · exact hx
      · cases hs'
        rw [hx, hs.address]
    have hstands := hc.stands
    cases hc.kept with
    | inside haddress hcycle =>
      exact ⟨as, m', _, hrun, hx ▸ hstands, haddress.trans hs.address, hcycle, hc.length_le,
        fun hp => (hc.plain hp).2⟩

/-- The cycles that a trigger has left. After the last one its scope is closed. -/
theorem runs_cycles (hd : program.decode a = .ok instr)
    (himage : Image program.symbols timestamp node a d instr) (ht : node.op = .trigger)
    (hplain : plain → node.Plain)
    (hbody : node.body ≠ [] → Crossable clock program plain (a + 1) a node.body) {rest : List Scope}
    (hr : Ready a rest) {count : Nat} {s : Scope} (hs : Scope.Fresh a instr count s) {left : Nat}
    (hleft : count + (left + 1) = max node.tags.length 1)
    (h : Stands program m instr.first (s :: rest)) :
    ∃ as m', Runs clock i m as m' ∧ Stands program m' d rest ∧
      as.length ≤ (left + 1) * (1 + Node.bounds node.body) ∧
      (plain → as =
        (List.replicate (left + 1)
          (Node.walks program true (a + 1) node.body ++ [(a : Address)])).flatten) := by
  have hop := himage.op.trans ht
  induction left generalizing i m s count with
  | zero =>
    obtain ⟨as, m₁, s₁, hrun, h₁, haddress, hcycle, hlen, hwalk⟩ :=
      runs_cycle himage ht hplain hbody hs h
    rw [hs.cycle, himage.tags, List.length_map, himage.second_eq (.inl ht)] at hcycle
    have hlast : ¬ s₁.cycle.count + 1 < s₁.cycle.maxim := by
      rw [hcycle]
      exact Nat.not_lt.mpr (Nat.le_of_eq hleft.symm)
    have hclose : StepsTo (clock (i + as.length)) program m₁ d rest := by
      have hstep : StepsTo (clock (i + as.length)) program m₁ _ _ := h₁.closes hd hop haddress hlast
      rwa [hr.pending_eq, hr.settled_eq, hcycle] at hstep
    obtain ⟨m₂, hrun₂, h₂⟩ := hclose.runs h₁
    refine ⟨as ++ [(a : Address)], m₂, hrun.append hrun₂, h₂, ?_, fun hp => ?_⟩
    · rw [List.length_append, List.length_singleton]
      omega
    · rw [hwalk hp, List.replicate_one, List.flatten_singleton]
  | succ left ih =>
    obtain ⟨as, m₁, s₁, hrun, h₁, haddress, hcycle, hlen, hwalk⟩ :=
      runs_cycle himage ht hplain hbody hs h
    rw [hs.cycle] at hcycle
    have hmore : s₁.cycle.count + 1 < s₁.cycle.maxim := by
      rw [hcycle, himage.tags, List.length_map]
      change count + 1 < max node.tags.length 1
      omega
    have hfresh : Scope.Fresh a instr (count + 1) s₁.renew :=
      ⟨haddress, by rw [Scope.renew, hcycle], rfl, rfl⟩
    have hagain : StepsTo (clock (i + as.length)) program m₁ instr.first (s₁.renew :: rest) := by
      have hstep : StepsTo (clock (i + as.length)) program m₁ _ _ :=
        h₁.repeats hd hop haddress hmore
      rwa [hcycle] at hstep
    obtain ⟨m₂, hrun₂, h₂⟩ := hagain.runs h₁
    obtain ⟨as', m₃, hrun₃, h₃, hlen', hwalk'⟩ := ih hfresh (by omega) h₂
    refine ⟨as ++ [(a : Address)] ++ as', m₃, (hrun.append hrun₂).append hrun₃, h₃, ?_,
      fun hp => ?_⟩
    · rw [List.length_append, List.length_append, List.length_singleton, Nat.succ_mul]
      omega
    · rw [hwalk hp, hwalk' hp, List.replicate_succ (n := left + 1), List.flatten_cons]

theorem crossable_trigger (hd : program.decode a = .ok instr)
    (himage : Image program.symbols timestamp node a d instr) (ht : node.op = .trigger)
    (hplain : plain → node.Plain)
    (hbody : node.body ≠ [] → Crossable clock program plain (a + 1) a node.body) :
    Crossable clock program plain a d [node] := by
  refine crossable_singleton fun i m scopes h hr _ => ?_
  have hout : ∀ s ∈ scopes.head?, s.address ≠ a := fun s hs => Nat.ne_of_lt (hr s hs).1
  obtain ⟨s, hfresh, hopen⟩ := h.opens (clock i) hd (himage.op.trans ht) hout
  obtain ⟨m₁, hrun₁, h₁⟩ := hopen.runs h
  have hleft : 0 + (max 1 node.tags.length - 1 + 1) = max node.tags.length 1 := by omega
  obtain ⟨as, m₂, hrun₂, h₂, hlen, hwalk⟩ :=
    runs_cycles hd himage ht hplain hbody hr hfresh hleft h₁
  rw [Nat.sub_add_cancel (Nat.le_max_left 1 _)] at hlen hwalk
  refine ⟨(a : Address) :: as, m₂, d, scopes, hrun₁.append hrun₂, h₂, .refl scopes,
    hr.mono (Nat.le_add_right _ _), .inl rfl, ?_, fun hp => ⟨rfl, ?_⟩⟩
  · rw [Node.bound_trigger ht, List.length_cons]
    omega
  · rw [Node.walk_trigger program _ a ht, hwalk hp]

end Nodes

/-! ## Forests -/

theorem crossable_cons {a : Nat} {ret : Address} {node : Node} {rest : List Node}
    (hnode : Crossable clock program plain a (Siblings.successor a ret node rest) [node])
    (hrest : rest ≠ [] → Crossable clock program plain (a + node.span) ret rest) :
    Crossable clock program plain a ret (node :: rest) := by
  by_cases hr : rest = []
  · subst hr
    exact hnode
  · intro i m scopes h hready hstarts
    have hsucc : Siblings.successor a ret node rest = (a + node.span : Nat) := by
      rw [Siblings.successor, if_neg (by simpa using hr)]
    have hcross := hnode i m scopes h hready fun hp s hs hfirst n hn => hstarts hp s hs hfirst n hn
    simp only [Node.spans, Node.bounds, Node.walks, Nat.add_zero, List.append_nil, hsucc] at hcross
    rw [Node.spans, Node.bounds, Node.walks, ← Nat.add_assoc]
    refine hcross.trans (Nat.le_add_right _ _) fun i m' scopes' h' hkept hready' => ?_
    rw [← hkept.isEmpty_eq]
    refine hrest hr i m' scopes' h' hready' fun _ s' hs' hfirst => ?_
    obtain ⟨s, hs, haddress⟩ := hkept.exists_head hs'
    have hbefore := (hready s hs).1
    rw [node.span_eq] at hfirst
    omega

mutual

theorem crossable_node (hc : compile forest timestamp = .ok program)
    (htargets : program.PlainTargets) :
    ∀ (node : Node) {a : Nat} {ret : Address} {rest : List Node},
      Siblings forest a ret (node :: rest) → (plain → ∀ n ∈ node.nodes, n.Plain) →
      Crossable clock program plain a (Siblings.successor a ret node rest) [node]
  | ⟨op, params, body, tags⟩, a, ret, rest, hs, hplain => by
    obtain ⟨instr, hd, himage⟩ := Placed.image ⟨ret, rest, hs, rfl⟩ hc
    rw [Node.nodes_eq] at hplain
    have hself : plain → Node.Plain ⟨op, params, body, tags⟩ :=
      fun hp => hplain hp _ List.mem_cons_self
    have hbody := fun hne => crossable_siblings hc htargets body hs.body hne fun hp n hn =>
      hplain hp n (List.mem_cons_of_mem _ hn)
    by_cases ht : op = .trigger
    · rw [if_pos ht] at hbody
      exact crossable_trigger hd himage ht hself hbody
    · rw [if_neg ht] at hbody
      by_cases ha : op = .anchor
      · exact crossable_anchor hd himage ha hself hbody
      · exact crossable_inner (compile_checked hc) htargets hd himage ht ha hself hbody

theorem crossable_siblings (hc : compile forest timestamp = .ok program)
    (htargets : program.PlainTargets) :
    ∀ (nodes : List Node) {a : Nat} {ret : Address}, Siblings forest a ret nodes → nodes ≠ [] →
      (plain → ∀ n ∈ Node.preorder nodes, n.Plain) → Crossable clock program plain a ret nodes
  | [], _, _, _, hne, _ => absurd rfl hne
  | node :: rest, a, ret, hs, _, hplain => by
    rw [Node.preorder] at hplain
    refine crossable_cons ?_ fun hne => ?_
    · exact crossable_node hc htargets node hs fun hp n hn =>
        hplain hp n (List.mem_append_left _ hn)
    · exact crossable_siblings hc htargets rest hs.next hne fun hp n hn =>
        hplain hp n (List.mem_append_right _ hn)

end

/-- A run from the entry of a program goes through the forest from the entry node on. -/
theorem runs_forest (clock : Nat → Nat) (plain : Prop) (hne : forest ≠ [])
    (hc : compile forest timestamp = .ok program) (htargets : program.PlainTargets)
    (hplain : plain → ∀ n ∈ Node.preorder forest, n.Plain) :
    ∃ as m, Runs clock 0 (start program) as m ∧ Stands program m nowhere [] ∧
      as.length ≤ Node.bounds forest ∧
      (plain → as = Node.walks program false program.entry (fromEntry forest)) := by
  have haddress : program.isAddress program.entry := by
    obtain ⟨node, d, hp⟩ := lt_spans_iff_placed.mp ((compile_entry hc).lt_spans hne)
    obtain ⟨instr, hd, _⟩ := hp.image hc
    obtain ⟨raw, hf, _⟩ := Program.decode_eq_ok hd
    rw [Program.isAddress, hf]
    rfl
  obtain ⟨before, hf, hafter, hentry⟩ := (compile_entry hc).split hne
  have hs : Siblings forest program.entry nowhere (fromEntry forest) := by
    have hall : Siblings forest 0 nowhere (before ++ fromEntry forest) := hf ▸ .top
    have hrest := hall.after
    rwa [Nat.zero_add, ← hentry] at hrest
  have hnodes : plain → ∀ n ∈ Node.preorder (fromEntry forest), n.Plain := by
    intro hp n hn
    obtain ⟨_, _, _, heq⟩ := hs.preorder
    exact hplain hp n (by simp [heq, hn])
  obtain ⟨as, m, x, scopes, hrun, hcross⟩ :=
    crossable_siblings hc htargets _ hs hafter hnodes 0 (start program) []
      (stands_start haddress) (fun s hs => by cases hs) (fun _ s hs => by cases hs)
  have hx : x = nowhere := by
    rcases hcross.exit with hx | ⟨s, hs, _⟩
    · exact hx
    · cases hs
  have hlen : as.length ≤ Node.bounds forest := by
    have hle := hcross.length_le
    rw [hf, Node.bounds_append]
    omega
  have hstands := hcross.stands
  cases hcross.kept
  exact ⟨as, m, hrun, hx ▸ hstands, hlen, fun hp => (hcross.plain hp).2⟩

theorem runs_walks (clock : Nat → Nat) (hne : forest ≠ [])
    (hc : compile forest timestamp = .ok program) (htargets : program.PlainTargets)
    (hplain : ∀ n ∈ Node.preorder forest, n.Plain) :
    ∃ m, Runs clock 0 (start program)
      (Node.walks program false program.entry (fromEntry forest)) m ∧ m.isRunning = false := by
  obtain ⟨as, m, hrun, hend, _, hwalk⟩ := runs_forest clock True hne hc htargets fun _ => hplain
  obtain rfl := hwalk trivial
  exact ⟨m, hrun, hend.isRunning⟩

theorem runs_within_bounds (clock : Nat → Nat) (hne : forest ≠ [])
    (hc : compile forest timestamp = .ok program) (htargets : program.PlainTargets) :
    ∃ as m, Runs clock 0 (start program) as m ∧ as.length ≤ Node.bounds forest ∧
      m.isRunning = false ∧ m.registers.bsp = 0 ∧ ∀ frame ∈ m.stack, frame.scope = none := by
  obtain ⟨as, m, hrun, hend, hle, _⟩ := runs_forest clock False hne hc htargets False.elim
  exact ⟨as, m, hrun, hle, hend.isRunning, hend.wellScoped.of_scopes_nil hend.scopes_eq⟩

/-- Compiled code executes its tree: without anchors, links that return and bodies that start with
anything but context, a run is the walk through the nodes from the entry on, and then it halts. The
time at which each step is made does not matter. -/
theorem run_walks (now : Nat) (hne : forest ≠ []) (hc : compile forest timestamp = .ok program)
    (htargets : program.PlainTargets) (hplain : ∀ n ∈ Node.preorder forest, n.Plain) {budget : Nat}
    (hb : (Node.walks program false program.entry (fromEntry forest)).length ≤ budget) :
    (run { now } budget (start program)).ending = .halted ∧
      executed { now } budget (start program) =
        Node.walks program false program.entry (fromEntry forest) ∧
      (run { now } budget (start program)).steps =
        (executed { now } budget (start program)).length ∧
      (run { now } budget (start program)).machine.isRunning = false ∧
      ∀ clock, ∃ m,
        Runs clock 0 (start program) (Node.walks program false program.entry (fromEntry forest)) m ∧
          m.isRunning = false := by
  obtain ⟨m, hrun, hm⟩ := runs_walks (fun _ => now) hne hc htargets hplain
  obtain ⟨logged, he⟩ := hrun.run_eq hm hb
  rw [he, hrun.executed_eq hm hb]
  exact ⟨rfl, rfl, rfl, hm, fun clock => runs_walks clock hne hc htargets hplain⟩

/-- A trigger that runs twice, with a speech in its body that visits a node outside. -/
def tellingForest : Forest :=
  [{ op := .context .fragment, params := [("id", .text "Lore")] },
    { op := .trigger
      tags := [{ root := "#day", kind := .hashtag, segments := [] },
        { root := "#night", kind := .hashtag, segments := [] }]
      body := [{ op := .context .entity, params := [("id", .text "Hero")] },
        { op := .speech, tags := [{ root := "Lore", kind := .reference, segments := [] }] }] }]

theorem run_walks_telling :
    ∃ program, compile tellingForest 7 = .ok program ∧ program.PlainTargets ∧
      (∀ n ∈ Node.preorder tellingForest, n.Plain) ∧
      ∀ budget, 11 ≤ budget → (run {} budget (start program)).ending = .halted ∧
        executed {} budget (start program) = [1, 2, 3, 0, 3, 1, 2, 3, 0, 3, 1] ∧
        (run {} budget (start program)).steps = 11 := by
  let program := Link.link (Layout.ofForest 7 tellingForest) (Layout.entry tellingForest)
  have hc : compile tellingForest 7 = .ok program := by
    rw [compile, show Compile.nodesError? tellingForest tellingForest = none by decide +kernel]
  have htargets : program.PlainTargets := by decide +kernel
  have hplain : ∀ n ∈ Node.preorder tellingForest, n.Plain := by decide +kernel
  have hwalk : Node.walks program false program.entry (fromEntry tellingForest) =
      [1, 2, 3, 0, 3, 1, 2, 3, 0, 3, 1] := by decide +kernel
  refine ⟨program, hc, htargets, hplain, fun budget hb => ?_⟩
  have hlength : (Node.walks program false program.entry (fromEntry tellingForest)).length ≤
      budget := by
    rw [hwalk]
    exact hb
  obtain ⟨hend, hexecuted, hsteps, _⟩ := run_walks 0 (by decide) hc htargets hplain hlength
  rw [hexecuted, hwalk] at hsteps
  exact ⟨hend, hexecuted.trans hwalk, hsteps⟩

/-- Every run of a compiled program ends within the bound of its forest, and leaves no scope open.
This does not depend on the time at which each step is made. -/
theorem run_halts (now : Nat) (hne : forest ≠ []) (hc : compile forest timestamp = .ok program)
    (htargets : program.PlainTargets) {budget : Nat} (hb : Node.bounds forest ≤ budget) :
    (run { now } budget (start program)).ending = .halted ∧
      (run { now } budget (start program)).steps ≤ Node.bounds forest ∧
      (run { now } budget (start program)).machine.registers.bsp = 0 ∧
      (∀ frame ∈ (run { now } budget (start program)).machine.stack, frame.scope = none) ∧
      (run { now } budget (start program)).steps =
        (executed { now } budget (start program)).length ∧
      (run { now } budget (start program)).machine.isRunning = false ∧
      ∀ clock, ∃ as m, Runs clock 0 (start program) as m ∧ as.length ≤ Node.bounds forest ∧
        m.isRunning = false ∧ m.registers.bsp = 0 ∧ ∀ frame ∈ m.stack, frame.scope = none := by
  obtain ⟨as, m, hrun, hle, hm, hbase, hscopes⟩ := runs_within_bounds (fun _ => now) hne hc htargets
  obtain ⟨logged, he⟩ := hrun.run_eq hm (Nat.le_trans hle hb)
  rw [he, hrun.executed_eq hm (Nat.le_trans hle hb)]
  exact ⟨rfl, hle, hbase, hscopes, rfl, hm, fun clock => runs_within_bounds clock hne hc htargets⟩

/-- A context glyph that fails, a body that starts with an anchor, and a link that returns. -/
def cutForest : Forest :=
  [{ op := .trigger
     tags := [{ root := "#day", kind := .hashtag, segments := [] },
       { root := "#night", kind := .hashtag, segments := [] }]
     body := [{ op := .context .entity },
       { op := .trigger, body := [{ op := .anchor, body := [{ op := .speech }] }] },
       { op := .link, params := [("id", .text "Return")] },
       { op := .unknown "🌋" }] }]

theorem run_halts_cut :
    ∃ program, compile cutForest 7 = .ok program ∧ program.PlainTargets ∧
      Node.bounds cutForest = 17 ∧ (run {} 17 (start program)).ending = .halted ∧
      (run {} 17 (start program)).steps ≤ 17 ∧
      (run {} 17 (start program)).machine.registers.bsp = 0 := by
  let program := Link.link (Layout.ofForest 7 cutForest) (Layout.entry cutForest)
  have hc : compile cutForest 7 = .ok program := by
    rw [compile, show Compile.nodesError? cutForest cutForest = none by decide +kernel]
  have htargets : program.PlainTargets := by decide +kernel
  have hbound : Node.bounds cutForest = 17 := by decide
  obtain ⟨hend, hsteps, hbase, _⟩ := run_halts 0 (by decide) hc htargets (Nat.le_of_eq hbound)
  exact ⟨program, hc, htargets, hbound, hend, hbound ▸ hsteps, hbase⟩

end Machine

end GlyphScript
