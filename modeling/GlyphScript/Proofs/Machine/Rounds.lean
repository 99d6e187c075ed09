import GlyphScript.Proofs.Machine.Moves

/-! # The rounds of a scope

A trigger shares its instruction among all the scopes that it opens, and each of them counts its own
cycles. From the step that opens a scope to the step that closes it, the trigger goes to its body
once per tag and at least once, whatever scopes are opened and closed in between. Scopes are closed
in the reverse of the order in which they were opened.
-/

namespace GlyphScript

section Places

variable {α β : Type}

/-- Where a list holds something, from the left. -/
def places (l : List (Option α)) : List Nat := l.zipIdx.filterMap fun e => e.1.map fun _ => e.2

theorem places_map (f : α → β) (l : List (Option α)) :
    places (l.map (Option.map f)) = places l := by
  unfold places
  rw [List.zipIdx_map, List.filterMap_map]
  congr 1
  funext e
  exact Option.map_map _ _ _

theorem places_modify (f : α → α) (l : List (Option α)) (i : Nat) :
    places (l.modify i (Option.map f)) = places l := by
  have hmap : (l.modify i (Option.map f)).map (Option.map fun _ => ()) =
      l.map (Option.map fun _ => ()) := by
    apply map_modify_of_eq
    intro x
    simp
  rw [← places_map (fun _ => ()) (l.modify i _), hmap, places_map]

theorem places_append_none (l : List (Option α)) {above : List (Option α)}
    (h : ∀ x ∈ above, x = none) : places (l ++ above) = places l := by
  unfold places
  rw [List.zipIdx_append, List.filterMap_append]
  have hnone : (above.zipIdx (0 + l.length)).filterMap (fun e => e.1.map fun _ => e.2) = [] := by
    rw [List.filterMap_eq_nil_iff]
    intro e he
    rw [h e.1 (List.fst_mem_of_mem_zipIdx he)]
    rfl
  rw [hnone, List.append_nil]

theorem places_append_some (l : List (Option α)) (x : α) :
    places (l ++ [some x]) = places l ++ [l.length] := by
  unfold places
  rw [List.zipIdx_append, List.filterMap_append]
  simp

end Places

def cycleOf (instr : Instruction String) (count : Nat) : Cycle :=
  { count, maxim := max instr.tags.length 1, start := instr.first, ret := instr.second }

def Cycle.advance (c : Cycle) : Cycle := { c with count := c.count + 1 }

namespace Machine

def marks (m : Machine) : List (Option (Nat × Cycle)) :=
  m.scoping.map (Option.map fun s => (s.address, s.cycle))

/-- Another machine with the same base and the same scopes in their places, and possibly more frames
without a scope on top. -/
structure Keeps (m m' : Machine) : Prop where
  bsp : m'.registers.bsp = m.registers.bsp
  marks : ∃ n, m'.marks = m.marks ++ List.replicate n none

inductive Turn (m m' : Machine) : Prop where
  | goesOn : (∀ instr, m.program.decode m.registers.ip = .ok instr → instr.op ≠ .trigger) →
      Keeps m m' → Turn m m'
  | opens {a : Nat} {instr : Instruction String} : m.registers.ip = a →
      m.program.decode a = .ok instr → instr.op = .trigger →
      (∀ s, m.scope? = some s → s.address ≠ a) → m'.registers.ip = instr.first →
      m'.registers.bsp = m.stack.length → m'.marks = m.marks ++ [some (a, cycleOf instr 0)] →
      Turn m m'
  | repeats {s : Scope} : m.scope? = some s → m.registers.ip = s.address →
      s.cycle.count + 1 < s.cycle.maxim → m'.registers.ip = s.cycle.start →
      m'.marks = m.marks.modify m.registers.bsp (Option.map fun e => (e.1, e.2.advance)) → Turn m m'
  | closes {s : Scope} : m.scope? = some s → m.registers.ip = s.address →
      s.cycle.maxim ≤ s.cycle.count + 1 → m'.marks = m.marks.take m.registers.bsp → Turn m m'

/-- What a step does to the scope at a place: its own trigger closes it if its cycles are done and
starts the next one if they are not, and every other step leaves it alone. -/
inductive Fate (i a : Nat) (instr : Instruction String) (count : Nat) (m m' : Machine) : Prop where
  | closed : m.registers.bsp = i → m.registers.ip = a → max instr.tags.length 1 ≤ count + 1 →
      m'.stack.length = i → Fate i a instr count m m'
  | renewed : m.registers.bsp = i → m.registers.ip = a → count + 1 < max instr.tags.length 1 →
      m'.registers.ip = instr.first → m'.marks[i]? = some (some (a, cycleOf instr (count + 1))) →
      Fate i a instr count m m'
  | spared : ¬ (m.registers.bsp = i ∧ m.registers.ip = a) →
      m'.marks[i]? = some (some (a, cycleOf instr count)) → Fate i a instr count m m'

variable {m m' m'' : Machine} {here : Located}

theorem length_marks (m : Machine) : m.marks.length = m.stack.length := by simp [marks, scoping]

theorem getElem?_marks (m : Machine) (i : Nat) {a : Nat} {c : Cycle} :
    m.marks[i]? = some (some (a, c)) ↔
      ∃ s, m.scoping[i]? = some (some s) ∧ s.address = a ∧ s.cycle = c := by
  simp only [marks, List.getElem?_map, Option.map_eq_some_iff, Prod.mk.injEq]
  constructor
  · rintro ⟨_, hs, s, rfl, hmark⟩
    exact ⟨s, hs, hmark⟩
  · rintro ⟨s, hs, hmark⟩
    exact ⟨some s, hs, s, rfl, hmark⟩

theorem lt_length_of_mark {i : Nat} {mark : Option (Nat × Cycle)} (h : m.marks[i]? = some mark) :
    i < m.stack.length := by
  rw [← length_marks]
  exact (List.getElem?_eq_some_iff.mp h).1

theorem places_marks (m : Machine) : places m.marks = places m.scoping := places_map _ _

theorem marks_of_scope? {s : Scope} (h : m.scope? = some s) :
    m.marks[m.registers.bsp]? = some (some (s.address, s.cycle)) := by
  rw [scope?_eq] at h
  exact (m.getElem?_marks _).mpr ⟨s, Option.join_eq_some_iff.mp h, rfl, rfl⟩

theorem marks_modifyScope {f : Scope → Scope} {g : Nat × Cycle → Nat × Cycle}
    (hf : ∀ s, ((f s).address, (f s).cycle) = g (s.address, s.cycle)) :
    (m.modifyScope f).marks = m.marks.modify m.registers.bsp (Option.map g) := by
  rw [marks, scoping_modifyScope]
  apply map_modify
  intro x
  cases x with
  | none => rfl
  | some s => exact congrArg some (hf s)

theorem marks_modifyScope_of_eq {f : Scope → Scope}
    (hf : ∀ s, ((f s).address, (f s).cycle) = (s.address, s.cycle)) :
    (m.modifyScope f).marks = m.marks := by
  rw [marks_modifyScope (g := id) hf, Option.map_id, List.modify_id]

theorem marks_takeDetour (m : Machine) (target : Address) :
    (m.takeDetour target).1.marks = m.marks := by
  unfold takeDetour
  split
  · split
    · exact marks_modifyScope_of_eq fun _ => rfl
    · rfl
  · rfl

/-! ## Steps that open and close nothing -/

namespace Keeps

theorem of_marks (hb : m'.registers.bsp = m.registers.bsp) (hm : m'.marks = m.marks) : Keeps m m' :=
  ⟨hb, 0, by simp [hm]⟩

theorem of_scoping (hb : m'.registers.bsp = m.registers.bsp) (hs : m'.scoping = m.scoping) :
    Keeps m m' :=
  of_marks hb (by rw [Machine.marks, hs, Machine.marks])

theorem refl (m : Machine) : Keeps m m := of_scoping rfl rfl

theorem trans (h : Keeps m m') (h' : Keeps m' m'') : Keeps m m'' := by
  obtain ⟨n, hn⟩ := h.marks
  obtain ⟨n', hn'⟩ := h'.marks
  refine ⟨h'.bsp.trans h.bsp, n + n', ?_⟩
  rw [hn', hn, List.append_assoc, List.replicate_append_replicate]

end Keeps

theorem Move.keeps {now : Nat} {turns : Prop} {us : List Utterance} {ss : List Signal}
    (h : Move now turns m us ss m') (ht : ¬ turns) : Keeps m m' := by
  cases h with
  | steer _ hv =>
    have hstack : m'.stack = m.stack := congrArg View.frames hv
    exact .of_scoping (congrArg View.base hv) (by rw [scoping, hstack, scoping])
  | mark f _ hf => exact .of_marks rfl (marks_modifyScope_of_eq hf)
  | gather _ _ _ => exact .of_scoping rfl (Gathering.describe_onlyData m _ _ _).scoping
  | describe _ _ _ =>
    refine ⟨rfl, 1, ?_⟩
    rw [marks, scoping_push, List.map_append]
    rfl
  | opens hturns => exact absurd hturns ht
  | renews hturns => exact absurd hturns ht
  | closes hturns => exact absurd hturns ht
  | tell here => exact .of_scoping rfl (scoping_modifyBase fun _ => rfl)
  | announce here => exact .of_scoping (by rw [registers_announce]) (map_announce fun _ => rfl)

/-- A step at any other instruction than a trigger keeps the scopes. -/
theorem step?_keeps (h : m.WellScoped) {now : Nat} {stepped : Stepped}
    (hs : step? { now } m = some stepped) (ht : ¬ m.AtTrigger) : Keeps m stepped.machine :=
  (step?_moves h hs).invariant (fun hmove hk => hk.trans (hmove.keeps ht)) (.refl m)

/-! ## Triggers -/

theorem after_jump (here : Located) (m : Machine) (target : Address) :
    (Stepped.after here ⟨m.jump target, none⟩).machine = (m.jump target).goTo target := rfl

/-- Going to an address changes no frame. -/
theorem marks_jump_goTo (m : Machine) (target : Address) :
    ((m.jump target).goTo target).marks = m.marks := by
  rw [marks, scoping, stack_goTo]
  rfl

theorem bsp_jump_goTo (m : Machine) (target : Address) :
    ((m.jump target).goTo target).registers.bsp = m.registers.bsp := by
  unfold goTo
  dsimp only
  split <;> rfl

theorem ip_jump_goTo (m : Machine) (target : Address) :
    ((m.jump target).goTo target).registers.ip = target :=
  congrArg Control.ip (control_goTo (m.jump target) target)

section Triggers

variable (hd : m.decode m.registers.ip = .ok here) (hop : here.instr.op = .trigger)

include hd

theorem ip_of_decode : m.registers.ip = here.address := by
  obtain ⟨_, _, _, ha⟩ := decode_eq_ok hd
  exact ha.symm

theorem again_turn {s : Scope} (hs : m.scope? = some s) (ha : s.address = here.address)
    (hlt : s.cycle.count + 1 < s.cycle.maxim) :
    Turn m (Stepped.after here ⟨m.again s, none⟩).machine := by
  rw [again, after_jump]
  refine .repeats hs (by rw [ip_of_decode hd, ha]) hlt (ip_jump_goTo _ _) ?_
  rw [marks_jump_goTo]
  exact marks_modifyScope fun _ => rfl

theorem leave_turn (h : m.WellScoped) {s : Scope} (hs : m.scope? = some s)
    (ha : s.address = here.address) (hge : s.cycle.maxim ≤ s.cycle.count + 1) :
    Turn m (Stepped.after here (m.leave here)).machine := by
  obtain ⟨base, _, _, _, he⟩ := leave_eq h hs here
  rw [he, after_jump]
  refine .closes hs (by rw [ip_of_decode hd, ha]) hge ?_
  rw [marks_jump_goTo, marks_takeDetour, marks, scoping_mergeDown]
  exact List.map_take

include hop

theorem enter_turn (hne : ∀ s, m.scope? = some s → s.address ≠ here.address) :
    Turn m (Stepped.after here ⟨m.enter here, none⟩).machine := by
  let pushed := m.push { scope := some (m.opened here) }
  let m' : Machine :=
    { pushed with registers := { pushed.registers with bsp := pushed.top, esp := pushed.top } }
  obtain ⟨reach, he⟩ : ∃ reach, m.enter here = (m'.gather reach).jump here.instr.first := ⟨_, rfl⟩
  have hs : m'.scoping = m.scoping ++ [some (m.opened here)] := scoping_push m _
  have htop : m'.registers.bsp = m.stack.length := by simp [m', pushed, top, push]
  have ho := gather_onlyData m' reach
  have hip := ip_of_decode hd
  rw [he, after_jump]
  refine .opens hip (decode_located hd) hop hne (ip_jump_goTo _ _) ?_ ?_
  · rw [bsp_jump_goTo, ho.registers, htop]
  · rw [marks_jump_goTo, marks, ho.scoping, hs, List.map_append]
    rfl

theorem trigger_turn (h : m.WellScoped) : Turn m (Stepped.after here (m.trigger here)).machine := by
  cases hs : m.scope? with
  | none =>
    simp only [trigger, hs]
    exact enter_turn hd hop fun s hs' => by rw [hs] at hs'; cases hs'
  | some s =>
    by_cases ha : s.address = here.address
    · by_cases hlt : s.cycle.count + 1 < s.cycle.maxim
      · simp only [trigger, hs, if_pos ha, if_pos hlt]
        exact again_turn hd hs ha hlt
      · simp only [trigger, hs, if_pos ha, if_neg hlt]
        exact leave_turn hd h hs ha (Nat.le_of_not_lt hlt)
    · simp only [trigger, hs, if_neg ha]
      refine enter_turn hd hop fun s' hs' => ?_
      obtain rfl : s = s' := Option.some.inj (hs.symm.trans hs')
      exact ha

end Triggers

theorem step?_turn (h : m.WellScoped) {now : Nat} {stepped : Stepped}
    (hs : step? { now } m = some stepped) : Turn m stepped.machine := by
  by_cases ht : m.AtTrigger
  · rcases step?_eq_some hs with ⟨e, target, hd, rfl⟩ | ⟨here, hd, rfl⟩
    · obtain ⟨instr, hok, _⟩ := ht
      rw [decode, hok] at hd
      cases hd
    · have hop := (atTrigger_iff hd).mp ht
      have hturn : Turn { m with jumped := false } _ :=
        trigger_turn hd hop (h.congr rfl rfl rfl rfl)
      simp only [handle, hop]
      cases hturn with
      | goesOn hne hk => exact .goesOn hne ⟨hk.bsp, hk.marks⟩
      | opens hip hdec ht hne hip' hb hm => exact .opens hip hdec ht hne hip' hb hm
      | repeats hsc hip hlt hip' hm => exact .repeats hsc hip hlt hip' hm
      | closes hsc hip hge hm => exact .closes hsc hip hge hm
  · exact .goesOn (fun instr hok hop => ht ⟨instr, hok, hop⟩) (step?_keeps h hs ht)

/-! ## One scope through one step -/

section OneScope

variable {i a count : Nat} {instr : Instruction String}

theorem WellScoped.le_bsp (h : m.WellScoped) {s : Scope} (hs : m.scoping[i]? = some (some s)) :
    i ≤ m.registers.bsp := by
  have hlt : i < m.scoping.length := (List.getElem?_eq_some_iff.mp hs).1
  rcases h.linked.topmost with ⟨_, _, habove⟩ | ⟨_, hnone⟩
  · exact Nat.le_of_not_lt fun hi => habove i hi hlt s hs
  · exact absurd hs (hnone i hlt s)

theorem Turn.fate (ht : Turn m m') (h : m.WellScoped) (hd : m.program.decode a = .ok instr)
    (hop : instr.op = .trigger) (hmark : m.marks[i]? = some (some (a, cycleOf instr count))) :
    Fate i a instr count m m' := by
  have hi : i < m.marks.length := (List.getElem?_eq_some_iff.mp hmark).1
  have hbase : ∀ s, m.scope? = some s → m.registers.bsp = i →
      s.address = a ∧ s.cycle = cycleOf instr count := by
    rintro s hs rfl
    have heq := (marks_of_scope? hs).symm.trans hmark
    simpa using heq
  cases ht with
  | goesOn hne hk =>
    obtain ⟨n, hn⟩ := hk.marks
    refine .spared (fun hown => ?_) ?_
    · exact hne instr (by rw [hown.2, hd]) hop
    · rw [hn, List.getElem?_append_left hi, hmark]
  | @opens a' _ hip _ _ hne _ _ hm =>
    refine .spared (fun hown => ?_) ?_
    · obtain ⟨rfl, hip'⟩ := hown
      obtain ⟨s, hs, ha, _⟩ := (m.getElem?_marks _).mp hmark
      refine hne s (by rw [scope?_eq, hs]; rfl) ?_
      rw [ha]
      exact Int.ofNat_inj.mp (hip'.symm.trans hip)
    · rw [hm, List.getElem?_append_left hi, hmark]
  | @repeats s hs hip hlt hip' hm =>
    by_cases hb : m.registers.bsp = i
    · obtain ⟨ha, hc⟩ := hbase s hs hb
      rw [hc] at hlt hip'
      rw [ha] at hip
      refine .renewed hb hip hlt hip' ?_
      rw [hm, hb, List.getElem?_modify_eq, hmark]
      rfl
    · refine .spared (fun hown => hb hown.1) ?_
      rw [hm, List.getElem?_modify_ne _ _ hb, hmark]
  | @closes s hs hip hge hm =>
    by_cases hb : m.registers.bsp = i
    · obtain ⟨ha, hc⟩ := hbase s hs hb
      rw [hc] at hge
      rw [ha] at hip
      refine .closed hb hip hge ?_
      rw [← length_marks, hm, List.length_take, hb]
      omega
    · obtain ⟨s', hs', _⟩ := (m.getElem?_marks i).mp hmark
      have hle := h.le_bsp hs'
      refine .spared (fun hown => hb hown.1) ?_
      rw [hm, List.getElem?_take_of_lt (by omega), hmark]

/-- A scope that is there after a step was there before, or the step has opened it. -/
theorem Turn.before (ht : Turn m m') {mark : Nat × Cycle}
    (hmark : m'.marks[i]? = some (some mark)) :
    (∃ cycle, m.marks[i]? = some (some (mark.1, cycle))) ∨
      ∃ instr, m.stack.length = i ∧ m.registers.ip = mark.1 ∧ m.program.decode mark.1 = .ok instr ∧
        instr.op = .trigger ∧ m'.registers.bsp = i ∧ m'.registers.ip = instr.first := by
  cases ht with
  | goesOn _ hk =>
    obtain ⟨n, hn⟩ := hk.marks
    rw [hn] at hmark
    rcases Nat.lt_or_ge i m.marks.length with hi | hi
    · rw [List.getElem?_append_left hi] at hmark
      exact .inl ⟨_, hmark⟩
    · rw [List.getElem?_append_right hi] at hmark
      cases (List.mem_replicate.mp (List.mem_of_getElem? hmark)).2
  | @opens a instr hip hd hop _ hip' hb hm =>
    have hi := (List.getElem?_eq_some_iff.mp hmark).1
    rw [hm] at hmark hi
    rcases Nat.lt_or_ge i m.marks.length with hlt | hge
    · rw [List.getElem?_append_left hlt] at hmark
      exact .inl ⟨_, hmark⟩
    · rw [List.length_append, List.length_singleton] at hi
      obtain rfl : m.marks.length = i := by omega
      rw [List.getElem?_concat_length] at hmark
      cases hmark
      exact .inr ⟨instr, m.length_marks.symm, hip, hd, hop, by rw [hb, length_marks], hip'⟩
  | repeats _ _ _ _ hm =>
    rw [hm, List.getElem?_modify] at hmark
    obtain ⟨x, hx, hadvanced⟩ := Option.map_eq_some_iff.mp hmark
    by_cases hb : m.registers.bsp = i
    · rw [if_pos hb] at hadvanced
      obtain ⟨old, rfl, rfl⟩ := Option.map_eq_some_iff.mp hadvanced
      exact .inl ⟨_, hx⟩
    · rw [if_neg hb] at hadvanced
      exact .inl ⟨_, by rw [hx, hadvanced]⟩
  | closes _ _ _ hm =>
    rw [hm, List.getElem?_take] at hmark
    split at hmark
    · exact .inl ⟨_, hmark⟩
    · cases hmark

end OneScope

/-- A step opens one scope on top of all others, closes the topmost one, or leaves the scopes where
they are. -/
theorem Turn.places_eq (ht : Turn m m') (h : m.WellScoped) :
    places m'.scoping = places m.scoping ∨
      places m'.scoping = places m.scoping ++ [m.stack.length] ∨
      places m.scoping = places m'.scoping ++ [m.registers.bsp] := by
  rw [← places_marks, ← places_marks]
  cases ht with
  | goesOn _ hk =>
    obtain ⟨n, hn⟩ := hk.marks
    rw [hn]
    exact .inl (places_append_none _ fun x hx => (List.mem_replicate.mp hx).2)
  | opens _ _ _ _ _ _ hm =>
    rw [hm, places_append_some, length_marks]
    exact .inr (.inl rfl)
  | repeats _ _ _ _ hm =>
    rw [hm]
    exact .inl (places_modify _ _ _)
  | @closes s hs _ _ hm =>
    obtain ⟨below, x, above, hl, hb, ha, hx⟩ := h.linked.split
    have hbase : m.scoping[m.registers.bsp]? = some x := by rw [hl, ← hb]; simp
    rw [scope?_eq, hbase] at hs
    obtain rfl : x = some s := hs
    refine .inr (.inr ?_)
    have htake : m.marks.take m.registers.bsp =
        below.map (Option.map fun s => (s.address, s.cycle)) := by
      rw [marks, ← List.map_take, hl, ← hb, List.take_left]
    have hsplit : m.scoping = (below ++ [some s]) ++ above := by simpa using hl
    rw [hm, htake, places_map, places_marks, hsplit, places_append_none _ ha, places_append_some,
      hb]

/-! ## One scope through a run -/

/-- The runs that a scope lives through, with its place, its trigger, and the number of times that
the trigger has gone to the start of its body, executed with this scope as the base. The step that
opens the scope is the first. -/
inductive Rounds (program : Program) (i a : Nat) (instr : Instruction String) :
    Nat → Machine → Prop where
  | opened {m : Machine} {stepped : Stepped} (now : Nat) : Reachable program m →
      m.stack.length = i → m.registers.ip = a → program.decode a = .ok instr → instr.op = .trigger →
      step? { now } m = some stepped → stepped.machine.registers.bsp = i →
      stepped.machine.registers.ip = instr.first → Rounds program i a instr 1 stepped.machine
  | jumps {n : Nat} {m : Machine} {stepped : Stepped} (now : Nat) : Rounds program i a instr n m →
      step? { now } m = some stepped → i < stepped.machine.stack.length → m.registers.bsp = i →
      m.registers.ip = a → stepped.machine.registers.ip = instr.first →
      Rounds program i a instr (n + 1) stepped.machine
  | passes {n : Nat} {m : Machine} {stepped : Stepped} (now : Nat) : Rounds program i a instr n m →
      step? { now } m = some stepped → i < stepped.machine.stack.length →
      ¬ (m.registers.bsp = i ∧ m.registers.ip = a ∧ stepped.machine.registers.ip = instr.first) →
      Rounds program i a instr n stepped.machine

section Runs

variable {program : Program} {i a n : Nat} {instr : Instruction String}

namespace Rounds

theorem reachable (h : Rounds program i a instr n m) : Reachable program m := by
  induction h with
  | opened now hr _ _ _ _ hs => exact .step now hr hs
  | jumps now _ hs _ _ _ _ ih => exact .step now ih hs
  | passes now _ hs _ _ ih => exact .step now ih hs

theorem trigger (h : Rounds program i a instr n m) :
    program.decode a = .ok instr ∧ instr.op = .trigger := by
  induction h with
  | opened _ _ _ _ hd hop => exact ⟨hd, hop⟩
  | jumps _ _ _ _ _ _ _ ih => exact ih
  | passes _ _ _ _ _ ih => exact ih

theorem extend (h : Rounds program i a instr n m) {now : Nat} {stepped : Stepped}
    (hs : step? { now } m = some stepped) (hlt : i < stepped.machine.stack.length) :
    ∃ n, Rounds program i a instr n stepped.machine := by
  by_cases hj : m.registers.bsp = i ∧ m.registers.ip = a ∧
      stepped.machine.registers.ip = instr.first
  · exact ⟨n + 1, .jumps now h hs hlt hj.1 hj.2.1 hj.2.2⟩
  · exact ⟨n, .passes now h hs hlt hj⟩

theorem fate (h : Rounds program i a instr n m) {count : Nat}
    (hmark : m.marks[i]? = some (some (a, cycleOf instr count))) {now : Nat} {stepped : Stepped}
    (hs : step? { now } m = some stepped) : Fate i a instr count m stepped.machine := by
  obtain ⟨hw, rfl⟩ := h.reachable.wellScoped
  exact (step?_turn hw hs).fate hw h.trigger.1 h.trigger.2 hmark

/-- The base is a frame that was not there before only if it is the new scope of the trigger that
was executed. -/
theorem mark_opened {now : Nat} {stepped : Stepped} (hr : Reachable program m)
    (hi : m.stack.length = i) (hip : m.registers.ip = a) (hd : program.decode a = .ok instr)
    (hs : step? { now } m = some stepped) (hb : stepped.machine.registers.bsp = i) :
    stepped.machine.marks[i]? = some (some (a, cycleOf instr 0)) := by
  obtain ⟨hw, rfl⟩ := hr.wellScoped
  have hbsp := hw.bsp_lt
  have hbsp' : stepped.machine.registers.bsp < stepped.machine.marks.length := by
    rw [length_marks]
    exact (step?_sane hw hs).1.bsp_lt
  have hlen := m.length_marks
  cases step?_turn hw hs with
  | goesOn _ hk =>
    have hsame := hk.bsp
    omega
  | @opens a' instr' hip' hd' _ _ _ _ hm =>
    obtain rfl : a = a' := Int.ofNat_inj.mp (hip.symm.trans hip')
    cases hd.symm.trans hd'
    rw [hm, ← hi, ← hlen]
    exact List.getElem?_concat_length
  | repeats _ _ _ _ hm =>
    rw [hm, List.length_modify] at hbsp'
    omega
  | closes _ _ _ hm =>
    rw [hm, List.length_take] at hbsp'
    omega

/-- The scope counts the rounds, of which it is in the last one that has begun. -/
theorem mark (h : Rounds program i a instr n m) :
    ∃ count, n = count + 1 ∧ m.marks[i]? = some (some (a, cycleOf instr count)) := by
  induction h with
  | opened now hr hi hip hd hop hs hb _ => exact ⟨0, rfl, mark_opened hr hi hip hd hs hb⟩
  | @jumps n m stepped now hrounds hs hlt hb hip hip' ih =>
    obtain ⟨count, rfl, hmark⟩ := ih
    cases hrounds.fate hmark hs with
    | closed _ _ _ hlen => omega
    | renewed _ _ _ _ hmark' => exact ⟨count + 1, rfl, hmark'⟩
    | spared hnot _ => exact absurd ⟨hb, hip⟩ hnot
  | @passes n m stepped now hrounds hs hlt hnot ih =>
    obtain ⟨count, rfl, hmark⟩ := ih
    cases hrounds.fate hmark hs with
    | closed _ _ _ hlen => omega
    | renewed hb hip _ hip' _ => exact absurd ⟨hb, hip, hip'⟩ hnot
    | spared _ hmark' => exact ⟨count, rfl, hmark'⟩

end Rounds

/-- Every scope has been opened by its trigger. -/
theorem Reachable.exists_rounds (h : Reachable program m) {mark : Nat × Cycle}
    (hmark : m.marks[i]? = some (some mark)) : ∃ instr n, Rounds program i mark.1 instr n m := by
  induction h generalizing mark with
  | start => cases i <;> simp [marks, scoping, Machine.start] at hmark
  | @step m stepped now hr hs ih =>
    obtain ⟨hw, rfl⟩ := hr.wellScoped
    rcases (step?_turn hw hs).before hmark with
      ⟨cycle, hmark'⟩ | ⟨instr, hi, hip, hd, hop, hb, hip'⟩
    · obtain ⟨instr, n, hrounds⟩ := ih hmark'
      exact ⟨instr, hrounds.extend hs (lt_length_of_mark hmark)⟩
    · exact ⟨instr, 1, .opened now hr hi hip hd hop hs hb hip'⟩

/-- Every scope on the stack has been opened by its trigger. It is closed by the step that executes
the trigger with this scope as the base after as many rounds as the trigger has tags, at least one,
and by no other step. Scopes are closed in the reverse of the order in which they were opened. -/
theorem rounds_once_per_tag (program : Program) :
    (∀ m i frame s, Reachable program m → m.stack[i]? = some frame → frame.scope = some s →
      ∃ instr n, Rounds program i s.address instr n m) ∧
    (∀ i a instr n m, Rounds program i a instr n m →
      (∃ frame s, m.stack[i]? = some frame ∧ frame.scope = some s ∧ s.address = a ∧
        s.cycle.count + 1 = n) ∧
      n ≤ max 1 instr.tags.length ∧
      ∀ now stepped, step? { now } m = some stepped →
        (stepped.machine.stack.length ≤ i ↔
          m.registers.bsp = i ∧ m.registers.ip = a ∧ n = max 1 instr.tags.length)) ∧
    ∀ m now stepped, Reachable program m → step? { now } m = some stepped →
      places stepped.machine.scoping = places m.scoping ∨
        places stepped.machine.scoping = places m.scoping ++ [m.stack.length] ∨
        places m.scoping = places stepped.machine.scoping ++ [m.registers.bsp] := by
  refine ⟨fun m i frame s hr hf hs => ?_, fun i a instr n m h => ?_, fun m now stepped hr hs => ?_⟩
  · have hmark : m.marks[i]? = some (some (s.address, s.cycle)) :=
      (m.getElem?_marks i).mpr ⟨s, by rw [getElem?_scoping, hf, Option.map_some, hs], rfl, rfl⟩
    exact hr.exists_rounds hmark
  · obtain ⟨count, rfl, hmark⟩ := h.mark
    obtain ⟨s, hs, ha, hc⟩ := (m.getElem?_marks i).mp hmark
    have hlt : count < max instr.tags.length 1 := by
      have hfits := (h.reachable.wellScoped.1.fits s (List.mem_of_getElem? hs)).count_lt
      rwa [hc] at hfits
    have hframe := hs
    rw [getElem?_scoping] at hframe
    obtain ⟨frame, hf, hscope⟩ := Option.map_eq_some_iff.mp hframe
    refine ⟨⟨frame, s, hf, hscope, ha, by rw [hc]; rfl⟩, by omega, fun now stepped hstep => ?_⟩
    cases h.fate hmark hstep with
    | closed hb hip hge hlen => exact ⟨fun _ => ⟨hb, hip, by omega⟩, fun _ => Nat.le_of_eq hlen⟩
    | renewed _ _ hmore _ hmark' =>
      have hi := lt_length_of_mark hmark'
      exact ⟨fun hle => by omega, fun hdone => by omega⟩
    | spared hnot hmark' =>
      have hi := lt_length_of_mark hmark'
      exact ⟨fun hle => by omega, fun hdone => absurd ⟨hdone.1, hdone.2.1⟩ hnot⟩
  · have hw := hr.wellScoped.1
    exact (step?_turn hw hs).places_eq hw

/-- A trigger with two tags, and another one in its body. -/
def encore : Program :=
  { entry := 0
    symbols := []
    text := ["#day", "#night"]
    code :=
      [(0, { op := .trigger, next := [1, -1], bodyEnd := some 2,
             tags := [{ root := 0, kind := .hashtag, segments := [] },
               { root := 1, kind := .hashtag, segments := [] }] }),
        (1, { op := .trigger, next := [1, 0] })] }

/-- The sixth step closes the inner scope for the second time, and the seventh one the outer scope
after two rounds. -/
theorem rounds_once_per_tag_encore :
    let m := Machine.steps {} 6 (start encore)
    places m.scoping = [1] ∧ (Machine.steps {} 7 (start encore)).stack.length = 1 ∧
      ∃ instr, instr.tags.length = 2 ∧ Rounds encore 1 0 instr 2 m := by
  intro m
  obtain ⟨hopened, hclosed, _⟩ := rounds_once_per_tag encore
  have hr : Reachable encore m := Reachable.start.steps 0 6
  have hscope : (m.stack[1]?.bind Frame.scope).map Scope.address = some 0 := by decide +kernel
  obtain ⟨s, hs, ha⟩ := Option.map_eq_some_iff.mp hscope
  obtain ⟨frame, hf, hs⟩ := Option.bind_eq_some_iff.mp hs
  obtain ⟨instr, n, hrounds⟩ := hopened m 1 frame s hr hf hs
  rw [ha] at hrounds
  have htags : (encore.decode 0).toOption.map (·.tags.length) = some 2 := by decide +kernel
  have hlen : instr.tags.length = 2 := by
    rw [show encore.decode 0 = .ok instr from hrounds.trigger.1] at htags
    exact Option.some.inj htags
  have hlast : (step? {} m).map (·.machine.stack.length) = some 1 := by decide +kernel
  obtain ⟨stepped, hstep, hone⟩ := Option.map_eq_some_iff.mp hlast
  obtain ⟨_, _, hn⟩ := ((hclosed 1 0 instr n m hrounds).2.2 0 stepped hstep).mp (Nat.le_of_eq hone)
  rw [hlen] at hn
  obtain rfl : n = 2 := hn
  exact ⟨by decide +kernel, by decide +kernel, instr, hlen, hrounds⟩

end Runs

end Machine

end GlyphScript
