import GlyphScript.Proofs.Machine.Reachable

/-! # Single steps

Where a step goes and what it does to the open scopes, for each operation. A machine whose next
instruction is missing has halted, so an address and the scopes tell all that matters to the steps
that follow.
-/

namespace GlyphScript.Machine

/-- A machine is about to execute the instruction at an address, or has halted if there is none. -/
structure Stands (program : Program) (m : Machine) (x : Address) (scopes : List Scope) : Prop where
  wellScoped : m.WellScoped
  program_eq : m.program = program
  ip : m.registers.ip = x
  status : m.registers.status = if program.isAddress x then .running else .halted
  scopes_eq : m.scopes = scopes

/-- A machine in the middle of a step, about to go to an address or already sent there. -/
structure Works (program : Program) (m : Machine) (x : Address) (jumped : Bool)
    (scopes : List Scope) : Prop where
  wellScoped : m.WellScoped
  control_eq : m.control = ⟨program, x, .running, jumped, scopes⟩

def StepsTo (now : Nat) (program : Program) (m : Machine) (x : Address) (scopes : List Scope) :
    Prop :=
  ∃ stepped, step? { now } m = some stepped ∧ Stands program stepped.machine x scopes

/-- Where an instruction that does not jump goes on. -/
def onward (a : Nat) (instr : Instruction String) (scopes : List Scope) (succeeded : Bool) :
    Address :=
  (pending scopes a).getD ((early scopes a succeeded).getD instr.first)

def executing (scopes : List Scope) : List Scope :=
  scopes.modifyHead fun s => { s with isExecuting := true }

/-- Whether an instruction visits its tags: one that speaks or signals does, and an inheriting link
inside a scope. -/
def Visits (instr : Instruction String) (inside : Bool) : Prop :=
  instr.op = .speech ∨ instr.op = .signal ∨
    instr.op = .link ∧ linkMode instr = "Inheritance" ∧ inside = true

/-- An anchor skips its body if it has a condition that does not hold. -/
def shut (m : Machine) (instr : Instruction String) : Bool :=
  match instr.param? "condition" with
  | some condition => !Value.holds (evaluate m.view condition)
  | none => false

theorem anchor_eq (m : Machine) (here : Located) :
    m.anchor here = if m.shut here.instr then ⟨m.jump here.instr.second, none⟩ else ⟨m, none⟩ := by
  cases hc : here.instr.param? "condition" with
  | none => simp only [anchor, shut, hc, Bool.false_eq_true, if_false]
  | some condition =>
    cases hv : Value.holds (evaluate m.view condition) with
    | false =>
      simp only [anchor, shut, hc, hv, Bool.not_false, Bool.false_eq_true, if_true, if_false]
    | true => simp only [anchor, shut, hc, hv, Bool.not_true, Bool.false_eq_true, if_true, if_false]

structure Scope.Fresh (a : Nat) (instr : Instruction String) (count : Nat) (s : Scope) : Prop where
  address : s.address = a
  cycle : s.cycle =
    { count, maxim := max instr.tags.length 1, start := instr.first, ret := instr.second }
  cursors : s.cursors = []
  detour : s.detour = none

namespace Works

variable {program : Program} {m : Machine} {x : Address} {jumped : Bool} {scopes : List Scope}

theorem program_eq (h : Works program m x jumped scopes) : m.program = program :=
  congrArg Control.program h.control_eq

theorem ip (h : Works program m x jumped scopes) : m.registers.ip = x :=
  congrArg Control.ip h.control_eq

theorem status (h : Works program m x jumped scopes) : m.registers.status = .running :=
  congrArg Control.status h.control_eq

theorem jumped_eq (h : Works program m x jumped scopes) : m.jumped = jumped :=
  congrArg Control.jumped h.control_eq

theorem scopes_eq (h : Works program m x jumped scopes) : m.scopes = scopes :=
  congrArg Control.scopes h.control_eq

theorem scope?_eq (h : Works program m x jumped scopes) : m.scope? = scopes.head? := by
  rw [h.wellScoped.scope?_eq_head?, h.scopes_eq]

theorem jump (h : Works program m x jumped scopes) (y : Address) :
    Works program (m.jump y) y true scopes :=
  ⟨h.wellScoped.jump y, by rw [control_jump, h.control_eq]⟩

end Works

theorem stands_start {program : Program} (h : program.isAddress program.entry) :
    Stands program (start program) program.entry [] :=
  ⟨⟨.root, rfl, by simp [scoping, start]⟩, rfl, rfl, by rw [if_pos h]; rfl, rfl⟩

namespace Stands

variable {program : Program} {m : Machine} {x : Address} {scopes : List Scope}

theorem of_control (hw : m.WellScoped) {status : Status} {jumped : Bool}
    (hc : m.control = ⟨program, x, status, jumped, scopes⟩)
    (hs : status = if program.isAddress x then .running else .halted) : Stands program m x scopes :=
  ⟨hw, congrArg Control.program hc, congrArg Control.ip hc, (congrArg Control.status hc).trans hs,
    congrArg Control.scopes hc⟩

theorem isRunning (h : Stands program m x scopes) : m.isRunning = program.isAddress x := by
  rw [Machine.isRunning, h.status]
  cases program.isAddress x <;> rfl

/-- The handler starts with the control as it is, and the step follows from its effect. -/
theorem handles {a : Nat} {instr : Instruction String} (h : Stands program m a scopes)
    (hd : program.decode a = .ok instr) (now : Nat) :
    Works program { m with jumped := false } a false scopes ∧
      step? { now } m =
        some (.after ⟨a, instr⟩ (handle { now } { m with jumped := false } ⟨a, instr⟩)) := by
  obtain ⟨raw, hf, _⟩ := Program.decode_eq_ok hd
  have ha : program.isAddress a := by
    rw [Program.isAddress, hf]
    rfl
  have hdecode : m.decode m.registers.ip = .ok ⟨a, instr⟩ := by
    rw [h.ip, Machine.decode, h.program_eq, hd]
    rfl
  refine ⟨⟨h.wellScoped.congr rfl rfl rfl rfl, ?_⟩, ?_⟩
  · ext1
    · exact h.program_eq
    · exact h.ip
    · exact h.status.trans (if_pos ha)
    · rfl
    · exact h.scopes_eq
  · obtain ⟨stepped, hs⟩ :=
      exists_step? { now } (h.isRunning.trans ha) (by rw [h.program_eq, h.ip, ha])
    rw [hs]
    rcases step?_eq_some hs with ⟨e, target, hfail, _⟩ | ⟨here, hok, rfl⟩
    · rw [hdecode] at hfail
      cases hfail
    · rw [hdecode] at hok
      cases hok
      rfl

theorem handled {a : Nat} {instr : Instruction String} (h : Stands program m a scopes)
    (hd : program.decode a = .ok instr) (now : Nat) :
    ∃ m₀ : Machine, Works program m₀ a false scopes ∧
      step? { now } m = some (.after ⟨a, instr⟩ (handle { now } m₀ ⟨a, instr⟩)) :=
  ⟨_, h.handles hd now⟩

end Stands

namespace StepsTo

variable {program : Program} {m : Machine} {x : Address} {scopes : List Scope} {a now : Nat}
  {instr : Instruction String} {effect effect' : Effect}

/-- A handler that jumps decides where to go. -/
theorem of_jump (hs : step? { now } m = some (.after ⟨a, instr⟩ effect)) (he : effect = effect')
    (h : Works program effect'.machine x true scopes) : StepsTo now program m x scopes := by
  subst he
  have hcontrol := control_goTo effect.machine x
  rw [h.control_eq, h.program_eq, h.status] at hcontrol
  refine ⟨_, hs, ?_⟩
  rw [Stepped.after, if_pos h.jumped_eq, h.ip]
  exact .of_control (h.wellScoped.goTo x) hcontrol rfl

/-- After a handler that does not jump the machine goes on. -/
theorem of_stay (hs : step? { now } m = some (.after ⟨a, instr⟩ effect)) (he : effect = effect')
    (h : Works program effect'.machine a false scopes) {succeeded : Bool}
    (hok : effect'.error.isNone = succeeded) :
    StepsTo now program m (onward a instr scopes succeeded) (settled scopes a) := by
  subst he hok
  obtain ⟨hgo, hcontrol⟩ := goOn_spec h.wellScoped ⟨a, instr⟩ effect.error.isNone rfl
  rw [h.control_eq, h.scopes_eq, h.program_eq, h.status] at hcontrol
  refine ⟨_, hs, ?_⟩
  rw [Stepped.after, if_neg (by rw [h.jumped_eq]; exact Bool.false_ne_true)]
  exact .of_control hgo hcontrol rfl

end StepsTo

namespace Stands

variable {program : Program} {m : Machine} {x : Address} {scopes : List Scope} {a now : Nat}
  {instr : Instruction String}

/-! ## Context and unknown glyphs -/

theorem describes (h : Stands program m a scopes) (hd : program.decode a = .ok instr)
    {kind : Context} (hop : instr.op = .context kind) (hid : instr.id.isSome) :
    StepsTo now program m (onward a instr (executing scopes) true)
      (settled (executing scopes) a) := by
  obtain ⟨id, hid⟩ := Option.isSome_iff_exists.mp hid
  obtain ⟨m₀, hm, hs⟩ := h.handled hd now
  obtain ⟨he, hw, hc⟩ := describe_spec hm.wellScoped ⟨a, instr⟩ hid
  rw [hm.control_eq, hm.scopes_eq] at hc
  exact .of_stay hs (by rw [handle, hop]) ⟨hw, hc⟩ (by rw [he]; rfl)

/-- Without an identifier nothing is described. -/
theorem describes_nothing (h : Stands program m a scopes) (hd : program.decode a = .ok instr)
    {kind : Context} (hop : instr.op = .context kind) (hid : instr.id = none) :
    StepsTo now program m (onward a instr scopes false) (settled scopes a) := by
  obtain ⟨m₀, hm, hs⟩ := h.handled hd now
  have he : handle { now } m₀ ⟨a, instr⟩ = ⟨m₀, some (.missingId instr.op a)⟩ := by
    simp only [handle, hop, describe, hid]
  exact .of_stay hs he hm rfl

theorem ignores (h : Stands program m a scopes) (hd : program.decode a = .ok instr) {glyph : String}
    (hop : instr.op = .unknown glyph) :
    StepsTo now program m (onward a instr scopes true) (settled scopes a) := by
  obtain ⟨m₀, hm, hs⟩ := h.handled hd now
  have he : handle { now } m₀ ⟨a, instr⟩ = ⟨m₀, none⟩ := by
    simp only [handle, hop]
  exact .of_stay hs he hm rfl

/-! ## Triggers -/

theorem opens (now : Nat) (h : Stands program m a scopes) (hd : program.decode a = .ok instr)
    (hop : instr.op = .trigger) (hout : ∀ s ∈ scopes.head?, s.address ≠ a) :
    ∃ s, Scope.Fresh a instr 0 s ∧ StepsTo now program m instr.first (s :: scopes) := by
  obtain ⟨m₀, hm, hs⟩ := h.handled hd now
  obtain ⟨raw, hf, hr⟩ := Program.decode_eq_ok hd
  obtain ⟨hw, hc⟩ := enter_spec hm.wellScoped ⟨a, instr⟩ (hm.program_eq ▸ hf) hr (hr.op ▸ hop)
  rw [hm.control_eq, hm.scopes_eq] at hc
  have he : handle { now } m₀ ⟨a, instr⟩ = ⟨m₀.enter ⟨a, instr⟩, none⟩ := by
    simp only [handle, hop, trigger, hm.scope?_eq]
    cases hhead : scopes.head? with
    | none => rfl
    | some s => exact if_neg (hout s hhead)
  exact ⟨m₀.opened ⟨a, instr⟩, ⟨rfl, rfl, rfl, rfl⟩, .of_jump hs he ⟨hw, hc⟩⟩

theorem repeats {s : Scope} {rest : List Scope} (h : Stands program m a (s :: rest))
    (hd : program.decode a = .ok instr) (hop : instr.op = .trigger) (ha : s.address = a)
    (hcount : s.cycle.count + 1 < s.cycle.maxim) :
    StepsTo now program m s.cycle.start (s.renew :: rest) := by
  obtain ⟨m₀, hm, hs⟩ := h.handled hd now
  obtain ⟨hw, hc⟩ := again_spec hm.wellScoped hm.scope?_eq hcount
  rw [hm.control_eq, hm.scopes_eq] at hc
  have he : handle { now } m₀ ⟨a, instr⟩ = ⟨m₀.again s, none⟩ := by
    simp only [handle, hop, trigger, hm.scope?_eq, List.head?_cons, ha, hcount, if_true]
  exact .of_jump hs he ⟨hw, hc⟩

theorem closes {s : Scope} {rest : List Scope} (h : Stands program m a (s :: rest))
    (hd : program.decode a = .ok instr) (hop : instr.op = .trigger) (ha : s.address = a)
    (hcount : ¬ s.cycle.count + 1 < s.cycle.maxim) :
    StepsTo now program m ((pending rest a).getD s.cycle.ret) (settled rest a) := by
  obtain ⟨m₀, hm, hs⟩ := h.handled hd now
  obtain ⟨_, hw, hc⟩ := leave_spec hm.wellScoped hm.scope?_eq ⟨a, instr⟩
  rw [hm.control_eq, hm.scopes_eq] at hc
  have he : handle { now } m₀ ⟨a, instr⟩ = m₀.leave ⟨a, instr⟩ := by
    simp only [handle, hop, trigger, hm.scope?_eq, List.head?_cons, ha, hcount, if_true, if_false]
  exact .of_jump hs he ⟨hw, hc⟩

/-! ## Anchors -/

theorem skips (h : Stands program m a scopes) (hd : program.decode a = .ok instr)
    (hop : instr.op = .anchor) (hshut : m.shut instr = true) :
    StepsTo now program m instr.second scopes := by
  obtain ⟨hm, hs⟩ := h.handles hd now
  have he : handle { now } { m with jumped := false } ⟨a, instr⟩ =
      ⟨{ m with jumped := false }.jump instr.second, none⟩ := by
    simp only [handle, hop, anchor_eq]
    exact if_pos hshut
  exact .of_jump hs he (hm.jump _)

theorem doesNotSkip (h : Stands program m a scopes) (hd : program.decode a = .ok instr)
    (hop : instr.op = .anchor) (hshut : m.shut instr = false) :
    StepsTo now program m (onward a instr scopes true) (settled scopes a) := by
  obtain ⟨hm, hs⟩ := h.handles hd now
  have he : handle { now } { m with jumped := false } ⟨a, instr⟩ =
      ⟨{ m with jumped := false }, none⟩ := by
    simp only [handle, hop, anchor_eq]
    exact if_neg (Bool.eq_false_iff.mp hshut)
  exact .of_stay hs he hm rfl

theorem chooses (h : Stands program m a scopes) (hd : program.decode a = .ok instr)
    (hop : instr.op = .anchor) :
    StepsTo now program m (onward a instr scopes true) (settled scopes a) ∨
      StepsTo now program m instr.second scopes := by
  cases hshut : m.shut instr with
  | false => exact .inl (h.doesNotSkip hd hop hshut)
  | true => exact .inr (h.skips hd hop hshut)

/-! ## Visits -/

theorem handles_visit (now : Nat) (hv : Visits instr (!scopes.isEmpty)) {m₀ : Machine}
    (hm : Works program m₀ a false scopes) :
    (handle { now } m₀ ⟨a, instr⟩).error = none ∧
    (handle { now } m₀ ⟨a, instr⟩).machine.WellScoped ∧
      (handle { now } m₀ ⟨a, instr⟩).machine.control = (m₀.visit ⟨a, instr⟩).1.control := by
  rcases hv with hop | hop | ⟨hop, hmode, hinside⟩
  · rw [handle, hop]
    exact speak_spec now hm.wellScoped ⟨a, instr⟩
  · rw [handle, hop]
    exact signal_spec now hm.wellScoped ⟨a, instr⟩
  · obtain ⟨s, rest, rfl⟩ : ∃ s rest, scopes = s :: rest :=
      List.exists_cons_of_ne_nil fun hnil => by simp [hnil] at hinside
    have he : handle { now } m₀ ⟨a, instr⟩ = ⟨(m₀.visit ⟨a, instr⟩).1, none⟩ := by
      simp only [handle, hop, link, hmode, inherit, hm.scope?_eq, List.head?_cons, if_true]
    rw [he]
    exact ⟨rfl, (visit_spec hm.wellScoped ⟨a, instr⟩).1, rfl⟩

theorem departs (h : Stands program m a scopes) (hd : program.decode a = .ok instr)
    (hv : Visits instr (!scopes.isEmpty)) {scopes' : List Scope}
    (ht : visited program ⟨a, instr⟩ scopes = (some x, scopes')) :
    StepsTo now program m x scopes' := by
  obtain ⟨m₀, hm, hs⟩ := h.handled hd now
  obtain ⟨_, hw, hc⟩ := handles_visit now hv hm
  obtain ⟨_, _, hvisit⟩ := visit_spec hm.wellScoped ⟨a, instr⟩
  rw [hm.program_eq, hm.scopes_eq, ht, hm.control_eq, hm.jumped_eq] at hvisit
  exact .of_jump hs rfl ⟨hw, hc.trans hvisit⟩

theorem hasVisited (h : Stands program m a scopes) (hd : program.decode a = .ok instr)
    (hv : Visits instr (!scopes.isEmpty)) {scopes' : List Scope}
    (ht : visited program ⟨a, instr⟩ scopes = (none, scopes')) :
    StepsTo now program m (onward a instr scopes' true) (settled scopes' a) := by
  obtain ⟨m₀, hm, hs⟩ := h.handled hd now
  obtain ⟨he, hw, hc⟩ := handles_visit now hv hm
  obtain ⟨_, _, hvisit⟩ := visit_spec hm.wellScoped ⟨a, instr⟩
  rw [hm.program_eq, hm.scopes_eq, ht, hm.control_eq, hm.jumped_eq, hm.ip] at hvisit
  exact .of_stay hs rfl ⟨hw, hc.trans hvisit⟩ (by rw [he]; rfl)

/-! ## Links -/

theorem goesBack {s : Scope} {rest : List Scope} (h : Stands program m a (s :: rest))
    (hd : program.decode a = .ok instr) (hop : instr.op = .link) (hmode : linkMode instr = "Return")
    (ha : s.address ≠ a) : StepsTo now program m s.address (s :: rest) := by
  obtain ⟨m₀, hm, hs⟩ := h.handled hd now
  have haway : (s.address : Address) ≠ m₀.registers.ip := by
    rw [hm.ip]
    exact fun heq => ha (Int.ofNat_inj.mp heq)
  have he : handle { now } m₀ ⟨a, instr⟩ = ⟨m₀.jump s.address, none⟩ := by
    simp only [handle, hop, link, hmode, String.reduceEq, if_false, if_true, goBack, hm.scope?_eq,
      List.head?_cons]
    exact if_pos haway
  exact .of_jump hs he (hm.jump _)

/-- A link fails without a scope, and if its mode is neither of the two. -/
theorem failsToLink (h : Stands program m a scopes) (hd : program.decode a = .ok instr)
    (hop : instr.op = .link)
    (hl : scopes = [] ∨ linkMode instr ≠ "Inheritance" ∧ linkMode instr ≠ "Return") :
    StepsTo now program m (onward a instr scopes false) (settled scopes a) := by
  obtain ⟨m₀, hm, hs⟩ := h.handled hd now
  obtain ⟨e, he⟩ : ∃ e, m₀.link ⟨a, instr⟩ = ⟨m₀, some e⟩ := by
    rcases hl with hnil | ⟨hi, hr⟩
    · have hscope : m₀.scope? = none := by
        rw [hm.scope?_eq, hnil]
        rfl
      unfold link
      dsimp only
      split
      · exact ⟨_, by rw [inherit, hscope]⟩
      · split
        · exact ⟨_, by rw [goBack, hscope]⟩
        · exact ⟨_, rfl⟩
    · exact ⟨_, by rw [link, if_neg hi, if_neg hr]⟩
  have heffect : handle { now } m₀ ⟨a, instr⟩ = ⟨m₀, some e⟩ := by simp only [handle, hop, he]
  exact .of_stay hs heffect hm rfl

end Stands

end GlyphScript.Machine
