import GlyphScript.Proofs.Machine.Handlers

/-! # Reachable machines

In every state that a machine can reach without added handlers, the scopes on the stack are chained
by their parents from the base down to the root frame, and each of them fits its trigger. So no
handler ever finds the stack broken.
-/

namespace GlyphScript

/-- Whether an error says that the stack is broken; all other errors are about an instruction. -/
def MachineError.isFault : MachineError → Bool
  | baseMissing _ | parentMissing _ _ | custom _ => true
  | _ => false

/-- The errors of an instruction that asks for what it cannot have. All of them name its address. -/
inductive MachineError.Blames (here : Located) : MachineError → Prop where
  | missingId : here.instr.id = none → Blames here (.missingId here.instr.op here.address)
  | unknownMode : Machine.linkMode here.instr ≠ "Inheritance" →
      Machine.linkMode here.instr ≠ "Return" →
      Blames here (.unknownMode (Machine.linkMode here.instr) here.address)
  | rogueInheritance : Machine.linkMode here.instr = "Inheritance" →
      Blames here (.rogueInheritance here.address)
  | rogueReturn : Machine.linkMode here.instr = "Return" → Blames here (.rogueReturn here.address)

theorem MachineError.Blames.isFault {here : Located} {e : MachineError} (h : e.Blames here) :
    e.isFault = false := by
  cases h <;> rfl

namespace Machine

/-- The states of a machine that runs a program from its entry, whatever the clock shows at each
step. -/
inductive Reachable (program : Program) : Machine → Prop where
  | start : Reachable program (start program)
  | step {m : Machine} {stepped : Stepped} (now : Nat) : Reachable program m →
      step? { now } m = some stepped → Reachable program stepped.machine

/-- What every handler keeps: the chain of scopes, the program and the status. It fails only for
want of what its instruction asks for. -/
structure Sane (m : Machine) (here : Located) (effect : Effect) : Prop where
  wellScoped : effect.machine.WellScoped
  program : effect.machine.program = m.program
  status : effect.machine.registers.status = m.registers.status
  blames : ∀ e, effect.error = some e → e.Blames here

variable {program : Program} {m : Machine} {here : Located}

namespace Sane

theorem of_control {effect : Effect} (hm : effect.machine.WellScoped)
    (hp : effect.machine.control.program = m.control.program)
    (hs : effect.machine.control.status = m.control.status) (he : effect.error = none) :
    Sane m here effect :=
  ⟨hm, hp, hs, fun e h => by simp [he] at h⟩

theorem of_error (h : m.WellScoped) {e : MachineError} (he : e.Blames here) :
    Sane m here ⟨m, some e⟩ :=
  ⟨h, rfl, rfl, fun e' h' => by cases h'; exact he⟩

theorem of_jump (h : m.WellScoped) (target : Address) : Sane m here ⟨m.jump target, none⟩ :=
  of_control (h.jump target) rfl rfl rfl

theorem refl (h : m.WellScoped) : Sane m here ⟨m, none⟩ := of_control h rfl rfl rfl

end Sane

theorem describe_sane (h : m.WellScoped) : Sane m here (m.describe here) := by
  cases hid : here.instr.id with
  | none =>
    rw [describe, hid]
    exact .of_error h (.missingId hid)
  | some id =>
    obtain ⟨he, hm, hc⟩ := describe_spec h here hid
    exact .of_control hm (by rw [hc]) (by rw [hc]) he

theorem trigger_sane (h : m.WellScoped) {raw : Instruction TextId}
    (hf : m.program.fetch? here.address = some raw) (hr : raw.SameShape here.instr)
    (hop : raw.op = .trigger) : Sane m here (m.trigger here) := by
  have henter : Sane m here ⟨m.enter here, none⟩ := by
    obtain ⟨hm, hc⟩ := enter_spec h here hf hr hop
    exact .of_control hm (by rw [hc]) (by rw [hc]) rfl
  unfold trigger
  split
  · next scope hs =>
    split
    · split
      · next hlt =>
        obtain ⟨hm, hc⟩ := again_spec h hs hlt
        exact .of_control hm (by rw [hc]) (by rw [hc]) rfl
      · obtain ⟨he, hm, hc⟩ := leave_spec h hs here
        exact .of_control hm (by rw [hc]) (by rw [hc]) he
    · exact henter
  · exact henter

theorem anchor_sane (h : m.WellScoped) : Sane m here (m.anchor here) := by
  unfold anchor
  split
  · exact .refl h
  · split
    · exact .refl h
    · exact .of_jump h _

theorem visit_sane (h : m.WellScoped) (here : Located) : Sane m here ⟨(m.visit here).1, none⟩ := by
  obtain ⟨hm, _, hc⟩ := visit_spec h here
  exact .of_control hm (by rw [hc]) (by rw [hc]) rfl

theorem link_sane (h : m.WellScoped) : Sane m here (m.link here) := by
  unfold link
  dsimp only
  split
  · next hi =>
    unfold inherit
    split
    · exact visit_sane h here
    · exact .of_error h (.rogueInheritance hi)
  · next hi =>
    split
    · next hr =>
      unfold goBack
      split
      · split
        · exact .of_jump h _
        · exact .of_error h (.rogueReturn hr)
      · exact .of_error h (.rogueReturn hr)
    · next hr => exact .of_error h (.unknownMode hi hr)

theorem handle_sane (host : Host) (h : m.WellScoped) {raw : Instruction TextId}
    (hf : m.program.fetch? here.address = some raw) (hr : raw.SameShape here.instr) :
    Sane m here (handle host m here) := by
  have hv := visit_sane h here
  unfold handle
  split
  · exact describe_sane h
  · next hop => exact trigger_sane h hf hr (hr.op ▸ hop)
  · exact anchor_sane h
  · exact link_sane h
  · obtain ⟨he, hm, hc⟩ := speak_spec host.now h here
    exact .of_control hm (by rw [hc]; exact hv.program) (by rw [hc]; exact hv.status) he
  · obtain ⟨he, hm, hc⟩ := signal_spec host.now h here
    exact .of_control hm (by rw [hc]; exact hv.program) (by rw [hc]; exact hv.status) he
  · exact .refl h

def Stepped.after (here : Located) (effect : Effect) : Stepped where
  machine :=
    if effect.machine.jumped then effect.machine.goTo effect.machine.registers.ip
    else effect.machine.goOn here effect.error.isNone
  logged := effect.error

/-- A step either cannot decode its instruction and skips it, or lets the handler work and goes on
from there. -/
theorem step?_eq_some {now : Nat} {stepped : Stepped} (h : step? { now } m = some stepped) :
    (∃ e target, m.decode m.registers.ip = .error e ∧ stepped = ⟨m.goTo target, some e⟩) ∨
      ∃ here, m.decode m.registers.ip = .ok here ∧
        stepped = .after here (handle { now } { m with jumped := false } here) := by
  unfold step? at h
  split at h
  · cases h
  · split at h
    · cases h
    · next raw hf =>
      split at h
      · next e hd => exact Or.inl ⟨e, raw.first, hd, (Option.some.inj h).symm⟩
      · next here hd =>
        refine Or.inr ⟨here, hd, ?_⟩
        have he : execute { now } { m with jumped := false } here =
            handle { now } { m with jumped := false } here := rfl
        simp only [he] at h
        split at h
        · next hj =>
          obtain rfl := Option.some.inj h
          simp only [Stepped.after, hj, if_true]
          rfl
        · next hj =>
          obtain rfl := Option.some.inj h
          simp only [Stepped.after, hj]
          rfl

theorem isRunning_of_step? {host : Host} {stepped : Stepped} (hs : step? host m = some stepped) :
    m.isRunning := by
  by_cases hr : m.isRunning
  · exact hr
  · simp [step?, hr] at hs

theorem exists_step? (host : Host) (hr : m.isRunning) (ha : m.program.isAddress m.registers.ip) :
    ∃ stepped, step? host m = some stepped := by
  obtain ⟨raw, hf⟩ := Option.isSome_iff_exists.mp ha
  rw [step?, hr, hf]
  cases m.decode m.registers.ip with
  | error e => exact ⟨_, rfl⟩
  | ok here =>
    dsimp only
    split
    · next h => cases h
    · split
      · exact ⟨_, rfl⟩
      · exact ⟨_, rfl⟩

theorem decode_error_isFault {address : Address} {e : MachineError}
    (h : m.decode address = .error e) : e.isFault = false := by
  unfold decode at h
  split at h <;> cases h <;> rfl

/-- What a step keeps. -/
theorem step?_sane (h : m.WellScoped) {now : Nat} {stepped : Stepped}
    (hs : step? { now } m = some stepped) :
    stepped.machine.WellScoped ∧ stepped.machine.program = m.program ∧
      ∀ e, stepped.logged = some e → e.isFault = false := by
  have hprogram : ∀ (m : Machine) target, (m.goTo target).program = m.program :=
    fun m target => congrArg Control.program (control_goTo m target)
  rcases step?_eq_some hs with ⟨e, target, hd, rfl⟩ | ⟨here, hd, rfl⟩
  · exact ⟨h.goTo target, hprogram m target,
      fun e' he => by cases he; exact decode_error_isFault hd⟩
  · obtain ⟨raw, hf, hr, _⟩ := decode_eq_ok hd
    have hw : ({ m with jumped := false } : Machine).WellScoped := h.congr rfl rfl rfl rfl
    have heff := handle_sane { now } hw hf hr
    refine ⟨?_, ?_, fun e he => (heff.blames e he).isFault⟩
    · dsimp only [Stepped.after]
      split
      · exact heff.wellScoped.goTo _
      · exact (goOn_spec heff.wellScoped _ _ rfl).1
    · dsimp only [Stepped.after]
      split
      · exact (hprogram _ _).trans heff.program
      · exact (congrArg Control.program (goOn_spec heff.wellScoped _ _ rfl).2).trans heff.program

namespace Reachable

theorem wellScoped (h : Reachable program m) : m.WellScoped ∧ m.program = program := by
  induction h with
  | start => exact ⟨⟨.root, rfl, fun s hs => by simp [scoping, Machine.start] at hs⟩, rfl⟩
  | step now _ hs ih =>
    obtain ⟨hw, hp, _⟩ := step?_sane ih.1 hs
    exact ⟨hw, hp.trans ih.2⟩

theorem steps (h : Reachable program m) (now n : Nat) :
    Reachable program (Machine.steps { now } n m) := by
  induction n generalizing m with
  | zero => exact h
  | succ n ih =>
    unfold Machine.steps
    split
    · next stepped hs => exact ih (.step now h hs)
    · exact h

end Reachable

/-- The chain of scopes in every reachable state: the base is the topmost scope, each scope names
the next one below as its parent and fits its trigger, and no handler finds the stack broken. -/
theorem reachable_scopes (h : Reachable program m) :
    (∃ root rest, m.stack = root :: rest ∧ root.scope = none) ∧
      m.registers.esp = m.stack.length - 1 ∧
      TopmostScope m.scoping m.stack.length m.registers.bsp ∧
      (∀ i frame scope, m.stack[i]? = some frame → frame.scope = some scope →
        scope.parent < i ∧ TopmostScope m.scoping i scope.parent ∧ scope.Fits program) ∧
      m.base?.isSome ∧
      ∀ now stepped e, step? { now } m = some stepped → stepped.logged = some e →
        e.isFault = false := by
  obtain ⟨hw, rfl⟩ := h.wellScoped
  have hlen : m.scoping.length = m.stack.length := by simp [scoping]
  refine ⟨?_, hlen ▸ hw.esp, hlen ▸ hw.linked.topmost, ?_, hw.base?_isSome, fun now stepped e hs =>
    (step?_sane hw hs).2.2 e⟩
  · have hroot := hw.linked.root_none
    rw [getElem?_scoping] at hroot
    obtain ⟨root, hr, hn⟩ := Option.map_eq_some_iff.mp hroot
    cases hst : m.stack with
    | nil => simp [hst] at hr
    | cons frame rest =>
      obtain rfl : frame = root := by simpa [hst] using hr
      exact ⟨frame, rest, rfl, hn⟩
  · intro i frame scope hi hs
    have hl : m.scoping[i]? = some (some scope) := by rw [getElem?_scoping, hi, Option.map_some, hs]
    obtain ⟨hlt, htop⟩ := hw.linked.parent hl
    exact ⟨hlt, htop, hw.fits scope (List.mem_of_getElem? hl)⟩

def nestedTriggers : Program :=
  { entry := 0
    symbols := []
    text := []
    code := [(0, { op := .trigger, next := [1, -1] }), (1, { op := .trigger, next := [1, 0] })] }

theorem reachable_scopes_nested :
    let m := Machine.steps {} 2 (Machine.start nestedTriggers)
    Reachable nestedTriggers m ∧ m.registers.bsp = 2 ∧ m.scopes.map Scope.address = [1, 0] ∧
      TopmostScope m.scoping m.stack.length m.registers.bsp := by
  intro m
  have hr : Reachable nestedTriggers m := Reachable.start.steps 0 2
  exact ⟨hr, by decide, by decide, (reachable_scopes hr).2.2.1⟩

end Machine

end GlyphScript
