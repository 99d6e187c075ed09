import GlyphScript.Proofs.Machine.Footprint
import GlyphScript.Proofs.Program.Decoding

/-! # What handlers do to the control of a machine

The control of a machine is where it goes on and which scopes are open. Every handler keeps the
scopes chained, and its effect on the control depends on the control alone, but for the condition of
an anchor.
-/

namespace GlyphScript.Machine

@[ext] structure Control where
  program : Program
  ip : Address
  status : Status
  jumped : Bool
  scopes : List Scope

def control (m : Machine) : Control :=
  ⟨m.program, m.registers.ip, m.registers.status, m.jumped, m.scopes⟩

/-- Where a detour to an address comes back to, if the innermost scope is on one. -/
def pending (scopes : List Scope) (target : Address) : Option Address :=
  match scopes.head?.bind Scope.detour with
  | some detour => if detour.target = target then some detour.resume else none
  | none => none

def settled (scopes : List Scope) (target : Address) : List Scope :=
  if (pending scopes target).isSome then scopes.modifyHead fun s => { s with detour := none }
  else scopes

/-- The trigger to go back to, if the first instruction of its body has ended the cycle. -/
def early (scopes : List Scope) (address : Nat) (succeeded : Bool) : Option Address :=
  match scopes.head? with
  | some s => if succeeded ∧ s.address + 1 = address ∧ ¬ s.isExecuting then some s.address else none
  | none => none

def visited (program : Program) (here : Located) : List Scope → Option Address × List Scope
  | [] => (none, [])
  | s :: scopes =>
    let cursor := s.cursor here.address
    match nextTarget program here.address cursor (here.instr.tags.drop cursor) with
    | (cursor, none) => (none, s.setCursor here.address cursor :: scopes)
    | (cursor, some target) => (some target, s.depart here.address cursor target :: scopes)

variable {m m' : Machine} {here : Located}

theorem scopes_congr (h : m'.scoping = m.scoping) : m'.scopes = m.scopes := by
  rw [scopes, h, scopes]

theorem control_of_onlyData (h : OnlyData m m') : m'.control = m.control := by
  simp only [control, h.program, h.registers, h.jumped, scopes_congr h.scoping]

theorem control_modifyBase {f : Frame → Frame} (hf : ∀ frame, (f frame).scope = frame.scope) :
    (m.modifyBase f).control = m.control := by
  simp only [control, scopes_congr (scoping_modifyBase hf)]
  rfl

theorem scope?_of_base? {base : Frame} (h : m.base? = some base) : m.scope? = base.scope := by
  rw [scope?, h]
  rfl

namespace WellScoped

theorem modifyBase (h : m.WellScoped) {f : Frame → Frame}
    (hf : ∀ frame, (f frame).scope = frame.scope) : (m.modifyBase f).WellScoped :=
  h.congr rfl (scoping_modifyBase hf) rfl rfl

theorem control_modifyScope (h : m.WellScoped) (f : Scope → Scope) :
    (m.modifyScope f).control = { m.control with scopes := m.scopes.modifyHead f } := by
  simp only [control, h.scopes_modifyScope]
  rfl

theorem jump (h : m.WellScoped) (target : Address) : (m.jump target).WellScoped :=
  h.congr rfl rfl rfl rfl

theorem goTo (h : m.WellScoped) (target : Address) : (m.goTo target).WellScoped := by
  unfold Machine.goTo
  dsimp only
  split
  · exact h.congr rfl rfl rfl rfl
  · exact h.congr rfl rfl rfl rfl

end WellScoped

theorem control_jump (m : Machine) (target : Address) :
    (m.jump target).control = { m.control with ip := target, jumped := true } := rfl

theorem control_goTo (m : Machine) (target : Address) :
    (m.goTo target).control =
      { m.control with
        ip := target
        status := if m.program.isAddress target then m.registers.status else .halted } := by
  unfold goTo
  dsimp only
  by_cases h : m.program.isAddress target
  · simp [h, setIp, control, scopes, scoping]
  · simp [h, setIp, halt, control, scopes, scoping]

/-! ## Context -/

theorem describe_spec (h : m.WellScoped) (here : Located) {id : String}
    (hid : here.instr.id = some id) :
    (m.describe here).error = none ∧ (m.describe here).machine.WellScoped ∧
      (m.describe here).machine.control =
        { m.control with scopes :=
          m.scopes.modifyHead fun s => { s with isExecuting := true } } := by
  let pushed := m.push { data := [(id, .map (m.description here))] }
  let m' : Machine := { pushed with registers := { pushed.registers with esp := pushed.top } }
  have he : m.describe here = ⟨m'.modifyScope fun s => { s with isExecuting := true }, none⟩ := by
    simp only [describe, hid]
    rfl
  have hs : m'.scoping = m.scoping ++ [none] := scoping_push m _
  have hm : m'.WellScoped := by
    refine ⟨?_, ?_, ?_⟩
    · rw [hs]; exact h.linked.plain
    · simp [m', pushed, top, push, scoping]
    · intro s hmem
      rw [hs] at hmem
      exact h.fits s (by simpa using hmem)
  have hc : m'.control = m.control := by
    simp only [control, scopes, hs, openScopes_append]
    rfl
  have hl : m'.scopes = m.scopes := congrArg Control.scopes hc
  rw [he]
  exact ⟨rfl, hm.modifyScope (fun _ => rfl) fun _ _ hf => hf.congr rfl rfl,
    by rw [hm.control_modifyScope, hc, hl]⟩

/-! ## Triggers -/

theorem enter_spec (h : m.WellScoped) (here : Located) {raw : Instruction TextId}
    (hf : m.program.fetch? here.address = some raw) (hr : raw.SameShape here.instr)
    (hop : raw.op = .trigger) :
    (m.enter here).WellScoped ∧
      (m.enter here).control =
        { m.control with
          ip := here.instr.first, jumped := true, scopes := m.opened here :: m.scopes } := by
  let pushed := m.push { scope := some (m.opened here) }
  let m' : Machine :=
    { pushed with registers := { pushed.registers with bsp := pushed.top, esp := pushed.top } }
  obtain ⟨reach, he⟩ : ∃ reach, m.enter here = (m'.gather reach).jump here.instr.first := ⟨_, rfl⟩
  have hs : m'.scoping = m.scoping ++ [some (m.opened here)] := scoping_push m _
  have ht : pushed.top = m.scoping.length := by simp [pushed, top, push, scoping]
  have hfit : (m.opened here).Fits m.program := by
    have hlen := hr.length_tags
    refine ⟨by simp only [opened, Scope.ofTrigger]; omega, raw, hf, hop, ?_, hr.first, hr.second⟩
    simp only [opened, Scope.ofTrigger]
    omega
  have hm : m'.WellScoped := by
    refine ⟨?_, ?_, ?_⟩
    · rw [hs]
      change Linked _ pushed.top
      rw [ht]
      exact .scope h.linked
    · rw [hs]; simp [m', ht]
    · intro s hmem
      rw [hs] at hmem
      rcases List.mem_append.mp hmem with hmem | hmem
      · exact h.fits s hmem
      · obtain rfl : s = m.opened here := by simpa using hmem
        exact hfit
  have ho := gather_onlyData m' reach
  have hc : m'.control = { m.control with scopes := m.opened here :: m.scopes } := by
    simp only [control, scopes, hs, openScopes_append]
    rfl
  rw [he]
  exact ⟨(hm.of_onlyData ho).jump _, by rw [control_jump, control_of_onlyData ho, hc]⟩

theorem again_spec (h : m.WellScoped) {scope : Scope} (hs : m.scope? = some scope)
    (hc : scope.cycle.count + 1 < scope.cycle.maxim) :
    (m.again scope).WellScoped ∧
      (m.again scope).control =
        { m.control with
          ip := scope.cycle.start, jumped := true,
          scopes := m.scopes.modifyHead Scope.renew } := by
  have hm : (m.modifyScope Scope.renew).WellScoped := by
    refine h.modifyScope (fun _ => rfl) fun s hs' hf => ⟨?_, hf.trigger⟩
    obtain rfl : scope = s := Option.some.inj (hs.symm.trans hs')
    exact hc
  exact ⟨hm.jump _, by rw [again, control_jump, h.control_modifyScope]⟩

theorem takeDetour_eq (h : m.WellScoped) (target : Address) :
    m.takeDetour target =
      (if (pending m.scopes target).isSome then m.modifyScope fun s =>
        { s with detour := none } else m, pending m.scopes target) := by
  unfold takeDetour pending
  rw [h.scope?_eq_head?]
  cases m.scopes.head?.bind Scope.detour with
  | none => rfl
  | some detour => by_cases ht : detour.target = target <;> simp [ht]

theorem takeDetour_spec (h : m.WellScoped) (target : Address) :
    (m.takeDetour target).1.WellScoped ∧
      (m.takeDetour target).1.control = { m.control with scopes := settled m.scopes target } := by
  rw [takeDetour_eq h, settled]
  split
  · exact ⟨h.modifyScope (fun _ => rfl) fun _ _ hf => hf.congr rfl rfl, h.control_modifyScope _⟩
  · exact ⟨h, rfl⟩

/-- Merging down takes the scopes off from the base on. -/
theorem scoping_mergeDown (m : Machine) (base : Frame) (parent : Nat) :
    (m.mergeDown base parent).scoping = m.scoping.take m.registers.bsp := by
  refine Eq.trans ?_ List.map_take
  apply map_modify_of_eq
  intro frame
  exact frame.scope_merge _

theorem mergeDown_spec (h : m.WellScoped) {base : Frame} {scope : Scope} (hb : m.base? = some base)
    (hs : base.scope = some scope) :
    (m.mergeDown base scope.parent).WellScoped ∧
      (m.mergeDown base scope.parent).control = { m.control with scopes := m.scopes.tail } := by
  have hl : m.scoping[m.registers.bsp]? = some (some scope) := by
    rw [getElem?_scoping, ← base?, hb, Option.map_some, hs]
  obtain ⟨hcut, hopen⟩ := h.linked.cut hl
  have hsc := scoping_mergeDown m base scope.parent
  refine ⟨⟨?_, ?_, ?_⟩, ?_⟩
  · rw [hsc]; exact hcut
  · simp [scoping, mergeDown]
  · intro s hmem
    rw [hsc] at hmem
    exact h.fits s (List.mem_of_mem_take hmem)
  · simp only [control, scopes, hsc, hopen]
    rfl

theorem leave_eq (h : m.WellScoped) {scope : Scope} (hs : m.scope? = some scope) (here : Located) :
    ∃ base, m.base? = some base ∧ base.scope = some scope ∧ scope.parent < m.registers.bsp ∧
      m.leave here =
        ⟨((m.mergeDown base scope.parent).takeDetour here.address).1.jump
          ((pending m.scopes.tail here.address).getD scope.cycle.ret), none⟩ := by
  obtain ⟨base, hb⟩ := Option.isSome_iff_exists.mp h.base?_isSome
  have hbs : base.scope = some scope := by rw [← scope?_of_base? hb, hs]
  have hlt : scope.parent < m.registers.bsp := by
    refine (h.linked.parent (s := scope) ?_).1
    rw [getElem?_scoping, ← base?, hb, Option.map_some, hbs]
  obtain ⟨hm, hc⟩ := mergeDown_spec h hb hbs
  have hsc : (m.mergeDown base scope.parent).scopes = m.scopes.tail := congrArg Control.scopes hc
  refine ⟨base, hb, hbs, hlt, ?_⟩
  simp only [leave, hb, hbs, if_pos hlt, takeDetour_eq hm, hsc]

theorem leave_spec (h : m.WellScoped) {scope : Scope} (hs : m.scope? = some scope)
    (here : Located) :
    (m.leave here).error = none ∧ (m.leave here).machine.WellScoped ∧
      (m.leave here).machine.control =
        { m.control with
          ip := (pending m.scopes.tail here.address).getD scope.cycle.ret
          jumped := true
          scopes := settled m.scopes.tail here.address } := by
  obtain ⟨base, hb, hbs, _, he⟩ := leave_eq h hs here
  obtain ⟨hm, hc⟩ := mergeDown_spec h hb hbs
  have hsc : (m.mergeDown base scope.parent).scopes = m.scopes.tail := congrArg Control.scopes hc
  obtain ⟨ht, htc⟩ := takeDetour_spec hm here.address
  rw [he]
  exact ⟨rfl, ht.jump _, by rw [control_jump, htc, hc, hsc]⟩

/-! ## Visits -/

theorem visit_spec (h : m.WellScoped) (here : Located) :
    (m.visit here).1.WellScoped ∧ (m.visit here).2 = (visited m.program here m.scopes).1.isSome ∧
      (m.visit here).1.control =
        { m.control with
          ip := (visited m.program here m.scopes).1.getD m.registers.ip
          jumped := m.jumped || (visited m.program here m.scopes).1.isSome
          scopes := (visited m.program here m.scopes).2 } := by
  have hs := h.scope?_eq_head?
  unfold visit
  cases hl : m.scopes with
  | nil =>
    rw [hl] at hs
    simp [hs, visited, control, hl, h]
  | cons s scopes =>
    rw [hl] at hs
    simp only [hs, List.head?_cons, visited]
    cases hn : nextTarget m.program here.address (s.cursor here.address)
        (here.instr.tags.drop (s.cursor here.address)) with
    | mk cursor target =>
      cases target with
      | none =>
        dsimp only
        rw [h.control_modifyScope, hl]
        exact ⟨h.modifyScope (fun _ => rfl) fun _ _ hf => hf.congr rfl rfl, rfl, by simp [control]⟩
      | some target =>
        have ho := gather_onlyData (m.modifyScope (·.depart here.address cursor target))
          (Gathering.subtree m.program target)
        have hm : (m.modifyScope (·.depart here.address cursor target)).WellScoped :=
          h.modifyScope (fun _ => rfl) fun _ _ hf => hf.congr rfl rfl
        dsimp only
        rw [control_jump, control_of_onlyData ho, h.control_modifyScope, hl]
        exact ⟨(hm.of_onlyData ho).jump target, rfl, by simp⟩

theorem onBase_spec (h : m.WellScoped) {f : Frame → Frame}
    (hf : ∀ frame, (f frame).scope = frame.scope) :
    (m.onBase f).error = none ∧ (m.onBase f).machine.WellScoped ∧
      (m.onBase f).machine.control = m.control := by
  rw [onBase, if_pos h.base?_isSome]
  exact ⟨rfl, h.modifyBase hf, control_modifyBase hf⟩

theorem speak_spec (now : Nat) (h : m.WellScoped) (here : Located) :
    (speak now m here).error = none ∧ (speak now m here).machine.WellScoped ∧
      (speak now m here).machine.control = (m.visit here).1.control := by
  obtain ⟨hv, _, _⟩ := visit_spec h here
  unfold speak
  split
  · next m' he =>
    rw [he] at hv ⊢
    exact ⟨rfl, hv, rfl⟩
  · next m' he =>
    rw [he] at hv ⊢
    exact onBase_spec hv fun _ => rfl

theorem map_toOthers (m : Machine) (record : Signal) {α : Type} {g : Frame → α}
    (hg : ∀ frame : Frame, g (receive record frame) = g frame) :
    (m.toOthers record).stack.map g = m.stack.map g := by
  apply List.ext_getElem?
  intro i
  cases hf : m.stack[i]? with
  | none => simp [toOthers, hf]
  | some frame => by_cases hi : i = m.registers.bsp <;> simp [toOthers, hg, hf, hi]

theorem signal_spec (now : Nat) (h : m.WellScoped) (here : Located) :
    (signal now m here).error = none ∧ (signal now m here).machine.WellScoped ∧
      (signal now m here).machine.control = (m.visit here).1.control := by
  obtain ⟨hv, _, _⟩ := visit_spec h here
  unfold signal
  split
  · next m' he =>
    rw [he] at hv ⊢
    exact ⟨rfl, hv, rfl⟩
  · next m' he =>
    rw [he] at hv ⊢
    have hs : (m'.toOthers (emission now m' here)).scoping = m'.scoping :=
      map_toOthers m' _ fun _ => rfl
    dsimp only
    split
    · obtain ⟨h₁, h₂, h₃⟩ :=
        onBase_spec (m := m'.toOthers (emission now m' here)) (hv.congr rfl hs rfl rfl)
        (f := receive (emission now m' here)) fun _ => rfl
      refine ⟨h₁, h₂, h₃.trans ?_⟩
      simp only [control, scopes_congr hs]
      rfl
    · exact onBase_spec hv fun _ => rfl

/-! ## The next instruction -/

theorem returnsEarly_eq (h : m.WellScoped) (succeeded : Bool) :
    m.returnsEarly here succeeded = early m.scopes here.address succeeded := by
  have hs := h.scope?_eq_head?
  cases hh : m.scopes.head? with
  | none => simp only [returnsEarly, early, hs, hh]
  | some s => simp only [returnsEarly, early, hs, hh]

theorem goOn_spec (h : m.WellScoped) (here : Located) (succeeded : Bool) {target : Address}
    (ht : target = (pending m.scopes here.address).getD
      ((early m.scopes here.address succeeded).getD here.instr.first)) :
    (m.goOn here succeeded).WellScoped ∧
      (m.goOn here succeeded).control =
        { m.control with
          ip := target
          status := if m.program.isAddress target then m.registers.status else .halted
          scopes := settled m.scopes here.address } := by
  obtain ⟨hm, hc⟩ := takeDetour_spec h here.address
  have he : m.goOn here succeeded = (m.takeDetour here.address).1.goTo target := by
    rw [goOn, takeDetour_eq h, ht]
    cases hp : pending m.scopes here.address with
    | some resume => rfl
    | none =>
      simp only [Option.isSome_none, Bool.false_eq_true, if_false, returnsEarly_eq h]
      cases early m.scopes here.address succeeded <;> rfl
  have hp : (m.takeDetour here.address).1.program = m.program := congrArg Control.program hc
  have hst : (m.takeDetour here.address).1.registers.status = m.registers.status :=
    congrArg Control.status hc
  rw [he]
  exact ⟨hm.goTo _, by rw [control_goTo, hc, hp, hst]⟩

end GlyphScript.Machine
