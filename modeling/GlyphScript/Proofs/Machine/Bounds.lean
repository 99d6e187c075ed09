import GlyphScript.Proofs.Machine.Gathering
import GlyphScript.Proofs.Machine.Moves
import GlyphScript.Proofs.Machine.Steps
import GlyphScript.Proofs.Program.Flow

/-! # Where gathering stays

A step gathers when it enters a trigger and when it visits a target. What it reaches are addresses
of instructions exactly if every range that it goes through ends within the program. The check of a
program says nothing about the ends of bodies, so a checked program can have a body that ends behind
it. A compiled program has none.
-/

namespace GlyphScript

namespace Program

/-- The bodies of a compiled program end within it. -/
theorem stop_le_of_compile {forest : Forest} {timestamp : Nat} {program : Program}
    (h : compile forest timestamp = .ok program) {a : Address} {instr : Instruction TextId}
    (hf : program.fetch? a = some instr) : instr.stop a.toNat ≤ program.size := by
  have hlt := toNat_lt_size (compile_checked h) hf
  rw [compile_size h] at hlt ⊢
  obtain ⟨node, d, hp⟩ := lt_spans_iff_placed.mp hlt
  obtain ⟨decoded, hd, himage⟩ := hp.image h
  obtain ⟨raw, hraw, hshape⟩ := decode_eq_ok hd
  rw [Int.toNat_of_nonneg (fetch?_nonneg hf), hf] at hraw
  cases hraw
  have hstop : instr.stop a.toNat = decoded.stop a.toNat := by
    rw [Instruction.stop, Instruction.stop, hshape.bodyEnd]
  rw [hstop, himage.stop_eq]
  exact hp.end_le

end Program

/-! ## The ranges of a gathering -/

namespace Gathering

/-- The places whose ranges a gathering goes through: those that it starts from, and those that the
instructions it reaches pull in. -/
inductive Spans (program : Program) (heads : List Address) (s : Gathering) : Address → Prop where
  | head {a : Address} : a ∈ heads → Spans program heads s a
  | pulled {x : Nat} {instr : Instruction String} {tag : Tag String} : x ∈ s.visited →
      program.decode x = .ok instr →
      tag ∈ instr.tags → tag.isReference ∨ instr.op = .link → Spans program heads s tag.address

/-- Pending addresses that make up the ranges of some instructions, up to whether the instructions
themselves are among them. -/
structure Covers (program : Program) (heads : List Address) (pending : List Nat) : Prop where
  sound : ∀ y ∈ pending, ∃ a ∈ heads, ∃ instr, program.fetch? a = some instr ∧
    y < instr.stop a.toNat
  complete : ∀ a ∈ heads, ∀ instr, program.fetch? a = some instr →
    ∀ y, a.toNat < y → y < instr.stop a.toNat → y ∈ pending

theorem covers_subtree (program : Program) (target : Address) :
    Covers program [target] (subtree program target) := by
  refine ⟨fun y hy => ?_, fun a ha instr hf y hlt hstop => ?_⟩
  · obtain ⟨instr, hf, _, hstop⟩ := mem_subtree.mp hy
    exact ⟨target, List.mem_singleton_self target, instr, hf, hstop⟩
  · obtain rfl := List.mem_singleton.mp ha
    exact mem_subtree.mpr ⟨instr, hf, Nat.le_of_lt hlt, hstop⟩

variable {program : Program} {heads : List Address} {pending : List Nat} {m : Machine}

/-- A gathering stays within a program exactly if all its ranges do. -/
theorem visited_lt_size_iff (hcheck : program.check = .ok ()) (hprogram : m.program = program)
    (hb : m.base?.isSome) (hcovers : Covers program heads pending) :
    (∀ x ∈ (all pending { machine := m }).visited, x < program.size) ↔
      ∀ a instr, Spans program heads (all pending { machine := m }) a →
        program.fetch? a = some instr → instr.stop a.toNat ≤ program.size := by
  subst hprogram
  have hrun := all_gathers pending { machine := m }
  have hclosed := hrun.closed (s := ⟨m, []⟩) hb
  generalize all pending { machine := m } = s at hrun hclosed ⊢
  constructor
  · intro hin a instr hspans hf
    have hlt := Program.toNat_lt_size hcheck hf
    -- otherwise the first address behind the program is in the range
    refine Nat.le_of_not_lt fun hover => ?_
    cases hspans with
    | head ha =>
      have hmem := hclosed.pending _ (hcovers.complete a ha instr hf _ hlt hover)
      exact Nat.lt_irrefl _ (hin _ hmem)
    | pulled hx hd htag hkind =>
      have hmem := hclosed.pulled _ _ hx hd _ htag hkind instr hf _ (Nat.le_of_lt hlt) hover
      exact Nat.lt_irrefl _ (hin _ hmem)
  · intro hstop x hx
    -- what is reached within the program is closed
    have hpending : ∀ y ∈ pending, y ∈ s.visited ∧ y < m.program.size := by
      intro y hy
      obtain ⟨a, ha, instr, hf, hlt⟩ := hcovers.sound y hy
      exact ⟨hclosed.pending y hy, Nat.lt_of_lt_of_le hlt (hstop a instr (.head ha) hf)⟩
    have hpulled : ∀ y instr, y ∈ s.visited ∧ y < m.program.size → m.program.decode y = .ok instr →
        ∀ z ∈ pulls m.program instr, z ∈ s.visited ∧ z < m.program.size := by
      rintro y instr ⟨hy, _⟩ hd z hz
      obtain ⟨tag, htag, hkind, target, hf, hle, hlt⟩ := mem_pulls.mp hz
      exact ⟨hclosed.pulled y instr hy hd tag htag hkind target hf z hle hlt,
        Nat.lt_of_lt_of_le hlt (hstop _ target (.pulled hy hd htag hkind) hf)⟩
    rcases hrun.least (S := fun y => y ∈ s.visited ∧ y < m.program.size) hpending hpulled hx with
      hold | ⟨_, hlt⟩
    · cases hold
    · exact hlt

end Gathering

/-! ## The gatherings of a run -/

namespace Machine

def entered (m : Machine) (here : Located) : Machine :=
  let pushed := m.push { scope := some (m.opened here) }
  { pushed with registers := { pushed.registers with bsp := pushed.top, esp := pushed.top } }

/-- What a trigger asks for: its body, and what its tags point at. -/
def asked (program : Program) (here : Located) : List Nat :=
  here.instr.bodyAddresses here.address ++
    here.instr.tags.flatMap fun tag => Gathering.subtree program tag.address

/-- The gathering of the next step, with the instructions whose ranges it starts from. A trigger
that is not the one of the scope is entered, and an instruction with a target left visits it. -/
inductive NextGathering (m : Machine) : List Address → Gathering → Prop where
  | entry {here : Located} : m.decode m.registers.ip = .ok here → here.instr.op = .trigger →
      (∀ scope, m.scope? = some scope → scope.address ≠ here.address) →
      NextGathering m (here.address :: here.instr.tags.map Tag.address)
        (Gathering.all (asked m.program here) { machine := m.ready.entered here })
  | visit {here : Located} {scope : Scope} {cursor : Nat} {target : Address} :
      m.decode m.registers.ip = .ok here → Visits here.instr true → m.scope? = some scope →
      nextTarget m.program here.address (scope.cursor here.address)
      (here.instr.tags.drop (scope.cursor here.address)) =
        (cursor, some target) →
      NextGathering m [target] (Gathering.all (Gathering.subtree m.program target)
        { machine := m.ready.modifyScope (·.depart here.address cursor target) })

variable {program : Program} {m : Machine} {here : Located} {heads : List Address} {s : Gathering}

/-- A machine enters the trigger that it starts at. -/
theorem NextGathering.start (hd : (Machine.start program).decode program.entry = .ok here)
    (hop : here.instr.op = .trigger) :
    NextGathering (Machine.start program) (here.address :: here.instr.tags.map Tag.address)
      (Gathering.all (asked program here)
        { machine := (Machine.start program).ready.entered here }) :=
  .entry hd hop fun _ hs => by cases hs

theorem enter_eq (m : Machine) (here : Located) : m.enter here =
    (Gathering.all (asked m.program here) { machine := m.entered here }).machine.jump
      here.instr.first :=
  rfl

theorem visit_eq {scope : Scope} {cursor : Nat} {target : Address} (hs : m.scope? = some scope)
    (hn : nextTarget m.program here.address (scope.cursor here.address)
      (here.instr.tags.drop (scope.cursor here.address)) = (cursor, some target)) :
    m.visit here =
      ((Gathering.all (Gathering.subtree m.program target)
        { machine := m.modifyScope (·.depart here.address cursor target) }).machine.jump target,
        true) := by
  unfold visit
  simp only [hs, hn]
  rfl

theorem handle_trigger_eq (now : Nat) (hop : here.instr.op = .trigger)
    (hout : ∀ scope, m.scope? = some scope → scope.address ≠ here.address) :
    handle { now } m here = ⟨m.enter here, none⟩ := by
  simp only [handle, hop, trigger]
  cases hs : m.scope? with
  | none => rfl
  | some scope => exact if_neg (hout scope hs)

theorem handle_visit_eq (now : Nat) (hv : Visits here.instr true) {scope : Scope}
    (hs : m.scope? = some scope) (ht : (m.visit here).2 = true) :
    handle { now } m here = ⟨(m.visit here).1, none⟩ := by
  obtain ⟨m', hm⟩ : ∃ m', m.visit here = (m', true) := ⟨_, Prod.ext rfl ht⟩
  rcases hv with hop | hop | ⟨hop, hmode, _⟩
  · simp only [handle, hop, speak, hm]
  · simp only [handle, hop, signal, hm]
  · simp only [handle, hop, link, hmode, inherit, hs, if_true]

/-- The step goes on from what was gathered. -/
theorem NextGathering.step? (h : NextGathering m heads s) (hr : m.isRunning) (now : Nat) :
    ∃ target, Machine.step? { now } m = some ⟨(s.machine.jump target).goTo target, none⟩ := by
  have hstep : ∀ {here : Located} {target : Address}, m.decode m.registers.ip = .ok here →
      handle { now } m.ready here = ⟨s.machine.jump target, none⟩ →
      Machine.step? { now } m = some ⟨(s.machine.jump target).goTo target, none⟩ := by
    intro here target hd hhandle
    obtain ⟨raw, hf, _, ha⟩ := decode_eq_ok hd
    obtain ⟨stepped, hs⟩ :=
      exists_step? (m := m) { now } hr (by rw [← ha, Program.isAddress, hf]; rfl)
    rcases step?_eq_some hs with ⟨e, _, he, _⟩ | ⟨here', hd', rfl⟩
    · rw [hd] at he
      cases he
    · rw [hd] at hd'
      cases hd'
      have hafter : Stepped.after here (handle { now } { m with jumped := false } here) =
          Stepped.after here ⟨s.machine.jump target, none⟩ := congrArg _ hhandle
      rw [hs, hafter]
      rfl
  cases h with
  | entry hd hop hout =>
    have hhandle := handle_trigger_eq (m := m.ready) now hop hout
    rw [enter_eq] at hhandle
    exact ⟨_, hstep hd hhandle⟩
  | visit hd hv hs hn =>
    have hvisit := visit_eq (m := m.ready) hs hn
    have hhandle := handle_visit_eq (m := m.ready) now hv hs (by rw [hvisit])
    rw [hvisit] at hhandle
    exact ⟨_, hstep hd hhandle⟩

theorem covers_asked {raw : Instruction TextId} (hf : program.fetch? here.address = some raw)
    (hr : raw.SameShape here.instr) :
    Gathering.Covers program (here.address :: here.instr.tags.map Tag.address)
      (asked program here) := by
  have hstop : raw.stop here.address = here.instr.stop here.address := by
    rw [Instruction.stop, Instruction.stop, hr.bodyEnd]
  refine ⟨fun y hy => ?_, fun a ha instr hfetch y hlt hy => ?_⟩
  · rcases List.mem_append.mp hy with hbody | htags
    · refine ⟨here.address, List.mem_cons_self, raw, hf, ?_⟩
      rw [Int.toNat_natCast, hstop]
      exact (Instruction.mem_bodyAddresses.mp hbody).2
    · obtain ⟨tag, htag, hy⟩ := List.mem_flatMap.mp htags
      obtain ⟨_, hhead, instr, hfetch, hlt⟩ :=
        (Gathering.covers_subtree program tag.address).sound y hy
      obtain rfl := List.mem_singleton.mp hhead
      exact ⟨_, List.mem_cons_of_mem _ (List.mem_map_of_mem htag), instr, hfetch, hlt⟩
  · rcases List.mem_cons.mp ha with rfl | ha
    · rw [hf] at hfetch
      cases hfetch
      rw [Int.toNat_natCast] at hlt hy
      rw [hstop] at hy
      exact List.mem_append_left _ (Instruction.mem_bodyAddresses.mpr ⟨hlt, hy⟩)
    · obtain ⟨tag, htag, rfl⟩ := List.mem_map.mp ha
      refine List.mem_append_right _ (List.mem_flatMap.mpr ⟨tag, htag, ?_⟩)
      exact (Gathering.covers_subtree program tag.address).complete _ (List.mem_singleton_self _)
        instr hfetch y hlt hy

theorem isSome_base?_entered (m : Machine) (here : Located) : (m.entered here).base?.isSome := by
  simp [entered, base?, top, push]

/-- The gathering of a step reaches only instructions exactly if all its ranges end within the
program. -/
theorem NextGathering.isAddress_iff (h : NextGathering m heads s) (hcheck : program.check = .ok ())
    (hm : Reachable program m) : (∀ x ∈ s.visited, program.isAddress x) ↔
      ∀ a instr, Gathering.Spans program heads s a → program.fetch? a = some instr →
        instr.stop a.toNat ≤ program.size := by
  obtain ⟨hw, rfl⟩ := hm.wellScoped
  have hready : m.ready.WellScoped := hw.congr rfl rfl rfl rfl
  simp only [Program.isAddress_iff hcheck]
  cases h with
  | entry hd =>
    obtain ⟨raw, hf, hr, _⟩ := decode_eq_ok hd
    exact Gathering.visited_lt_size_iff hcheck rfl (isSome_base?_entered _ _) (covers_asked hf hr)
  | visit =>
    refine Gathering.visited_lt_size_iff hcheck rfl ?_ (Gathering.covers_subtree _ _)
    rw [modifyScope, Gathering.base?_modifyBase, Option.isSome_map]
    exact hready.base?_isSome

/-- What the steps of a checked program gather are addresses of instructions exactly if the ranges
that they go through end within the program. All ranges of a compiled program do. -/
theorem gathering_stays_within_program (hcheck : program.check = .ok ()) :
    (∀ m, Reachable program m → ∀ heads s, NextGathering m heads s →
      (m.isRunning → ∀ now, ∃ target,
        step? { now } m = some ⟨(s.machine.jump target).goTo target, none⟩) ∧
      ((∀ x ∈ s.visited, program.isAddress x) ↔
        ∀ a instr, Gathering.Spans program heads s a → program.fetch? a = some instr →
          instr.stop a.toNat ≤ program.size)) ∧
    ∀ forest timestamp, compile forest timestamp = .ok program →
      (∀ a instr, program.fetch? a = some instr → instr.stop a.toNat ≤ program.size) ∧
      ∀ m, Reachable program m → ∀ heads s, NextGathering m heads s →
        ∀ x ∈ s.visited, program.isAddress x := by
  constructor
  · intro m hm heads s h
    exact ⟨h.step?, h.isAddress_iff hcheck hm⟩
  · intro forest timestamp hcompile
    have hstop : ∀ a instr, program.fetch? a = some instr → instr.stop a.toNat ≤ program.size :=
      fun a instr => Program.stop_le_of_compile hcompile
    refine ⟨hstop, fun m hm heads s h => ?_⟩
    exact (h.isAddress_iff hcheck hm).mpr fun a instr _ => hstop a instr

/-- A trigger whose body refers to a state with a body of its own, up to the end of the program. -/
def kinScope : Program :=
  { entry := 0
    symbols := []
    text := ["Armor"]
    code :=
      [(0, { op := .trigger, next := [1, 3], bodyEnd := some 3 }),
        (1, { op := .speech, next := [2]
              tags := [{ root := 0, kind := .reference, segments := [], address := 3 }] }),
        (2, { id := some "Wade", op := .context .entity, next := [0] }),
        (3, { id := some "Armor", op := .context .state, next := [4], bodyEnd := some 5 }),
        (4, { id := some "Plate", op := .context .state, next := [-1] })] }

theorem gathering_stays_within_program_kin : ∃ heads s, kinScope.check = .ok () ∧
    NextGathering (start kinScope) heads s ∧ s.visited = [2, 4, 3, 1] ∧
    (∀ a instr, Gathering.Spans kinScope heads s a → kinScope.fetch? a = some instr →
      instr.stop a.toNat ≤ 5) ∧
    ∃ target, step? {} (start kinScope) = some ⟨(s.machine.jump target).goTo target, none⟩ := by
  have hcheck : kinScope.check = .ok () := rfl
  have hd : (start kinScope).decode kinScope.entry =
      .ok ⟨0, { op := .trigger, next := [1, 3], bodyEnd := some 3 }⟩ := rfl
  have hnext := NextGathering.start hd rfl
  obtain ⟨hstep, hiff⟩ := (gathering_stays_within_program hcheck).1 _ .start _ _ hnext
  have hvisited : (Gathering.all
      (asked kinScope ⟨0, { op := .trigger, next := [1, 3], bodyEnd := some 3 }⟩)
      { machine := (start kinScope).ready.entered
          ⟨0, { op := .trigger, next := [1, 3], bodyEnd := some 3 }⟩ }).visited =
      [2, 4, 3, 1] := by
    decide +kernel
  refine ⟨_, _, hcheck, hnext, hvisited, hiff.mp ?_, hstep rfl 0⟩
  rw [hvisited]
  decide +kernel

/-- A trigger whose body refers to a state, and the body of the state ends behind the program. -/
def overrun : Program :=
  { entry := 0
    symbols := []
    text := ["S"]
    code :=
      [(0, { op := .trigger, next := [1, -1], bodyEnd := some 2 }),
        (1, { op := .speech, next := [0]
              tags := [{ root := 0, kind := .reference, segments := [], address := 2 }] }),
        (2, { id := some "S", op := .context .state, next := [-1], bodyEnd := some 5 })] }

theorem checked_body_behind_program : overrun.check = .ok () ∧
    (∃ instr, overrun.fetch? 2 = some instr ∧ overrun.size < instr.stop 2) ∧
    ∃ heads s, NextGathering (start overrun) heads s ∧ 3 ∈ s.visited ∧
      overrun.isAddress 3 = false := by
  have hd : (start overrun).decode overrun.entry =
      .ok ⟨0, { op := .trigger, next := [1, -1], bodyEnd := some 2 }⟩ := rfl
  have hnext := NextGathering.start hd rfl
  refine ⟨rfl, ⟨_, rfl, by decide +kernel⟩, _, _, hnext, ?_, by decide +kernel⟩
  decide +kernel

end Machine

end GlyphScript
