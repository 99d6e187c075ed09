import GlyphScript.Proofs.Machine.Moves
import GlyphScript.Proofs.Machine.Transitions
import GlyphScript.Proofs.Program.Placement

/-! # What follows an instruction that leaves the machine as it was

An anchor does nothing but choose, and a handler that fails has done nothing yet. After either of
them the machine is as before the step, but for the address at which it goes on: that of an
instruction which is on a detour to this one, that of the trigger if this is the first instruction
of its body and did not fail, or a successor.
-/

namespace GlyphScript.Machine

/-- A machine that has gone to an address, with the given stack. It halts if there is no
instruction. -/
structure Arrives (m : Machine) (stack : List Frame) (target : Address) (m' : Machine) : Prop where
  program : m'.program = m.program
  registers : m'.registers =
    { m.registers with ip := target, status :=
      if m.program.isAddress target then .running else .halted }
  stack : m'.stack = stack

def Unsought (m : Machine) (target : Address) : Prop :=
  ∀ s d, m.scope? = some s → s.detour = some d → d.target ≠ target

def backFromDetour (frame : Frame) : Frame :=
  { frame with scope := frame.scope.map fun s => { s with detour := none } }

variable {program : Program} {now : Nat} {m : Machine} {here : Located} {stepped : Stepped}

theorem arrives_goTo (hr : m.registers.status = .running) (target : Address) :
    m.Arrives m.stack target (m.goTo target) := by
  refine ⟨congrArg Control.program (control_goTo m target), ?_, stack_goTo m target⟩
  unfold goTo
  by_cases ha : m.program.isAddress target
  · simp [setIp, ha, hr]
  · simp [setIp, halt, ha]

theorem Arrives.halted_iff {stack : List Frame} {target : Address} {m' : Machine}
    (h : m.Arrives stack target m') :
    m'.registers.status = .halted ↔ m.program.isAddress m'.registers.ip = false := by
  rw [h.registers]
  cases ha : m.program.isAddress target with
  | true => simp
  | false => simp

/-! ## The next instruction -/

/-- A detour to this instruction ends here. -/
theorem goOn_of_detour {s : Scope} {d : Detour} (hs : m.scope? = some s) (hd : s.detour = some d)
    (ht : d.target = here.address) (succeeded : Bool) :
    m.goOn here succeeded = (m.modifyBase backFromDetour).goTo d.resume := by
  simp only [goOn, takeDetour, hs, Option.bind_some, hd, ht, if_true]
  rfl

theorem goOn_of_unsought (hu : m.Unsought here.address) (succeeded : Bool) :
    m.goOn here succeeded = m.goTo ((m.returnsEarly here succeeded).getD here.instr.first) := by
  have htake : m.takeDetour here.address = (m, none) := by
    unfold takeDetour
    cases hb : m.scope?.bind Scope.detour with
    | none => rfl
    | some d =>
      obtain ⟨s, hs, hd⟩ := Option.bind_eq_some_iff.mp hb
      exact if_neg (hu s d hs hd)
  rw [goOn, htake]
  dsimp only
  cases m.returnsEarly here succeeded with
  | none => rfl
  | some trigger => rfl

/-- After a failure nothing returns early. -/
theorem returnsEarly_failed : m.returnsEarly here false = none := by
  unfold returnsEarly
  cases m.scope? with
  | none => rfl
  | some s => exact if_neg fun h => Bool.false_ne_true h.1

theorem returnsEarly_of_first {s : Scope} (hs : m.scope? = some s)
    (ha : s.address + 1 = here.address) (he : s.isExecuting = false) :
    m.returnsEarly here true = some s.address := by
  simp [returnsEarly, hs, ha, he]

theorem returnsEarly_eq_none
    (hn : ∀ s, m.scope? = some s → s.address + 1 = here.address → s.isExecuting = true) :
    m.returnsEarly here true = none := by
  unfold returnsEarly
  cases hs : m.scope? with
  | none => rfl
  | some s =>
    refine if_neg ?_
    rintro ⟨_, ha, he⟩
    exact he (hn s hs ha)

/-- A step that can decode its instruction is what it makes of the effect of the handler. -/
theorem step?_eq_after (hs : step? { now } m = some stepped)
    (hd : m.decode m.registers.ip = .ok here) :
    stepped = .after here (handle { now } m.ready here) := by
  rcases step?_eq_some hs with ⟨e, target, hfail, _⟩ | ⟨here', hd', rfl⟩
  · rw [hd] at hfail
    cases hfail
  · cases hd.symm.trans hd'
    rfl

/-- A step whose handler has left the machine as it was only chooses the next instruction. -/
theorem step?_of_idle (hs : step? { now } m = some stepped)
    (hd : m.decode m.registers.ip = .ok here) {error : Option MachineError}
    (he : handle { now } m.ready here = ⟨m.ready, error⟩) :
    stepped = ⟨m.ready.goOn here error.isNone, error⟩ := by
  rw [step?_eq_after hs hd, he]
  rfl

theorem exists_decode_of_map {α : Type} {f : Located → α} {x : α} {address : Address}
    (h : (m.decode address).toOption.map f = some x) :
    ∃ here, m.decode address = .ok here ∧ f here = x := by
  cases hd : m.decode address with
  | error e =>
    rw [hd] at h
    cases h
  | ok here =>
    rw [hd] at h
    exact ⟨here, rfl, Option.some.inj h⟩

theorem unsought_of_no_detour (h : m.scope?.bind Scope.detour = none) (target : Address) :
    m.Unsought target := by
  intro s d hs hd
  rw [hs, Option.bind_some, hd] at h
  cases h

/-! ## Failures -/

theorem trigger_error (h : m.WellScoped) : (m.trigger here).error = none := by
  unfold trigger
  split
  · next scope hs =>
    split
    · split
      · rfl
      · exact (leave_spec h hs here).1
    · rfl
  · rfl

section Links

variable {e : MachineError}

theorem inherit_of_error (he : (m.inherit here).error = some e) : m.inherit here = ⟨m, some e⟩ := by
  cases hs : m.scope? with
  | none =>
    simp only [inherit, hs] at he ⊢
    rw [he]
  | some s =>
    simp only [inherit, hs] at he
    cases he

theorem goBack_of_error (he : (m.goBack here).error = some e) : m.goBack here = ⟨m, some e⟩ := by
  cases hs : m.scope? with
  | none =>
    simp only [goBack, hs] at he ⊢
    rw [he]
  | some s =>
    by_cases haway : (s.address : Address) ≠ m.registers.ip
    · simp only [goBack, hs, if_pos haway] at he
      cases he
    · simp only [goBack, hs, if_neg haway] at he ⊢
      rw [he]

theorem link_of_error (he : (m.link here).error = some e) : m.link here = ⟨m, some e⟩ := by
  unfold link at he ⊢
  by_cases hi : linkMode here.instr = "Inheritance"
  · simp only [if_pos hi] at he ⊢
    exact inherit_of_error he
  · by_cases hr : linkMode here.instr = "Return"
    · simp only [if_neg hi, if_pos hr] at he ⊢
      exact goBack_of_error he
    · simp only [if_neg hi, if_neg hr] at he ⊢
      rw [he]

end Links

/-- A handler fails before it has changed anything. Those that would fail later never do, since the
stack is in order. -/
theorem handle_of_error (h : m.WellScoped) {e : MachineError}
    (he : (handle { now } m here).error = some e) : handle { now } m here = ⟨m, some e⟩ := by
  unfold handle at he ⊢
  cases hop : here.instr.op with
  | context kind =>
    simp only [hop, describe] at he ⊢
    cases hid : here.instr.id with
    | none =>
      rw [hid] at he
      cases he
      rfl
    | some id =>
      rw [hid] at he
      cases he
  | trigger =>
    simp only [hop, trigger_error h] at he
    cases he
  | anchor =>
    simp only [hop, anchor_eq] at he
    split at he
    · cases he
    · cases he
  | link =>
    simp only [hop] at he ⊢
    exact link_of_error he
  | speech =>
    simp only [hop, (speak_spec now h here).1] at he
    cases he
  | signal =>
    simp only [hop, (signal_spec now h here).1] at he
    cases he
  | unknown glyph =>
    simp only [hop] at he
    cases he

/-- A handler that fails leaves the machine as it was. The step comes back from a detour to the
instruction if the innermost scope is on one, and else goes to the first successor; it never returns
early. -/
theorem failing_handler_changes_nothing (hr : Reachable program m)
    (hs : step? { now } m = some stepped) (hd : m.decode m.registers.ip = .ok here)
    {e : MachineError} (he : (execute { now } m.ready here).error = some e) :
    execute { now } m.ready here = ⟨m.ready, some e⟩ ∧ stepped.logged = some e ∧
      ((∃ s d, m.scope? = some s ∧ s.detour = some d ∧ d.target = here.address ∧
          m.Arrives (m.stack.modify m.registers.bsp backFromDetour) d.resume stepped.machine) ∨
        m.Unsought here.address ∧ m.Arrives m.stack here.instr.first stepped.machine) ∧
      (stepped.machine.registers.status = .halted ↔
        program.isAddress stepped.machine.registers.ip = false) := by
  obtain ⟨hw, rfl⟩ := hr.wellScoped
  have hrun : m.registers.status = .running := of_decide_eq_true (isRunning_of_step? hs)
  have hidle : handle { now } m.ready here = ⟨m.ready, some e⟩ :=
    handle_of_error (m := m.ready) (hw.congr rfl rfl rfl rfl) he
  obtain rfl := step?_of_idle hs hd hidle
  have harrives : (∃ s d, m.scope? = some s ∧ s.detour = some d ∧ d.target = here.address ∧
        m.Arrives (m.stack.modify m.registers.bsp backFromDetour) d.resume
          (m.ready.goOn here false)) ∨
      m.Unsought here.address ∧ m.Arrives m.stack here.instr.first (m.ready.goOn here false) := by
    by_cases hsought : ∃ s d, m.scope? = some s ∧ s.detour = some d ∧ d.target = here.address
    · obtain ⟨s, d, hscope, hdetour, ht⟩ := hsought
      have hgo : (m.ready.modifyBase backFromDetour).Arrives _ d.resume _ :=
        arrives_goTo (m := m.ready.modifyBase backFromDetour) hrun d.resume
      rw [goOn_of_detour (m := m.ready) hscope hdetour ht]
      exact .inl ⟨s, d, hscope, hdetour, ht, hgo.program, hgo.registers, hgo.stack⟩
    · have hu : m.Unsought here.address :=
        fun s d hscope hdetour ht => hsought ⟨s, d, hscope, hdetour, ht⟩
      have hgo : m.ready.Arrives _ here.instr.first _ :=
        arrives_goTo (m := m.ready) hrun here.instr.first
      rw [goOn_of_unsought (m := m.ready) hu, returnsEarly_failed]
      exact .inr ⟨hu, hgo.program, hgo.registers, hgo.stack⟩
  refine ⟨hidle, rfl, harrives, ?_⟩
  rcases harrives with ⟨_, _, _, _, _, ha⟩ | ⟨_, ha⟩
  · exact ha.halted_iff
  · exact ha.halted_iff

def namelessKin : Forest :=
  [{ op := .trigger
     body := [{ op := .context .entity, params := [("id", .text "Wade")],
                body := [{ op := .link, params := [("id", .text "Inheritance")],
                           tags := [.ofPath .reference ["suit"]] }] }] },
   { op := .context .state, tags := [.hashtag "suit"] }]

/-- The state cannot be described, and the machine is back at the link. -/
theorem failing_handler_changes_nothing_namelessKin :
    ∃ program m here stepped, compile namelessKin 0 = .ok program ∧ Reachable program m ∧
      step? {} m = some stepped ∧ m.decode m.registers.ip = .ok here ∧ here.address = 3 ∧
      (execute {} m.ready here).error = some (.missingId (.context .state) 3) ∧
      stepped.logged = some (.missingId (.context .state) 3) ∧
      m.Arrives (m.stack.modify m.registers.bsp backFromDetour) 2 stepped.machine := by
  let program := Link.link (Layout.ofForest 0 namelessKin) (Layout.entry namelessKin)
  let m := steps {} 3 (start program)
  have hr : Reachable program m := Reachable.start.steps 0 3
  obtain ⟨stepped, hs⟩ := Option.isSome_iff_exists.mp (show (step? {} m).isSome by decide +kernel)
  have hfails : (m.decode m.registers.ip).toOption.map
      (fun here => (here.address, (execute {} m.ready here).error)) =
        some (3, some (.missingId (.context .state) 3)) := by decide +kernel
  obtain ⟨here, hd, hhere⟩ := exists_decode_of_map hfails
  obtain ⟨haddress, he⟩ := Prod.mk.inj hhere
  have hdetour : m.scope?.bind Scope.detour = some ⟨3, 2⟩ := by decide +kernel
  obtain ⟨_, hlogged, harrives, _⟩ := failing_handler_changes_nothing hr hs hd he
  refine ⟨program, m, here, stepped, rfl, hr, hs, hd, haddress, he, hlogged, ?_⟩
  rcases harrives with ⟨s, d, hscope, hd, _, harrives⟩ | ⟨hu, _⟩
  · rw [hscope, Option.bind_some, hd] at hdetour
    rwa [Option.some.inj hdetour] at harrives
  · obtain ⟨s, hscope, hd⟩ := Option.bind_eq_some_iff.mp hdetour
    exact absurd (by rw [haddress]; rfl) (hu s _ hscope hd)

/-! ## Anchors -/

theorem Reachable.isRunning_of_decode (h : Reachable program m) (hc : program.check = .ok ())
    (hd : m.decode m.registers.ip = .ok here) : m.isRunning := by
  cases h with
  | start => rfl
  | step now hr hs =>
    obtain ⟨hw, rfl⟩ := hr.wellScoped
    obtain ⟨_, _, x, _, _, _, _, hstands⟩ := transition_of_step? hc hw hs
    obtain ⟨raw, hf, _, ha⟩ := decode_eq_ok hd
    rw [hstands.isRunning, ← hstands.ip, ← ha, ← hstands.program_eq, Program.isAddress, hf]
    rfl

theorem shut_anchor_arrives (hs : step? { now } m = some stepped)
    (hd : m.decode m.registers.ip = .ok here) (hop : here.instr.op = .anchor)
    (hshut : m.shut here.instr = true) :
    stepped.logged = none ∧ m.Arrives m.stack here.instr.second stepped.machine := by
  have hrun : m.registers.status = .running := of_decide_eq_true (isRunning_of_step? hs)
  have hhandle : handle { now } m.ready here = ⟨m.ready.jump here.instr.second, none⟩ := by
    simp only [handle, hop, anchor_eq]
    exact if_pos hshut
  have hgo : (m.ready.jump here.instr.second).Arrives _ here.instr.second _ :=
    arrives_goTo (m := m.ready.jump here.instr.second) hrun here.instr.second
  rw [step?_eq_after hs hd, hhandle]
  exact ⟨rfl, hgo.program, hgo.registers, hgo.stack⟩

theorem open_anchor_arrives (hs : step? { now } m = some stepped)
    (hd : m.decode m.registers.ip = .ok here) (hop : here.instr.op = .anchor)
    (hshut : m.shut here.instr = false) (hu : m.Unsought here.address) :
    stepped.logged = none ∧
      m.Arrives m.stack ((m.returnsEarly here true).getD here.instr.first) stepped.machine := by
  have hrun : m.registers.status = .running := of_decide_eq_true (isRunning_of_step? hs)
  have hhandle : handle { now } m.ready here = ⟨m.ready, none⟩ := by
    simp only [handle, hop, anchor_eq]
    exact if_neg (Bool.eq_false_iff.mp hshut)
  have hgo : m.ready.Arrives _ ((m.returnsEarly here true).getD here.instr.first) _ :=
    arrives_goTo (m := m.ready) hrun _
  have hgoOn : m.ready.goOn here true =
      m.ready.goTo ((m.returnsEarly here true).getD here.instr.first) :=
    goOn_of_unsought (m := m.ready) hu true
  rw [step?_of_idle hs hd hhandle]
  refine ⟨rfl, ?_⟩
  rw [Option.isNone_none, hgoOn]
  exact ⟨hgo.program, hgo.registers, hgo.stack⟩

/-- An anchor to which no detour leads goes to its second successor if it is shut. If it is open, it
goes back to the trigger of the innermost scope if it is the first instruction of its body and no
frame was opened in this cycle, and else to its first successor. The stack stays as it is. -/
theorem anchor_branches {forest : Forest} {timestamp : Nat}
    (hc : compile forest timestamp = .ok program) (hr : Reachable program m)
    (hd : m.decode m.registers.ip = .ok here) (hop : here.instr.op = .anchor)
    (hu : m.Unsought here.address) (now : Nat) :
    ∃ first second stepped, here.instr.next = [first, second] ∧ step? { now } m = some stepped ∧
      stepped.logged = none ∧
      (m.shut here.instr = true → m.Arrives m.stack second stepped.machine) ∧
      (m.shut here.instr = false →
        (∀ s, m.scope? = some s → s.address + 1 = here.address → s.isExecuting = false →
          m.Arrives m.stack s.address stepped.machine) ∧
        ((∀ s, m.scope? = some s → s.address + 1 = here.address → s.isExecuting = true) →
          m.Arrives m.stack first stepped.machine)) := by
  have hrun := hr.isRunning_of_decode (compile_checked hc) hd
  obtain ⟨_, rfl⟩ := hr.wellScoped
  obtain ⟨raw, hf, _, haddress⟩ := decode_eq_ok hd
  obtain ⟨node, a, second, _, _, himage⟩ := compile_decode hc (decode_located hd)
  obtain ⟨first, hnext, _⟩ := himage.next_branching (.inr (himage.op ▸ hop))
  have hin : m.program.isAddress m.registers.ip := by
    rw [← haddress, Program.isAddress, hf]
    rfl
  obtain ⟨stepped, hs⟩ := exists_step? { now } hrun hin
  have hfirst : here.instr.first = first := by
    rw [Instruction.first, hnext]
    rfl
  have hsecond : here.instr.second = second := by
    rw [Instruction.second, hnext]
    rfl
  refine ⟨first, second, stepped, hnext, hs, ?_⟩
  cases hshut : m.shut here.instr with
  | true =>
    obtain ⟨hlogged, harrives⟩ := shut_anchor_arrives hs hd hop hshut
    rw [hsecond] at harrives
    exact ⟨hlogged, fun _ => harrives, fun h => absurd h.symm Bool.false_ne_true⟩
  | false =>
    obtain ⟨hlogged, harrives⟩ := open_anchor_arrives hs hd hop hshut hu
    refine ⟨hlogged, fun h => absurd h Bool.false_ne_true,
      fun _ => ⟨fun s hscope ha he => ?_, fun hn => ?_⟩⟩
    · rwa [returnsEarly_of_first hscope ha he] at harrives
    · rwa [returnsEarly_eq_none hn, Option.getD_none, hfirst] at harrives

def shutGate : Forest :=
  [{ op := .trigger
     body :=
       [{ op := .context .entity, params := [("id", .text "Wade")],
          body :=
            [{ op := .anchor, params := [("id", .text "Gate"), ("condition", .bool false)],
               body := [{ op := .context .state, params := [("id", .text "In")] }] },
              { op := .context .state, params := [("id", .text "Out")] }] }] }]

theorem anchor_branches_shutGate :
    ∃ program m here stepped, compile shutGate 0 = .ok program ∧ Reachable program m ∧
      m.decode m.registers.ip = .ok here ∧ here.instr.op = .anchor ∧ here.instr.next = [3, 4] ∧
      m.Unsought here.address ∧ m.shut here.instr = true ∧ step? {} m = some stepped ∧
      m.Arrives m.stack 4 stepped.machine := by
  let program := Link.link (Layout.ofForest 0 shutGate) (Layout.entry shutGate)
  let m := steps {} 2 (start program)
  have hc : compile shutGate 0 = .ok program := rfl
  have hr : Reachable program m := Reachable.start.steps 0 2
  have hanchor : (m.decode m.registers.ip).toOption.map
      (fun here => (here.instr.op, here.instr.next, m.shut here.instr)) =
        some (.anchor, [3, 4], true) := by
    decide +kernel
  obtain ⟨here, hd, hhere⟩ := exists_decode_of_map hanchor
  simp only [Prod.mk.injEq] at hhere
  obtain ⟨hop, hnext, hshut⟩ := hhere
  have hu : m.Unsought here.address := unsought_of_no_detour (by decide +kernel) _
  obtain ⟨first, second, stepped, hbranches, hs, _, harrives, _⟩ :=
    anchor_branches hc hr hd hop hu 0
  obtain ⟨rfl, rfl⟩ : first = 3 ∧ second = 4 := by simpa [eq_comm] using hnext.symm.trans hbranches
  exact ⟨program, m, here, stepped, hc, hr, hd, hop, hnext, hu, hshut, hs, harrives hshut⟩

def openGate : Forest :=
  [{ op := .trigger
     body := [{ op := .anchor, params := [("id", .text "Gate")],
                body := [{ op := .context .state, params := [("id", .text "In")] }] }] }]

/-- The anchor is open and no detour leads to it, and still its first successor is not the next
instruction. -/
theorem open_anchor_returns_early :
    ∃ program m here stepped, compile openGate 0 = .ok program ∧ Reachable program m ∧
      m.decode m.registers.ip = .ok here ∧ here.instr.op = .anchor ∧ here.instr.next = [2, 0] ∧
      m.Unsought here.address ∧ m.shut here.instr = false ∧ step? {} m = some stepped ∧
      stepped.machine.registers.ip = 0 := by
  let program := Link.link (Layout.ofForest 0 openGate) (Layout.entry openGate)
  let m := steps {} 1 (start program)
  have hanchor : (m.decode m.registers.ip).toOption.map
      (fun here => (here.instr.op, here.instr.next, m.shut here.instr)) =
        some (.anchor, [2, 0], false) := by
    decide +kernel
  obtain ⟨here, hd, hhere⟩ := exists_decode_of_map hanchor
  simp only [Prod.mk.injEq] at hhere
  obtain ⟨hop, hnext, hshut⟩ := hhere
  have hu : m.Unsought here.address := unsought_of_no_detour (by decide +kernel) _
  have hback : (step? {} m).map (fun stepped => stepped.machine.registers.ip) = some 0 := by
    decide +kernel
  obtain ⟨stepped, hs, hip⟩ := Option.map_eq_some_iff.mp hback
  exact ⟨program, m, here, stepped, rfl, Reachable.start.steps 0 1, hd, hop, hnext, hu, hshut, hs,
    hip⟩

end GlyphScript.Machine
