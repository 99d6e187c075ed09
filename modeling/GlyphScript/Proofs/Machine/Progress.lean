import GlyphScript.Proofs.Machine.Reachable
import GlyphScript.Proofs.Program.Checking

/-! # Checked programs do not get stuck

Whatever chooses the next address, a step halts the machine if there is no instruction. So a machine
that has made a step stands at an instruction or has halted, and the entry of a checked program is
an instruction as well. As a checked instruction can be decoded, a run of a checked program never
stalls.
-/

namespace GlyphScript

theorem Program.isAddress_entry {program : Program} (hne : program.code ≠ [])
    (hc : program.check = .ok ()) : program.isAddress program.entry := by
  obtain ⟨_, hentry⟩ := Program.check_eq_ok.mp hc
  rw [Program.isAddress_iff hc]
  rcases hentry with hlt | ⟨hempty, _⟩
  · exact hlt
  · exact absurd (List.isEmpty_iff.mp hempty) hne

namespace Machine

def Aimed (m : Machine) : Prop := m.isRunning → m.program.isAddress m.registers.ip

variable {program : Program} {m : Machine} {here : Located}

theorem aimed_goTo (m : Machine) (target : Address) : (m.goTo target).Aimed := by
  intro hr
  unfold goTo at hr ⊢
  dsimp only at hr ⊢
  split at hr
  · next ha =>
    rw [if_pos ha]
    exact ha
  · cases hr

theorem exists_goOn_eq_goTo (m : Machine) (here : Located) (succeeded : Bool) :
    ∃ (m' : Machine) (target : Address), m.goOn here succeeded = m'.goTo target := by
  unfold goOn
  split
  · exact ⟨_, _, rfl⟩
  · split
    · exact ⟨_, _, rfl⟩
    · exact ⟨_, _, rfl⟩

/-- A step ends by going somewhere. -/
theorem step?_aimed {now : Nat} {stepped : Stepped} (hs : step? { now } m = some stepped) :
    stepped.machine.Aimed := by
  rcases step?_eq_some hs with ⟨e, target, _, rfl⟩ | ⟨here, _, rfl⟩
  · exact aimed_goTo m target
  · dsimp only [Stepped.after]
    split
    · exact aimed_goTo _ _
    · obtain ⟨m', target, he⟩ := exists_goOn_eq_goTo
        (handle { now } { m with jumped := false } here).machine here
        (handle { now } { m with jumped := false } here).error.isNone
      rw [he]
      exact aimed_goTo m' target

theorem Reachable.aimed (h : Reachable program m) (hne : program.code ≠ [])
    (hc : program.check = .ok ()) : m.Aimed := by
  cases h with
  | start => exact fun _ => program.isAddress_entry hne hc
  | step now _ hs => exact step?_aimed hs

theorem Aimed.exists_decode (h : m.Aimed) (hc : m.program.check = .ok ()) (hr : m.isRunning) :
    ∃ here, m.decode m.registers.ip = .ok here := by
  obtain ⟨instr, hd⟩ := Program.exists_decode_of_check hc (h hr)
  exact ⟨⟨m.registers.ip.toNat, instr⟩, by rw [decode, hd]⟩

theorem halted_of_step?_eq_none {host : Host} (h : m.Aimed) (hs : step? host m = none) :
    m.registers.status = .halted := by
  by_cases hr : m.isRunning
  · obtain ⟨stepped, he⟩ := exists_step? host hr (h hr)
    rw [hs] at he
    cases he
  · cases hst : m.registers.status with
    | halted => rfl
    | running => simp [isRunning, hst] at hr

def Blamed (program : Program) (e : MachineError) : Prop :=
  ∃ here : Located, program.decode here.address = .ok here.instr ∧ e.Blames here

/-- A step that can decode its instruction logs at most that the instruction asks for what it cannot
have. -/
theorem step?_blames (h : m.WellScoped) (hd : m.decode m.registers.ip = .ok here) {now : Nat}
    {stepped : Stepped} (hs : step? { now } m = some stepped) {e : MachineError}
    (he : stepped.logged = some e) : e.Blames here := by
  rcases step?_eq_some hs with ⟨e', target, hfail, _⟩ | ⟨here', hd', rfl⟩
  · rw [hd] at hfail
    cases hfail
  · obtain rfl : here = here' := by simpa [hd] using hd'
    obtain ⟨raw, hf, hr, _⟩ := decode_eq_ok hd
    have hw : ({ m with jumped := false } : Machine).WellScoped := h.congr rfl rfl rfl rfl
    exact (handle_sane { now } hw hf hr).blames e he

theorem Reachable.blamed (h : Reachable program m) (hd : m.decode m.registers.ip = .ok here)
    {now : Nat} {stepped : Stepped} (hs : step? { now } m = some stepped) {e : MachineError}
    (he : stepped.logged = some e) : Blamed program e := by
  obtain ⟨hw, rfl⟩ := h.wellScoped
  exact ⟨here, decode_located hd, step?_blames hw hd hs he⟩

/-- A run of a checked program does not stall, whatever was logged before. -/
theorem Reachable.runFrom_safe (hne : program.code ≠ []) (hc : program.check = .ok ())
    (now budget steps : Nat) (logged : List MachineError) (h : Reachable program m)
    (hl : ∀ e ∈ logged, Blamed program e) :
    (runFrom { now } budget steps logged m).ending ≠ .stalled ∧
      ∀ e ∈ (runFrom { now } budget steps logged m).logged, Blamed program e := by
  have hlr : ∀ e ∈ logged.reverse, Blamed program e := fun e he => hl e (List.mem_reverse.mp he)
  induction budget generalizing m steps logged with
  | zero =>
    rw [runFrom]
    split
    · exact ⟨by simp, hlr⟩
    · exact ⟨by simp, hlr⟩
  | succ budget ih =>
    rw [runFrom]
    split
    · exact ⟨by simp, hlr⟩
    · next hr =>
      have hrun : m.isRunning := by simpa using hr
      have ha := h.aimed hne hc
      obtain ⟨stepped, hs⟩ := exists_step? { now } hrun (ha hrun)
      obtain ⟨here, hd⟩ := ha.exists_decode (h.wellScoped.2 ▸ hc) hrun
      rw [hs]
      have hnew : ∀ e ∈ stepped.logged.toList ++ logged, Blamed program e := by
        intro e he
        rcases List.mem_append.mp he with he | he
        · exact h.blamed hd hs (Option.mem_toList.mp he)
        · exact hl e he
      exact ih (steps + 1) _ (.step now h hs) hnew fun e he => hnew e (List.mem_reverse.mp he)

/-- A checked program runs until it halts or has used up its budget. While it runs there is an
instruction to decode, and all that is logged is that instructions ask for what they cannot have. -/
theorem checked_never_stuck (hne : program.code ≠ []) (hc : program.check = .ok ())
    (h : Reachable program m) :
    (m.isRunning → program.isAddress m.registers.ip ∧ ∃ here, m.decode m.registers.ip = .ok here) ∧
      (∀ now, step? { now } m = none → m.registers.status = .halted) ∧
      (∀ now stepped, step? { now } m = some stepped →
        ∃ here, m.decode m.registers.ip = .ok here ∧ ∀ e, stepped.logged = some e → e.Blames here) ∧
      ∀ now budget, (run { now } budget m).ending ≠ .stalled ∧
        ∀ e ∈ (run { now } budget m).logged, Blamed program e := by
  obtain ⟨hw, rfl⟩ := h.wellScoped
  have ha := h.aimed hne hc
  refine ⟨fun hr => ⟨ha hr, ha.exists_decode hc hr⟩,
    fun now hs => halted_of_step?_eq_none ha hs, ?_, ?_⟩
  · intro now stepped hs
    obtain ⟨here, hd⟩ := ha.exists_decode hc (isRunning_of_step? hs)
    exact ⟨here, hd, fun e he => step?_blames hw hd hs he⟩
  · intro now budget
    exact h.runFrom_safe hne hc now budget 0 [] (by simp)

/-- A state without a name, and a link that is in no scope. -/
def misfits : Program :=
  { entry := 0
    symbols := []
    text := []
    code :=
      [(0, { op := .context .state, next := [1] }),
        (1, { op := .link, id := some "Return", next := [-1] })] }

theorem checked_never_stuck_misfits :
    misfits.check = .ok () ∧
      (run {} 5 (start misfits)).logged = [.missingId (.context .state) 0, .rogueReturn 1] ∧
      (run {} 5 (start misfits)).ending ≠ .stalled ∧
      ∀ e ∈ (run {} 5 (start misfits)).logged, Blamed misfits e := by
  have hc : misfits.check = .ok () := rfl
  obtain ⟨_, _, _, hrun⟩ := checked_never_stuck (by decide) hc Reachable.start
  exact ⟨hc, by decide +kernel, hrun 0 5⟩

end Machine

end GlyphScript
