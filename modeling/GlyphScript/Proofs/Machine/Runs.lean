import GlyphScript.Proofs.Machine.Steps

/-! # Runs and what they execute

A run spends its budget step by step, all at one time. Steps may also be made at different times, as
a clock tells. Steps at one time that lead to a halted machine are what any budget of at least their
number gives.
-/

namespace GlyphScript.Machine

def executed (host : Host) : Nat → Machine → List Address
  | 0, _ => []
  | n + 1, m =>
    match step? host m with
    | some stepped => m.registers.ip :: executed host n stepped.machine
    | none => []

/-- Steps from one machine to another, with the addresses that they execute. The clock gives the
time of each step, of which the first one has a number. -/
inductive Runs (clock : Nat → Nat) : Nat → Machine → List Address → Machine → Prop where
  | nil (i : Nat) (m : Machine) : Runs clock i m [] m
  | cons {i : Nat} {m m' : Machine} {stepped : Stepped} {as : List Address} :
      step? { now := clock i } m = some stepped → Runs clock (i + 1) stepped.machine as m' →
      Runs clock i m (m.registers.ip :: as) m'

/-- What a budget brings about: a machine halts, has nothing left to spend or stalls, or it makes a
step and goes on with one less. -/
inductive Spends (host : Host) : Nat → Machine → Run → Prop where
  | halted {n : Nat} {m : Machine} : m.isRunning = false → Spends host n m ⟨m, .halted, 0, []⟩
  | exhausted {m : Machine} : m.isRunning = true → Spends host 0 m ⟨m, .exhausted, 0, []⟩
  | stalled {n : Nat} {m : Machine} : m.isRunning = true → step? host m = none →
      Spends host (n + 1) m ⟨m, .stalled, 0, []⟩
  | step {n : Nat} {m : Machine} {stepped : Stepped} {r : Run} : step? host m = some stepped →
      Spends host n stepped.machine r →
      Spends host (n + 1) m ⟨r.machine, r.ending, r.steps + 1, stepped.logged.toList ++ r.logged⟩

variable {host : Host} {clock : Nat → Nat} {now i n : Nat} {m m' m'' : Machine}
  {as bs : List Address} {r r' : Run}

theorem step?_of_halted (hm : m.isRunning = false) : step? host m = none := by
  simp [step?, hm]

theorem executed_of_step?_none (hs : step? host m = none) (n : Nat) : executed host n m = [] := by
  cases n with
  | zero => rfl
  | succ n => rw [executed, hs]

theorem steps_of_step?_none (hs : step? host m = none) (n : Nat) : steps host n m = m := by
  cases n with
  | zero => rfl
  | succ n => rw [steps, hs]

theorem spends_runFrom (host : Host) (n : Nat) (m : Machine) :
    ∃ r, Spends host n m r ∧ ∀ steps logged, runFrom host n steps logged m =
      ⟨r.machine, r.ending, steps + r.steps, logged.reverse ++ r.logged⟩ := by
  induction n generalizing m with
  | zero =>
    cases hm : m.isRunning with
    | false => exact ⟨_, .halted hm, fun steps logged => by simp [runFrom, hm]⟩
    | true => exact ⟨_, .exhausted hm, fun steps logged => by simp [runFrom, hm]⟩
  | succ n ih =>
    cases hm : m.isRunning with
    | false => exact ⟨_, .halted hm, fun steps logged => by simp [runFrom, hm]⟩
    | true =>
      cases hs : step? host m with
      | none => exact ⟨_, .stalled hm hs, fun steps logged => by simp [runFrom, hm, hs]⟩
      | some stepped =>
        obtain ⟨r, hr, hrun⟩ := ih stepped.machine
        refine ⟨_, .step hs hr, ?_⟩
        intro steps logged
        -- The errors are kept with the latest first, and at most one is added by a step.
        have hlogged : stepped.logged.toList.reverse = stepped.logged.toList := by
          cases stepped.logged <;> rfl
        simp [runFrom, hm, hs, hrun, hlogged, Nat.add_comm, Nat.add_left_comm]

theorem spends_run (host : Host) (n : Nat) (m : Machine) : Spends host n m (run host n m) := by
  obtain ⟨r, hr, hrun⟩ := spends_runFrom host n m
  have he : run host n m = r := by simp [run, hrun]
  exact he ▸ hr

namespace Spends

theorem unique (h : Spends host n m r) (h' : Spends host n m r') : r = r' := by
  induction h generalizing r' with
  | halted hm =>
    cases h' with
    | halted => rfl
    | exhausted hm' => simp [hm] at hm'
    | stalled hm' => simp [hm] at hm'
    | step hs => simp [isRunning_of_step? hs] at hm
  | exhausted hm =>
    cases h' with
    | halted hm' => simp [hm] at hm'
    | exhausted => rfl
  | stalled hm hs =>
    cases h' with
    | halted hm' => simp [hm] at hm'
    | stalled => rfl
    | step hs' => simp [hs] at hs'
  | step hs _ ih =>
    cases h' with
    | halted hm => simp [isRunning_of_step? hs] at hm
    | stalled _ hs' => simp [hs] at hs'
    | step hs' h' =>
      obtain rfl := Option.some.inj (hs.symm.trans hs')
      obtain rfl := ih h'
      rfl

theorem run_eq (h : Spends host n m r) : run host n m = r := (spends_run host n m).unique h

theorem machine_eq (h : Spends host n m r) : r.machine = Machine.steps host n m := by
  induction h with
  | halted hm => rw [steps_of_step?_none (step?_of_halted hm)]
  | exhausted => rfl
  | stalled _ hs => rw [steps_of_step?_none hs]
  | step hs _ ih => simp only [Machine.steps, hs, ih]

end Spends

/-- Steps without regard to how they end leave the machine of a run. -/
theorem machine_run (host : Host) (n : Nat) (m : Machine) :
    (run host n m).machine = steps host n m :=
  (spends_run host n m).machine_eq

namespace Runs

theorem append (h : Runs clock i m as m') (h' : Runs clock (i + as.length) m' bs m'') :
    Runs clock i m (as ++ bs) m'' := by
  induction h with
  | nil i m => exact h'
  | cons hs _ ih =>
    refine .cons hs (ih ?_)
    rw [Nat.add_right_comm]
    exact h'

/-! A clock that stands still is that of a run with a budget. -/

theorem executed_eq (h : Runs (fun _ => now) i m as m') (hm : m'.isRunning = false) {n : Nat}
    (hn : as.length ≤ n) : executed { now } n m = as := by
  induction h generalizing n with
  | nil i m => exact executed_of_step?_none (step?_of_halted hm) n
  | cons hs _ ih =>
    cases n with
    | zero => simp at hn
    | succ n =>
      rw [executed, hs]
      dsimp only
      rw [ih hm (Nat.le_of_succ_le_succ hn)]

theorem spends (h : Runs (fun _ => now) i m as m') (hm : m'.isRunning = false) {n : Nat}
    (hn : as.length ≤ n) : ∃ logged, Spends { now } n m ⟨m', .halted, as.length, logged⟩ := by
  induction h generalizing n with
  | nil i m => exact ⟨[], .halted hm⟩
  | cons hs _ ih =>
    cases n with
    | zero => simp at hn
    | succ n =>
      obtain ⟨logged, hspends⟩ := ih hm (Nat.le_of_succ_le_succ hn)
      exact ⟨_, .step hs hspends⟩

theorem run_eq (h : Runs (fun _ => now) i m as m') (hm : m'.isRunning = false) {n : Nat}
    (hn : as.length ≤ n) : ∃ logged, run { now } n m = ⟨m', .halted, as.length, logged⟩ := by
  obtain ⟨logged, hspends⟩ := h.spends hm hn
  exact ⟨logged, hspends.run_eq⟩

end Runs

theorem StepsTo.runs {program : Program} {x y : Address} {scopes scopes' : List Scope}
    (hs : StepsTo (clock i) program m y scopes') (h : Stands program m x scopes) :
    ∃ m', Runs clock i m [x] m' ∧ Stands program m' y scopes' := by
  obtain ⟨stepped, hstep, hstands⟩ := hs
  exact ⟨stepped.machine, h.ip ▸ .cons hstep (.nil _ _), hstands⟩

end GlyphScript.Machine
