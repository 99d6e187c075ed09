import GlyphScript.Proofs.Machine.Runs

/-! # Budgets

A budget can be spent at once or in parts. Only the ending of the parts needs care: a run that
stalls is cut short by an empty budget behind it, which cannot tell a stalled machine from one that
could go on.
-/

namespace GlyphScript.Machine

/-- Two runs as one. What comes behind a stalled run changes nothing. -/
def Run.followedBy (first second : Run) : Run where
  machine := second.machine
  ending := if first.ending = .stalled then .stalled else second.ending
  steps := first.steps + second.steps
  logged := first.logged ++ second.logged

variable {host : Host} {n a b : Nat} {m : Machine} {r first second : Run}

namespace Spends

theorem steps_le (h : Spends host n m r) : r.steps ≤ n := by
  induction h with
  | halted => exact Nat.zero_le _
  | exhausted => exact Nat.le_refl _
  | stalled => exact Nat.zero_le _
  | step _ _ ih => exact Nat.succ_le_succ ih

/-- The count is that of the instructions that were executed. -/
theorem steps_eq (h : Spends host n m r) : r.steps = (executed host n m).length := by
  induction h with
  | halted hm => rw [executed_of_step?_none (step?_of_halted hm), List.length_nil]
  | exhausted => rfl
  | stalled _ hs => rw [executed_of_step?_none hs, List.length_nil]
  | step hs _ ih => rw [executed, hs]; simp [ih]

/-- How a run ends can be seen from where it ends. -/
theorem ending (h : Spends host n m r) :
    (r.ending = .halted ↔ r.machine.isRunning = false) ∧
      (r.ending = .exhausted ↔ r.machine.isRunning = true ∧ r.steps = n) ∧
      (r.ending = .stalled ↔ r.machine.isRunning = true ∧ r.steps < n) ∧
      (r.ending = .stalled → step? host r.machine = none) := by
  induction h with
  | halted hm => simp [hm]
  | exhausted hm => simp [hm]
  | stalled hm hs => simp [hm, hs]
  | step _ _ ih => simpa using ih

/-- A budget can be spent in two parts. -/
theorem add (h : Spends host a m first) (h' : Spends host b first.machine second) :
    Spends host (a + b) m (first.followedBy second) := by
  induction h with
  | halted hm =>
    obtain rfl := h'.unique (.halted hm)
    exact .halted hm
  | exhausted hm => simpa [Run.followedBy] using h'
  | @stalled n m hm hs =>
    have he : Run.followedBy ⟨m, .stalled, 0, []⟩ second = ⟨m, .stalled, 0, []⟩ := by
      cases b with
      | zero => obtain rfl := h'.unique (.exhausted hm); rfl
      | succ b => obtain rfl := h'.unique (.stalled hm hs); rfl
    rw [he, Nat.succ_add]
    exact .stalled hm hs
  | step hs _ ih =>
    have hstep := Spends.step hs (ih h')
    simpa [Run.followedBy, Nat.succ_add, Nat.add_right_comm] using hstep

/-- A stalled machine stalls again, if there is anything to spend. -/
theorem ending_again (h : Spends host a m first) (hstalled : first.ending = .stalled)
    (h' : Spends host b first.machine second) (hb : 1 ≤ b) : second.ending = .stalled := by
  obtain ⟨_, _, hiff, hidle⟩ := h.ending
  cases b with
  | zero => cases hb
  | succ b => obtain rfl := h'.unique (.stalled (hiff.mp hstalled).1 (hidle hstalled)); rfl

end Spends

/-- Budgets compose: two runs in a row leave the machine, the count of steps and the errors of one
run with both budgets, and its ending as well unless the second budget is empty and the first run
has stalled. A run is a number of steps up to the first one that cannot be made. -/
theorem budgets_compose (host : Host) (m : Machine) (a b : Nat) :
    let first := run host a m
    let second := run host b first.machine
    let whole := run host (a + b) m
    second.machine = whole.machine ∧ first.steps + second.steps = whole.steps ∧
      first.logged ++ second.logged = whole.logged ∧ first.steps ≤ a ∧ second.steps ≤ b ∧
      (1 ≤ b ∨ first.ending = .exhausted ∨ first.ending = .halted → whole.ending = second.ending) ∧
      ∀ n, (run host n m).machine = steps host n m ∧
        (run host n m).steps = (executed host n m).length ∧
        ((run host n m).ending = .halted ↔ (steps host n m).isRunning = false) ∧
        ((run host n m).ending = .exhausted ↔
          (steps host n m).isRunning = true ∧ (executed host n m).length = n) := by
  intro first second whole
  have hfirst : Spends host a m first := spends_run host a m
  have hsecond : Spends host b first.machine second := spends_run host b first.machine
  have hwhole : whole = first.followedBy second := (hfirst.add hsecond).run_eq
  rw [hwhole]
  refine ⟨rfl, rfl, rfl, hfirst.steps_le, hsecond.steps_le, ?_, ?_⟩
  · intro hends
    by_cases hstalled : first.ending = .stalled
    · rcases hends with hb | he | he
      · exact (if_pos hstalled).trans (hfirst.ending_again hstalled hsecond hb).symm
      · cases hstalled.symm.trans he
      · cases hstalled.symm.trans he
    · exact if_neg hstalled
  · intro n
    have hn := spends_run host n m
    obtain ⟨hhalted, hexhausted, _⟩ := hn.ending
    rw [← machine_run, ← hn.steps_eq]
    exact ⟨rfl, rfl, hhalted, hexhausted⟩

/-- A step that halts the machine is not cut off by the budget that it uses up. -/
example : let program : Program :=
  { entry := 0, symbols := [], text := [], code := [(0, { op := .speech, next := [-1] })] }
    (run {} 1 (start program)).ending = .halted ∧
    (run {} 0 (start program)).ending = .exhausted := by
  decide

end GlyphScript.Machine
