import GlyphScript.Proofs.Machine.Crossing

/-! # All that a step can do to the open scopes

A step at an instruction goes to an address and leaves the open scopes in one of seven ways. What
holds of all steps has a case for each of them.
-/

namespace GlyphScript

/-- A scope after the instruction at an address has worked in it and stayed: its trigger, its cycle
and its detour are the same, and so are the cursors of all other instructions. -/
structure Scope.Alike (a : Nat) (s s' : Scope) : Prop where
  address : s'.address = s.address
  cycle : s'.cycle = s.cycle
  detour : s'.detour = s.detour
  cursor : ∀ b, b ≠ a → s'.cursor b = s.cursor b

theorem Scope.alike_setCursor (a n : Nat) (s : Scope) : Alike a s (s.setCursor a n) :=
  ⟨rfl, rfl, rfl, fun b hb => by rw [cursor_setCursor, if_neg hb]⟩

namespace Machine

def unvisited (program : Program) (a : Nat) (instr : Instruction String) (s : Scope) :
    List Address :=
  program.targets a (instr.tags.drop (s.cursor a))

/-- Whether an instruction in a scope jumps elsewhere than into a body of its own: the trigger of
the scope does, a shut anchor, a link that returns, and an instruction with a target left to
visit. -/
def Diverts (m : Machine) (a : Nat) (instr : Instruction String) (s : Scope) : Prop :=
  (instr.op = .trigger ∧ s.address = a) ∨ (instr.op = .anchor ∧ m.shut instr = true) ∨
    (instr.op = .link ∧ linkMode instr = "Return") ∨
    (Visits instr true ∧ unvisited m.program a instr s ≠ [])

instance (instr : Instruction String) (inside : Bool) : Decidable (Visits instr inside) :=
  inferInstanceAs (Decidable (_ ∨ _ ∨ _))

instance (m : Machine) (a : Nat) (instr : Instruction String) (s : Scope) :
    Decidable (m.Diverts a instr s) :=
  inferInstanceAs (Decidable (_ ∨ _ ∨ _ ∨ _))

inductive Stayed (a : Nat) : List Scope → List Scope → Prop where
  | outside : Stayed a [] []
  | inside {s s' : Scope} {rest : List Scope} : Scope.Alike a s s' →
      Stayed a (s :: rest) (s' :: rest)

theorem Stayed.refl (a : Nat) (scopes : List Scope) : Stayed a scopes scopes := by
  cases scopes with
  | nil => exact .outside
  | cons s rest => exact .inside ⟨rfl, rfl, rfl, fun _ _ => rfl⟩

theorem stayed_executing (a : Nat) (scopes : List Scope) : Stayed a scopes (executing scopes) := by
  cases scopes with
  | nil => exact .outside
  | cons s rest => exact .inside ⟨rfl, rfl, rfl, fun _ _ => rfl⟩

inductive Transition (m : Machine) (a : Nat) (instr : Instruction String) :
    Address → List Scope → Prop where
  | goesOn {scopes : List Scope} (succeeded : Bool) : Stayed a m.scopes scopes →
      (∀ s ∈ m.scopes.head?, ¬ m.Diverts a instr s) →
      Transition m a instr (onward a instr scopes succeeded) (settled scopes a)
  | departs {s : Scope} {rest : List Scope} {c : Nat} {t : Address} : m.scopes = s :: rest →
      Visits instr true →
      nextTarget m.program a (s.cursor a) (instr.tags.drop (s.cursor a)) = (c, some t) →
      Transition m a instr t (s.depart a c t :: rest)
  | opens {s : Scope} : instr.op = .trigger → (∀ s ∈ m.scopes.head?, s.address ≠ a) →
      Scope.Fresh a instr 0 s → Transition m a instr instr.first (s :: m.scopes)
  | repeats {s : Scope} {rest : List Scope} : m.scopes = s :: rest → instr.op = .trigger →
      s.address = a →
      s.cycle.count + 1 < s.cycle.maxim → Transition m a instr s.cycle.start (s.renew :: rest)
  | closes {s : Scope} {rest : List Scope} : m.scopes = s :: rest → instr.op = .trigger →
      s.address = a → ¬ s.cycle.count + 1 < s.cycle.maxim →
      Transition m a instr ((pending rest a).getD s.cycle.ret) (settled rest a)
  | skips : instr.op = .anchor → m.shut instr = true → Transition m a instr instr.second m.scopes
  | goesBack {s : Scope} {rest : List Scope} : m.scopes = s :: rest → instr.op = .link →
      linkMode instr = "Return" → s.address ≠ a → Transition m a instr s.address m.scopes

def Passes (now : Nat) (m : Machine) (a : Nat) (instr : Instruction String) : Prop :=
  ∃ x scopes, Transition m a instr x scopes ∧ StepsTo now m.program m x scopes

section Instructions

variable {m : Machine} {a now : Nat} {instr : Instruction String}

theorem Diverts.ops {s : Scope} (h : m.Diverts a instr s) :
    instr.op = .trigger ∨ instr.op = .anchor ∨ instr.op = .link ∨ instr.op = .speech ∨
      instr.op = .signal := by
  rcases h with ⟨hop, _⟩ | ⟨hop, _⟩ | ⟨hop, _⟩ | ⟨hop | hop | ⟨hop, _⟩, _⟩ <;> simp [hop]

/-- The trigger of an open scope is an instruction of the program. -/
theorem WellScoped.trigger (h : m.WellScoped) {s : Scope} (hs : s ∈ m.scopes) :
    ∃ raw, m.program.fetch? s.address = some raw ∧ raw.op = .trigger := by
  have hmem : some s ∈ m.scoping := by
    simpa [scopes, openScopes] using hs
  obtain ⟨raw, hf, hop, _⟩ := (h.fits s hmem).trigger
  exact ⟨raw, hf, hop⟩

variable (h : Stands m.program m a m.scopes) (hd : m.program.decode a = .ok instr)

include h hd

theorem trigger_passes (hop : instr.op = .trigger) : Passes now m a instr := by
  by_cases hin : ∃ s ∈ m.scopes.head?, s.address = a
  · obtain ⟨s, hs, ha⟩ := hin
    obtain ⟨rest, hscopes⟩ := List.head?_eq_some_iff.mp hs
    rw [hscopes] at h
    by_cases hcount : s.cycle.count + 1 < s.cycle.maxim
    · exact ⟨_, _, .repeats hscopes hop ha hcount, h.repeats hd hop ha hcount⟩
    · exact ⟨_, _, .closes hscopes hop ha hcount, h.closes hd hop ha hcount⟩
  · have hout : ∀ s ∈ m.scopes.head?, s.address ≠ a := fun s hs ha => hin ⟨s, hs, ha⟩
    obtain ⟨s, hfresh, hstep⟩ := h.opens now hd hop hout
    exact ⟨_, _, .opens hop hout hfresh, hstep⟩

theorem anchor_passes (hop : instr.op = .anchor) : Passes now m a instr := by
  cases hshut : m.shut instr with
  | true => exact ⟨_, _, .skips hop hshut, h.skips hd hop hshut⟩
  | false =>
    refine ⟨_, _, .goesOn true (.refl a m.scopes) ?_, h.doesNotSkip hd hop hshut⟩
    rintro s _ (⟨hop', _⟩ | ⟨_, hshut'⟩ | ⟨hop', _⟩ | ⟨hop' | hop' | ⟨hop', _⟩, _⟩)
    · simp [hop] at hop'
    · simp [hshut] at hshut'
    all_goals simp [hop] at hop'

theorem visits_passes (hv : Visits instr (!m.scopes.isEmpty))
    (hmode : instr.op = .link → linkMode instr = "Inheritance") : Passes now m a instr := by
  cases hscopes : m.scopes with
  | nil =>
    have ht : visited m.program ⟨a, instr⟩ m.scopes = (none, []) := by
      rw [hscopes]
      rfl
    refine ⟨_, _, .goesOn true (by rw [hscopes]; exact .outside) ?_, h.hasVisited hd hv ht⟩
    simp [hscopes]
  | cons s rest =>
    have hv' : Visits instr true := by simpa [hscopes] using hv
    cases hnext : nextTarget m.program a (s.cursor a) (instr.tags.drop (s.cursor a)) with
    | mk c target =>
      cases target with
      | some t =>
        have ht : visited m.program ⟨a, instr⟩ m.scopes = (some t, s.depart a c t :: rest) := by
          simp only [hscopes, visited, hnext]
        exact ⟨_, _, .departs hscopes hv' hnext, h.departs hd hv ht⟩
      | none =>
        have ht : visited m.program ⟨a, instr⟩ m.scopes = (none, s.setCursor a c :: rest) := by
          simp only [hscopes, visited, hnext]
        refine ⟨_, _, .goesOn true (by rw [hscopes]; exact .inside (s.alike_setCursor a c)) ?_,
          h.hasVisited hd hv ht⟩
        rw [hscopes]
        rintro s' ⟨⟩ (⟨hop, _⟩ | ⟨hop, _⟩ | ⟨hop, hreturn⟩ | ⟨_, hleft⟩)
        · simp [Visits, hop] at hv
        · simp [Visits, hop] at hv
        · simp [hmode hop] at hreturn
        · exact hleft (nextTarget_none hnext)

theorem link_passes (hop : instr.op = .link) : Passes now m a instr := by
  by_cases hscopes : m.scopes = []
  · refine ⟨_, _, .goesOn false (.refl a m.scopes) ?_, h.failsToLink hd hop (.inl hscopes)⟩
    simp [hscopes]
  by_cases hi : linkMode instr = "Inheritance"
  · exact visits_passes h hd (.inr (.inr ⟨hop, hi, by simpa using hscopes⟩)) fun _ => hi
  by_cases hr : linkMode instr = "Return"
  · obtain ⟨s, rest, hs⟩ := List.exists_cons_of_ne_nil hscopes
    -- A link that returns never stands at the address of its scope, where a trigger is.
    have haway : s.address ≠ a := by
      rintro rfl
      obtain ⟨raw, hf, htrigger⟩ := h.wellScoped.trigger (s := s) (by simp [hs])
      obtain ⟨raw', hf', hshape⟩ := Program.decode_eq_ok hd
      cases hf.symm.trans hf'
      simp [← hshape.op, hop] at htrigger
    have hback := h
    rw [hs] at hback
    refine ⟨_, _, .goesBack hs hop hr haway, ?_⟩
    rw [hs]
    exact hback.goesBack hd hop hr haway
  · refine ⟨_, _, .goesOn false (.refl a m.scopes) ?_, h.failsToLink hd hop (.inr ⟨hi, hr⟩)⟩
    rintro s _ (⟨hop', _⟩ | ⟨hop', _⟩ | ⟨_, hr'⟩ | ⟨hop' | hop' | ⟨_, hi', _⟩, _⟩)
    · simp [hop] at hop'
    · simp [hop] at hop'
    · exact hr hr'
    · simp [hop] at hop'
    · simp [hop] at hop'
    · exact hi hi'

theorem passes : Passes now m a instr := by
  cases hop : instr.op with
  | trigger => exact trigger_passes h hd hop
  | anchor => exact anchor_passes h hd hop
  | link => exact link_passes h hd hop
  | speech => exact visits_passes h hd (.inl hop) (by simp [hop])
  | signal => exact visits_passes h hd (.inr (.inl hop)) (by simp [hop])
  | unknown glyph =>
    refine ⟨_, _, .goesOn true (.refl a m.scopes) ?_, h.ignores hd hop⟩
    intro s _ hdiverts
    simpa [hop] using hdiverts.ops
  | context kind =>
    have hstays : ∀ s ∈ m.scopes.head?, ¬ m.Diverts a instr s := by
      intro s _ hdiverts
      simpa [hop] using hdiverts.ops
    cases hid : instr.id with
    | none => exact ⟨_, _, .goesOn false (.refl a m.scopes) hstays, h.describes_nothing hd hop hid⟩
    | some id =>
      exact ⟨_, _, .goesOn true (stayed_executing a m.scopes) hstays,
        h.describes hd hop (by rw [hid]; rfl)⟩

end Instructions

theorem stands_of_step? {m : Machine} {now : Nat} {stepped : Stepped} (h : m.WellScoped)
    (hs : step? { now } m = some stepped) : Stands m.program m m.registers.ip m.scopes := by
  have hrun := isRunning_of_step? hs
  have haddress : m.program.isAddress m.registers.ip := by
    cases hf : m.program.fetch? m.registers.ip with
    | none =>
      rw [step?, hrun, hf] at hs
      cases hs
    | some raw =>
      rw [Program.isAddress, hf]
      rfl
  refine ⟨h, rfl, rfl, ?_, rfl⟩
  rw [if_pos haddress]
  exact of_decide_eq_true hrun

/-- Each step of a program that passes the check is a transition of the instruction at hand. -/
theorem transition_of_step? {m : Machine} {now : Nat} {stepped : Stepped}
    (hcheck : m.program.check = .ok ()) (h : m.WellScoped) (hs : step? { now } m = some stepped) :
    ∃ (a : Nat) (instr : Instruction String) (x : Address) (scopes : List Scope),
      m.registers.ip = a ∧ m.program.decode a = .ok instr ∧ Transition m a instr x scopes ∧
      Stands m.program stepped.machine x scopes := by
  have hstands := stands_of_step? h hs
  have haddress : m.program.isAddress m.registers.ip := by
    rw [← hstands.isRunning]
    exact isRunning_of_step? hs
  obtain ⟨instr, hd⟩ := Program.exists_decode_of_check hcheck haddress
  obtain ⟨raw, hf, _⟩ := Program.decode_eq_ok hd
  obtain ⟨a, ha⟩ := Int.eq_ofNat_of_zero_le (Program.fetch?_nonneg hf)
  rw [ha] at hstands hd
  have hpasses : Passes now m a instr := passes hstands hd
  obtain ⟨x, scopes, ht, stepped', hs', hstands'⟩ := hpasses
  obtain rfl := Option.some.inj (hs.symm.trans hs')
  exact ⟨a, instr, x, scopes, ha, hd, ht, hstands'⟩

end Machine

end GlyphScript
