import GlyphScript.Proofs.Machine.Transitions
import GlyphScript.Proofs.Program.Placement

/-! # Detours come back

An instruction that visits its tags leaves for a target, and the innermost scope remembers the way
back. Scopes that open at the target stand above that scope and close before control comes back. A
detour is lost exactly if its target diverts: if it is the trigger of the scope, a shut anchor, a
link that returns, or has targets of its own to visit. As long as none does, each instruction visits
all of its targets in order before control leaves it.
-/

namespace GlyphScript

/-- A scope after it has come back from a detour. The target may have moved its own cursor. -/
structure Scope.Back (d : Detour) (s s' : Scope) : Prop where
  address : s'.address = s.address
  cycle : s'.cycle = s.cycle
  detour : s'.detour = none
  cursor : ∀ b : Nat, (b : Address) ≠ d.target → s'.cursor b = s.cursor b

theorem Scope.Alike.back {a : Nat} {d : Detour} {s s' : Scope} (h : Alike a s s')
    (hd : d.target = a) : s.Back d { s' with detour := none } := by
  refine ⟨h.address, h.cycle, rfl, fun b hb => h.cursor b ?_⟩
  rintro rfl
  exact hb hd.symm

namespace Machine

/-- Control is where the detours of the open scopes have sent it: the innermost scope visits the
instruction at hand, and each scope around another one visits the trigger of the other. -/
def UnderWay : Address → List Scope → Prop
  | _, [] => True
  | x, s :: rest => (∀ d ∈ s.detour, d.target = x) ∧ UnderWay s.address rest

/-- What a step makes of the scopes if it loses no detour. -/
inductive Course (a : Nat) : List Scope → Address → List Scope → Prop where
  | outside (x : Address) : Course a [] x []
  | stays {s s' : Scope} {rest : List Scope} {x : Address} : s.detour = none →
      s'.address = s.address → (∀ d ∈ s'.detour, d.target = x) → Course a (s :: rest) x (s' :: rest)
  | opens {s : Scope} {scopes : List Scope} {x : Address} : s.address = a → s.detour = none →
      Course a scopes x (s :: scopes)
  | closes {s : Scope} {rest : List Scope} {x : Address} : s.address = a → s.detour = none →
      (∀ s' ∈ rest.head?, s'.detour = none) → Course a (s :: rest) x rest
  | comesBack {s s' : Scope} {rest : List Scope} {d : Detour} : s.detour = some d → d.target = a →
      s.Back d s' → Course a (s :: rest) d.resume (s' :: rest)
  | closesBack {c s s' : Scope} {rest : List Scope} {d : Detour} : c.address = a → c.detour = none →
      s.detour = some d → d.target = a → s.Back d s' →
      Course a (c :: s :: rest) d.resume (s' :: rest)

section Courses

variable {m : Machine} {a : Nat} {instr : Instruction String} {x : Address} {s : Scope} {d : Detour}
  {rest below before scopes : List Scope}

theorem Stayed.course (h : Stayed a before scopes) (hu : UnderWay a before) (succeeded : Bool) :
    Course a before (onward a instr scopes succeeded) (settled scopes a) := by
  cases h with
  | outside => exact .outside _
  | @inside s s' rest halike =>
    cases hd : s.detour with
    | none =>
      have hd' : s'.detour = none := halike.detour.trans hd
      rw [settled_none hd']
      exact .stays hd halike.address (by simp [hd'])
    | some d =>
      have htarget : d.target = a := hu.1 d hd
      have hd' : s'.detour = some ⟨a, d.resume⟩ := by rw [halike.detour, hd, ← htarget]
      rw [onward, pending_detour hd', settled_detour hd']
      exact .comesBack hd htarget (halike.back htarget)

theorem course_of_closes (ha : s.address = a) (hd : s.detour = none) (hu : UnderWay a rest)
    (ret : Address) : Course a (s :: rest) ((pending rest a).getD ret) (settled rest a) := by
  cases rest with
  | nil => exact .closes ha hd (by simp)
  | cons s₁ rest =>
    cases hd₁ : s₁.detour with
    | none =>
      rw [settled_none hd₁]
      exact .closes ha hd (by simpa using hd₁)
    | some d =>
      have htarget : d.target = a := hu.1 d hd₁
      have hd' : s₁.detour = some ⟨a, d.resume⟩ := by rw [hd₁, ← htarget]
      rw [pending_detour hd', settled_detour hd']
      exact .closesBack ha hd hd₁ htarget ⟨rfl, rfl, rfl, fun _ _ => rfl⟩

/-- The target that an instruction leaves for is the first one left, and not the instruction
itself. -/
theorem unvisited_depart {c : Nat} {t : Address}
    (h : nextTarget m.program a (s.cursor a) (instr.tags.drop (s.cursor a)) = (c, some t)) :
    unvisited m.program a instr s = t :: unvisited m.program a instr (s.depart a c t) ∧ t ≠ a := by
  obtain ⟨⟨hlt, _⟩, heq, tag, _, rfl, haway⟩ := nextTarget_some h
  have hcursor : (s.depart a c tag.address).cursor a = c := by
    change (s.setCursor a c).cursor a = c
    rw [Scope.cursor_setCursor, if_pos rfl]
  constructor
  · rw [unvisited, heq, unvisited, hcursor, List.drop_drop, Nat.add_sub_cancel' (Nat.le_of_lt hlt)]
  · rw [leadsAway_eq] at haway
    exact of_decide_eq_true (Bool.and_eq_true_iff.mp haway).2

theorem Transition.course (ht : Transition m a instr x scopes) (hu : UnderWay a m.scopes)
    (hfree : ∀ s ∈ m.scopes.head?, m.Diverts a instr s → s.detour = none) :
    Course a m.scopes x scopes := by
  cases ht with
  | goesOn succeeded hstay _ => exact hstay.course hu succeeded
  | departs hm hv hnext =>
    have hleft := (unvisited_depart hnext).1
    rw [hm] at hfree ⊢
    refine .stays (hfree _ rfl (.inr (.inr (.inr ⟨hv, by simp [hleft]⟩)))) rfl ?_
    rintro d ⟨⟩
    rfl
  | opens _ _ hfresh => exact .opens hfresh.address hfresh.detour
  | repeats hm hop ha _ =>
    rw [hm] at hfree ⊢
    exact .stays (hfree _ rfl (.inl ⟨hop, ha⟩)) rfl (by simp [Scope.renew])
  | closes hm hop ha _ =>
    rw [hm] at hfree hu ⊢
    exact course_of_closes ha (hfree _ rfl (.inl ⟨hop, ha⟩)) (ha ▸ hu.2) _
  | skips hop hshut =>
    cases hm : m.scopes with
    | nil => exact .outside _
    | cons s rest =>
      have hd : s.detour = none := hfree s (by rw [hm]; rfl) (.inr (.inl ⟨hop, hshut⟩))
      exact .stays hd rfl (by simp [hd])
  | goesBack hm hop hmode _ =>
    rw [hm] at hfree ⊢
    have hd := hfree _ rfl (.inr (.inr (.inl ⟨hop, hmode⟩)))
    exact .stays hd rfl (by simp [hd])

theorem Course.underWay (h : Course a before x scopes) (hu : UnderWay a before) :
    UnderWay x scopes := by
  cases h with
  | outside => trivial
  | stays _ ha hd => exact ⟨hd, ha ▸ hu.2⟩
  | opens ha hd => exact ⟨by simp [hd], ha ▸ hu⟩
  | closes ha _ hd =>
    cases scopes with
    | nil => trivial
    | cons s₁ rest => exact ⟨by simp [hd s₁ rfl], hu.2.2⟩
  | comesBack _ _ hback => exact ⟨by simp [hback.detour], hback.address ▸ hu.2⟩
  | closesBack _ _ _ _ hback => exact ⟨by simp [hback.detour], hback.address ▸ hu.2.2⟩

/-- A scope on a detour is left as it is, or its detour comes back. -/
theorem Course.kept_or_back {above : List Scope} (h : Course a before x scopes)
    (hb : before = above ++ s :: below) (hd : s.detour = some d) :
    (∃ above', scopes = above' ++ s :: below) ∨
      x = d.resume ∧ ∃ s', scopes = s' :: below ∧ s.Back d s' := by
  cases h with
  | outside => simp at hb
  | @stays s₀ s' _ _ hnone _ _ =>
    cases above with
    | nil =>
      cases hb
      simp [hnone] at hd
    | cons _ above =>
      cases hb
      exact .inl ⟨s' :: above, rfl⟩
  | @opens s' _ _ _ _ => exact .inl ⟨s' :: above, by rw [hb]; rfl⟩
  | closes _ hnone _ =>
    cases above with
    | nil =>
      cases hb
      simp [hnone] at hd
    | cons _ above =>
      cases hb
      exact .inl ⟨above, rfl⟩
  | @comesBack s₀ s' _ d₀ hd₀ _ hback =>
    cases above with
    | nil =>
      cases hb
      cases hd₀.symm.trans hd
      exact .inr ⟨rfl, s', rfl, hback⟩
    | cons _ above =>
      cases hb
      exact .inl ⟨s' :: above, rfl⟩
  | @closesBack c s₀ s' _ d₀ _ hnone hd₀ _ hback =>
    cases above with
    | nil =>
      cases hb
      simp [hnone] at hd
    | cons _ above =>
      cases above with
      | nil =>
        cases hb
        cases hd₀.symm.trans hd
        exact .inr ⟨rfl, s', rfl, hback⟩
      | cons _ above =>
        cases hb
        exact .inl ⟨s' :: above, rfl⟩

end Courses

/-! ## Steps -/

/-- The innermost scope visits the instruction at hand, and that instruction diverts. -/
def strays (m : Machine) : Bool :=
  match m.scope?, m.decode m.registers.ip with
  | some s, .ok here =>
    (s.detour.any fun d => d.target = m.registers.ip) &&
      decide (m.Diverts here.address here.instr s)
  | _, _ => false

def Waits (s : Scope) (below : List Scope) (m : Machine) : Prop :=
  UnderWay m.registers.ip m.scopes ∧ ∃ above, m.scopes = above ++ s :: below

def IsBack (d : Detour) (s : Scope) (below : List Scope) (m : Machine) : Prop :=
  m.registers.ip = d.resume ∧ ∃ s', m.scopes = s' :: below ∧ s.Back d s'

structure OnCourse (program : Program) (m : Machine) : Prop where
  wellScoped : m.WellScoped
  program_eq : m.program = program
  underWay : UnderWay m.registers.ip m.scopes

section Steps

variable {forest : Forest} {timestamp now : Nat} {program : Program} {m m' : Machine} {a : Nat}
  {instr : Instruction String} {stepped : Stepped} {s : Scope} {below : List Scope} {d : Detour}

theorem strays_iff (h : m.WellScoped) (hip : m.registers.ip = a)
    (hd : m.program.decode a = .ok instr) :
    m.strays = true ↔
      ∃ s ∈ m.scopes.head?, (∃ d ∈ s.detour, d.target = a) ∧ m.Diverts a instr s := by
  have hdecode : m.decode m.registers.ip = .ok ⟨a, instr⟩ := by
    rw [hip, Machine.decode, hd]
    rfl
  rw [strays, h.scope?_eq_head?, hdecode, hip]
  cases m.scopes.head? with
  | none => simp
  | some s =>
    cases hs : s.detour with
    | none => simp [hs]
    | some d => simp [hs]

theorem onCourse_start (program : Program) : OnCourse program (start program) :=
  ⟨Reachable.start.wellScoped.1, rfl, trivial⟩

/-- A step from a machine that does not stray loses no detour. -/
theorem OnCourse.step (h : OnCourse program m) (hcheck : program.check = .ok ())
    (hstray : m.strays = false) (hs : step? { now } m = some stepped) :
    OnCourse program stepped.machine ∧ ∀ above s below d, m.scopes = above ++ s :: below →
      s.detour = some d → Waits s below stepped.machine ∨ IsBack d s below stepped.machine := by
  obtain ⟨hw, rfl, hu⟩ := h
  obtain ⟨a, instr, x, scopes, hip, hd, ht, hstands⟩ := transition_of_step? hcheck hw hs
  rw [hip] at hu
  -- What diverts is not being visited, or the machine would stray.
  have hfree : ∀ s ∈ m.scopes.head?, m.Diverts a instr s → s.detour = none := by
    intro s hhead hdiverts
    cases hdetour : s.detour with
    | none => rfl
    | some d =>
      obtain ⟨rest, hm⟩ := List.head?_eq_some_iff.mp hhead
      rw [hm] at hu
      have htrue := (strays_iff hw hip hd).mpr ⟨s, hhead, ⟨d, hdetour, hu.1 d hdetour⟩, hdiverts⟩
      rw [hstray] at htrue
      cases htrue
  have hcourse := ht.course hu hfree
  have hu' : UnderWay stepped.machine.registers.ip stepped.machine.scopes := by
    rw [hstands.ip, hstands.scopes_eq]
    exact hcourse.underWay hu
  refine ⟨⟨hstands.wellScoped, hstands.program_eq, hu'⟩, ?_⟩
  intro above s below d hm hdetour
  rcases hcourse.kept_or_back hm hdetour with ⟨above', hkept⟩ | ⟨hx, s', hscopes, hback⟩
  · exact .inl ⟨hu', above', hstands.scopes_eq.trans hkept⟩
  · exact .inr ⟨hstands.ip.trans hx, s', hstands.scopes_eq.trans hscopes, hback⟩

theorem second_ne (h : compile forest timestamp = .ok program) (hd : program.decode a = .ok instr)
    (hop : instr.op = .anchor) : instr.second ≠ a := by
  obtain ⟨node, b, next, hp, hb, himage⟩ := compile_decode h hd
  obtain rfl : a = b := Int.ofNat_inj.mp hb
  rw [himage.second_eq (.inr (himage.op ▸ hop))]
  exact hp.successor_ne

theorem head_eq_of_append {above : List Scope} {s' : Scope}
    (h : s' :: below = above ++ s :: below) : s' = s := by
  cases above with
  | nil =>
    cases h
    rfl
  | cons _ above =>
    have hlength := congrArg List.length h
    simp only [List.length_cons, List.length_append] at hlength
    omega

theorem length_settled (scopes : List Scope) (x : Address) :
    (settled scopes x).length = scopes.length := by
  unfold settled
  split
  · exact List.length_modifyHead
  · rfl

/-- An instruction that diverts while it is visited leaves the detour behind: the scope is closed,
starts a new cycle or leaves on another detour, or control goes on elsewhere with the detour still
open. -/
theorem Transition.loses {x : Address} {scopes : List Scope} (ht : Transition m a instr x scopes)
    (hm : m.scopes = s :: below) (hdetour : s.detour = some d) (htarget : d.target = a)
    (hdiverts : m.Diverts a instr s) (hsecond : instr.op = .anchor → instr.second ≠ a) :
    ¬ (UnderWay x scopes ∧ ∃ above, scopes = above ++ s :: below) ∧
      ¬ ∃ s', scopes = s' :: below ∧ s.Back d s' := by
  -- Where the scopes stay as they are, the detour stays open, and control is not at its target any
  -- more.
  have hstill : ∀ s', s' :: below = m.scopes → ¬ s.Back d s' := by
    intro s' heq hback
    rw [hm] at heq
    cases heq
    simp [hback.detour] at hdetour
  have haway : ∀ y : Address, y ≠ a → ¬ UnderWay y m.scopes := by
    intro y hne hu
    rw [hm] at hu
    exact hne ((hu.1 d hdetour).symm.trans htarget)
  cases ht with
  | goesOn _ _ hstays => exact absurd hdiverts (hstays s (by rw [hm]; rfl))
  | departs hm' _ hnext =>
    cases hm.symm.trans hm'
    constructor
    · rintro ⟨_, above, heq⟩
      have hsame := congrArg Scope.detour (head_eq_of_append heq)
      rw [hdetour] at hsame
      cases hsame
      exact (unvisited_depart hnext).2 htarget
    · rintro ⟨s', heq, hback⟩
      cases heq
      cases hback.detour
  | opens hop hout _ =>
    rcases hdiverts with ⟨_, ha⟩ | ⟨hop', _⟩ | ⟨hop', _⟩ | ⟨hop' | hop' | ⟨hop', _⟩, _⟩
    · exact absurd ha (hout s (by rw [hm]; rfl))
    all_goals simp [hop] at hop'
  | repeats hm' _ _ _ =>
    cases hm.symm.trans hm'
    constructor
    · rintro ⟨_, above, heq⟩
      have hsame := congrArg Scope.detour (head_eq_of_append heq)
      rw [hdetour] at hsame
      cases hsame
    · rintro ⟨s', heq, hback⟩
      cases heq
      have hcount := congrArg Cycle.count hback.cycle
      exact absurd hcount (Nat.succ_ne_self _)
  | closes hm' _ _ _ =>
    cases hm.symm.trans hm'
    have hshorter : ∀ above s', settled below a ≠ above ++ s' :: below := by
      intro above s' heq
      have hlength := congrArg List.length heq
      rw [length_settled, List.length_append, List.length_cons] at hlength
      omega
    constructor
    · rintro ⟨_, above, heq⟩
      exact hshorter above s heq
    · rintro ⟨s', heq, _⟩
      exact hshorter [] s' heq
  | skips hop _ =>
    constructor
    · rintro ⟨hu, _⟩
      exact haway _ (hsecond hop) hu
    · rintro ⟨s', heq, hback⟩
      exact hstill s' heq.symm hback
  | goesBack hm' _ _ hne =>
    cases hm.symm.trans hm'
    constructor
    · rintro ⟨hu, _⟩
      exact haway _ (fun heq => hne (Int.ofNat_inj.mp heq)) hu
    · rintro ⟨s', heq, hback⟩
      exact hstill s' heq.symm hback

/-- A step from a machine that strays loses the detour of the innermost scope. -/
theorem OnCourse.lost (h : OnCourse program m) (hc : compile forest timestamp = .ok program)
    (hstray : m.strays = true) (hs : step? { now } m = some stepped) :
    ∃ s below d, m.scopes = s :: below ∧ s.detour = some d ∧
      ¬ Waits s below stepped.machine ∧ ¬ IsBack d s below stepped.machine := by
  obtain ⟨hw, rfl, _⟩ := h
  obtain ⟨a, instr, x, scopes, hip, hd, ht, hstands⟩ :=
    transition_of_step? (compile_checked hc) hw hs
  obtain ⟨s, hhead, ⟨d, hdetour, htarget⟩, hdiverts⟩ := (strays_iff hw hip hd).mp hstray
  obtain ⟨below, hm⟩ := List.head?_eq_some_iff.mp hhead
  obtain ⟨hwaits, hback⟩ := ht.loses hm hdetour htarget hdiverts (second_ne hc hd)
  refine ⟨s, below, d, hm, hdetour, ?_, ?_⟩
  · rwa [Waits, hstands.ip, hstands.scopes_eq]
  · rintro ⟨_, hscopes⟩
    rw [hstands.scopes_eq] at hscopes
    exact hback hscopes

end Steps

/-! ## Runs -/

/-- Steps from one machine to another, none of them from a machine that strays. -/
inductive Steady (m : Machine) : Machine → Prop where
  | refl : Steady m m
  | step {m' : Machine} {stepped : Stepped} (now : Nat) : Steady m m' → m'.strays = false →
      step? { now } m' = some stepped → Steady m stepped.machine

inductive Away (s : Scope) (below : List Scope) (m : Machine) : Machine → Prop where
  | leaves {stepped : Stepped} (now : Nat) : step? { now } m = some stepped →
      stepped.machine.scopes = s :: below →
      s.detour = some ⟨stepped.machine.registers.ip, m.registers.ip⟩ →
      Away s below m stepped.machine
  | stays {m' : Machine} {stepped : Stepped} (now : Nat) : Away s below m m' →
      step? { now } m' = some stepped →
      Waits s below stepped.machine → Away s below m stepped.machine

/-- Visits to some targets in order, from an instruction and back to it. -/
inductive Tour (a : Nat) (below : List Scope) (m : Machine) : List Address → Machine → Prop where
  | here : Tour a below m [] m
  | visit {s : Scope} {ts : List Address} {t : Address} {m₁ m₂ : Machine} {stepped : Stepped}
      (now : Nat) :
      Tour a below m ts m₁ → Away s below m₁ m₂ → s.detour = some ⟨t, a⟩ →
      step? { now } m₂ = some stepped →
      IsBack ⟨t, a⟩ s below stepped.machine → Tour a below m (ts ++ [t]) stepped.machine

/-- How far an instruction has come that has visited some targets and has others left: it is about
to visit the next one, away at it, or has none left and is done. -/
inductive Touring (program : Program) (a : Nat) (instr : Instruction String) (below : List Scope)
    (m : Machine) : List Address → List Address → Machine → Prop where
  | here {s : Scope} {done : List Address} {m' : Machine} : Tour a below m done m' →
      m'.registers.ip = a →
      m'.scopes = s :: below → Touring program a instr below m done (unvisited program a instr s) m'
  | away {s : Scope} {done : List Address} {t : Address} {m₁ m' : Machine} :
      Tour a below m done m₁ → Away s below m₁ m' → s.detour = some ⟨t, a⟩ → t ≠ a →
      Touring program a instr below m done (t :: unvisited program a instr s) m'
  | finished {done : List Address} {m₁ m' : Machine} {stepped : Stepped} (now : Nat) :
      Tour a below m done m₁ →
      step? { now } m₁ = some stepped → Steady stepped.machine m' →
      Touring program a instr below m done [] m'

section Runs

variable {forest : Forest} {timestamp now : Nat} {program : Program} {m m' : Machine} {a : Nat}
  {instr : Instruction String} {stepped : Stepped} {s : Scope} {below : List Scope} {d : Detour}

theorem OnCourse.steady (h : OnCourse program m) (hcheck : program.check = .ok ())
    (hs : Steady m m') : OnCourse program m' := by
  induction hs with
  | refl => exact h
  | step now _ hstray hstep ih => exact (ih.step hcheck hstray hstep).1

/-- A run that does not stray stays on a detour or comes back from it. -/
theorem OnCourse.waits_or_back (h : OnCourse program m) (hcheck : program.check = .ok ())
    (hs : Steady m m') (hw : Waits s below m) (hd : s.detour = some d) :
    Waits s below m' ∨ ∃ m₁, Steady m m₁ ∧ IsBack d s below m₁ ∧ Steady m₁ m' := by
  induction hs with
  | refl => exact .inl hw
  | @step m' stepped now hrun hstray hstep ih =>
    rcases ih with ⟨_, above, hscopes⟩ | ⟨m₁, h₁, hback, h₂⟩
    · rcases ((h.steady hcheck hrun).step hcheck hstray hstep).2 above s below d hscopes hd with
        hwaits | hback
      · exact .inl hwaits
      · exact .inr ⟨_, .step now hrun hstray hstep, hback, .refl⟩
    · exact .inr ⟨m₁, h₁, hback, .step now h₂ hstray hstep⟩

theorem Away.exists_above (h : Away s below m m') : ∃ above, m'.scopes = above ++ s :: below := by
  cases h with
  | leaves _ _ hscopes _ => exact ⟨[], hscopes⟩
  | stays _ _ _ hwaits => exact hwaits.2

theorem Visits.op_ne (hv : Visits instr true) :
    instr.op ≠ .trigger ∧ instr.op ≠ .anchor ∧
      (instr.op = .link → linkMode instr = "Inheritance") := by
  rcases hv with hop | hop | ⟨hop, hmode, _⟩
  · simp [hop]
  · simp [hop]
  · simp [hop, hmode]

namespace Touring

variable {done : List Address}

/-- Back at the instruction, a step leaves for the next target, or there is none. -/
theorem step_here (h : OnCourse program m') (hcheck : program.check = .ok ())
    (hd : program.decode a = .ok instr) (hv : Visits instr true) (ht : Tour a below m done m')
    (hip : m'.registers.ip = a) (hm : m'.scopes = s :: below)
    (hs : step? { now } m' = some stepped) :
    Touring program a instr below m done (unvisited program a instr s) stepped.machine := by
  obtain ⟨hw, rfl, _⟩ := h
  obtain ⟨b, instr', x, scopes, hip', hd', htrans, hstands⟩ := transition_of_step? hcheck hw hs
  obtain rfl : a = b := Int.ofNat_inj.mp (hip.symm.trans hip')
  obtain rfl : instr = instr' := Except.ok.inj (hd.symm.trans hd')
  obtain ⟨htrigger, hanchor, hmode⟩ := hv.op_ne
  cases htrans with
  | goesOn _ _ hstays =>
    have hnone : unvisited m'.program a instr s = [] := by
      apply Decidable.byContradiction
      intro hleft
      exact hstays s (by rw [hm]; rfl) (.inr (.inr (.inr ⟨hv, hleft⟩)))
    rw [hnone]
    exact .finished now ht hs .refl
  | departs hm' _ hnext =>
    cases hm.symm.trans hm'
    obtain ⟨hleft, hne⟩ := unvisited_depart hnext
    rw [hleft]
    refine .away ht (.leaves now hs hstands.scopes_eq ?_) rfl hne
    rw [hstands.ip, hip]
    rfl
  | opens hop _ _ => exact absurd hop htrigger
  | repeats _ hop _ _ => exact absurd hop htrigger
  | closes _ hop _ _ => exact absurd hop htrigger
  | skips hop _ => exact absurd hop hanchor
  | goesBack _ hop hreturn _ => simp [hmode hop] at hreturn

/-- Away at a target, a step stays away or comes back with the other targets left. -/
theorem step_away {t : Address} {m₁ : Machine} (h : OnCourse program m')
    (hcheck : program.check = .ok ()) (ht : Tour a below m done m₁) (haway : Away s below m₁ m')
    (hd : s.detour = some ⟨t, a⟩) (hne : t ≠ a) (hstray : m'.strays = false)
    (hs : step? { now } m' = some stepped) :
    Touring program a instr below m done (t :: unvisited program a instr s) stepped.machine ∨
      Touring program a instr below m (done ++ [t]) (unvisited program a instr s)
        stepped.machine := by
  obtain ⟨above, hm⟩ := haway.exists_above
  rcases (h.step hcheck hstray hs).2 above s below _ hm hd with hwaits | hback
  · exact .inl (.away ht (.stays now haway hs hwaits) hd hne)
  · obtain ⟨hip, s', hscopes, hsame⟩ := id hback
    have hcursor : s'.cursor a = s.cursor a := hsame.cursor a hne.symm
    have hhere : Touring program a instr below m (done ++ [t]) (unvisited program a instr s')
        stepped.machine :=
      .here (.visit now ht haway hd hs hback) hip hscopes
    rw [unvisited, hcursor] at hhere
    exact .inr hhere

/-- From an instruction that visits its tags, a run that does not stray visits what is left in
order. -/
theorem of_steady (h : OnCourse program m) (hcheck : program.check = .ok ())
    (hd : program.decode a = .ok instr) (hv : Visits instr true) (hip : m.registers.ip = a)
    (hm : m.scopes = s :: below) (hs : Steady m m') :
    ∃ done left, unvisited program a instr s = done ++ left ∧
      Touring program a instr below m done left m' := by
  -- Each step keeps the targets split into those visited and those left.
  induction hs with
  | refl => exact ⟨[], _, rfl, .here .here hip hm⟩
  | @step m' stepped now hrun hstray hstep ih =>
    have hcourse := h.steady hcheck hrun
    obtain ⟨done, left, hsplit, htouring⟩ := ih
    cases htouring with
    | here ht hip' hm' => exact ⟨done, _, hsplit, step_here hcourse hcheck hd hv ht hip' hm' hstep⟩
    | @away s' _ t _ _ ht haway hd' hne =>
      rcases step_away hcourse hcheck ht haway hd' hne hstray hstep with hstill | hback
      · exact ⟨done, _, hsplit, hstill⟩
      · exact ⟨done ++ [t], _, by rw [hsplit, List.append_assoc]; rfl, hback⟩
    | finished now' ht hstep' hrest =>
      exact ⟨done, [], hsplit, .finished now' ht hstep' (.step now hrest hstray hstep)⟩

end Touring

theorem Steady.head (hstray : m.strays = false) (hstep : step? { now } m = some stepped)
    (hs : Steady stepped.machine m') : Steady m m' := by
  induction hs with
  | refl => exact .step now .refl hstray hstep
  | step now' _ hstray' hstep' ih => exact .step now' ih hstray' hstep'

theorem steady_steps (now : Nat) {n : Nat} (h : ∀ i < n, (steps { now } i m).strays = false) :
    Steady m (steps { now } n m) := by
  induction n generalizing m with
  | zero => exact .refl
  | succ n ih =>
    cases hs : step? { now } m with
    | none =>
      simp only [steps, hs]
      exact .refl
    | some stepped =>
      simp only [steps, hs]
      refine .head (h 0 (Nat.succ_pos n)) hs (ih fun i hi => ?_)
      have hi' := h (i + 1) (Nat.succ_lt_succ hi)
      simpa only [steps, hs] using hi'

/-- In a run of a compiled program that has not strayed, a step loses no detour exactly if it does
not stray either. So control stays on a detour, with scopes at the target open above, until it comes
back to the instruction that has left, and an instruction that visits its tags visits all targets in
order before control leaves it. -/
theorem detours_come_back (h : compile forest timestamp = .ok program)
    (hm : Steady (start program) m) :
    (∀ now stepped, step? { now } m = some stepped →
      (m.strays = false ↔ ∀ above s below d, m.scopes = above ++ s :: below → s.detour = some d →
        Waits s below stepped.machine ∨ IsBack d s below stepped.machine)) ∧
    (∀ above s below d m', m.scopes = above ++ s :: below → s.detour = some d → Steady m m' →
      Waits s below m' ∨ ∃ m₁, Steady m m₁ ∧ IsBack d s below m₁ ∧ Steady m₁ m') ∧
    ∀ (a : Nat) instr s below m', m.registers.ip = a → program.decode a = .ok instr →
      Visits instr true → m.scopes = s :: below → Steady m m' →
      ∃ done left, unvisited program a instr s = done ++ left ∧
        Touring program a instr below m done left m' := by
  have hcheck := compile_checked h
  have hcourse := (onCourse_start program).steady hcheck hm
  refine ⟨fun now stepped hs => ⟨fun hstray => (hcourse.step hcheck hstray hs).2, fun hkeeps => ?_⟩,
    ?_, ?_⟩
  · cases hstray : m.strays with
    | false => rfl
    | true =>
      obtain ⟨s, below, d, hscopes, hd, hwaits, hback⟩ := hcourse.lost h hstray hs
      exact absurd (hkeeps [] s below d hscopes hd) (not_or.mpr ⟨hwaits, hback⟩)
  · intro above s below d m' hscopes hd hs
    exact hcourse.waits_or_back hcheck hs ⟨hcourse.underWay, above, hscopes⟩ hd
  · intro a instr s below m' hip hd hv hscopes hs
    exact Touring.of_steady hcourse hcheck hd hv hip hscopes hs

end Runs

/-- A link in a scope that visits a trigger, which visits the state behind it, and then the
state. -/
def nestedVisits : Forest :=
  [{ op := .trigger
     body :=
       [{ op := .context .entity, params := [("id", .text "Wade")],
          body :=
            [{ op := .link, params := [("id", .text "Inheritance")],
               tags := [.ofPath .reference ["Inner"], .ofPath .reference ["Armor"]] }] }] },
    { op := .trigger, params := [("id", .text "Inner")],
      body :=
        [{ op := .context .entity, params := [("id", .text "Aide")],
           body := [{ op := .speech, tags := [.ofPath .reference ["Armor"]] }] }] },
    { op := .context .state, params := [("id", .text "Armor")] }]

theorem detours_come_back_nested :
    ∃ program m m' m₁, compile nestedVisits 0 = .ok program ∧ Steady (start program) m ∧
      m.registers.ip = 2 ∧ Steady m m' ∧ m'.registers.ip = 0 ∧ Tour 2 [] m [3, 6] m₁ := by
  let program := Link.link (Layout.ofForest 0 nestedVisits) (Layout.entry nestedVisits)
  let m := steps {} 2 (start program)
  let m' := steps {} 10 m
  have h : compile nestedVisits 0 = .ok program := rfl
  have hm : Steady (start program) m := steady_steps 0 (by decide +kernel)
  have hm' : Steady m m' := steady_steps 0 (by decide +kernel)
  have hip : m.registers.ip = 2 := by decide +kernel
  have hip' : m'.registers.ip = 0 := by decide +kernel
  have hhome : m'.scopes.all (·.detour = none) = true := by decide +kernel
  obtain ⟨s, hs⟩ := List.length_eq_one_iff.mp (show m.scopes.length = 1 by decide +kernel)
  obtain ⟨instr, hd⟩ :=
    Program.exists_decode_of_check (compile_checked h) (show program.isAddress 2 by decide +kernel)
  have hv : (program.decode 2).toOption.all (Visits · true) = true := by decide +kernel
  have hleft : (program.decode 2).toOption.map
      (fun instr => m.scopes.map (unvisited program 2 instr)) = some [[3, 6]] := by decide +kernel
  rw [hd] at hv hleft
  rw [hs] at hleft
  have hv : Visits instr true := of_decide_eq_true hv
  have hleft : unvisited program 2 instr s = [3, 6] := by simpa [Except.toOption] using hleft
  obtain ⟨done, left, hsplit, htouring⟩ :=
    (detours_come_back h hm).2.2 2 instr s [] m' hip hd hv hs hm'
  cases htouring with
  | here _ haway _ => simp [hip'] at haway
  | away _ haway hdetour _ =>
    obtain ⟨above, hscopes⟩ := haway.exists_above
    simp [hscopes, hdetour] at hhome
  | @finished _ m₁ _ _ _ htour _ _ =>
    rw [hleft, List.append_nil] at hsplit
    exact ⟨program, m, m', m₁, h, hm, hip, hm', hip', hsplit ▸ htour⟩

/-- A link in a scope that visits a shut anchor, and a state after it. -/
def gatedVisits : Forest :=
  [{ op := .anchor, params := [("id", .text "Gate"), ("condition", .bool false)] },
    { op := .context .state, params := [("id", .text "Armor")] },
    { op := .trigger
      body :=
        [{ op := .context .entity, params := [("id", .text "Wade")],
           body :=
             [{ op := .link, params := [("id", .text "Inheritance")],
                tags := [.ofPath .reference ["Gate"], .ofPath .reference ["Armor"]] }] }] }]

/-- The link at 4 leaves for the shut anchor at 0, and control never comes back to it. -/
theorem detour_lost_at_shut_anchor :
    ∃ program, compile gatedVisits 0 = .ok program ∧
      (steps {} 3 (start program)).scopes.map Scope.detour = [some ⟨0, 4⟩] ∧
      (steps {} 3 (start program)).strays = true ∧
      executed {} 10 (start program) = [2, 3, 4, 0, 1, 2] ∧
      (steps {} 10 (start program)).scopes = [] := by
  refine ⟨Link.link (Layout.ofForest 0 gatedVisits) (Layout.entry gatedVisits), rfl, ?_, ?_, ?_, ?_⟩
  · decide +kernel
  · decide +kernel
  · decide +kernel
  · decide +kernel

end Machine

end GlyphScript
