import GlyphScript.Proofs.Machine.Reachable

/-! # What a step does to the stack

A step changes the stack by moves of nine kinds, and most steps make only one or two of them. So a
property of the frames is an invariant if each move keeps it. The moves also tell what a step adds
to the logs, and that it opens, renews and closes scopes only at a trigger.
-/

namespace GlyphScript.Machine

def tell (m : Machine) (record : Utterance) : Machine :=
  m.modifyBase fun frame => { frame with utterances := frame.utterances ++ [record] }

def announce (m : Machine) (record : Signal) : Machine :=
  (if record.broadcast then m.toOthers record else m).modifyBase (receive record)

def copies (m : Machine) (record : Signal) : List Signal :=
  List.replicate (if record.broadcast then m.stack.length else 1) record

/-- What a handler may do to the stack, with the utterances and the signals that are recorded.
Scopes are opened, renewed and closed by handlers that turn. -/
inductive Move (now : Nat) (turns : Prop) :
    Machine → List Utterance → List Signal → Machine → Prop where
  /-- Changes no frame and not which of them is the base. -/
  | steer {m m' : Machine} : m'.program = m.program → m'.view = m.view → Move now turns m [] [] m'
  | mark (m : Machine) (f : Scope → Scope) : (∀ s, (f s).parent = s.parent) →
      (∀ s, ((f s).address, (f s).cycle) = (s.address, s.cycle)) →
      Move now turns m [] [] (m.modifyScope f)
  | gather {m : Machine} {here : Located} {id : String} :
      m.program.decode here.address = .ok here.instr → here.instr.op.isContextual →
      here.instr.id = some id →
      Move now turns m [] []
        (m.modifyBase (Gathering.describe id (m.description here) here.instr.tags))
  | describe {m : Machine} {here : Located} {id : String} :
      m.program.decode here.address = .ok here.instr → here.instr.op.isContextual →
      here.instr.id = some id →
      Move now turns m [] [] (m.push { data := [(id, .map (m.description here))] })
  | opens {m m' : Machine} {scope : Scope} : turns → scope.parent = m.registers.bsp →
      m'.program = m.program → m'.view = ⟨m.stack ++ [{ scope := some scope }], m.stack.length⟩ →
      Move now turns m [] [] m'
  | renews (m : Machine) : turns → Move now turns m [] [] (m.modifyScope Scope.renew)
  | closes {m : Machine} {base : Frame} {scope : Scope} : turns → m.base? = some base →
      base.scope = some scope → Move now turns m [] [] (m.mergeDown base scope.parent)
  | tell (m : Machine) (here : Located) :
      Move now turns m [utterance now m here] [] (m.tell (utterance now m here))
  | announce (m : Machine) (here : Located) :
      Move now turns m [] (m.copies (emission now m here)) (m.announce (emission now m here))

inductive Moves (now : Nat) (turns : Prop) :
    Machine → List Utterance → List Signal → Machine → Prop where
  | refl (m : Machine) : Moves now turns m [] [] m
  | head {m m' m'' : Machine} {us us' : List Utterance} {ss ss' : List Signal} :
      Move now turns m us ss m' → Moves now turns m' us' ss' m'' →
      Moves now turns m (us ++ us') (ss ++ ss') m''

variable {now : Nat} {turns : Prop} {m m' m'' : Machine} {here : Located} {us us' : List Utterance}
  {ss ss' : List Signal}

namespace Moves

theorem single (h : Move now turns m us ss m') : Moves now turns m us ss m' := by
  simpa using Moves.head h (.refl m')

theorem trans (h : Moves now turns m us ss m') (h' : Moves now turns m' us' ss' m'') :
    Moves now turns m (us ++ us') (ss ++ ss') m'' := by
  induction h with
  | refl m => exact h'
  | head hm _ ih =>
    rw [List.append_assoc, List.append_assoc]
    exact .head hm (ih h')

theorem steer (h : Moves now turns m us ss m') (hp : m''.program = m'.program)
    (hv : m''.view = m'.view) : Moves now turns m us ss m'' := by
  simpa using h.trans (.single (.steer hp hv))

theorem mark (h : Moves now turns m us ss m') (f : Scope → Scope)
    (hp : ∀ s, (f s).parent = s.parent)
    (hc : ∀ s, ((f s).address, (f s).cycle) = (s.address, s.cycle)) :
    Moves now turns m us ss (m'.modifyScope f) := by
  simpa using h.trans (.single (.mark m' f hp hc))

/-- What every move keeps, several moves keep. -/
theorem invariant {P : Machine → Prop}
    (hmove : ∀ {m m' us ss}, Move now turns m us ss m' → P m → P m')
    (h : Moves now turns m us ss m') (hp : P m) : P m' := by
  induction h with
  | refl m => exact hp
  | head hm _ ih => exact ih (hmove hm hp)

end Moves

/-! ## Handlers -/

theorem one_moves (hd : m.program.decode here.address = .ok here.instr) :
    Moves now turns m [] [] (Gathering.one m here).1 := by
  unfold Gathering.one
  dsimp only
  split
  · next id hc hid =>
    split
    · exact .single (.gather hd hc hid)
    · exact .refl m
  · exact .refl m

theorem gather_moves (m : Machine) (pending : List Nat) :
    Moves now turns m [] [] (m.gather pending) :=
  Gathering.upTo_rel (R := fun a b => Moves now turns a [] [] b) Moves.refl
    (fun _ _ _ => Moves.trans) (fun _ _ hd => one_moves hd) _ pending { machine := m }

theorem describe_moves (hd : m.program.decode here.address = .ok here.instr)
    (hc : here.instr.op.isContextual) : Moves now turns m [] [] (m.describe here).machine := by
  unfold describe
  split
  · exact .refl m
  · next id hid =>
    let pushed := m.push { data := [(id, .map (m.description here))] }
    let m' : Machine := { pushed with registers := { pushed.registers with esp := pushed.top } }
    have hpush : Moves now turns m [] [] m' := Moves.steer (.single (.describe hd hc hid)) rfl rfl
    exact hpush.mark (fun scope => { scope with isExecuting := true }) (fun _ => rfl) fun _ => rfl

theorem enter_moves (ht : turns) (m : Machine) (here : Located) :
    Moves now turns m [] [] (m.enter here) := by
  have hparent : (m.opened here).parent = m.registers.bsp := rfl
  have hopen : Move now turns m [] [] { m.push { scope := some (m.opened here) } with
      registers := { m.registers with bsp := m.stack.length, esp := m.stack.length } } :=
    .opens ht hparent rfl rfl
  have htop : (m.push { scope := some (m.opened here) }).top = m.stack.length := by simp [top, push]
  unfold enter
  dsimp only
  rw [htop]
  exact Moves.steer ((Moves.single hopen).trans (gather_moves _ _)) rfl rfl

theorem takeDetour_moves (m : Machine) (target : Address) :
    Moves now turns m [] [] (m.takeDetour target).1 := by
  unfold takeDetour
  split
  · split
    · exact .mark (.refl m) _ (fun _ => rfl) fun _ => rfl
    · exact .refl m
  · exact .refl m

theorem leave_moves (ht : turns) (h : m.WellScoped) {scope : Scope} (hs : m.scope? = some scope) :
    Moves now turns m [] [] (m.leave here).machine := by
  obtain ⟨base, hb, hbs, _, he⟩ := leave_eq h hs here
  rw [he]
  exact Moves.steer ((Moves.single (.closes ht hb hbs)).trans (takeDetour_moves _ _)) rfl rfl

theorem trigger_moves (ht : turns) (h : m.WellScoped) :
    Moves now turns m [] [] (m.trigger here).machine := by
  unfold trigger
  split
  · next scope hs =>
    split
    · split
      · exact Moves.steer (.single (.renews m ht)) rfl rfl
      · exact leave_moves ht h hs
    · exact enter_moves ht m here
  · exact enter_moves ht m here

theorem anchor_moves : Moves now turns m [] [] (m.anchor here).machine := by
  unfold anchor
  split
  · exact .refl m
  · split
    · exact .refl m
    · exact .steer (.refl m) rfl rfl

theorem visit_moves (m : Machine) (here : Located) : Moves now turns m [] [] (m.visit here).1 := by
  unfold visit
  split
  · exact .refl m
  · dsimp only
    split
    · exact .mark (.refl m) _ (fun _ => rfl) fun _ => rfl
    · next cursor target _ =>
      have hdepart : Moves now turns m [] []
          (m.modifyScope (·.depart here.address cursor target)) :=
        .mark (.refl m) _ (fun _ => rfl) fun _ => rfl
      exact (hdepart.trans (gather_moves _ _)).steer rfl rfl

theorem link_moves : Moves now turns m [] [] (m.link here).machine := by
  unfold link inherit goBack
  dsimp only
  split
  · split
    · exact visit_moves m here
    · exact .refl m
  · split
    · split
      · split
        · exact .steer (.refl m) rfl rfl
        · exact .refl m
      · exact .refl m
    · exact .refl m

/-! ## What leaves all of a frame but its scope -/

theorem stack_goTo (m : Machine) (target : Address) : (m.goTo target).stack = m.stack := by
  unfold goTo
  dsimp only
  split <;> rfl

section Scopes

variable {α : Type} {g : Frame → α} (hg : ∀ (frame : Frame) scope, g { frame with scope } = g frame)

include hg

theorem map_modifyScope (m : Machine) (f : Scope → Scope) :
    (m.modifyScope f).stack.map g = m.stack.map g :=
  map_modify_of_eq (fun frame => hg frame _) m.stack m.registers.bsp

theorem map_takeDetour (m : Machine) (target : Address) :
    (m.takeDetour target).1.stack.map g = m.stack.map g := by
  unfold takeDetour
  split
  · split
    · exact map_modifyScope hg m _
    · rfl
  · rfl

theorem map_goOn (m : Machine) (here : Located) (succeeded : Bool) :
    (m.goOn here succeeded).stack.map g = m.stack.map g := by
  have ht := map_takeDetour hg m here.address
  unfold goOn
  split
  · next m' resume he =>
    rw [he] at ht
    rw [stack_goTo, ht]
  · next m' he =>
    rw [he] at ht
    split
    · rw [stack_goTo, ht]
    · rw [stack_goTo, ht]

/-- The choice of the next instruction touches at most the scope of the base. -/
theorem map_after (here : Located) (effect : Effect) :
    (Stepped.after here effect).machine.stack.map g = effect.machine.stack.map g := by
  dsimp only [Stepped.after]
  split
  · rw [stack_goTo]
  · exact map_goOn hg _ _ _

/-- An instruction with nothing left to visit only moves its cursor. -/
theorem map_visit (m : Machine) (here : Located) (hv : (m.visit here).2 = false) :
    (m.visit here).1.stack.map g = m.stack.map g ∧
      (m.visit here).1.registers.bsp = m.registers.bsp := by
  unfold visit at hv ⊢
  split at hv
  · exact ⟨rfl, rfl⟩
  · dsimp only at hv ⊢
    split at hv
    · exact ⟨map_modifyScope hg m _, rfl⟩
    · cases hv

end Scopes

/-! ## Records -/

theorem speak_eq (h : m.WellScoped) (now : Nat) (here : Located) :
    speak now m here =
      if (m.visit here).2 then ⟨(m.visit here).1, none⟩
      else ⟨(m.visit here).1.tell (utterance now (m.visit here).1 here), none⟩ := by
  have hw := (visit_spec h here).1
  unfold speak
  cases he : m.visit here with
  | mk m' departed =>
    rw [he] at hw
    cases departed with
    | true => rfl
    | false =>
      simp only [onBase, if_pos hw.base?_isSome]
      rfl

theorem map_announce {α : Type} {g : Frame → α} {record : Signal}
    (hg : ∀ frame : Frame, g (receive record frame) = g frame) :
    (m.announce record).stack.map g = m.stack.map g := by
  refine (map_modify_of_eq hg _ _).trans ?_
  split
  · exact map_toOthers m record hg
  · rfl

theorem registers_announce (m : Machine) (record : Signal) :
    (m.announce record).registers = m.registers := by
  unfold announce
  split <;> rfl

theorem signal_eq (h : m.WellScoped) (now : Nat) (here : Located) :
    signal now m here =
      if (m.visit here).2 then ⟨(m.visit here).1, none⟩
      else ⟨(m.visit here).1.announce (emission now (m.visit here).1 here), none⟩ := by
  have hw := (visit_spec h here).1
  unfold signal
  cases he : m.visit here with
  | mk m' departed =>
    rw [he] at hw
    cases departed with
    | true => rfl
    | false =>
      have hbase : (if (emission now m' here).broadcast then m'.toOthers (emission now m' here)
          else m').base?.isSome := by
        split
        · simp [base?, toOthers, hw.bsp_lt]
        · exact hw.base?_isSome
      simp only [onBase, if_pos hbase]
      rfl

theorem speak_moves (h : m.WellScoped) :
    Moves now turns m (if (m.visit here).2 then [] else [utterance now (m.visit here).1 here]) []
      (speak now m here).machine := by
  have hv : Moves now turns m [] [] (m.visit here).1 := visit_moves m here
  rw [speak_eq h]
  split
  · exact hv
  · exact hv.trans (.single (.tell _ here))

theorem signal_moves (h : m.WellScoped) :
    Moves now turns m []
      (if (m.visit here).2 then [] else m.copies (emission now (m.visit here).1 here))
      (signal now m here).machine := by
  have hv : Moves now turns m [] [] (m.visit here).1 := visit_moves m here
  rw [signal_eq h]
  split
  · exact hv
  · next hdone =>
    have hlen : (m.visit here).1.stack.length = m.stack.length := by
      simpa using congrArg List.length
        (map_visit (g := fun _ => ()) (fun _ _ => rfl) m here (by simpa using hdone)).1
    have hcopies : ∀ record, m.copies record = (m.visit here).1.copies record := by
      simp [copies, hlen]
    rw [hcopies]
    exact hv.trans (.single (.announce _ here))

def ready (m : Machine) : Machine := { m with jumped := false }

def AtTrigger (m : Machine) : Prop :=
  ∃ instr, m.program.decode m.registers.ip = .ok instr ∧ instr.op = .trigger

theorem atTrigger_iff (hd : m.decode m.registers.ip = .ok here) :
    m.AtTrigger ↔ here.instr.op = .trigger := by
  obtain ⟨_, _, _, ha⟩ := decode_eq_ok hd
  have hok := decode_located hd
  rw [ha] at hok
  constructor
  · rintro ⟨instr, hok', hop⟩
    cases hok.symm.trans hok'
    exact hop
  · exact fun hop => ⟨here.instr, hok, hop⟩

/-- What the next step says: a speech does, once its tags are visited. -/
def said? (now : Nat) (m : Machine) : Option Utterance :=
  match m.decode m.registers.ip with
  | .ok here =>
    if here.instr.op = .speech ∧ ¬ (m.ready.visit here).2 then
      some (utterance now (m.ready.visit here).1 here)
    else none
  | .error _ => none

def signalled? (now : Nat) (m : Machine) : Option Signal :=
  match m.decode m.registers.ip with
  | .ok here =>
    if here.instr.op = .signal ∧ ¬ (m.ready.visit here).2 then
      some (emission now (m.ready.visit here).1 here)
    else none
  | .error _ => none

def sent (now : Nat) (m : Machine) : List Signal := (signalled? now m).elim [] m.copies

theorem handle_moves (h : m.WellScoped) (hd : m.decode m.registers.ip = .ok here)
    (ht : here.instr.op = .trigger → turns) :
    Moves now turns m.ready (said? now m).toList (sent now m)
      (handle { now } m.ready here).machine := by
  have hw : m.ready.WellScoped := h.congr rfl rfl rfl rfl
  have hin : m.ready.program.decode here.address = .ok here.instr := decode_located hd
  unfold handle sent said? signalled?
  simp only [hd]
  cases hop : here.instr.op with
  | context kind =>
    have hc : here.instr.op.isContextual := by simp [hop, Op.isContextual]
    simpa using describe_moves hin hc
  | trigger => simpa using trigger_moves (ht hop) hw
  | anchor => simpa using anchor_moves
  | link => simpa using link_moves
  | speech =>
    have hs : Moves now turns m.ready _ [] (speak now m.ready here).machine := speak_moves hw
    by_cases hv : (m.ready.visit here).2
    · simpa [hv] using hs
    · simpa [hv] using hs
  | signal =>
    have hs : Moves now turns m.ready [] (if (m.ready.visit here).2 then []
        else m.copies (emission now (m.ready.visit here).1 here))
        (signal now m.ready here).machine := signal_moves hw
    by_cases hv : (m.ready.visit here).2
    · simpa [hv] using hs
    · simpa [hv] using hs
  | unknown glyph => exact .refl _

theorem goTo_moves (m : Machine) (target : Address) : Moves now turns m [] [] (m.goTo target) := by
  unfold goTo
  dsimp only
  split
  · exact .steer (.refl m) rfl rfl
  · exact .steer (.refl m) rfl rfl

theorem goOn_moves (m : Machine) (here : Located) (succeeded : Bool) :
    Moves now turns m [] [] (m.goOn here succeeded) := by
  have ht : Moves now turns m [] [] (m.takeDetour here.address).1 := takeDetour_moves m here.address
  unfold goOn
  split
  · next m' resume he =>
    rw [he] at ht
    exact ht.trans (goTo_moves m' resume)
  · next m' he =>
    rw [he] at ht
    split
    · exact ht.trans (goTo_moves m' _)
    · exact ht.trans (goTo_moves m' _)

/-- A step is made of moves, which record what it says and signals. It turns only at a trigger. -/
theorem step?_moves (h : m.WellScoped) {stepped : Stepped} (hs : step? { now } m = some stepped) :
    Moves now m.AtTrigger m (said? now m).toList (sent now m) stepped.machine := by
  rcases step?_eq_some hs with ⟨e, target, hd, rfl⟩ | ⟨here, hd, rfl⟩
  · simpa [said?, sent, signalled?, hd] using goTo_moves m target
  · have hready : Moves now m.AtTrigger m [] [] m.ready := .single (.steer rfl rfl)
    have hhandle := hready.trans (handle_moves h hd (atTrigger_iff hd).mpr)
    change Moves now _ m _ _ (Stepped.after here (handle { now } m.ready here)).machine
    dsimp only [Stepped.after]
    split
    · simpa using hhandle.trans (goTo_moves _ _)
    · simpa using hhandle.trans (goOn_moves _ _ _)

end GlyphScript.Machine
