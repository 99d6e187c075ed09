import GlyphScript.Proofs.Machine.Moves

/-! # No record is lost

Read from the root upwards, the frames hold all that was said, in the order in which it was said.
What keeps the order is that only the root and frames with a scope ever hold utterances, so that
nothing is said above the base or between the base and its parent. Signals are kept too, but
broadcasting puts them out of order.
-/

namespace GlyphScript

section Lists

variable {α : Type} {l : List (List α)} {b : Nat}

theorem flatten_modify_append (x : List α) (hb : b < l.length) (ha : ∀ y ∈ l.drop (b + 1), y = []) :
    (l.modify b (· ++ x)).flatten = l.flatten ++ x := by
  induction l generalizing b with
  | nil => simp at hb
  | cons y l ih =>
    cases b with
    | zero =>
      have hl : l.flatten = [] := by simpa using ha
      simp [hl]
    | succ b => simp [ih (by simpa using hb) (by simpa using ha)]

theorem flatten_modify_perm (x : List α) (hb : b < l.length) :
    (l.modify b (· ++ x)).flatten.Perm (l.flatten ++ x) := by
  induction l generalizing b with
  | nil => simp at hb
  | cons y l ih =>
    cases b with
    | zero =>
      simp only [List.modify_zero_cons, List.flatten_cons, List.append_assoc]
      exact List.Perm.append_left y List.perm_append_comm
    | succ b =>
      simp only [List.modify_succ_cons, List.flatten_cons, List.append_assoc]
      exact List.Perm.append_left y (ih (by simpa using hb))

theorem flatten_map_append_perm (l : List (List α)) (x : α) :
    (l.map (· ++ [x])).flatten.Perm (l.flatten ++ List.replicate l.length x) := by
  induction l with
  | nil => simp
  | cons y l ih =>
    simp only [List.map_cons, List.flatten_cons, List.length_cons, List.replicate_succ,
      List.append_assoc]
    exact List.Perm.append_left y ((ih.cons x).trans List.perm_middle.symm)

end Lists

/-- Only the root and frames with a scope have said anything. -/
def Quiet {α : Type} (scoping : List (Option Scope)) (talk : List (List α)) : Prop :=
  ∀ i, i ≠ 0 → scoping[i]? = some none → ∀ y, talk[i]? = some y → y = []

namespace Linked

variable {α : Type} {l : List (Option Scope)} {b : Nat} {talk : List (List α)}

/-- Nothing is said above the base. -/
theorem silent_above (h : Linked l b) (hq : Quiet l talk) (hlen : talk.length = l.length) :
    ∀ y ∈ talk.drop (b + 1), y = [] := by
  intro y hy
  obtain ⟨i, hi⟩ := List.mem_iff_getElem?.mp hy
  rw [List.getElem?_drop] at hi
  have hlt : b + 1 + i < l.length := hlen ▸ (List.getElem?_eq_some_iff.mp hi).1
  have hno : ∀ s, l[b + 1 + i]? ≠ some (some s) := by
    rcases h.topmost with ⟨_, _, hj⟩ | ⟨_, hj⟩
    · exact hj _ (by omega) hlt
    · exact hj _ hlt
  refine hq (b + 1 + i) (by omega) ?_ y hi
  rw [List.getElem?_eq_getElem hlt] at hno ⊢
  cases hx : l[b + 1 + i] with
  | none => rfl
  | some s => exact absurd (by rw [hx]) (hno s)

theorem quiet_modify (h : Linked l b) (hq : Quiet l talk) (f : List α → List α) :
    Quiet l (talk.modify b f) := by
  intro i hi hnone y hy
  have hne : b ≠ i := by
    rintro rfl
    rcases h.topmost with ⟨_, ⟨s, hs⟩, _⟩ | ⟨h0, _⟩
    · rw [hs] at hnone
      cases hnone
    · exact hi h0
  exact hq i hi hnone y (by simpa [List.getElem?_modify, hne] using hy)

end Linked

namespace Machine

def talk (m : Machine) : List (List Utterance) := m.stack.map Frame.utterances

def calls (m : Machine) : List (List Signal) := m.stack.map Frame.signals

structure Orderly (m : Machine) : Prop where
  linked : Linked m.scoping m.registers.bsp
  quiet : Quiet m.scoping m.talk

/-- The logs have grown by given utterances, at the end, and by given signals, anywhere. -/
structure Logged (m : Machine) (us : List Utterance) (ss : List Signal) (m' : Machine) : Prop where
  orderly : m'.Orderly
  talk : m'.talk.flatten = m.talk.flatten ++ us
  calls : m'.calls.flatten.Perm (m.calls.flatten ++ ss)

variable {program : Program} {now : Nat} {turns : Prop} {m m' m'' : Machine}
  {us us' : List Utterance} {ss ss' : List Signal}

namespace Logged

theorem of_eq (ho : m'.Orderly) (ht : m'.talk.flatten = m.talk.flatten)
    (hc : m'.calls.flatten = m.calls.flatten) : Logged m [] [] m' :=
  ⟨ho, by simp [ht], by simp [hc]⟩

theorem trans (h : Logged m us ss m') (h' : Logged m' us' ss' m'') :
    Logged m (us ++ us') (ss ++ ss') m'' where
  orderly := h'.orderly
  talk := by rw [h'.talk, h.talk, List.append_assoc]
  calls := by
    rw [← List.append_assoc]
    exact h'.calls.trans (h.calls.append_right ss')

end Logged

theorem length_talk (m : Machine) : m.talk.length = m.scoping.length := by simp [talk, scoping]

theorem length_calls (m : Machine) : m.calls.length = m.scoping.length := by simp [calls, scoping]

namespace Orderly

theorem of_eq (h : m.Orderly) (hb : m'.registers.bsp = m.registers.bsp)
    (hs : m'.scoping = m.scoping) (ht : m'.talk = m.talk) : m'.Orderly :=
  ⟨by rw [hs, hb]; exact h.linked, by rw [hs, ht]; exact h.quiet⟩

theorem modifyScope (h : m.Orderly) {f : Scope → Scope} (hf : ∀ s, (f s).parent = s.parent) :
    (m.modifyScope f).Orderly := by
  refine ⟨by rw [scoping_modifyScope]; exact h.linked.modify hf, ?_⟩
  intro i hi hnone y hy
  have ht : (m.modifyScope f).talk = m.talk := map_modifyScope (fun _ _ => rfl) m f
  rw [scoping_modifyScope, List.getElem?_modify] at hnone
  rw [ht] at hy
  obtain ⟨x, hx, he⟩ := Option.map_eq_some_iff.mp hnone
  refine h.quiet i hi ?_ y hy
  rw [hx]
  split at he
  · simpa using he
  · exact congrArg some he

theorem push (h : m.Orderly) {frame : Frame} {b : Nat} (hl : Linked (m.scoping ++ [frame.scope]) b)
    (hu : frame.utterances = []) (hv : m'.view = ⟨m.stack ++ [frame], b⟩) : m'.Orderly := by
  have hstack : m'.stack = m.stack ++ [frame] := congrArg View.frames hv
  have hb : m'.registers.bsp = b := congrArg View.base hv
  have hs : m'.scoping = m.scoping ++ [frame.scope] := by simp [scoping, hstack]
  have ht : m'.talk = m.talk ++ [[]] := by simp [talk, hstack, hu]
  refine ⟨by rw [hs, hb]; exact hl, ?_⟩
  intro i hi hnone y hy
  rw [hs] at hnone
  rw [ht] at hy
  have hlen := m.length_talk
  rcases Nat.lt_or_ge i m.talk.length with hlt | hge
  · rw [List.getElem?_append_left hlt] at hy
    rw [List.getElem?_append_left (hlen ▸ hlt)] at hnone
    exact h.quiet i hi hnone y hy
  · rw [List.getElem?_append_right hge, List.getElem?_singleton] at hy
    split at hy
    · simpa using hy.symm
    · cases hy

end Orderly

/-! ## Closing a scope -/

section Merging

variable {α : Type} {g : Frame → List α} (hg : ∀ a b : Frame, g (a.merge b) = g a ++ g b)
  (hscope : ∀ (frame : Frame) scope, g { frame with scope } = g frame)

include hg

theorem foldl_merge (frames : List Frame) (base : Frame) :
    g (frames.foldl Frame.merge base) = g base ++ (frames.map g).flatten := by
  induction frames generalizing base with
  | nil => simp
  | cons frame frames ih => simp [ih, hg]

include hscope

/-- The logs of the frames from the base on are appended to the log of the parent. -/
theorem map_mergeDown {base : Frame} (hb : m.base? = some base) (parent : Nat) :
    (m.mergeDown base parent).stack.map g =
      ((m.stack.map g).take m.registers.bsp).modify parent
        (· ++ ((m.stack.map g).drop m.registers.bsp).flatten) := by
  obtain ⟨hlt, hget⟩ := List.getElem?_eq_some_iff.mp hb
  have hdrop : (m.stack.map g).drop m.registers.bsp =
      g base :: (m.stack.drop (m.registers.bsp + 1)).map g := by
    rw [← List.map_drop, List.drop_eq_getElem_cons hlt, List.map_cons, hget]
  rw [hdrop, ← List.map_take]
  apply map_modify
  intro frame
  rw [hg, foldl_merge hg, hscope base none, List.flatten_cons]

end Merging

theorem Orderly.closes (h : m.Orderly) {base : Frame} {scope : Scope} (hb : m.base? = some base)
    (hs : base.scope = some scope) : Logged m [] [] (m.mergeDown base scope.parent) := by
  have hl : m.scoping[m.registers.bsp]? = some (some scope) := by
    rw [getElem?_scoping, ← base?, hb, Option.map_some, hs]
  obtain ⟨hcut, _⟩ := h.linked.cut hl
  have hsc : (m.mergeDown base scope.parent).scoping = m.scoping.take m.registers.bsp := by
    refine Eq.trans ?_ List.map_take
    apply map_modify_of_eq
    intro frame
    exact frame.scope_merge _
  have ht : (m.mergeDown base scope.parent).talk = (m.talk.take m.registers.bsp).modify scope.parent
      (· ++ (m.talk.drop m.registers.bsp).flatten) :=
    map_mergeDown Frame.utterances_merge (fun _ _ => rfl) hb scope.parent
  have hc : (m.mergeDown base scope.parent).calls =
      (m.calls.take m.registers.bsp).modify scope.parent
      (· ++ (m.calls.drop m.registers.bsp).flatten) :=
    map_mergeDown Frame.signals_merge (fun _ _ => rfl) hb scope.parent
  have hquiet : Quiet (m.scoping.take m.registers.bsp) (m.talk.take m.registers.bsp) := by
    intro i hi hnone y hy
    rw [List.getElem?_take] at hnone hy
    split at hy
    · next hlt =>
      rw [if_pos hlt] at hnone
      exact h.quiet i hi hnone y hy
    · cases hy
  have hlen : (m.talk.take m.registers.bsp).length = (m.scoping.take m.registers.bsp).length := by
    simp [m.length_talk]
  have hlenc : (m.calls.take m.registers.bsp).length = (m.scoping.take m.registers.bsp).length := by
    simp [m.length_calls]
  refine ⟨⟨by rw [hsc]; exact hcut, by rw [hsc, ht]; exact hcut.quiet_modify hquiet _⟩, ?_, ?_⟩
  · rw [ht, flatten_modify_append _ (hlen ▸ hcut.lt_length) (hcut.silent_above hquiet hlen),
      ← List.flatten_append, List.take_append_drop, List.append_nil]
  · rw [hc, List.append_nil]
    refine (flatten_modify_perm _ (hlenc ▸ hcut.lt_length)).trans ?_
    rw [← List.flatten_append, List.take_append_drop]

/-! ## Recording -/

theorem Orderly.tells (h : m.Orderly) (record : Utterance) :
    Logged m [record] [] (m.tell record) := by
  have hs : (m.tell record).scoping = m.scoping := scoping_modifyBase fun _ => rfl
  have ht : (m.tell record).talk = m.talk.modify m.registers.bsp (· ++ [record]) := by
    apply map_modify
    intro frame
    rfl
  have hc : (m.tell record).calls = m.calls := by
    apply map_modify_of_eq
    intro frame
    rfl
  have hlt : m.registers.bsp < m.talk.length := m.length_talk ▸ h.linked.lt_length
  refine ⟨⟨by rw [hs]; exact h.linked, by rw [hs, ht]; exact h.linked.quiet_modify h.quiet _⟩, ?_,
    by simp [hc]⟩
  rw [ht, flatten_modify_append _ hlt (h.linked.silent_above h.quiet m.length_talk)]

/-- The base records a signal, or all frames do. -/
theorem calls_announce (m : Machine) (record : Signal) :
    (m.announce record).calls =
      if record.broadcast then m.calls.map (· ++ [record])
        else m.calls.modify m.registers.bsp (· ++ [record]) := by
  unfold announce
  split
  · apply List.ext_getElem?
    intro i
    cases hf : m.stack[i]? with
    | none =>
      have hle := List.getElem?_eq_none_iff.mp hf
      simp [calls, modifyBase, toOthers, hle]
    | some frame =>
      by_cases hi : m.registers.bsp = i
      · simp [calls, modifyBase, toOthers, receive, hf, hi]
      · have hne : i ≠ m.registers.bsp := fun he => hi he.symm
        simp [calls, modifyBase, toOthers, receive, hf, hi, hne]
  · apply map_modify
    intro frame
    rfl

theorem Orderly.announces (h : m.Orderly) (record : Signal) :
    Logged m [] (m.copies record) (m.announce record) := by
  have hs : (m.announce record).scoping = m.scoping := map_announce fun _ => rfl
  have ht : (m.announce record).talk = m.talk := map_announce fun _ => rfl
  refine ⟨h.of_eq (by rw [registers_announce]) hs ht, by simp [ht], ?_⟩
  have hlt : m.registers.bsp < m.calls.length := m.length_calls ▸ h.linked.lt_length
  rw [calls_announce, copies]
  split
  · simpa [calls] using flatten_map_append_perm m.calls record
  · exact flatten_modify_perm [record] hlt

/-! ## Runs -/

theorem Orderly.marks (h : m.Orderly) {f : Scope → Scope} (hf : ∀ s, (f s).parent = s.parent) :
    Logged m [] [] (m.modifyScope f) := by
  have ht : (m.modifyScope f).talk = m.talk := map_modifyScope (fun _ _ => rfl) m f
  have hc : (m.modifyScope f).calls = m.calls := map_modifyScope (fun _ _ => rfl) m f
  exact .of_eq (h.modifyScope hf) (by rw [ht]) (by rw [hc])

theorem Move.logged (h : Move now turns m us ss m') (ho : m.Orderly) : Logged m us ss m' := by
  cases h with
  | steer _ hv =>
    have hstack : m'.stack = m.stack := congrArg View.frames hv
    refine .of_eq (ho.of_eq (congrArg View.base hv) ?_ ?_) ?_ ?_ <;>
      simp [scoping, talk, calls, hstack]
  | mark f hf _ => exact ho.marks hf
  | @gather here id _ _ _ =>
    have hdata := Gathering.describe_onlyData m id (m.description here) here.instr.tags
    have ht := hdata.map (g := Frame.utterances) fun _ _ => rfl
    have hc := hdata.map (g := Frame.signals) fun _ _ => rfl
    exact .of_eq (ho.of_eq rfl hdata.scoping ht) (congrArg List.flatten ht)
      (congrArg List.flatten hc)
  | describe _ _ _ =>
    refine .of_eq (ho.push ho.linked.plain rfl rfl) ?_ ?_ <;> simp [talk, calls, push]
  | opens _ hp _ hv =>
    have hstack : m'.stack = _ := congrArg View.frames hv
    have hlen : m.stack.length = m.scoping.length := by simp [scoping]
    refine .of_eq (ho.push ?_ rfl hv) ?_ ?_
    · rw [hlen]
      exact .scope (hp ▸ ho.linked)
    · simp [talk, hstack]
    · simp [calls, hstack]
  | renews _ => exact ho.marks fun _ => rfl
  | closes _ hb hs => exact ho.closes hb hs
  | tell here => exact ho.tells _
  | announce here => exact ho.announces _

theorem Moves.logged (h : Moves now turns m us ss m') (ho : m.Orderly) : Logged m us ss m' := by
  induction h with
  | refl m => exact .of_eq ho rfl rfl
  | head hm _ ih =>
    have hl := hm.logged ho
    exact hl.trans (ih hl.orderly)

inductive Told (program : Program) : List Utterance → Machine → Prop where
  | start : Told program [] (start program)
  | step {us : List Utterance} {m : Machine} {stepped : Stepped} (now : Nat) : Told program us m →
      step? { now } m = some stepped → Told program (us ++ (said? now m).toList) stepped.machine

namespace Told

theorem reachable (h : Told program us m) : Reachable program m := by
  induction h with
  | start => exact .start
  | step now _ hs ih => exact .step now ih hs

theorem orderly (h : Told program us m) : m.Orderly ∧ m.talk.flatten = us := by
  induction h with
  | start =>
    refine ⟨⟨.root, ?_⟩, rfl⟩
    intro i hi hnone y hy
    rcases i with _ | i
    · exact absurd rfl hi
    · simp [Machine.start, scoping] at hnone
  | step now ht hs ih =>
    have hl := (step?_moves ht.reachable.wellScoped.1 hs).logged ih.1
    exact ⟨hl.orderly, by rw [hl.talk, ih.2]⟩

end Told

theorem Reachable.exists_told (h : Reachable program m) : ∃ us, Told program us m := by
  induction h with
  | start => exact ⟨[], .start⟩
  | step now _ hs ih =>
    obtain ⟨us, ht⟩ := ih
    exact ⟨_, ht.step now hs⟩

/-- A signal is recorded by the base, or by all frames, and they stay where they are. -/
theorem calls_step? (h : m.WellScoped) {stepped : Stepped} (hs : step? { now } m = some stepped)
    {record : Signal} (hr : signalled? now m = some record) :
    stepped.machine.calls =
      if record.broadcast then m.calls.map (· ++ [record])
        else m.calls.modify m.registers.bsp (· ++ [record]) := by
  rcases step?_eq_some hs with ⟨e, target, hd, rfl⟩ | ⟨here, hd, rfl⟩
  · simp [signalled?, hd] at hr
  · simp only [signalled?, hd, Option.ite_none_right_eq_some, Option.some.injEq,
      Bool.not_eq_true] at hr
    obtain ⟨⟨hop, hv⟩, rfl⟩ := hr
    have hw : m.ready.WellScoped := h.congr rfl rfl rfl rfl
    obtain ⟨hvisit, hbsp⟩ := map_visit (g := Frame.signals) (fun _ _ => rfl) m.ready here hv
    have heff : (handle { now } m.ready here).machine =
        (m.ready.visit here).1.announce (emission now (m.ready.visit here).1 here) := by
      simp only [handle, hop, signal_eq hw, hv, Bool.false_eq_true, if_false]
    change (Stepped.after here (handle { now } m.ready here)).machine.calls = _
    rw [calls, map_after (fun _ _ => rfl), heff, ← calls, calls_announce, calls, hvisit, hbsp]
    rfl

/-- The logs of the frames, from the root upwards, are what was said so far, in order. Signals are
added to the base or to all frames and kept. All that changes the logs are a speech and a signal. -/
theorem reachable_logs (h : Reachable program m) :
    (∃ us, Told program us m) ∧ (∀ us, Told program us m → m.talk.flatten = us) ∧
      ∀ now stepped, step? { now } m = some stepped →
        stepped.machine.talk.flatten = m.talk.flatten ++ (said? now m).toList ∧
        stepped.machine.calls.flatten.Perm (m.calls.flatten ++ sent now m) ∧
        (∀ record, signalled? now m = some record →
          stepped.machine.calls =
            if record.broadcast then m.calls.map (· ++ [record])
            else m.calls.modify m.registers.bsp (· ++ [record])) ∧
        ∀ here, m.decode m.registers.ip = .ok here →
          (here.instr.op ≠ .speech → stepped.machine.talk.flatten = m.talk.flatten) ∧
          (here.instr.op ≠ .signal → stepped.machine.calls.flatten.Perm m.calls.flatten) := by
  obtain ⟨us, ht⟩ := h.exists_told
  obtain ⟨hw, _⟩ := h.wellScoped
  refine ⟨⟨us, ht⟩, fun us ht => ht.orderly.2, fun now stepped hs => ?_⟩
  have hl := (step?_moves hw hs).logged ht.orderly.1
  refine ⟨hl.talk, hl.calls, fun record hr => calls_step? hw hs hr,
    fun here hd => ⟨fun hop => ?_, fun hop => ?_⟩⟩
  · simpa [said?, hd, hop] using hl.talk
  · simpa [sent, signalled?, hd, hop] using hl.calls

/-- A trigger whose body says something and then signals to all. -/
def chatter : Program :=
  { entry := 0
    symbols := []
    text := []
    code :=
      [(0, { op := .trigger, next := [1, -1], bodyEnd := some 4 }),
        (1, { op := .context .entity, id := some "Wade", next := [2] }),
        (2, { op := .speech, next := [3] }),
        (3, { op := .signal, params := [("broadcast", .bool true)], next := [0] })] }

theorem reachable_logs_chatter :
    let m := Machine.steps {} 5 (start chatter)
    Reachable chatter m ∧ m.isRunning = false ∧ m.talk.flatten.map Utterance.address = [2] ∧
      m.calls.flatten.map Signal.address = [3, 3, 3] ∧
      ∃ us, Told chatter us m ∧ m.talk.flatten = us := by
  intro m
  have hr : Reachable chatter m := Reachable.start.steps 0 5
  obtain ⟨⟨us, ht⟩, htalk, _⟩ := reachable_logs hr
  exact ⟨hr, by decide +kernel, by decide +kernel, by decide +kernel, us, ht, htalk us ht⟩

end Machine

end GlyphScript
