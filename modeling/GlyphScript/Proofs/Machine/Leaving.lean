import GlyphScript.Proofs.Machine.Contents
import GlyphScript.Proofs.Machine.Merging
import GlyphScript.Proofs.Machine.Rounds

/-! # Leaving a scope

A trigger that has run its last round takes its frame and those above it off the stack. What they
hold goes to the parent, which need not be the next frame below: descriptions between the two stay
where they are.
-/

namespace GlyphScript

theorem View.isSome_lookup?_iff {view : View} {name : String} :
    (view.lookup? name).isSome ↔ ∃ frame ∈ view.frames, (frame.get? name).isSome := by
  simp only [View.lookup?, List.findSome?_isSome_iff, mem_order_iff]

namespace Machine

variable {program : Program} {now : Nat} {turns : Prop} {m m' : Machine} {us : List Utterance}
  {ss : List Signal}

/-! ## Reachable frames are tidy -/

def Keyed (m : Machine) : Prop := ∀ frame ∈ m.stack, frame.data.keys.Nodup

namespace Keyed

theorem push (h : m.Keyed) {frame : Frame} (hf : frame.data.keys.Nodup) :
    ∀ frame' ∈ m.stack ++ [frame], frame'.data.keys.Nodup :=
  List.forall_mem_append.mpr ⟨h, List.forall_mem_singleton.mpr hf⟩

theorem modifyBase (h : m.Keyed) {f : Frame → Frame}
    (hf : ∀ frame, frame.data.keys.Nodup → (f frame).data.keys.Nodup) : (m.modifyBase f).Keyed :=
  forall_mem_modify hf h m.registers.bsp

theorem toOthers (h : m.Keyed) (record : Signal) : (m.toOthers record).Keyed := by
  intro frame hf
  obtain ⟨i, hi, rfl⟩ := List.mem_mapIdx.mp hf
  have hframe := h m.stack[i] (List.getElem_mem hi)
  split
  · exact hframe
  · exact hframe

end Keyed

theorem Move.keyed (h : Move now turns m us ss m') (hk : m.Keyed) : m'.Keyed := by
  cases h with
  | steer _ hv =>
    have hstack : m'.stack = m.stack := congrArg View.frames hv
    exact fun frame hf => hk frame (hstack ▸ hf)
  | mark f _ _ => exact hk.modifyBase fun _ hf => hf
  | gather _ _ _ =>
    exact hk.modifyBase fun _ hf => Frame.nodup_addTags (Entries.nodup_keys_insert hf _ _) _
  | describe _ _ _ => exact hk.push (List.nodup_cons.mpr ⟨List.not_mem_nil, List.nodup_nil⟩)
  | opens _ _ _ hv =>
    have hstack : m'.stack = _ := congrArg View.frames hv
    intro frame hf
    rw [hstack] at hf
    refine hk.push ?_ frame hf
    exact List.nodup_nil
  | renews _ => exact hk.modifyBase fun _ hf => hf
  | closes _ _ _ =>
    exact forall_mem_modify (fun _ hf => Frame.nodup_merge hf _)
      (fun frame hf => hk frame (List.mem_of_mem_take hf)) _
  | tell here => exact hk.modifyBase fun _ hf => hf
  | announce here =>
    refine Keyed.modifyBase ?_ fun _ hf => hf
    split
    · exact hk.toOthers _
    · exact hk

theorem Reachable.keyed (h : Reachable program m) : m.Keyed := by
  induction h with
  | start =>
    intro frame hf
    obtain rfl := List.mem_singleton.mp hf
    exact List.nodup_nil
  | step now hr hs ih => exact (step?_moves hr.wellScoped.1 hs).invariant Move.keyed ih

theorem Reachable.tidy (h : Reachable program m) : ∀ frame ∈ m.stack, frame.Tidy := by
  intro frame hf
  refine ⟨h.keyed frame hf, fun value hv => ?_⟩
  exact ((h.grounded frame hf).data tagsKey value (Entries.mem_of_get? hv)).tagged rfl

/-! ## The step that closes a scope -/

/-- The next step closes the innermost scope, whose trigger has run its last round. -/
structure Leaves (m : Machine) (scope : Scope) : Prop where
  innermost : m.scope? = some scope
  back : ∃ here, m.decode m.registers.ip = .ok here ∧ here.instr.op = .trigger ∧
    scope.address = here.address
  last : scope.cycle.maxim ≤ scope.cycle.count + 1

structure Left (m m' : Machine) (scope : Scope) (parent left : Frame) : Prop where
  lower : scope.parent < m.registers.bsp
  before : m.stack[scope.parent]? = some parent
  after : m'.stack[scope.parent]? = some left
  data : left.data = ((m.stack.drop m.registers.bsp).foldl Frame.merge parent).data
  length : m'.stack.length = m.registers.bsp
  others : ∀ i, i < m.registers.bsp → i ≠ scope.parent → m'.stack[i]? = m.stack[i]?

/-- A detour is noted in the scope of the base and nowhere else. -/
theorem getElem?_takeDetour (m : Machine) (target : Address) {i : Nat} (hi : i ≠ m.registers.bsp) :
    (m.takeDetour target).1.stack[i]? = m.stack[i]? := by
  have hmodify : ∀ f : Scope → Scope, (m.modifyScope f).stack[i]? = m.stack[i]? :=
    fun f => List.getElem?_modify_ne _ _ hi.symm
  unfold takeDetour
  split
  · split
    · exact hmodify _
    · rfl
  · rfl

variable {scope : Scope} {stepped : Stepped}

theorem Leaves.stack_eq (hl : m.Leaves scope) (h : m.WellScoped)
    (hs : step? { now } m = some stepped) :
    ∃ base, m.base? = some base ∧ scope.parent < m.registers.bsp ∧
      stepped.machine.stack =
        ((m.ready.mergeDown base scope.parent).takeDetour scope.address).1.stack := by
  obtain ⟨here, hd, hop, ha⟩ := hl.back
  rcases step?_eq_some hs with ⟨e, target, he, _⟩ | ⟨here', hd', rfl⟩
  · rw [hd] at he
    cases he
  · obtain rfl : here = here' := by
      rw [hd] at hd'
      exact Except.ok.inj hd'
    have hscope : m.ready.scope? = some scope := hl.innermost
    have hleave : handle { now } m.ready here = m.ready.leave here := by
      rw [handle, hop]
      simp only [trigger, hscope, if_pos ha, if_neg (Nat.not_lt.mpr hl.last)]
    obtain ⟨base, hb, _, hlt, he⟩ :=
      leave_eq (h.congr rfl rfl rfl rfl : m.ready.WellScoped) hscope here
    refine ⟨base, hb, hlt, ?_⟩
    change (Stepped.after here (handle { now } m.ready here)).machine.stack = _
    rw [hleave, he, after_jump, stack_goTo, ha]
    rfl

/-- Merging the frames above a scope into it and the result into another frame comes to merging one
after the other. -/
theorem Reachable.merge_above (hr : Reachable program m) {base parent : Frame}
    (hb : m.base? = some base) (hp : parent ∈ m.stack) :
    parent.merge
        ((m.stack.drop (m.registers.bsp + 1)).foldl Frame.merge { base with scope := none }) =
      (m.stack.drop m.registers.bsp).foldl Frame.merge parent := by
  have htidy := hr.tidy
  obtain ⟨hbsp, hbase⟩ := List.getElem?_eq_some_iff.mp hb
  have hdrop : m.stack.drop m.registers.bsp = base :: m.stack.drop (m.registers.bsp + 1) := by
    rw [List.drop_eq_getElem_cons hbsp, hbase]
  have hbare : ({ base with scope := none } : Frame).Tidy := by
    obtain ⟨hnodup, htags⟩ := htidy base (List.mem_of_getElem? hb)
    exact ⟨hnodup, htags⟩
  rw [Frame.merge_foldl (htidy parent hp) hbare fun child hc =>
    htidy child (List.mem_of_mem_drop hc), hdrop]
  rfl

theorem Reachable.left (hr : Reachable program m) (hl : m.Leaves scope)
    (hs : step? { now } m = some stepped) :
    ∃ parent left, Left m stepped.machine scope parent left := by
  obtain ⟨base, hb, hlt, hstack⟩ := hl.stack_eq hr.wellScoped.1 hs
  obtain ⟨hbsp, _⟩ := List.getElem?_eq_some_iff.mp hb
  obtain ⟨parent, hp⟩ : ∃ parent, m.stack[scope.parent]? = some parent :=
    ⟨_, List.getElem?_eq_getElem (Nat.lt_trans hlt hbsp)⟩
  have hdown : (m.ready.mergeDown base scope.parent).stack =
      (m.stack.take m.registers.bsp).modify scope.parent (·.merge
        ((m.stack.drop (m.registers.bsp + 1)).foldl Frame.merge { base with scope := none })) :=
    rfl
  have hdata : stepped.machine.stack.map Frame.data =
      (m.ready.mergeDown base scope.parent).stack.map Frame.data := by
    rw [hstack]
    exact map_takeDetour (fun _ _ => rfl) _ _
  have hat : stepped.machine.stack[scope.parent]?.map Frame.data =
      some ((m.stack.drop m.registers.bsp).foldl Frame.merge parent).data := by
    rw [← List.getElem?_map, hdata, List.getElem?_map, hdown, List.getElem?_modify_eq,
      List.getElem?_take_of_lt hlt, hp, ← hr.merge_above hb (List.mem_of_getElem? hp)]
    rfl
  obtain ⟨left, hleft, hld⟩ := Option.map_eq_some_iff.mp hat
  refine ⟨parent, left, hlt, hp, hleft, hld, ?_, fun i hi hne => ?_⟩
  · have hlen := congrArg List.length hdata
    rw [List.length_map, List.length_map] at hlen
    rw [hlen, hdown, List.length_modify, List.length_take, Nat.min_eq_left (Nat.le_of_lt hbsp)]
  · rw [hstack, getElem?_takeDetour _ _ hne, hdown, List.getElem?_modify_ne _ _ hne.symm,
      List.getElem?_take_of_lt hi]

namespace Left

variable {parent left : Frame}

theorem get?_eq (h : Left m m' scope parent left) (key : String) :
    left.get? key = ((m.stack.drop m.registers.bsp).foldl Frame.merge parent).get? key :=
  congrArg (Entries.get? · key) h.data

/-- Nothing that could be found is lost. -/
theorem lookup? (h : Left m m' scope parent left) (ht : ∀ frame ∈ m.stack, frame.Tidy)
    {name : String} {v : Value String} (hv : m.view.lookup? name = some v) :
    ∃ w, m'.view.lookup? name = some w := by
  have hchildren : ∀ child ∈ m.stack.drop m.registers.bsp, child.Tidy :=
    fun child hc => ht child (List.mem_of_mem_drop hc)
  have hleft : (∃ holder ∈ parent :: m.stack.drop m.registers.bsp, (holder.get? name).isSome) →
      (m'.view.lookup? name).isSome := by
    intro hholder
    refine View.isSome_lookup?_iff.mpr ⟨left, List.mem_of_getElem? h.after, ?_⟩
    rw [h.get?_eq]
    exact Frame.isSome_get?_foldl_merge parent hchildren hholder
  obtain ⟨frame, hmem, hget⟩ := View.isSome_lookup?_iff.mp (Option.isSome_of_mem hv)
  obtain ⟨i, hi⟩ := List.mem_iff_getElem?.mp hmem
  apply Option.isSome_iff_exists.mp
  by_cases hip : i = scope.parent
  · obtain rfl : parent = frame := by
      rw [hip] at hi
      exact Option.some.inj (h.before.symm.trans hi)
    exact hleft ⟨parent, List.mem_cons_self, hget⟩
  · rcases Nat.lt_or_ge i m.registers.bsp with hlt | hge
    · exact View.isSome_lookup?_iff.mpr
        ⟨frame, List.mem_of_getElem? ((h.others i hlt hip).trans hi), hget⟩
    · have hdrop : frame ∈ m.stack.drop m.registers.bsp := by
        refine List.mem_of_getElem? (i := i - m.registers.bsp) ?_
        rw [List.getElem?_drop, Nat.add_sub_cancel' hge]
        exact hi
      exact hleft ⟨frame, List.mem_cons_of_mem _ hdrop, hget⟩

end Left

/-- Merging is associative. So a scope that is closed leaves in its parent, under every key but that
of the hashtags, what the last of the frames holds that come together there, and nothing else below
it changes. -/
theorem leaving_hands_over_last :
    (∀ p c₁ c₂ : Frame, p.Tidy → c₁.Tidy → c₂.Tidy →
      (p.merge c₁).merge c₂ = p.merge (c₁.merge c₂)) ∧
      ∀ (program : Program) (m : Machine) (scope : Scope) (now : Nat) (stepped : Stepped),
        Reachable program m → m.Leaves scope → step? { now } m = some stepped →
        (∀ frame ∈ m.stack, frame.Tidy) ∧
        (∃ parent left, scope.parent < m.registers.bsp ∧ m.stack[scope.parent]? = some parent ∧
          stepped.machine.stack[scope.parent]? = some left ∧
          ∀ key, key ≠ tagsKey →
            left.get? key =
              ((parent :: m.stack.drop m.registers.bsp).filterMap (·.get? key)).getLast?) ∧
        stepped.machine.stack.length = m.registers.bsp ∧
        (∀ i, i < m.registers.bsp → i ≠ scope.parent → stepped.machine.stack[i]? = m.stack[i]?) ∧
        ∀ name v, m.view.lookup? name = some v →
          ∃ w, stepped.machine.view.lookup? name = some w := by
  refine ⟨fun p c₁ c₂ => Frame.merge_assoc, ?_⟩
  intro program m scope now stepped hr hl hs
  obtain ⟨parent, left, h⟩ := hr.left hl hs
  refine ⟨hr.tidy, ⟨parent, left, h.lower, h.before, h.after, fun key hk => ?_⟩, h.length,
    h.others, fun name v => h.lookup? hr.tidy⟩
  rw [h.get?_eq]
  exact Frame.get?_foldl_merge parent (fun child hc => hr.tidy child (List.mem_of_mem_drop hc)) hk

/-- A trigger in the body of another one, behind a description that its own body gives anew. -/
def recast : Program :=
  { entry := 0
    symbols := []
    text := ["red", "grey"]
    code :=
      [(0, { op := .trigger, next := [1, -1], bodyEnd := some 2 }),
        (1, { op := .context .entity, id := some "Wade",
              params := [("suit", .text 0)], next := [2] }),
        (2, { op := .trigger, next := [3, 0], bodyEnd := some 5 }),
        (3, { op := .context .entity, id := some "Wade",
              params := [("suit", .text 1)], next := [4] }),
        (4, { op := .context .entity, id := some "Cable", next := [2] })] }

def told (value : Option (Value String)) (key : String) : Option String :=
  ((value.bind Value.map?).bind (Entries.get? · key)).bind Value.text?

/-- The inner scope hands over to the outer one, past the frame of the first description. -/
theorem leaving_hands_over_last_recast :
    let m := Machine.steps {} 5 (start recast)
    let p : Frame :=
      { data := [("Wade", .text "red"), (tagsKey, .map [("mercenary", .bool true)])] }
    let c₁ : Frame := { data := [(tagsKey, .map [("hero", .bool true)]), ("Cable", .null)] }
    let c₂ : Frame :=
      { data := [("Wade", .text "grey"), (tagsKey, .map [("mercenary", .bool true)])] }
    (p.merge c₁).merge c₂ = p.merge (c₁.merge c₂) ∧
      ∃ scope stepped left, Reachable recast m ∧ m.Leaves scope ∧ step? {} m = some stepped ∧
        m.registers.bsp = 3 ∧ scope.parent = 1 ∧ m.stack.length = 6 ∧
        stepped.machine.stack.length = 3 ∧
        stepped.machine.stack[1]? = some left ∧ told (left.get? "Wade") "suit" = some "grey" ∧
        (stepped.machine.stack[2]?.map fun frame => told (frame.get? "Wade") "suit") =
          some (some "red") ∧
        ∃ w, stepped.machine.view.lookup? "Cable" = some w := by
  intro m p c₁ c₂
  obtain ⟨hassoc, hleave⟩ := leaving_hands_over_last
  have hp : p.Tidy := ⟨by decide, fun value hv => ⟨_, (Option.some.inj hv).symm, by simp⟩⟩
  have h₁ : c₁.Tidy := ⟨by decide, fun value hv => ⟨_, (Option.some.inj hv).symm, by simp⟩⟩
  have h₂ : c₂.Tidy := ⟨by decide, fun value hv => ⟨_, (Option.some.inj hv).symm, by simp⟩⟩
  refine ⟨hassoc p c₁ c₂ hp h₁ h₂, ?_⟩
  have hr : Reachable recast m := Reachable.start.steps 0 5
  have hbsp : m.registers.bsp = 3 := by decide +kernel
  have hscope : m.scope?.map (fun s => (s.address, s.parent, s.cycle.maxim, s.cycle.count)) =
      some (2, 1, 1, 0) := by
    decide +kernel
  obtain ⟨scope, hs, hfields⟩ := Option.map_eq_some_iff.mp hscope
  obtain ⟨ha, hparent, hmaxim, hcount⟩ : scope.address = 2 ∧ scope.parent = 1 ∧
    scope.cycle.maxim = 1 ∧ scope.cycle.count = 0 := by simpa using hfields
  have hhere : (m.decode m.registers.ip).toOption.map (fun here => (here.instr.op, here.address)) =
      some (.trigger, 2) := by decide +kernel
  obtain ⟨here, hd, hop⟩ := Option.map_eq_some_iff.mp hhere
  obtain ⟨hop, haddr⟩ := Prod.mk.inj hop
  have hdecode : m.decode m.registers.ip = .ok here := by
    cases hres : m.decode m.registers.ip with
    | error e => rw [hres] at hd; cases hd
    | ok found => rw [hres] at hd; cases hd; rfl
  have hl : m.Leaves scope := ⟨hs, ⟨here, hdecode, hop, ha.trans haddr.symm⟩, by omega⟩
  have hsome : (step? {} m).isSome := by decide +kernel
  obtain ⟨stepped, hstep⟩ := Option.isSome_iff_exists.mp hsome
  obtain ⟨_, ⟨parent, left, _, hbefore, hafter, hget⟩, hlen, hothers, hfound⟩ :=
    hleave recast m scope 0 stepped hr hl hstep
  rw [hparent] at hbefore hafter hothers
  rw [hbsp] at hlen hothers
  have hgrey : m.stack[1]?.map (fun parent => told
      ((parent :: m.stack.drop m.registers.bsp).filterMap (·.get? "Wade")).getLast? "suit") =
        some (some "grey") := by
    decide +kernel
  have hred : m.stack[2]?.map (fun frame => told (frame.get? "Wade") "suit") = some (some "red") :=
    by decide +kernel
  have hcable : (m.view.lookup? "Cable").isSome := by decide +kernel
  obtain ⟨v, hv⟩ := Option.isSome_iff_exists.mp hcable
  refine ⟨scope, stepped, left, hr, hl, hstep, hbsp, hparent,
    by decide +kernel, hlen, hafter, ?_, ?_, hfound _ v hv⟩
  · rw [hbefore] at hgrey
    rw [hget "Wade" (by decide)]
    exact Option.some.inj hgrey
  · rw [hothers 2 (by decide) (by decide)]
    exact hred

end Machine

end GlyphScript
