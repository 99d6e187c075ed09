import GlyphScript.Proofs.Machine.Footprint

/-! # What is gathered

Instructions may refer to each other in circles, and the addresses that they pull in may overlap.
Gathering still ends, since each instruction is gathered once, and it reaches the least set of
addresses that holds what was asked for and, with each instruction, what that pulls in. All it
leaves behind are entries in the base frame.
-/

namespace GlyphScript

theorem Frame.keys_prefix_addTags (frame : Frame) (names : List String) :
    frame.data.keys <+: (frame.addTags names).data.keys := by
  induction names generalizing frame with
  | nil => exact List.prefix_rfl
  | cons name names ih => exact (Entries.keys_prefix_insert _ _ _).trans (ih (frame.addTag name))

namespace Gathering

/-! ## The search ends -/

/-- Gathering without a bound on the number of instructions. Pending addresses are gone through in
order, and what an instruction pulls in comes before the rest. -/
inductive Gathers : List Nat → Gathering → Gathering → Prop where
  | done (s : Gathering) : Gathers [] s s
  | known {x : Nat} {rest : List Nat} {s t : Gathering} : x ∈ s.visited → Gathers rest s t →
      Gathers (x :: rest) s t
  | missing {x : Nat} {rest : List Nat} {s t : Gathering} {e : Program.DecodeError} :
      x ∉ s.visited →
      s.machine.program.decode x = .error e → Gathers rest { s with visited := x :: s.visited } t →
      Gathers (x :: rest) s t
  | gathered {x : Nat} {rest : List Nat} {s t : Gathering} {instr : Instruction String} :
      x ∉ s.visited → s.machine.program.decode x = .ok instr →
      Gathers ((one s.machine ⟨x, instr⟩).2 ++ rest)
        { machine := (one s.machine ⟨x, instr⟩).1, visited := x :: s.visited } t →
      Gathers (x :: rest) s t

def ahead (program : Program) (visited : List Nat) : List (Nat × Instruction TextId) :=
  program.code.filter fun entry => entry.1 ∉ visited

theorem ahead_cons (program : Program) (x : Nat) (visited : List Nat) :
    ahead program (x :: visited) = (ahead program visited).filter fun entry => entry.1 ≠ x := by
  simp [ahead, List.filter_filter]

theorem length_ahead_cons_le (program : Program) (x : Nat) (visited : List Nat) :
    (ahead program (x :: visited)).length ≤ (ahead program visited).length := by
  rw [ahead_cons]
  exact List.length_filter_le _ _

theorem length_ahead_cons_lt {program : Program} {x : Nat} {visited : List Nat}
    {instr : Instruction String} (hnew : x ∉ visited) (hd : program.decode x = .ok instr) :
    (ahead program (x :: visited)).length < (ahead program visited).length := by
  obtain ⟨raw, hf, _⟩ := Program.decode_eq_ok hd
  have hmem : (x, raw) ∈ ahead program visited := by
    simpa [ahead, hnew] using Program.mem_of_fetch? hf
  rw [ahead_cons, List.length_filter_lt_length_iff_exists]
  exact ⟨(x, raw), hmem, by simp⟩

/-- A bound above the number of instructions left is never met. -/
theorem upTo_gathers {n : Nat} (pending : List Nat) (s : Gathering)
    (h : (ahead s.machine.program s.visited).length < n) :
    Gathers pending s (upTo n pending s) := by
  induction n generalizing pending s with
  | zero => omega
  | succ n ih =>
    rw [upTo]
    -- Up to the next new instruction the pending addresses get fewer, and from there on the
    -- instructions left.
    induction pending generalizing s with
    | nil => exact .done s
    | cons x rest ihrest =>
      unfold scan
      split
      · next hknown => exact .known hknown (ihrest s h)
      · next hnew =>
        cases hd : s.machine.program.decode x with
        | error e =>
          have hle := length_ahead_cons_le s.machine.program x s.visited
          have hrest := ihrest { s with visited := x :: s.visited } (by dsimp only; omega)
          cases e with
          | noInstruction => simpa only [Machine.decode, hd] using Gathers.missing hnew hd hrest
          | danglingText => simpa only [Machine.decode, hd] using Gathers.missing hnew hd hrest
        | ok instr =>
          have hlt := length_ahead_cons_lt hnew hd
          have hprogram := (one_onlyData s.machine ⟨x, instr⟩).program
          simp only [Machine.decode, hd, Int.toNat_natCast]
          exact .gathered hnew hd (ih _ _ (by dsimp only; rw [hprogram]; omega))

theorem all_gathers (pending : List Nat) (s : Gathering) : Gathers pending s (all pending s) := by
  apply upTo_gathers
  have hle : (ahead s.machine.program s.visited).length ≤ s.machine.program.size :=
    List.length_filter_le _ _
  omega

namespace Gathers

variable {pending : List Nat} {s t t' : Gathering}

theorem unique (h : Gathers pending s t) (h' : Gathers pending s t') : t = t' := by
  induction h with
  | done s =>
    cases h'
    rfl
  | known hknown _ ih =>
    cases h' with
    | known _ hrest => exact ih hrest
    | missing hnew => exact absurd hknown hnew
    | gathered hnew => exact absurd hknown hnew
  | missing hnew hd _ ih =>
    cases h' with
    | known hknown => exact absurd hknown hnew
    | missing _ _ hrest => exact ih hrest
    | gathered _ hd' =>
      rw [hd] at hd'
      cases hd'
  | gathered hnew hd _ ih =>
    cases h' with
    | known hknown => exact absurd hknown hnew
    | missing _ hd' =>
      rw [hd] at hd'
      cases hd'
    | gathered _ hd' hrest =>
      rw [hd] at hd'
      cases hd'
      exact ih hrest

theorem eq_all (h : Gathers pending s t) : t = all pending s := h.unique (all_gathers pending s)

theorem onlyData (h : Gathers pending s t) : Machine.OnlyData s.machine t.machine := by
  rw [h.eq_all]
  exact upTo_rel Machine.OnlyData.refl (fun _ _ _ => Machine.OnlyData.trans)
    (fun m here _ => one_onlyData m here) _ pending s

end Gathers

/-! ## What it reaches -/

/-- A set of addresses that holds some addresses and, with each instruction in it, the targets of
its references, or of all its tags if it is a link, with their bodies. -/
structure Closed (program : Program) (pending : List Nat) (S : Nat → Prop) : Prop where
  pending : ∀ x ∈ pending, S x
  pulled : ∀ x instr, S x → program.decode x = .ok instr →
    ∀ tag ∈ instr.tags, tag.isReference ∨ instr.op = .link →
      ∀ target, program.fetch? tag.address = some target →
        ∀ y, tag.address.toNat ≤ y → y < target.stop tag.address.toNat → S y

theorem mem_subtree {program : Program} {target : Address} {y : Nat} :
    y ∈ subtree program target ↔
      ∃ instr, program.fetch? target = some instr ∧ target.toNat ≤ y ∧
        y < instr.stop target.toNat := by
  unfold subtree
  cases program.fetch? target with
  | none => simp
  | some instr =>
    have hlt := instr.lt_stop target.toNat
    have hend : target.toNat + (instr.stop target.toNat - target.toNat) =
        instr.stop target.toNat := by
      omega
    simp [List.mem_range'_1, hend]

theorem mem_pulls {program : Program} {instr : Instruction String} {y : Nat} :
    y ∈ pulls program instr ↔
      ∃ tag ∈ instr.tags, (tag.isReference ∨ instr.op = .link) ∧
        ∃ target, program.fetch? tag.address = some target ∧ tag.address.toNat ≤ y ∧
          y < target.stop tag.address.toNat := by
  simp only [pulls, List.mem_flatMap, List.mem_filter, mem_subtree, Bool.or_eq_true,
    decide_eq_true_eq, and_assoc, or_comm]

theorem pulled_subset (m : Machine) (here : Located) :
    (one m here).2 ⊆ pulls m.program here.instr := by
  unfold one
  dsimp only
  split
  · split
    · exact List.Subset.refl _
    · exact List.nil_subset _
  · exact List.Subset.refl _

theorem pulled_eq {m : Machine} (hb : m.base?.isSome) (here : Located) :
    (one m here).2 = pulls m.program here.instr := by
  unfold one
  dsimp only
  split
  · rw [if_pos hb]
  · rfl

theorem base?_modifyBase (m : Machine) (f : Frame → Frame) :
    (m.modifyBase f).base? = m.base?.map f := by
  simp [Machine.modifyBase, Machine.base?]

theorem isSome_base?_one {m : Machine} (hb : m.base?.isSome) (here : Located) :
    (one m here).1.base?.isSome := by
  obtain ⟨f, _, he⟩ := one_onlyData m here
  rw [he, base?_modifyBase, Option.isSome_map]
  exact hb

namespace Gathers

variable {pending : List Nat} {s t : Gathering}

theorem visited_subset (h : Gathers pending s t) : s.visited ⊆ t.visited := by
  induction h with
  | done s => exact List.Subset.refl _
  | known _ _ ih => exact ih
  | missing _ _ _ ih => exact List.Subset.trans (List.subset_cons_self _ _) ih
  | gathered _ _ _ ih => exact List.Subset.trans (List.subset_cons_self _ _) ih

theorem pending_subset (h : Gathers pending s t) : pending ⊆ t.visited := by
  induction h with
  | done s => exact List.nil_subset _
  | known hknown hrest ih => exact List.cons_subset.mpr ⟨hrest.visited_subset hknown, ih⟩
  | missing _ _ hrest ih => exact List.cons_subset.mpr ⟨hrest.visited_subset List.mem_cons_self, ih⟩
  | gathered _ _ hrest ih =>
    exact List.cons_subset.mpr
      ⟨hrest.visited_subset List.mem_cons_self, (List.append_subset.mp ih).2⟩

/-- Each instruction that is reached was gathered at some point of the search. -/
theorem exists_gathered (h : Gathers pending s t) (hb : s.machine.base?.isSome) {x : Nat}
    {instr : Instruction String} (hx : x ∈ t.visited) (hnew : x ∉ s.visited)
    (hd : s.machine.program.decode x = .ok instr) :
    ∃ m rest visited, m.program = s.machine.program ∧ m.base?.isSome ∧
      Gathers ((one m ⟨x, instr⟩).2 ++ rest) { machine := (one m ⟨x, instr⟩).1, visited } t := by
  induction h with
  | done s => exact absurd hx hnew
  | known _ _ ih => exact ih hb hx hnew hd
  | @missing y _ s _ _ _ hd' _ ih =>
    have hne : x ≠ y := by
      rintro rfl
      rw [hd] at hd'
      cases hd'
    exact ih hb hx (by simp [hne, hnew]) hd
  | @gathered y rest s _ instr' _ hd' hrest ih =>
    by_cases hxy : x = y
    · subst hxy
      rw [hd] at hd'
      cases hd'
      exact ⟨s.machine, rest, _, rfl, hb, hrest⟩
    · have hprogram := (one_onlyData s.machine ⟨y, instr'⟩).program
      rw [← hprogram] at hd ⊢
      exact ih (isSome_base?_one hb _) hx (by simp [hxy, hnew]) hd

/-- What an instruction pulls in is reached with it. An address among it that was met before, and
may not be finished, has been pending. -/
theorem pulls_subset (h : Gathers pending s t) (hb : s.machine.base?.isSome) {x : Nat}
    {instr : Instruction String} (hx : x ∈ t.visited) (hnew : x ∉ s.visited)
    (hd : s.machine.program.decode x = .ok instr) : pulls s.machine.program instr ⊆ t.visited := by
  obtain ⟨m, rest, visited, hprogram, hbase, hrun⟩ := h.exists_gathered hb hx hnew hd
  have hpulled := (List.append_subset.mp hrun.pending_subset).1
  rwa [pulled_eq hbase, hprogram] at hpulled

/-- Nothing is reached but what every closed set holds. -/
theorem least (h : Gathers pending s t) {S : Nat → Prop} (hpending : ∀ x ∈ pending, S x)
    (hS : ∀ x instr, S x → s.machine.program.decode x = .ok instr →
      ∀ y ∈ pulls s.machine.program instr, S y)
    {x : Nat} (hx : x ∈ t.visited) : x ∈ s.visited ∨ S x := by
  induction h with
  | done s => exact .inl hx
  | known _ _ ih => exact ih (fun y hy => hpending y (List.mem_cons_of_mem _ hy)) hS hx
  | @missing y _ s _ _ _ _ _ ih =>
    have hy := hpending y List.mem_cons_self
    rcases ih (fun z hz => hpending z (List.mem_cons_of_mem _ hz)) hS hx with hold | hnew
    · rcases List.mem_cons.mp hold with rfl | hold
      · exact .inr hy
      · exact .inl hold
    · exact .inr hnew
  | @gathered y rest s _ instr _ hd _ ih =>
    have hy := hpending y List.mem_cons_self
    have hmore : ∀ z ∈ (one s.machine ⟨y, instr⟩).2 ++ rest, S z := by
      intro z hz
      rcases List.mem_append.mp hz with hpulled | hrest
      · exact hS y instr hy hd z (pulled_subset _ _ hpulled)
      · exact hpending z (List.mem_cons_of_mem _ hrest)
    rcases ih hmore (by dsimp only; rwa [(one_onlyData s.machine ⟨y, instr⟩).program]) hx with
      hold | hnew
    · rcases List.mem_cons.mp hold with rfl | hold
      · exact .inr hy
      · exact .inl hold
    · exact .inr hnew

theorem closed (h : Gathers pending { machine := s.machine } t) (hb : s.machine.base?.isSome) :
    Closed s.machine.program pending (· ∈ t.visited) := by
  refine ⟨fun x hx => h.pending_subset hx, ?_⟩
  intro x instr hx hd tag htag hkind target hf y hle hlt
  exact h.pulls_subset hb hx (by simp) hd (mem_pulls.mpr ⟨tag, htag, hkind, target, hf, hle, hlt⟩)

end Gathers

theorem Closed.holds {program : Program} {pending : List Nat} {S : Nat → Prop}
    (h : Closed program pending S) {x y : Nat} {instr : Instruction String} (hx : S x)
    (hd : program.decode x = .ok instr) (hy : y ∈ pulls program instr) : S y := by
  obtain ⟨tag, htag, hkind, target, hf, hle, hlt⟩ := mem_pulls.mp hy
  exact h.pulled x instr hx hd tag htag hkind target hf y hle hlt

/-! ## What it leaves in the base frame -/

def baseKeys (m : Machine) : List String := m.base?.elim [] fun frame => frame.data.keys

theorem keys_prefix_describe (id : String) (object : Entries (Value String))
    (tags : List (Tag String)) (frame : Frame) :
    frame.data.keys <+: (describe id object tags frame).data.keys :=
  (Entries.keys_prefix_insert frame.data id (.map object)).trans
    (Frame.keys_prefix_addTags (frame.insert id _) _)

theorem mem_keys_describe (id : String) (object : Entries (Value String)) (tags : List (Tag String))
    (frame : Frame) : id ∈ (describe id object tags frame).data.keys :=
  (Frame.keys_prefix_addTags _ _).subset (Entries.mem_keys_insert _ _ _)

theorem baseKeys_prefix_one (m : Machine) (here : Located) :
    baseKeys m <+: baseKeys (one m here).1 := by
  unfold one
  dsimp only
  split
  · split
    · rw [baseKeys, baseKeys, base?_modifyBase]
      cases m.base? with
      | none => exact List.prefix_rfl
      | some base => exact keys_prefix_describe _ _ _ base
    · exact List.prefix_rfl
  · exact List.prefix_rfl

theorem mem_baseKeys_one {m : Machine} {here : Located} {id : String} (hb : m.base?.isSome)
    (hc : here.instr.op.isContextual) (hid : here.instr.id = some id) :
    id ∈ baseKeys (one m here).1 := by
  obtain ⟨base, hbase⟩ := Option.isSome_iff_exists.mp hb
  simp only [one, hc, hid, if_pos hb, baseKeys, base?_modifyBase]
  rw [hbase]
  exact mem_keys_describe _ _ _ base

namespace Gathers

variable {pending : List Nat} {s t : Gathering}

theorem baseKeys_prefix (h : Gathers pending s t) : baseKeys s.machine <+: baseKeys t.machine := by
  rw [h.eq_all]
  exact upTo_rel (R := fun m m' => baseKeys m <+: baseKeys m') (fun _ => List.prefix_rfl)
    (fun _ _ _ => List.IsPrefix.trans) (fun m here _ => baseKeys_prefix_one m here) _ pending s

/-- Each instruction reached that describes something has an entry. -/
theorem mem_baseKeys (h : Gathers pending s t) (hb : s.machine.base?.isSome) {x : Nat}
    {instr : Instruction String} {id : String} (hx : x ∈ t.visited) (hnew : x ∉ s.visited)
    (hd : s.machine.program.decode x = .ok instr) (hc : instr.op.isContextual)
    (hid : instr.id = some id) : id ∈ baseKeys t.machine := by
  obtain ⟨m, rest, visited, _, hbase, hrun⟩ := h.exists_gathered hb hx hnew hd
  exact hrun.baseKeys_prefix.subset (mem_baseKeys_one hbase hc hid)

end Gathers

theorem exists_data_of_onlyData {m m' : Machine} {base : Frame} (h : Machine.OnlyData m m')
    (hb : m.base? = some base) :
    ∃ data, m' = m.modifyBase (fun frame => { frame with data }) ∧ baseKeys m' = data.keys := by
  obtain ⟨f, hf, rfl⟩ := h
  refine ⟨(f base).data, ?_, ?_⟩
  · have hsame : f base = { base with data := (f base).data } := hf base
    have hstack : m.stack.modify m.registers.bsp f =
        m.stack.modify m.registers.bsp (fun frame => { frame with data := (f base).data }) :=
        modify_congr hb hsame
    simp only [Machine.modifyBase, hstack]
  · rw [baseKeys, base?_modifyBase, hb]
    rfl

/-- Gathering from a range of addresses ends, whatever refers to what. It reaches the least closed
set that holds the range, changes nothing but the data of the base frame, keeps all keys there, and
leaves an entry for each instruction reached that describes something. -/
theorem gathers_least (m : Machine) (a b : Nat) (h : m.registers.bsp < m.stack.length) :
    let range := List.range' a (b - a)
    let s := all range { machine := m }
    (∀ t, Gathers range { machine := m } t ↔ t = s) ∧
      Closed m.program range (· ∈ s.visited) ∧
      (∀ S, Closed m.program range S → ∀ x ∈ s.visited, S x) ∧
      ∃ base data, m.base? = some base ∧
        s.machine = m.modifyBase (fun frame => { frame with data }) ∧ base.data.keys <+: data.keys ∧
        ∀ x ∈ s.visited, ∀ instr id, m.program.decode x = .ok instr → instr.op.isContextual →
          instr.id = some id → id ∈ data.keys := by
  intro range s
  have hrun : Gathers range { machine := m } s := all_gathers range _
  obtain ⟨base, hbase⟩ : ∃ base, m.base? = some base := ⟨_, List.getElem?_eq_getElem h⟩
  have hsome : m.base?.isSome := by rw [hbase]; rfl
  obtain ⟨data, hdata, hkeys⟩ := exists_data_of_onlyData hrun.onlyData hbase
  refine ⟨fun t => ⟨Gathers.eq_all, fun ht => ht ▸ hrun⟩, hrun.closed (s := ⟨m, []⟩) hsome, ?_,
    base, data, hbase, hdata, ?_, ?_⟩
  · intro S hS x hx
    rcases hrun.least hS.pending (fun y instr hy hd z hz => hS.holds hy hd hz) hx with hold | hin
    · cases hold
    · exact hin
  · have hprefix := hrun.baseKeys_prefix
    rw [hkeys, baseKeys, hbase] at hprefix
    exact hprefix
  · intro x hx instr id hd hc hid
    rw [← hkeys]
    exact hrun.mem_baseKeys hsome hx (by simp) hd hc hid

/-- An entity that refers to a link, which leads on to a state with a body, which refers back to the
entity. -/
def kinCircle : Program :=
  { entry := 0
    symbols := []
    text := ["Kin"]
    code :=
      [(0, { id := some "Wade", op := .context .entity, next := [1]
             tags := [{ root := 0, kind := .reference, segments := [], address := 1 }] }),
        (1, { op := .link, next := [2],
              tags := [{ root := 0, kind := .hashtag, segments := [], address := 2 }] }),
        (2, { id := some "Armor", op := .context .state, next := [3], bodyEnd := some 4
              tags := [{ root := 0, kind := .reference, segments := [], address := 0 }] }),
        (3, { id := some "Plate", op := .context .state, next := [4] }),
        (4, { id := some "Blade", op := .context .state, next := [-1] })] }

theorem gathers_least_circle :
    let m := Machine.start kinCircle
    let s := all [0] { machine := m }
    m.registers.bsp < m.stack.length ∧ s.visited = [3, 2, 1, 0] ∧
    baseKeys s.machine = ["Wade", "Armor", "Plate"] ∧
      Gathers [0] { machine := m } s ∧ Closed kinCircle [0] (· ∈ s.visited) := by
  intro m s
  have hbase : m.registers.bsp < m.stack.length := by decide
  obtain ⟨hrun, hclosed, _⟩ := gathers_least m 0 1 hbase
  exact ⟨hbase, by decide +kernel, by decide +kernel, (hrun s).mpr rfl, hclosed⟩

end Gathering

end GlyphScript
