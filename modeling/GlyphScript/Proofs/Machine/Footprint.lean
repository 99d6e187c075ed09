import GlyphScript.Proofs.Machine.Scoping
import GlyphScript.Proofs.Program.Decoding

/-! # What gathering touches

Gathering changes the data of the base frame and nothing else: no register, no scope, no record and
no other frame. Merging changes the data and appends the records.
-/

namespace GlyphScript

namespace Frame

def SameButData (frame frame' : Frame) : Prop := frame' = { frame with data := frame'.data }

theorem SameButData.trans {a b c : Frame} (h : a.SameButData b) (h' : b.SameButData c) :
    a.SameButData c := by
  unfold SameButData at *
  rw [h', h]

theorem sameButData_insert (frame : Frame) (key : String) (value : Value String) :
    frame.SameButData (frame.insert key value) := rfl

theorem sameButData_addTags (frame : Frame) (names : List String) :
    frame.SameButData (frame.addTags names) := by
  induction names generalizing frame with
  | nil => rfl
  | cons name names ih => exact (frame.sameButData_insert _ _).trans (ih (frame.addTag name))

theorem sameButData_mergeEntry (frame : Frame) (entry : String × Value String) :
    frame.SameButData (frame.mergeEntry entry) := by
  unfold mergeEntry
  split
  · split
    · exact frame.sameButData_addTags _
    · rfl
  · rfl

theorem sameButData_mergeEntries (frame : Frame) (entries : Entries (Value String)) :
    frame.SameButData (entries.foldl mergeEntry frame) := by
  induction entries generalizing frame with
  | nil => rfl
  | cons entry entries ih => exact (frame.sameButData_mergeEntry entry).trans (ih _)

/-- Merging appends the records and keeps the scope. -/
theorem merge_eq (frame child : Frame) :
    frame.merge child =
      { frame with
        data := (child.data.foldl mergeEntry frame).data
        utterances := frame.utterances ++ child.utterances
        signals := frame.signals ++ child.signals } := by
  unfold merge
  rw [frame.sameButData_mergeEntries child.data]

theorem scope_merge (frame child : Frame) : (frame.merge child).scope = frame.scope := by
  rw [merge_eq]

theorem utterances_merge (frame child : Frame) :
    (frame.merge child).utterances = frame.utterances ++ child.utterances := by
  rw [merge_eq]

theorem signals_merge (frame child : Frame) :
    (frame.merge child).signals = frame.signals ++ child.signals := by
  rw [merge_eq]

end Frame

namespace Machine

section Decoding

variable {m : Machine} {here : Located} {address : Address}

theorem decode_eq_ok (h : m.decode address = .ok here) :
    ∃ raw, m.program.fetch? here.address = some raw ∧ raw.SameShape here.instr ∧
      (here.address : Address) = address := by
  unfold decode at h
  split at h
  · next instr hd =>
    cases h
    obtain ⟨raw, hf, hr⟩ := Program.decode_eq_ok hd
    have ha := Int.toNat_of_nonneg (Program.fetch?_nonneg hf)
    exact ⟨raw, by rw [ha]; exact hf, hr, ha⟩
  · cases h
  · cases h

theorem decode_located (h : m.decode address = .ok here) :
    m.program.decode here.address = .ok here.instr := by
  obtain ⟨_, _, _, ha⟩ := decode_eq_ok h
  unfold decode at h
  split at h
  · next instr hd =>
    cases h
    rw [ha, hd]
  · cases h
  · cases h

end Decoding

def OnlyData (m m' : Machine) : Prop :=
  ∃ f : Frame → Frame, (∀ frame : Frame, frame.SameButData (f frame)) ∧ m' = m.modifyBase f

namespace OnlyData

variable {m m' m'' : Machine}

theorem refl (m : Machine) : OnlyData m m := ⟨id, fun _ => rfl, by simp [modifyBase]⟩

theorem trans (h : OnlyData m m') (h' : OnlyData m' m'') : OnlyData m m'' := by
  obtain ⟨f, hf, rfl⟩ := h
  obtain ⟨g, hg, rfl⟩ := h'
  refine ⟨g ∘ f, fun frame => (hf frame).trans (hg _), ?_⟩
  simp [modifyBase, List.modify_modify_eq]

theorem program (h : OnlyData m m') : m'.program = m.program := by
  obtain ⟨f, _, rfl⟩ := h
  rfl

theorem registers (h : OnlyData m m') : m'.registers = m.registers := by
  obtain ⟨f, _, rfl⟩ := h
  rfl

theorem jumped (h : OnlyData m m') : m'.jumped = m.jumped := by
  obtain ⟨f, _, rfl⟩ := h
  rfl

theorem map {α : Type} {g : Frame → α}
    (hg : ∀ (frame : Frame) data, g { frame with data } = g frame) (h : OnlyData m m') :
    m'.stack.map g = m.stack.map g := by
  obtain ⟨f, hf, rfl⟩ := h
  refine map_modify_of_eq (fun frame => ?_) m.stack m.registers.bsp
  rw [hf frame, hg]

theorem scoping (h : OnlyData m m') : m'.scoping = m.scoping := h.map fun _ _ => rfl

end OnlyData

end Machine

namespace Gathering

section Relation

variable {R : Machine → Machine → Prop} (hrefl : ∀ m, R m m)
  (htrans : ∀ a b c, R a b → R b c → R a c)
  (hone : ∀ m (here : Located), m.program.decode here.address = .ok here.instr →
    R m (one m here).1)

include hrefl htrans hone

theorem scan_rel {resume : List Nat → Gathering → Gathering}
    (hr : ∀ pending s, R s.machine (resume pending s).machine) (pending : List Nat)
    (s : Gathering) : R s.machine (scan resume pending s).machine := by
  induction pending generalizing s with
  | nil => exact hrefl _
  | cons address rest ih =>
    unfold scan
    split
    · exact ih s
    · split
      · exact ih { s with visited := address :: s.visited }
      · next here hd =>
        exact htrans _ _ _ (hone s.machine here (Machine.decode_located hd))
          (hr _ { machine := (one s.machine here).1, visited := address :: s.visited })

/-- What each gathered instruction does to the machine, all of them do. -/
theorem upTo_rel (n : Nat) (pending : List Nat) (s : Gathering) :
    R s.machine (upTo n pending s).machine := by
  induction n generalizing pending s with
  | zero => exact hrefl _
  | succ n ih => exact scan_rel hrefl htrans hone ih pending s

end Relation

theorem describe_onlyData (m : Machine) (id : String) (object : Entries (Value String))
    (tags : List (Tag String)) : Machine.OnlyData m (m.modifyBase (describe id object tags)) :=
  ⟨_, fun frame => (frame.sameButData_insert _ _).trans (Frame.sameButData_addTags _ _), rfl⟩

theorem one_onlyData (m : Machine) (here : Located) : Machine.OnlyData m (one m here).1 := by
  unfold one
  split
  · split
    · exact describe_onlyData m _ _ _
    · exact .refl m
  · exact .refl m

end Gathering

namespace Machine

theorem gather_onlyData (m : Machine) (pending : List Nat) : OnlyData m (m.gather pending) :=
  Gathering.upTo_rel OnlyData.refl (fun _ _ _ => OnlyData.trans)
    (fun m here _ => Gathering.one_onlyData m here) _ pending { machine := m }

theorem WellScoped.of_onlyData {m m' : Machine} (h : m.WellScoped) (ho : OnlyData m m') :
    m'.WellScoped :=
  h.congr ho.program ho.scoping (by rw [ho.registers]) (by rw [ho.registers])

end Machine

end GlyphScript
