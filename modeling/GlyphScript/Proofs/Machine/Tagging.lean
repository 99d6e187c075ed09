import GlyphScript.Program.Compile
import GlyphScript.Proofs.Machine.Leaving

/-! # Hashtags that come together

A frame has a hashtag if its map of hashtags marks the name as true. Merging looks at the names
alone: each name of the map is marked in the parent, whatever stood beside it. This makes no
difference as long as nothing but hashtags gets into the map, but an instruction that is called like
the map puts its description there.
-/

namespace GlyphScript

/-- No contextual instruction is called like the map of hashtags. -/
def Program.SparesTags (program : Program) : Prop :=
  ∀ (address : Address) (instr : Instruction TextId), program.fetch? address = some instr →
    instr.op.isContextual → instr.id ≠ some tagsKey

theorem Program.SparesTags.ne {program : Program} {here : Located} {id : String}
    (h : program.SparesTags) (hd : program.decode here.address = .ok here.instr)
    (hc : here.instr.op.isContextual) (hid : here.instr.id = some id) : id ≠ tagsKey := by
  obtain ⟨raw, hf, hshape⟩ := Program.decode_eq_ok hd
  rintro rfl
  exact h here.address raw hf (hshape.op ▸ hc) (hshape.id ▸ hid)

namespace Frame

variable {frame child : Frame} {name : String}

theorem hasTag_iff : frame.hasTag name ↔ frame.tags.get? name = some (.bool true) := by
  unfold hasTag
  constructor
  · intro h
    split at h
    · assumption
    · cases h
  · intro h
    rw [h]

theorem mem_keys_of_hasTag (h : frame.hasTag name) : name ∈ frame.tags.keys := by
  apply Decidable.byContradiction
  intro hnot
  have hget := hasTag_iff.mp h
  rw [(Entries.get?_eq_none_iff frame.tags name).mpr hnot] at hget
  cases hget

/-- Merging marks all names that the other frame lists. -/
theorem hasTag_merge (hc : child.Tidy) :
    (frame.merge child).hasTag name ↔ frame.hasTag name ∨ name ∈ child.tags.keys := by
  rw [hasTag_iff, hasTag_iff, tags_merge frame hc, get?_mark]
  by_cases hn : name ∈ child.tags.keys
  · simp [hn]
  · simp [hn]

theorem hasTag_foldl_merge {frames : List Frame} (hf : ∀ child ∈ frames, child.Tidy) :
    (frames.foldl Frame.merge frame).hasTag name ↔
      frame.hasTag name ∨ ∃ child ∈ frames, name ∈ child.tags.keys := by
  induction frames generalizing frame with
  | nil => simp
  | cons child frames ih =>
    obtain ⟨hc, hf⟩ := List.forall_mem_cons.mp hf
    simp only [List.foldl_cons, ih hf, hasTag_merge hc, List.mem_cons, exists_eq_or_imp, or_assoc]

/-! ## Frames that list hashtags only -/

def Marked (frame : Frame) : Prop := ∀ name ∈ frame.tags.keys, frame.hasTag name

namespace Marked

theorem of_tags_nil (h : frame.tags = []) : frame.Marked := by
  intro name hn
  rw [h] at hn
  cases hn

theorem congr {frame' : Frame} (h : frame.Marked) (ht : frame'.tags = frame.tags) :
    frame'.Marked := by
  intro name hn
  rw [hasTag_iff, ht]
  rw [ht] at hn
  exact hasTag_iff.mp (h name hn)

theorem insert_of_ne (h : frame.Marked) {key : String} (hk : key ≠ tagsKey) (value : Value String) :
    (frame.insert key value).Marked :=
  h.congr (tags_insert_of_ne hk)

theorem addTags (h : frame.Marked) (names : List String) : (frame.addTags names).Marked := by
  by_cases hne : names = []
  · subst hne
    exact h
  · have htags : (frame.addTags names).tags = mark frame.tags names := by
      rw [addTags_eq hne, tags_eq, get?_insert, if_pos rfl]
      rfl
    intro name hn
    rw [htags, keys_mark, Entries.mem_addKeys] at hn
    rw [hasTag_iff, htags, get?_mark]
    split
    · rfl
    · next hnot => exact hasTag_iff.mp (h name (hn.resolve_right hnot))

theorem mergeEntry (h : frame.Marked) (entry : String × Value String) :
    (frame.mergeEntry entry).Marked := by
  obtain ⟨key, value⟩ := entry
  by_cases hk : key = tagsKey
  · subst hk
    cases value with
    | map entries => exact h.addTags _
    | _ =>
      apply of_tags_nil
      change (frame.insert tagsKey _).tags = []
      rw [tags_eq, get?_insert, if_pos rfl]
      rfl
  · cases value with
    | map entries =>
      rw [Frame.mergeEntry, if_neg hk]
      exact h.insert_of_ne hk _
    | _ => exact h.insert_of_ne hk _

theorem merge (h : frame.Marked) (child : Frame) : (frame.merge child).Marked := by
  have hentries : ∀ (entries : Entries (Value String)) {frame : Frame}, frame.Marked →
      (entries.foldl Frame.mergeEntry frame).Marked := by
    intro entries
    induction entries with
    | nil => exact fun h => h
    | cons entry entries ih => exact fun h => ih (h.mergeEntry entry)
  exact (hentries child.data h).congr rfl

end Marked

end Frame

namespace Machine

variable {program : Program} {now : Nat} {turns : Prop} {m m' : Machine} {us : List Utterance}
  {ss : List Signal}

def Marked (m : Machine) : Prop := ∀ frame ∈ m.stack, frame.Marked

namespace Marked

theorem modifyBase (h : m.Marked) {f : Frame → Frame}
    (hf : ∀ frame : Frame, frame.Marked → (f frame).Marked) : (m.modifyBase f).Marked :=
  forall_mem_modify hf h m.registers.bsp

theorem push (h : m.Marked) {frame : Frame} (hf : frame.Marked) :
    ∀ frame' ∈ m.stack ++ [frame], frame'.Marked :=
  List.forall_mem_append.mpr ⟨h, List.forall_mem_singleton.mpr hf⟩

theorem toOthers (h : m.Marked) (record : Signal) : (m.toOthers record).Marked := by
  intro frame hf
  obtain ⟨i, hi, rfl⟩ := List.mem_mapIdx.mp hf
  have hframe := h m.stack[i] (List.getElem_mem hi)
  split
  · exact hframe
  · exact hframe.congr rfl

end Marked

theorem Move.program_eq (h : Move now turns m us ss m') : m'.program = m.program := by
  cases h with
  | steer hp _ => exact hp
  | opens _ _ hp _ => exact hp
  | announce here =>
    unfold Machine.announce
    split
    · rfl
    · rfl
  | _ => rfl

theorem Move.marked (h : Move now turns m us ss m') (hp : m.program.SparesTags) (hm : m.Marked) :
    m'.Marked := by
  cases h with
  | steer _ hv =>
    have hstack : m'.stack = m.stack := congrArg View.frames hv
    exact fun frame hf => hm frame (hstack ▸ hf)
  | mark f _ _ => exact hm.modifyBase fun frame hf => hf.congr rfl
  | gather hd hc hid =>
    exact hm.modifyBase fun frame hf => (hf.insert_of_ne (hp.ne hd hc hid) _).addTags _
  | @describe here id hd hc hid =>
    refine hm.push (.of_tags_nil ?_)
    have hget : ({ data := [(id, .map (m.description here))] } : Frame).get? tagsKey = none := by
      rw [Frame.get?, Entries.get?_cons, if_neg (hp.ne hd hc hid).symm, Entries.get?_nil]
    rw [Frame.tags_eq, hget]
    rfl
  | opens _ _ _ hv =>
    have hstack : m'.stack = _ := congrArg View.frames hv
    intro frame hf
    rw [hstack] at hf
    exact hm.push (.of_tags_nil rfl) frame hf
  | renews _ => exact hm.modifyBase fun frame hf => hf.congr rfl
  | closes _ _ _ =>
    exact forall_mem_modify (fun _ hf => hf.merge _)
      (fun frame hf => hm frame (List.mem_of_mem_take hf)) _
  | tell here => exact hm.modifyBase fun frame hf => hf.congr rfl
  | announce here =>
    refine Marked.modifyBase ?_ fun frame hf => hf.congr rfl
    split
    · exact hm.toOthers _
    · exact hm

theorem Moves.marked (h : Moves now turns m us ss m') (hp : m.program.SparesTags) (hm : m.Marked) :
    m'.Marked := by
  induction h with
  | refl m => exact hm
  | head hmove _ ih => exact ih (by rw [hmove.program_eq]; exact hp) (hmove.marked hp hm)

theorem Reachable.marked (h : Reachable program m) (hp : program.SparesTags) : m.Marked := by
  induction h with
  | start =>
    intro frame hf
    obtain rfl := List.mem_singleton.mp hf
    exact .of_tags_nil rfl
  | step now hr hs ih =>
    obtain ⟨hw, heq⟩ := hr.wellScoped
    exact (step?_moves hw hs).marked (by rw [heq]; exact hp) ih

/-! ## Leaving -/

variable {scope : Scope} {stepped : Stepped}

def leaving? (m : Machine) : Option Scope :=
  match m.scope?, m.decode m.registers.ip with
  | some scope, .ok here =>
    if here.instr.op = .trigger ∧ scope.address = here.address ∧
      scope.cycle.maxim ≤ scope.cycle.count + 1 then
      some scope
    else none
  | _, _ => none

theorem leaves_of_leaving? (h : m.leaving? = some scope) : m.Leaves scope := by
  unfold leaving? at h
  split at h
  · next s here hs hd =>
    split at h
    · next hcond =>
      cases h
      obtain ⟨hop, ha, hlast⟩ := hcond
      exact ⟨hs, ⟨here, hd, hop, ha⟩, hlast⟩
    · cases h
  · cases h

/-- The parent of a scope that is closed has the hashtags that it had and those that the other
frames list. So it has all hashtags of the frames that come together, and no more than those if no
instruction is called like their map. -/
theorem leaving_unites_hashtags (hr : Reachable program m) (hl : m.Leaves scope)
    (hs : step? { now } m = some stepped) :
    ∃ parent left, scope.parent < m.registers.bsp ∧ m.stack[scope.parent]? = some parent ∧
      stepped.machine.stack[scope.parent]? = some left ∧ ∀ name,
        (left.hasTag name ↔
          parent.hasTag name ∨ ∃ frame ∈ m.stack.drop m.registers.bsp, name ∈ frame.tags.keys) ∧
        ((∃ frame ∈ parent :: m.stack.drop m.registers.bsp, frame.hasTag name) → left.hasTag name) ∧
        (program.SparesTags →
          (left.hasTag name ↔
            ∃ frame ∈ parent :: m.stack.drop m.registers.bsp, frame.hasTag name)) := by
  obtain ⟨parent, left, h⟩ := hr.left hl hs
  have hdata : ∀ name, left.hasTag name ↔
      parent.hasTag name ∨ ∃ frame ∈ m.stack.drop m.registers.bsp, name ∈ frame.tags.keys := by
    intro name
    have htags : left.tags = ((m.stack.drop m.registers.bsp).foldl Frame.merge parent).tags := by
      rw [Frame.tags_eq, h.get?_eq, ← Frame.tags_eq]
    rw [← Frame.hasTag_foldl_merge fun child hc => hr.tidy child (List.mem_of_mem_drop hc),
      Frame.hasTag_iff, htags, ← Frame.hasTag_iff]
  refine ⟨parent, left, h.lower, h.before, h.after, fun name => ⟨hdata name, ?_, fun hp => ?_⟩⟩
  · simp only [hdata, List.mem_cons, exists_eq_or_imp]
    rintro (hparent | ⟨frame, hf, htag⟩)
    · exact .inl hparent
    · exact .inr ⟨frame, hf, Frame.mem_keys_of_hasTag htag⟩
  · simp only [hdata, List.mem_cons, exists_eq_or_imp]
    constructor
    · rintro (hparent | ⟨frame, hf, hlists⟩)
      · exact .inl hparent
      · exact .inr ⟨frame, hf, hr.marked hp frame (List.mem_of_mem_drop hf) name hlists⟩
    · rintro (hparent | ⟨frame, hf, htag⟩)
      · exact .inl hparent
      · exact .inr ⟨frame, hf, Frame.mem_keys_of_hasTag htag⟩

/-- A trigger around two descriptions with a hashtag each. -/
def traits : Forest :=
  [{ op := .trigger
     body :=
       [{ op := .context .entity, params := [("id", .text "Wade")],
          tags := [.hashtag "mercenary"],
          body :=
            [{ op := .context .state, params := [("id", .text "Suit")],
               tags := [.hashtag "red"] }] }] }]

theorem leaving_unites_hashtags_traits :
    ∃ program scope stepped parent left, compile traits 0 = .ok program ∧ program.SparesTags ∧
      Reachable program (steps {} 3 (start program)) ∧ (steps {} 3 (start program)).Leaves scope ∧
      step? {} (steps {} 3 (start program)) = some stepped ∧
      (steps {} 3 (start program)).stack[scope.parent]? = some parent ∧
      parent.hasTag "red" = false ∧ stepped.machine.stack[scope.parent]? = some left ∧
      left.hasTag "red" ∧ left.hasTag "mercenary" ∧ ¬ left.hasTag "__type" := by
  let program := Link.link (Layout.ofForest 0 traits) (Layout.entry traits)
  let m := steps {} 3 (start program)
  have hc : compile traits 0 = .ok program := rfl
  have hspares : program.SparesTags := by
    have hcode : ∀ entry ∈ program.code, entry.2.op.isContextual → entry.2.id ≠ some tagsKey := by
      decide +kernel
    exact fun address instr hf => hcode _ (Program.mem_of_fetch? hf)
  have hr : Reachable program m := Reachable.start.steps 0 3
  obtain ⟨scope, hscope⟩ := Option.isSome_iff_exists.mp (show m.leaving?.isSome by decide +kernel)
  obtain ⟨stepped, hs⟩ := Option.isSome_iff_exists.mp (show (step? {} m).isSome by decide +kernel)
  have hl := leaves_of_leaving? hscope
  have hparent : m.leaving?.map Scope.parent = some 0 := by decide +kernel
  rw [hscope] at hparent
  have hparent : scope.parent = 0 := Option.some.inj hparent
  obtain ⟨parent, left, _, hbefore, hafter, hunites⟩ := leaving_unites_hashtags hr hl hs
  have hbare : (m.stack[0]?.map (·.hasTag "red")) = some false := by decide +kernel
  have htags : ∀ name ∈ ["red", "mercenary"],
      ∃ frame ∈ m.stack.drop m.registers.bsp, name ∈ frame.tags.keys := by
    decide +kernel
  have htype : ∀ frame ∈ m.stack, frame.hasTag "__type" = false := by decide +kernel
  rw [← hparent, hbefore] at hbare
  refine ⟨program, scope, stepped, parent, left, hc, hspares, hr, hl, hs, hbefore,
    Option.some.inj hbare, hafter, ?_, ?_, ?_⟩
  · exact (hunites "red").1.mpr (.inr (htags "red" (by simp)))
  · exact (hunites "mercenary").1.mpr (.inr (htags "mercenary" (by simp)))
  · rw [(hunites "__type").2.2 hspares]
    rintro ⟨frame, hf, htag⟩
    have hmem : frame ∈ m.stack := by
      rcases List.mem_cons.mp hf with rfl | hf
      · exact List.mem_of_getElem? hbefore
      · exact List.mem_of_mem_drop hf
    rw [htype frame hmem] at htag
    cases htag

/-- A trigger around a state that is called like the map of hashtags. -/
def namesake : Forest :=
  [{ op := .trigger
     body := [{ op := .context .entity, params := [("id", .text "Wade")],
                body := [{ op := .context .state, params := [("id", .text "Tags")] }] }] }]

/-- No frame has the hashtag before the scope is closed, and the root frame has it afterwards. -/
theorem hashtag_made_of_description :
    ∃ program scope stepped, compile namesake 0 = .ok program ∧
      Reachable program (steps {} 3 (start program)) ∧ (steps {} 3 (start program)).Leaves scope ∧
      step? {} (steps {} 3 (start program)) = some stepped ∧ scope.parent = 0 ∧
      (∀ frame ∈ (steps {} 3 (start program)).stack, frame.hasTag "__type" = false) ∧
      (stepped.machine.stack[0]?.map (·.hasTag "__type")) = some true := by
  let program := Link.link (Layout.ofForest 0 namesake) (Layout.entry namesake)
  let m := steps {} 3 (start program)
  obtain ⟨scope, hscope⟩ := Option.isSome_iff_exists.mp (show m.leaving?.isSome by decide +kernel)
  obtain ⟨stepped, hs⟩ := Option.isSome_iff_exists.mp (show (step? {} m).isSome by decide +kernel)
  have hparent : m.leaving?.map Scope.parent = some 0 := by decide +kernel
  have htype : (step? {} m).map (fun stepped => stepped.machine.stack[0]?.map (·.hasTag "__type")) =
      some (some true) := by decide +kernel
  rw [hscope] at hparent
  rw [hs] at htype
  refine ⟨program, scope, stepped, rfl, Reachable.start.steps 0 3, leaves_of_leaving? hscope, hs,
    Option.some.inj hparent, by decide +kernel, Option.some.inj htype⟩

end Machine

end GlyphScript
