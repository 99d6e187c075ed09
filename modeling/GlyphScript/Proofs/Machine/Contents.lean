import GlyphScript.Proofs.Lambda.Plain
import GlyphScript.Proofs.Machine.Moves

/-! # What frames hold

Under any key but that of the hashtags a frame holds what one contextual instruction with this
identifier describes. All of it is evaluated, so no lambda gets into a frame or a record.
-/

namespace GlyphScript

open Value

/-- An object that names an instruction with the given identifier, and where and when it stands. -/
def Program.Describes (program : Program) (id : String) (object : Entries (Value String)) : Prop :=
  ∃ (address : Nat) (instr : Instruction TextId), program.fetch? address = some instr ∧
    instr.op.isContextual ∧
    instr.id = some id ∧ object.get? "__type" = some (.text instr.op.glyph) ∧
    object.get? "__address" = some (.number (Float.ofNat address)) ∧
    object.get? "__timestamp" = some (.number (Float.ofNat instr.timestamp))

structure Held (program : Program) (key : String) (value : Value String) : Prop where
  described : key ≠ tagsKey → ∃ object, value = .map object ∧ program.Describes key object
  tagged : key = tagsKey → ∃ tags, value = .map tags ∧ tags ≠ []
  plain : value.isPlain

def Utterance.Plain (u : Utterance) : Prop :=
  u.target.isPlain ∧ u.message.isPlain ∧ u.channel.isPlain

def Signal.Plain (s : Signal) : Prop := s.name.isPlain ∧ s.payload.isPlain

/-- All that a frame holds is evaluated and comes from the program. -/
structure Frame.Grounded (program : Program) (frame : Frame) : Prop where
  data : ∀ key value, (key, value) ∈ frame.data → Held program key value
  utterances : ∀ u ∈ frame.utterances, u.Plain
  signals : ∀ s ∈ frame.signals, s.Plain

variable {program : Program}

theorem Held.of_describes {id : String} {object : Entries (Value String)}
    (h : program.Describes id object) (hp : (Value.map object).isPlain) :
    Held program id (.map object) where
  described := fun _ => ⟨object, rfl, h⟩
  tagged := by
    intro _
    obtain ⟨_, _, _, _, _, htype, _⟩ := h
    refine ⟨object, rfl, ?_⟩
    rintro rfl
    cases htype
  plain := hp

namespace Frame.Grounded

variable {frame child : Frame}

theorem of_scope (scope : Option Scope) : ({ scope } : Frame).Grounded program :=
  ⟨by simp, by simp, by simp⟩

theorem insert (h : frame.Grounded program) {key : String} {value : Value String}
    (hv : Held program key value) : (frame.insert key value).Grounded program := by
  refine ⟨fun k w hmem => ?_, h.utterances, h.signals⟩
  rcases Entries.mem_insert hmem with ⟨rfl, rfl⟩ | hold
  · exact hv
  · exact h.data k w hold

theorem tags_plain (h : frame.Grounded program) : (Value.map frame.tags).isPlain := by
  unfold Frame.tags
  cases ht : frame.get? tagsKey with
  | none => simp
  | some value =>
    have hheld := h.data tagsKey value (Entries.mem_of_get? ht)
    obtain ⟨tags, rfl, _⟩ := hheld.tagged rfl
    exact hheld.plain

theorem addTag (h : frame.Grounded program) (name : String) :
    (frame.addTag name).Grounded program := by
  refine h.insert ⟨fun hne => absurd rfl hne, fun _ => ⟨_, rfl, ?_⟩, ?_⟩
  · intro hnil
    have hget := Entries.get?_insert frame.tags name name (.bool true)
    simp [hnil] at hget
  · refine (isPlain_map _).mpr fun k w hmem => ?_
    rcases Entries.mem_insert hmem with ⟨_, rfl⟩ | hold
    · rfl
    · exact (isPlain_map _).mp h.tags_plain k w hold

theorem addTags (h : frame.Grounded program) (names : List String) :
    (frame.addTags names).Grounded program := by
  induction names generalizing frame with
  | nil => exact h
  | cons name names ih => exact ih (h.addTag name)

theorem mergeEntry (h : frame.Grounded program) {key : String} {value : Value String}
    (hv : Held program key value) : (frame.mergeEntry (key, value)).Grounded program := by
  unfold Frame.mergeEntry
  split
  · next entries he =>
    cases he
    split
    · exact h.addTags _
    · exact h.insert hv
  · next he =>
    cases he
    exact h.insert hv

theorem mergeEntries (h : frame.Grounded program) (entries : Entries (Value String))
    (he : ∀ key value, (key, value) ∈ entries → Held program key value) :
    (entries.foldl Frame.mergeEntry frame).Grounded program := by
  induction entries generalizing frame with
  | nil => exact h
  | cons entry entries ih =>
    obtain ⟨key, value⟩ := entry
    refine ih (h.mergeEntry (he key value List.mem_cons_self)) fun k w hmem => ?_
    exact he k w (List.mem_cons_of_mem _ hmem)

theorem merge (h : frame.Grounded program) (hc : child.Grounded program) :
    (frame.merge child).Grounded program := by
  have hm := h.mergeEntries child.data hc.data
  refine ⟨hm.data, fun u hu => ?_, fun s hs => ?_⟩
  · rcases List.mem_append.mp hu with hu | hu
    · exact hm.utterances u hu
    · exact hc.utterances u hu
  · rcases List.mem_append.mp hs with hs | hs
    · exact hm.signals s hs
    · exact hc.signals s hs

theorem merges (h : frame.Grounded program) {frames : List Frame}
    (hf : ∀ child ∈ frames, child.Grounded program) :
    (frames.foldl Frame.merge frame).Grounded program := by
  induction frames generalizing frame with
  | nil => exact h
  | cons child frames ih =>
    obtain ⟨hc, hf⟩ := List.forall_mem_cons.mp hf
    exact ih (h.merge hc) hf

theorem describe (h : frame.Grounded program) {id : String} {object : Entries (Value String)}
    (ho : Held program id (.map object)) (tags : List (Tag String)) :
    (Gathering.describe id object tags frame).Grounded program :=
  (h.insert ho).addTags _

theorem receive (h : frame.Grounded program) {record : Signal} (hr : record.Plain) :
    (Machine.receive record frame).Grounded program := by
  refine ⟨h.data, h.utterances, fun s hs => ?_⟩
  rcases List.mem_append.mp hs with hs | hs
  · exact h.signals s hs
  · obtain rfl := List.mem_singleton.mp hs
    exact hr

end Frame.Grounded

namespace Machine

def Grounded (m : Machine) : Prop := ∀ frame ∈ m.stack, frame.Grounded m.program

theorem forall_mem_modify {α : Type} {p : α → Prop} {f : α → α} (hf : ∀ a, p a → p (f a))
    {l : List α} (h : ∀ a ∈ l, p a) (i : Nat) : ∀ a ∈ l.modify i f, p a := by
  induction l generalizing i with
  | nil => simp
  | cons x l ih =>
    obtain ⟨hx, hl⟩ := List.forall_mem_cons.mp h
    cases i with
    | zero => exact List.forall_mem_cons.mpr ⟨hf x hx, hl⟩
    | succ i => exact List.forall_mem_cons.mpr ⟨hx, ih hl i⟩

variable {now : Nat} {turns : Prop} {m m' : Machine} {here : Located} {us : List Utterance}
  {ss : List Signal}

/-! ## What is described, said and signalled -/

namespace Grounded

theorem view_plain (h : m.Grounded) : m.view.Plain :=
  fun frame hf key value hmem => ((h frame hf).data key value hmem).plain

theorem modifyBase (h : m.Grounded) {f : Frame → Frame}
    (hf : ∀ frame, frame.Grounded m.program → (f frame).Grounded m.program) :
    (m.modifyBase f).Grounded :=
  forall_mem_modify hf h m.registers.bsp

theorem push (h : m.Grounded) {frame : Frame} (hf : frame.Grounded m.program) :
    ∀ frame' ∈ m.stack ++ [frame], frame'.Grounded m.program := by
  intro frame' hmem
  rcases List.mem_append.mp hmem with hmem | hmem
  · exact h frame' hmem
  · obtain rfl := List.mem_singleton.mp hmem
    exact hf

theorem param?_plain (h : m.Grounded) (here : Located) (key : String) :
    ∀ w ∈ m.param? here key, w.isPlain := by
  intro w hw
  obtain ⟨v, _, hv⟩ := Option.bind_eq_some_iff.mp hw
  exact evaluate_plain h.view_plain v w hv

theorem description_plain (h : m.Grounded) (here : Located) :
    (Value.map (m.description here)).isPlain := by
  refine (isPlain_map _).mpr fun k w hmem => ?_
  rcases Entries.mem_insert hmem with ⟨_, rfl⟩ | hmem
  · rfl
  · rcases Entries.mem_insert hmem with ⟨_, rfl⟩ | hmem
    · rfl
    · rcases Entries.mem_insert hmem with ⟨_, rfl⟩ | hmem
      · rfl
      · exact evaluateEntries_plain h.view_plain here.instr.params k w hmem

end Grounded

/-- An instruction describes itself, whatever its parameters are called. -/
theorem describes_description (m : Machine) {id : String}
    (hd : m.program.decode here.address = .ok here.instr) (hc : here.instr.op.isContextual)
    (hid : here.instr.id = some id) : m.program.Describes id (m.description here) := by
  obtain ⟨raw, hf, hs⟩ := Program.decode_eq_ok hd
  refine ⟨here.address, raw, hf, hs.op ▸ hc, hs.id ▸ hid, ?_, ?_, ?_⟩
  · simp [description, Entries.get?_insert, hs.op]
  · simp [description, Entries.get?_insert]
  · simp [description, Entries.get?_insert, hs.timestamp]

theorem Grounded.held_description (h : m.Grounded) {id : String}
    (hd : m.program.decode here.address = .ok here.instr) (hc : here.instr.op.isContextual)
    (hid : here.instr.id = some id) : Held m.program id (.map (m.description here)) :=
  .of_describes (m.describes_description hd hc hid) (h.description_plain here)

theorem bind_spoken?_plain {v : Option (Value String)} (hv : ∀ w ∈ v, w.isPlain) :
    ∀ w ∈ v.bind spoken?, w.isPlain := by
  intro w hw
  obtain ⟨u, hu, hs⟩ := Option.bind_eq_some_iff.mp hw
  have hplain := hv u hu
  unfold spoken? at hs
  split at hs
  · split at hs
    · rcases Option.or_eq_some_iff.mp hs with hs | ⟨_, hs⟩
      · exact (isPlain_map _).mp hplain _ _ (Entries.mem_of_get? hs)
      · exact (isPlain_map _).mp hplain _ _ (Entries.mem_of_get? hs)
    · cases hs
      exact hplain
  · cases hs
    exact hplain

namespace Grounded

theorem message_plain (h : m.Grounded) (here : Located) : (m.message here).isPlain := by
  have hgiven := bind_spoken?_plain (h.param?_plain here "message")
  have hknown :=
    bind_spoken?_plain fun w (hw : w ∈ m.view.lookup? "Message") => h.view_plain.lookup? hw
  have hfallback := bind_spoken?_plain fun w (hw : w ∈ Lambda.evaluate m.view defaultMessage) =>
    Lambda.evaluate_plain h.view_plain hw
  unfold message
  simp only [Option.orElse_eq_orElse, Option.orElse_eq_or]
  exact isPlain_getD (isPlain_or hgiven (isPlain_or hknown hfallback)) rfl

theorem utterance_plain (h : m.Grounded) (now : Nat) (here : Located) :
    (utterance now m here).Plain := by
  refine ⟨?_, h.message_plain here, ?_⟩
  · exact isPlain_getD (isPlain_or (h.param?_plain here "target") (h.param?_plain here "to")) rfl
  · exact isPlain_getD (h.param?_plain here "channel") rfl

theorem emission_plain (h : m.Grounded) (now : Nat) (here : Located) :
    (emission now m here).Plain := by
  refine ⟨isPlain_getD (isPlain_or (h.param?_plain here "name") ?_) rfl, ?_⟩
  · simp
  · exact isPlain_getD (h.param?_plain here "payload") rfl

/-! ## Moves -/

theorem mergeDown (h : m.Grounded) {base : Frame} (hb : m.base? = some base) (parent : Nat) :
    (m.mergeDown base parent).Grounded := by
  have hbase := h base (List.mem_of_getElem? hb)
  have hmerged :
      ((m.stack.drop (m.registers.bsp + 1)).foldl Frame.merge
        { base with scope := none }).Grounded m.program := by
    apply Frame.Grounded.merges
    · exact ⟨hbase.data, hbase.utterances, hbase.signals⟩
    · exact fun child hc => h child (List.mem_of_mem_drop hc)
  exact forall_mem_modify (fun frame hf => hf.merge hmerged)
    (fun frame hf => h frame (List.mem_of_mem_take hf)) parent

theorem tell (h : m.Grounded) {record : Utterance} (hr : record.Plain) :
    (m.tell record).Grounded := by
  refine h.modifyBase fun frame hf => ⟨hf.data, fun u hu => ?_, hf.signals⟩
  rcases List.mem_append.mp hu with hu | hu
  · exact hf.utterances u hu
  · obtain rfl := List.mem_singleton.mp hu
    exact hr

theorem toOthers (h : m.Grounded) {record : Signal} (hr : record.Plain) :
    (m.toOthers record).Grounded := by
  intro frame hf
  obtain ⟨i, hi, rfl⟩ := List.mem_mapIdx.mp hf
  have hframe := h m.stack[i] (List.getElem_mem hi)
  split
  · exact hframe
  · exact hframe.receive hr

theorem announce (h : m.Grounded) {record : Signal} (hr : record.Plain) :
    (m.announce record).Grounded := by
  refine modifyBase ?_ fun frame hf => hf.receive hr
  split
  · exact h.toOthers hr
  · exact h

end Grounded

theorem Move.grounded (h : Move now turns m us ss m') (hg : m.Grounded) : m'.Grounded := by
  cases h with
  | steer hp hv =>
    have hstack : m'.stack = m.stack := congrArg View.frames hv
    intro frame hf
    rw [hp]
    exact hg frame (hstack ▸ hf)
  | mark f _ _ => exact hg.modifyBase fun frame hf => ⟨hf.data, hf.utterances, hf.signals⟩
  | gather hd hc hid =>
    exact hg.modifyBase fun frame hf => hf.describe (hg.held_description hd hc hid) _
  | describe hd hc hid =>
    refine hg.push ⟨fun key value hmem => ?_, by simp, by simp⟩
    obtain ⟨rfl, rfl⟩ := Prod.mk.inj (List.mem_singleton.mp hmem)
    exact hg.held_description hd hc hid
  | opens _ _ hp hv =>
    have hstack : m'.stack = _ := congrArg View.frames hv
    intro frame hf
    rw [hp]
    exact hg.push (.of_scope _) frame (hstack ▸ hf)
  | renews _ => exact hg.modifyBase fun frame hf => ⟨hf.data, hf.utterances, hf.signals⟩
  | closes _ hb _ => exact hg.mergeDown hb _
  | tell here => exact hg.tell (hg.utterance_plain now here)
  | announce here => exact hg.announce (hg.emission_plain now here)

theorem Reachable.grounded (h : Reachable program m) : m.Grounded := by
  induction h with
  | start =>
    intro frame hf
    obtain rfl := List.mem_singleton.mp hf
    exact .of_scope none
  | step now hr hs ih => exact (step?_moves hr.wellScoped.1 hs).invariant Move.grounded ih

/-- Frames hold what instructions of the program describe, and hashtags. Nothing in them or in the
records is left to evaluate, so evaluation gives plain values, and evaluating those again changes
nothing. -/
theorem reachable_contents (h : Reachable program m) :
    (∀ frame ∈ m.stack, frame.Grounded program) ∧
      ∀ v w, evaluate m.view v = some w → w.isPlain ∧ evaluate m.view w = some w := by
  obtain ⟨_, rfl⟩ := h.wellScoped
  refine ⟨h.grounded, fun v w hw => ?_⟩
  have hplain := evaluate_plain h.grounded.view_plain v w hw
  exact ⟨hplain, evaluate_of_isPlain m.view w hplain⟩

/-- A trigger whose body describes a list with a lambda in it, to which a speech refers. -/
def deferred : Program :=
  { entry := 0
    symbols := []
    text := ["chimichanga"]
    code :=
      [(0, { op := .trigger, next := [1, -1], bodyEnd := some 3 }),
        (1, { op := .context .entity, id := some "Wade",
              params := [("value", .list [.lambda "1 + 2", .text 0])], next := [2] }),
        (2, { op := .speech, params := [("message", .lambda "Wade.value[1]")], next := [0] })] }

theorem reachable_contents_deferred :
    let m := Machine.steps {} 3 (start deferred)
    Reachable deferred m ∧ m.stack.map (·.data.keys) = [[], ["Wade"], ["Wade"]] ∧
      m.stack.map (·.utterances.length) = [0, 1, 0] ∧ (∀ frame ∈ m.stack, frame.Grounded deferred) ∧
      ∃ w, evaluate m.view (.list [.lambda "Wade.value"]) = some w ∧ w.isPlain ∧
        evaluate m.view w = some w := by
  intro m
  have hr : Reachable deferred m := Reachable.start.steps 0 3
  obtain ⟨hg, he⟩ := reachable_contents hr
  exact ⟨hr, by decide +kernel, by decide +kernel, hg, _, rfl,
    he (.list [.lambda "Wade.value"]) _ rfl⟩

end Machine

end GlyphScript
