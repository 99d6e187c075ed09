import GlyphScript.Proofs.Machine.Runs
import GlyphScript.Proofs.Program.Checking

/-! # Crossing instructions

A run crosses a part of a program if it ends at the address behind the part, or back at the trigger
of the innermost scope. Up to there it keeps the scopes around it, and the innermost one has no
detour left and no cursor on what is still to come. Visits to tags that come back at once belong to
the instruction that makes them.
-/

namespace GlyphScript

theorem Scope.cursor_setCursor (s : Scope) (a b n : Nat) :
    (s.setCursor a n).cursor b = if b = a then n else s.cursor b := by
  rw [cursor, setCursor, List.lookup_cons]
  by_cases hb : b = a
  · simp [hb]
  · have hkept : (s.cursors.filter fun entry => entry.1 ≠ a).lookup b = s.cursors.lookup b := by
      induction s.cursors with
      | nil => rfl
      | cons entry cursors ih =>
        by_cases he : entry.1 = a
        · rw [List.filter_cons_of_neg (by simpa using he), ih, List.lookup_cons, he,
            beq_eq_false_iff_ne.mpr hb]
        · rw [List.filter_cons_of_pos (by simpa using he), List.lookup_cons, List.lookup_cons, ih]
    rw [beq_eq_false_iff_ne.mpr hb, hkept, if_neg hb, cursor]

namespace Program

def targets (program : Program) (a : Nat) (tags : List (Tag String)) : List Address :=
  (tags.map Tag.address).filter fun t => program.isAddress t && t ≠ a

def visits (program : Program) (a : Nat) (tags : List (Tag String)) : List Address :=
  (program.targets a tags).flatMap fun t => [t, (a : Address)]

/-- Instructions that can visit their tags only visit context and unknown glyphs. -/
def PlainTargets (program : Program) : Prop :=
  ∀ entry ∈ program.code, entry.2.op = .link ∨ entry.2.op = .speech ∨ entry.2.op = .signal →
    ∀ tag ∈ entry.2.tags, tag.address = entry.1 ∨
      ∀ target ∈ program.fetch? tag.address, target.op.isContextual ∨ target.op.isUnknown

instance (program : Program) : Decidable program.PlainTargets :=
  inferInstanceAs (Decidable (∀ entry ∈ program.code, _ → ∀ tag ∈ entry.2.tags, _ ∨
    ∀ target ∈ program.fetch? tag.address, _))

end Program

namespace Machine

variable {program : Program} {a c c' : Nat} {t : Address} {tags : List (Tag String)}

theorem leadsAway_eq (program : Program) (a : Nat) (tag : Tag String) :
    leadsAway program a tag = (program.isAddress tag.address && tag.address ≠ a) := by
  unfold leadsAway
  cases hf : program.isAddress tag.address with
  | false => simp
  | true =>
    obtain ⟨instr, hi⟩ := Option.isSome_iff_exists.mp hf
    have hn : tag.isResolved := decide_eq_true (Program.fetch?_nonneg hi)
    simp [hn]

theorem targets_cons (program : Program) (a : Nat) (tag : Tag String) (tags : List (Tag String)) :
    program.targets a (tag :: tags) =
      if leadsAway program a tag then tag.address :: program.targets a tags
        else program.targets a tags := by
  rw [leadsAway_eq, Program.targets, List.map_cons, List.filter_cons]
  rfl

theorem nextTarget_none (h : nextTarget program a c tags = (c', none)) :
    program.targets a tags = [] := by
  induction tags generalizing c with
  | nil => rfl
  | cons tag tags ih =>
    rw [nextTarget] at h
    rw [targets_cons]
    split at h
    · cases h
    · next hl =>
      rw [if_neg hl]
      exact ih h

theorem nextTarget_some (h : nextTarget program a c tags = (c', some t)) :
    (c < c' ∧ c' ≤ c + tags.length) ∧
      program.targets a tags = t :: program.targets a (tags.drop (c' - c)) ∧
      ∃ tag ∈ tags, tag.address = t ∧ leadsAway program a tag := by
  induction tags generalizing c with
  | nil => cases h
  | cons tag tags ih =>
    rw [nextTarget] at h
    rw [targets_cons]
    split at h
    · next hl =>
      cases h
      refine ⟨⟨by omega, by simp⟩, ?_, tag, by simp, rfl, hl⟩
      rw [if_pos hl, Nat.add_sub_cancel_left, List.drop_one, List.tail_cons]
    · next hl =>
      obtain ⟨⟨hlt, hle⟩, heq, tag', hmem, htag⟩ := ih h
      refine ⟨⟨by omega, by rw [List.length_cons]; omega⟩, ?_, tag', by simp [hmem], htag⟩
      rw [if_neg hl, heq, show c' - c = c' - (c + 1) + 1 by omega, List.drop_succ_cons]

/-! ## Scopes along a run -/

/-- The scopes are the same but for the innermost one, which keeps its trigger and its cycle. -/
inductive Kept : List Scope → List Scope → Prop where
  | outside : Kept [] []
  | inside {s s' : Scope} {rest : List Scope} : s'.address = s.address → s'.cycle = s.cycle →
      Kept (s :: rest) (s' :: rest)

/-- Nothing is pending in the innermost scope, and its body is yet to be run from an address on. -/
def Ready (a : Nat) (scopes : List Scope) : Prop :=
  ∀ s ∈ scopes.head?, s.address < a ∧ s.detour = none ∧ ∀ b, a ≤ b → s.cursor b = 0

section Scopes

variable {scopes scopes' scopes'' : List Scope} {k : Nat}

namespace Kept

theorem refl (scopes : List Scope) : Kept scopes scopes := by
  cases scopes with
  | nil => exact .outside
  | cons s rest => exact .inside rfl rfl

theorem trans (h : Kept scopes scopes') (h' : Kept scopes' scopes'') : Kept scopes scopes'' := by
  cases h with
  | outside => exact h'
  | inside ha hc =>
    cases h' with
    | inside ha' hc' => exact .inside (ha'.trans ha) (hc'.trans hc)

theorem isEmpty_eq (h : Kept scopes scopes') : scopes'.isEmpty = scopes.isEmpty := by
  cases h with
  | outside => rfl
  | inside => rfl

theorem exists_head (h : Kept scopes scopes') {s' : Scope} (hs : s' ∈ scopes'.head?) :
    ∃ s ∈ scopes.head?, s'.address = s.address := by
  cases h with
  | outside => cases hs
  | inside ha _ =>
    cases hs
    exact ⟨_, rfl, ha⟩

end Kept

namespace Ready

theorem mono (h : Ready a scopes) (hk : a ≤ k) : Ready k scopes := by
  intro s hs
  obtain ⟨ha, hd, hc⟩ := h s hs
  exact ⟨Nat.lt_of_lt_of_le ha hk, hd, fun b hb => hc b (Nat.le_trans hk hb)⟩

theorem pending_eq (h : Ready a scopes) (x : Address) : pending scopes x = none := by
  unfold pending
  cases scopes with
  | nil => rfl
  | cons s rest =>
    obtain ⟨_, hd, _⟩ := h s rfl
    simp [hd]

theorem settled_eq (h : Ready a scopes) (x : Address) : settled scopes x = scopes := by
  rw [settled, h.pending_eq x]
  rfl

/-- An instruction goes on to its successor, unless it is the first one of a body and has not opened
a frame. -/
theorem onward_eq (h : Ready k scopes) (instr : Instruction String) (succeeded : Bool) :
    onward a instr scopes succeeded = instr.first ∨
      succeeded = true ∧ ∃ s ∈ scopes.head?, s.address + 1 = a ∧ s.isExecuting = false ∧
        onward a instr scopes succeeded = s.address := by
  rw [onward, h.pending_eq, Option.getD_none, early]
  cases scopes with
  | nil => exact .inl rfl
  | cons s rest =>
    dsimp only [List.head?_cons]
    split
    · next he => exact .inr ⟨he.1, s, rfl, he.2.1, by simpa using he.2.2, rfl⟩
    · exact .inl rfl

end Ready

end Scopes

/-! ## Crossing -/

/-- How a run ends that crosses a part of a program before an address `d`. It may be short of the
part if it goes back to the trigger around, but not if the part is plain. -/
structure Crossing (program : Program) (plain : Prop) (scopes : List Scope) (k : Nat) (d : Address)
    (bound : Nat) (walk as : List Address) (m : Machine) (x : Address) (scopes' : List Scope) :
    Prop where
  stands : Stands program m x scopes'
  kept : Kept scopes scopes'
  ready : Ready k scopes'
  exit : x = d ∨ ∃ s ∈ scopes.head?, x = s.address
  length_le : as.length ≤ bound
  plain : plain → x = d ∧ as = walk

def Crosses (clock : Nat → Nat) (i : Nat) (program : Program) (plain : Prop) (m : Machine)
    (scopes : List Scope) (k : Nat) (d : Address) (bound : Nat) (walk : List Address) : Prop :=
  ∃ as m' x scopes', Runs clock i m as m' ∧
    Crossing program plain scopes k d bound walk as m' x scopes'

namespace Crosses

variable {clock : Nat → Nat} {i : Nat} {plain : Prop} {m m' : Machine} {scopes scopes' : List Scope}
  {k k' : Nat} {d d' x : Address} {bound bound' : Nat} {walk walk' as : List Address}

theorem of_step (h : Stands program m a scopes) (hs : StepsTo (clock i) program m x scopes')
    (hk : Kept scopes scopes') (hr : Ready k scopes')
    (hx : x = d ∨ ∃ s ∈ scopes.head?, x = s.address) (hp : plain → x = d) :
    Crosses clock i program plain m scopes k d 1 [(a : Address)] := by
  obtain ⟨m', hrun, hstands⟩ := hs.runs h
  exact ⟨_, m', x, scopes', hrun, hstands, hk, hr, hx, Nat.le_refl 1, fun h => ⟨hp h, rfl⟩⟩

theorem prepend (hrun : Runs clock i m as m') (hk : Kept scopes scopes')
    (h : Crosses clock (i + as.length) program plain m' scopes' k d bound walk) :
    Crosses clock i program plain m scopes k d (as.length + bound) (as ++ walk) := by
  obtain ⟨as', m'', x, scopes'', hrun', hc⟩ := h
  refine ⟨as ++ as', m'', x, scopes'', hrun.append hrun', hc.stands, hk.trans hc.kept, hc.ready, ?_,
    ?_, ?_⟩
  · rcases hc.exit with hx | ⟨s', hs', hx⟩
    · exact .inl hx
    · obtain ⟨s, hs, ha⟩ := hk.exists_head hs'
      exact .inr ⟨s, hs, by rw [hx, ha]⟩
  · have := hc.length_le
    rw [List.length_append]
    omega
  · intro hp
    exact ⟨(hc.plain hp).1, by rw [(hc.plain hp).2]⟩

theorem mono (h : Crosses clock i program plain m scopes k d bound walk) (hk : k ≤ k')
    (hb : bound ≤ bound') (hw : plain → walk = walk') :
    Crosses clock i program plain m scopes k' d bound' walk' := by
  obtain ⟨as, m', x, scopes', hrun, hc⟩ := h
  refine ⟨as, m', x, scopes', hrun, hc.stands, hc.kept, hc.ready.mono hk, hc.exit,
    Nat.le_trans hc.length_le hb, ?_⟩
  intro hp
  exact ⟨(hc.plain hp).1, (hc.plain hp).2.trans (hw hp)⟩

/-- Two parts one after the other. A run that goes back to the trigger leaves out the second one. -/
theorem trans (h : Crosses clock i program plain m scopes k d bound walk) (hk : k ≤ k')
    (hnext : ∀ i m' scopes', Stands program m' d scopes' → Kept scopes scopes' → Ready k scopes' →
      Crosses clock i program plain m' scopes' k' d' bound' walk') :
    Crosses clock i program plain m scopes k' d' (bound + bound') (walk ++ walk') := by
  obtain ⟨as, m', x, scopes', hrun, hc⟩ := h
  by_cases hx : x = d
  · have hsecond := prepend hrun hc.kept (hnext _ m' scopes' (hx ▸ hc.stands) hc.kept hc.ready)
    exact hsecond.mono (Nat.le_refl k') (Nat.add_le_add_right hc.length_le bound') fun hp => by
      rw [(hc.plain hp).2]
  · refine ⟨as, m', x, scopes', hrun, hc.stands, hc.kept, hc.ready.mono hk, ?_, ?_, ?_⟩
    · exact .inr (hc.exit.resolve_left hx)
    · exact Nat.le_trans hc.length_le (Nat.le_add_right bound bound')
    · exact fun hp => absurd (hc.plain hp).1 hx

end Crosses

/-! ## Instructions -/

section Instructions

variable {clock : Nat → Nat} {i : Nat} {plain : Prop} {m : Machine} {s : Scope}
  {rest scopes scopes' : List Scope} {k : Nat} {instr : Instruction String}

theorem pending_detour {x y : Address} (hd : s.detour = some ⟨x, y⟩) :
    pending (s :: rest) x = some y := by
  simp [pending, hd]

theorem settled_detour {x y : Address} (hd : s.detour = some ⟨x, y⟩) :
    settled (s :: rest) x = { s with detour := none } :: rest := by
  simp [settled, pending_detour hd]

theorem pending_none (hd : s.detour = none) (x : Address) : pending (s :: rest) x = none := by
  simp [pending, hd]

theorem settled_none (hd : s.detour = none) (x : Address) : settled (s :: rest) x = s :: rest := by
  simp [settled, pending_none hd]

/-- A visit to a context or unknown glyph comes back at once. -/
theorem Stands.comesBack (now : Nat) {b : Nat} {resume : Address}
    (h : Stands program m b (s :: rest)) (hd : program.decode b = .ok instr)
    (hdetour : s.detour = some ⟨b, resume⟩) (hop : instr.op.isContextual ∨ instr.op.isUnknown) :
    ∃ isExecuting,
      StepsTo now program m resume ({ s with detour := none, isExecuting } :: rest) := by
  have hback : ∀ s' : Scope, s'.detour = some ⟨b, resume⟩ → ∀ succeeded,
      StepsTo now program m (onward b instr (s' :: rest) succeeded) (settled (s' :: rest) b) →
      StepsTo now program m resume ({ s' with detour := none } :: rest) := by
    intro s' hs' succeeded hstep
    rwa [onward, pending_detour hs', Option.getD_some, settled_detour hs'] at hstep
  cases hglyph : instr.op with
  | context kind =>
    cases hid : instr.id with
    | none => exact ⟨s.isExecuting, hback s hdetour false (h.describes_nothing hd hglyph hid)⟩
    | some id =>
      exact ⟨true, hback { s with isExecuting := true } hdetour true
        (h.describes hd hglyph (by rw [hid]; rfl))⟩
  | unknown glyph => exact ⟨s.isExecuting, hback s hdetour true (h.ignores hd hglyph)⟩
  | trigger => simp [hglyph, Op.isContextual, Op.isUnknown] at hop
  | anchor => simp [hglyph, Op.isContextual, Op.isUnknown] at hop
  | link => simp [hglyph, Op.isContextual, Op.isUnknown] at hop
  | speech => simp [hglyph, Op.isContextual, Op.isUnknown] at hop
  | signal => simp [hglyph, Op.isContextual, Op.isUnknown] at hop

/-- An instruction that does not jump. -/
theorem Crosses.of_onward {succeeded : Bool} (h : Stands program m a scopes)
    (hk : Kept scopes scopes') (hr : Ready k scopes')
    (hs : StepsTo (clock i) program m (onward a instr scopes' succeeded) (settled scopes' a))
    (hp : plain → ∀ s ∈ scopes'.head?, s.address + 1 = a → succeeded = true →
      s.isExecuting = true) :
    Crosses clock i program plain m scopes k instr.first 1 [(a : Address)] := by
  rw [hr.settled_eq] at hs
  rcases hr.onward_eq (a := a) instr succeeded with hx | ⟨hsucceeded, s, hhead, hfirst, hidle, hx⟩
  · exact of_step h hs hk hr (.inl hx) fun _ => hx
  · obtain ⟨s₀, hs₀, haddress⟩ := hk.exists_head hhead
    refine of_step h hs hk hr (.inr ⟨s₀, hs₀, by rw [hx, haddress]⟩) fun hplain => ?_
    rw [hp hplain s hhead hfirst hsucceeded] at hidle
    cases hidle

/-- What an instruction visits is a context or unknown glyph. -/
theorem plain_target (htargets : program.PlainTargets) (hd : program.decode a = .ok instr)
    (hop : instr.op = .link ∨ instr.op = .speech ∨ instr.op = .signal) {tag : Tag String}
    (hmem : tag ∈ instr.tags) (haway : tag.address ≠ a) {target : Instruction String}
    (ht : program.decode tag.address = .ok target) :
    target.op.isContextual ∨ target.op.isUnknown := by
  obtain ⟨raw, hf, hshape⟩ := Program.decode_eq_ok hd
  obtain ⟨rawTarget, hft, htshape⟩ := Program.decode_eq_ok ht
  have haddress : tag.address ∈ raw.tags.map Tag.address := by
    rw [← hshape.addresses]
    exact List.mem_map_of_mem hmem
  obtain ⟨rawTag, hraw, heq⟩ := List.mem_map.mp haddress
  rw [hshape.op] at hop
  rw [htshape.op]
  rcases htargets (a, raw) (Program.mem_of_fetch? hf) hop rawTag hraw with hself | hothers
  · exact absurd (heq.symm.trans hself) haway
  · exact hothers rawTarget (heq ▸ hft)

/-- One visit: to the target and back, with the cursor behind the tag. -/
theorem Stands.visitsNext (clock : Nat → Nat) (i : Nat) (hcheck : program.check = .ok ())
    (htargets : program.PlainTargets) (h : Stands program m a (s :: rest))
    (hd : program.decode a = .ok instr) (hv : Visits instr true)
    (hnext : nextTarget program a (s.cursor a) (instr.tags.drop (s.cursor a)) = (c, some t)) :
    ∃ m' s', Runs clock i m [(a : Address), t] m' ∧ Stands program m' a (s' :: rest) ∧
      s'.address = s.address ∧ s'.cycle = s.cycle ∧ s'.detour = none ∧
      ∀ b, s'.cursor b = if b = a then c else s.cursor b := by
  obtain ⟨_, _, tag, hmem, rfl, haway⟩ := nextTarget_some hnext
  have hvisited : visited program ⟨a, instr⟩ (s :: rest) =
      (some tag.address, s.depart a c tag.address :: rest) := by
    simp only [visited, hnext]
  have hdeparts : StepsTo (clock i) program m tag.address (s.depart a c tag.address :: rest) :=
    h.departs hd hv hvisited
  obtain ⟨m₁, hrun₁, h₁⟩ := hdeparts.runs h
  rw [leadsAway_eq] at haway
  obtain ⟨haddress, haway⟩ := Bool.and_eq_true_iff.mp haway
  obtain ⟨target, htarget⟩ := Program.exists_decode_of_check hcheck haddress
  have hop : instr.op = .link ∨ instr.op = .speech ∨ instr.op = .signal := by
    rcases hv with hop | hop | ⟨hop, _⟩
    · exact .inr (.inl hop)
    · exact .inr (.inr hop)
    · exact .inl hop
  have hplain :=
    plain_target htargets hd hop (List.mem_of_mem_drop hmem) (of_decide_eq_true haway) htarget
  obtain ⟨raw, hraw, _⟩ := Program.decode_eq_ok htarget
  obtain ⟨b, hb⟩ := Int.eq_ofNat_of_zero_le (Program.fetch?_nonneg hraw)
  rw [hb] at h₁ htarget
  obtain ⟨isExecuting, hback⟩ := h₁.comesBack (clock (i + 1)) htarget rfl hplain
  obtain ⟨m₂, hrun₂, h₂⟩ := hback.runs h₁
  refine ⟨m₂, _, ?_, h₂, rfl, rfl, rfl, fun b => s.cursor_setCursor a b c⟩
  rw [hb]
  exact hrun₁.append hrun₂

/-- Without a tag left to visit an instruction goes on. -/
theorem Crosses.of_visited (h : Stands program m a (s :: rest)) (hd : program.decode a = .ok instr)
    (hv : Visits instr true) (ha : s.address < a) (hdetour : s.detour = none)
    (hcursors : ∀ b, a + 1 ≤ b → s.cursor b = 0) (hp : plain → s.address + 1 ≠ a)
    (hnext : nextTarget program a (s.cursor a) (instr.tags.drop (s.cursor a)) = (c, none)) :
    Crosses clock i program plain m (s :: rest) (a + 1) instr.first 1 [(a : Address)] := by
  have hvisited : visited program ⟨a, instr⟩ (s :: rest) = (none, s.setCursor a c :: rest) := by
    simp only [visited, hnext]
  have hkept : Kept (s :: rest) (s.setCursor a c :: rest) := .inside rfl rfl
  have hready : Ready (a + 1) (s.setCursor a c :: rest) := by
    rintro s' ⟨⟩
    refine ⟨Nat.lt_succ_of_lt ha, hdetour, fun b hb => ?_⟩
    rw [s.cursor_setCursor, if_neg (by omega)]
    exact hcursors b hb
  refine of_onward h hkept hready (h.hasVisited hd hv hvisited) ?_
  rintro hplain s' ⟨⟩ hfirst
  exact absurd hfirst (hp hplain)

/-- An instruction visits what is left of its tags and goes on. -/
theorem Crosses.of_visits (hcheck : program.check = .ok ()) (htargets : program.PlainTargets)
    (h : Stands program m a (s :: rest)) (hd : program.decode a = .ok instr)
    (hv : Visits instr true) (ha : s.address < a) (hdetour : s.detour = none)
    (hcursors : ∀ b, a + 1 ≤ b → s.cursor b = 0) (hp : plain → s.address + 1 ≠ a) :
    Crosses clock i program plain m (s :: rest) (a + 1) instr.first
    (1 + 2 * (instr.tags.length - s.cursor a))
      ((a : Address) :: program.visits a (instr.tags.drop (s.cursor a))) := by
  generalize hleft : instr.tags.length - s.cursor a = left
  induction left using Nat.strongRecOn generalizing i m s with
  | ind left ih =>
    cases hnext : nextTarget program a (s.cursor a) (instr.tags.drop (s.cursor a)) with
    | mk c target =>
      cases target with
      | none =>
        have hcross : Crosses clock i program plain m (s :: rest) (a + 1) instr.first 1
            [(a : Address)] :=
          of_visited h hd hv ha hdetour hcursors hp hnext
        refine hcross.mono (Nat.le_refl _) (Nat.le_add_right 1 _) fun _ => ?_
        rw [Program.visits, nextTarget_none hnext]
        rfl
      | some t =>
        obtain ⟨⟨hlt, hle⟩, heq, _⟩ := nextTarget_some hnext
        rw [List.length_drop] at hle
        rw [List.drop_drop, Nat.add_sub_cancel' (Nat.le_of_lt hlt)] at heq
        obtain ⟨m', s', hrun, h', haddress, hcycle, hdetour', hcursor⟩ :=
          h.visitsNext clock i hcheck htargets hd hv hnext
        have hc : s'.cursor a = c := by rw [hcursor, if_pos rfl]
        have hkept : Kept (s :: rest) (s' :: rest) := .inside haddress hcycle
        have hcross := ih (instr.tags.length - c) (by omega) (i := i + 2) h' (haddress ▸ ha)
          hdetour' (fun b hb => by rw [hcursor, if_neg (by omega)]; exact hcursors b hb)
          (haddress ▸ hp) (by rw [hc])
        refine (prepend hrun hkept hcross).mono (Nat.le_refl _) ?_ fun _ => ?_
        · simp only [List.length_cons, List.length_nil]
          omega
        · rw [hc, Program.visits, Program.visits, heq]
          rfl

theorem Crosses.of_failure (h : Stands program m a scopes) (hr : Ready a scopes)
    (hs : StepsTo (clock i) program m (onward a instr scopes false) (settled scopes a)) :
    Crosses clock i program plain m scopes (a + 1) instr.first 1 [(a : Address)] := by
  refine of_onward h (.refl scopes) (hr.mono (Nat.le_succ a)) hs ?_
  intro _ s _ _ hfalse
  cases hfalse

theorem Crosses.of_success (h : Stands program m a scopes) (hr : Ready a scopes)
    (hs : StepsTo (clock i) program m (onward a instr scopes true) (settled scopes a))
    (hp : plain → ∀ s ∈ scopes.head?, s.address + 1 ≠ a) :
    Crosses clock i program plain m scopes (a + 1) instr.first 1 [(a : Address)] := by
  refine of_onward h (.refl scopes) (hr.mono (Nat.le_succ a)) hs ?_
  intro hplain s hs hfirst
  exact absurd hfirst (hp hplain s hs)

/-- A context glyph never goes back to the trigger: it opens a frame or fails. -/
theorem Crosses.of_context (h : Stands program m a scopes) (hr : Ready a scopes)
    (hd : program.decode a = .ok instr) {kind : Context} (hop : instr.op = .context kind) :
    Crosses clock i program plain m scopes (a + 1) instr.first 1 [(a : Address)] := by
  cases hid : instr.id with
  | none => exact of_failure h hr (h.describes_nothing hd hop hid)
  | some id =>
    have hkept : Kept scopes (executing scopes) := by
      cases scopes with
      | nil => exact .outside
      | cons s rest => exact .inside rfl rfl
    have hready : Ready (a + 1) (executing scopes) := by
      cases scopes with
      | nil => exact fun s hs => by cases hs
      | cons s rest =>
        rintro s' ⟨⟩
        exact hr.mono (Nat.le_succ a) s rfl
    refine of_onward h hkept hready (h.describes hd hop (by rw [hid]; rfl)) ?_
    intro _ s hs _ _
    cases scopes with
    | nil => cases hs
    | cons s' rest =>
      cases hs
      rfl

/-- An instruction that visits its tags visits all of them in a scope and none outside. -/
theorem Crosses.of_visitor (hcheck : program.check = .ok ()) (htargets : program.PlainTargets)
    (h : Stands program m a scopes) (hr : Ready a scopes) (hd : program.decode a = .ok instr)
    (hv : Visits instr (!scopes.isEmpty)) (hp : plain → ∀ s ∈ scopes.head?, s.address + 1 ≠ a) :
    Crosses clock i program plain m scopes (a + 1) instr.first (1 + 2 * instr.tags.length)
      ((a : Address) :: if scopes.isEmpty then [] else program.visits a instr.tags) := by
  cases scopes with
  | nil =>
    exact (of_success h hr (h.hasVisited hd hv rfl) hp).mono (Nat.le_refl _) (Nat.le_add_right 1 _)
      fun _ => rfl
  | cons s rest =>
    obtain ⟨ha, hdetour, hcursors⟩ := hr s rfl
    have hcross : Crosses clock i program plain m (s :: rest) _ _ _ _ :=
      of_visits hcheck htargets h hd hv ha hdetour (fun b hb => hcursors b (by omega)) fun hplain =>
        hp hplain s rfl
    rw [hcursors a (Nat.le_refl a)] at hcross
    exact hcross

end Instructions

end Machine

end GlyphScript
