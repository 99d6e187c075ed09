import GlyphScript.Peg.Match

/-! # Matches without the trail

The trail of failures has no influence on what matches. Without it the outcome of an expression is
that of its parts, put together with the operations of `Option`.
-/

namespace GlyphScript.Peg

namespace Cursor

/-- A text leads from one place to another. -/
structure Reads (c : Cursor) (s : List Char) (d : Cursor) : Prop where
  rest : c.rest = s ++ d.rest
  position : d.position = c.position + s.length

theorem Reads.refl (c : Cursor) : c.Reads [] c := ⟨rfl, rfl⟩

theorem Reads.trans {c d e : Cursor} {s s' : List Char} (h : c.Reads s d) (h' : d.Reads s' e) :
    c.Reads (s ++ s') e := by
  refine ⟨by rw [h.rest, h'.rest, List.append_assoc], ?_⟩
  rw [h'.position, h.position, List.length_append, Nat.add_assoc]

theorem Reads.unique {c d : Cursor} {s s' : List Char} (h : c.Reads s d) (h' : c.Reads s' d) :
    s = s' :=
  List.append_cancel_right (h.rest.symm.trans h'.rest)

theorem Reads.between_eq {c d : Cursor} {s : List Char} (h : c.Reads s d) : c.between d = s := by
  rw [between, h.rest, h.position, Nat.add_sub_cancel_left, List.take_left]

theorem Reads.length_eq {c d : Cursor} {s : List Char} (h : c.Reads s d) :
    c.rest.length = s.length + d.rest.length := by
  rw [h.rest, List.length_append]

theorem after?_append (s rest : List Char) (position : Nat) :
    after? s ⟨position, s ++ rest⟩ = some ⟨position + s.length, rest⟩ := by
  induction s generalizing position with
  | nil => rfl
  | cons x s ih =>
    rw [List.cons_append, after?, if_pos rfl, ih, List.length_cons, Nat.add_right_comm,
      Nat.add_assoc]

theorem Reads.of_after? {s : List Char} {c d : Cursor} (h : after? s c = some d) : c.Reads s d := by
  induction s generalizing c with
  | nil =>
    cases h
    exact .refl _
  | cons x s ih =>
    obtain ⟨position, rest⟩ := c
    cases rest with
    | nil => cases h
    | cons y rest =>
      rw [after?] at h
      split at h
      · next hxy =>
        subst hxy
        have hstep : Reads ⟨position, x :: rest⟩ [x] ⟨position + 1, rest⟩ := ⟨rfl, rfl⟩
        exact hstep.trans (ih h)
      · cases h

theorem exists_reads_skipWhile (p : Char → Bool) (position : Nat) (cs : List Char) :
    ∃ w, Reads ⟨position, cs⟩ w (skipWhile p position cs) ∧ ∀ x ∈ w, p x := by
  induction cs generalizing position with
  | nil => exact ⟨[], .refl _, by simp⟩
  | cons c cs ih =>
    rw [skipWhile]
    split
    · next hc =>
      obtain ⟨w, hw, hp⟩ := ih (position + 1)
      have hstep : Reads ⟨position, c :: cs⟩ [c] ⟨position + 1, cs⟩ := ⟨rfl, rfl⟩
      refine ⟨c :: w, hstep.trans hw, ?_⟩
      rintro x (_ | ⟨_, hx⟩)
      · exact hc
      · exact hp x hx
    · exact ⟨[], .refl _, by simp⟩

end Cursor

abbrev Hit (R : Type) := Option (Cursor × List (ParseTree R))

variable {R : Type}

def Hit.prepend (trees : List (ParseTree R)) (h : Hit R) : Hit R :=
  h.map fun x => (x.1, trees ++ x.2)

namespace Grammar

variable (g : Grammar R)

/-- The trees that a matched rule leaves, given its text and the trees inside it. -/
def nodes (r : R) (m : Mode) (s : List Char) (trees : List (ParseTree R)) : List (ParseTree R) :=
  if g.style r = .silent then trees
  else if (m.around (g.style r)).keepsNodes then [.node r s trees] else []

theorem hit_close (r : R) (m : Mode) (c : Cursor) (t : Trail R) (o : Outcome R) :
    (close r (g.style r) m c t o).hit = o.hit.map fun x =>
      (x.1, g.nodes r m (c.between x.1) x.2) := by
  unfold close nodes
  by_cases hs : g.style r = .silent
  · simp [hs]
  · simp [hs]

variable {g}

mutual

/-- What `run` matches. -/
def hit? (g : Grammar R) : Nat → Mode → Expr R → Cursor → Hit R
  | 0, _, _, _ => none
  | fuel + 1, m, e, c =>
    match e with
    | .char accepts =>
      match c.rest with
      | x :: xs => if accepts x then some (⟨c.position + 1, xs⟩, []) else none
      | [] => none
    | .text cs => (c.after? cs).map fun d => (d, [])
    | .start => if c.position = 0 then some (c, []) else none
    | .finish => if c.rest.isEmpty then some (c, []) else none
    | .rule r =>
      (hit? g fuel (m.inside (g.style r)) (g.body r) c).map fun x =>
        (x.1, g.nodes r m (c.between x.1) x.2)
    | .seq a b => (hit? g fuel m a c).bind fun x => (hit? g fuel m b (g.gap m x.1)).prepend x.2
    | .alt a b => (hit? g fuel m a c).or (hit? g fuel m b c)
    | .opt a => (hit? g fuel m a c).or (some (c, []))
    | .many a =>
      match hit? g fuel m a c with
      | some x => (hits? g fuel m a x.1).prepend x.2
      | none => some (c, [])
    | .absent a =>
      if (hit? g fuel { m with looking := m.looking.negate } a c).isSome then none else some (c, [])

def hits? (g : Grammar R) : Nat → Mode → Expr R → Cursor → Hit R
  | 0, _, _, _ => none
  | fuel + 1, m, a, c =>
    match hit? g fuel m a (g.gap m c) with
    | some x => (hits? g fuel m a x.1).prepend x.2
    | none => some (c, [])

end

theorem hit_run (fuel : Nat) : (∀ m e c t, (g.run fuel m e c t).hit = g.hit? fuel m e c) ∧
    ∀ m a c t, (g.more fuel m a c t).hit = g.hits? fuel m a c := by
  induction fuel with
  | zero => exact ⟨fun _ _ _ _ => rfl, fun _ _ _ _ => rfl⟩
  | succ fuel ih =>
    obtain ⟨ihRun, ihMore⟩ := ih
    -- an outcome is its match with some trail, and the trail is not looked at
    have hrun : ∀ m e c t, ∃ trail, g.run fuel m e c t = ⟨g.hit? fuel m e c, trail⟩ :=
      fun m e c t => ⟨(g.run fuel m e c t).trail, by rw [← ihRun m e c t]⟩
    refine ⟨fun m e c t => ?_, fun m a c t => ?_⟩
    · unfold run hit?
      cases e with
      | char accepts =>
        dsimp only
        cases c.rest with
        | nil => rfl
        | cons x xs => exact apply_ite Outcome.hit _ _ _
      | text cs =>
        dsimp only
        cases c.after? cs with
        | none => rfl
        | some d => rfl
      | start => exact apply_ite Outcome.hit _ _ _
      | finish => exact apply_ite Outcome.hit _ _ _
      | rule r =>
        dsimp only
        rw [hit_close, ihRun]
      | seq a b =>
        obtain ⟨trail, ha⟩ := hrun m a c t
        dsimp only
        rw [ha]
        cases g.hit? fuel m a c with
        | none => rfl
        | some x =>
          change Hit.prepend x.2 (g.run fuel m b (g.gap m x.1) trail).hit = _
          rw [ihRun]
          rfl
      | alt a b =>
        obtain ⟨trail, ha⟩ := hrun m a c t
        dsimp only
        rw [ha]
        cases g.hit? fuel m a c with
        | none => exact ihRun m b c trail
        | some x => rfl
      | opt a =>
        obtain ⟨trail, ha⟩ := hrun m a c t
        dsimp only
        rw [ha]
        cases g.hit? fuel m a c with
        | none => rfl
        | some x => rfl
      | many a =>
        obtain ⟨trail, ha⟩ := hrun m a c t
        dsimp only
        rw [ha]
        cases g.hit? fuel m a c with
        | none => rfl
        | some x =>
          change Hit.prepend x.2 (g.more fuel m a x.1 trail).hit = _
          rw [ihMore]
      | absent a =>
        obtain ⟨trail, ha⟩ := hrun { m with looking := m.looking.negate } a c t
        dsimp only
        rw [ha]
        cases g.hit? fuel { m with looking := m.looking.negate } a c with
        | none => rfl
        | some x => rfl
    · obtain ⟨trail, ha⟩ := hrun m a (g.gap m c) t
      unfold more hits?
      rw [ha]
      cases g.hit? fuel m a (g.gap m c) with
      | none => rfl
      | some x =>
        change Hit.prepend x.2 (g.more fuel m a x.1 trail).hit = _
        rw [ihMore]

end Grammar

end GlyphScript.Peg
