import GlyphScript.Proofs.Peg.Depth

/-! # Outcomes

An expression yields an outcome at a place if every depth from some point on gives it. What an
expression yields is put together from what its parts yield. In a low grammar every rule yields
something, and this is what parsing finds.
-/

namespace GlyphScript.Peg.Grammar

variable {R : Type}

/-- The outcome of an expression at a place, whatever the depth if it is large enough. -/
def Yields (g : Grammar R) (m : Mode) (e : Expr R) (c : Cursor) (h : Hit R) : Prop :=
  ∃ n, ∀ fuel ≥ n, g.hit? fuel m e c = h

def Repeats (g : Grammar R) (m : Mode) (a : Expr R) (c : Cursor) (h : Hit R) : Prop :=
  ∃ n, ∀ fuel ≥ n, g.hits? fuel m a c = h

variable {g : Grammar R} {m : Mode} {a b e : Expr R} {c d d' : Cursor}
  {ts ts' us : List (ParseTree R)} {h : Hit R}

theorem Yields.unique {h' : Hit R} (hy : g.Yields m e c h) (hy' : g.Yields m e c h') : h = h' := by
  obtain ⟨n, hn⟩ := hy
  obtain ⟨n', hn'⟩ := hy'
  rw [← hn (max n n') (Nat.le_max_left n n'), hn' (max n n') (Nat.le_max_right n n')]

/-- What an expression yields, it derives. -/
theorem Yields.derives (hg : g.SkipsForward) (hy : g.Yields m e c (some (d, ts))) :
    ∃ s, c.Reads s d ∧ g.Derives m e s ts := by
  obtain ⟨n, hn⟩ := hy
  exact (derives_of_hit? hg n).1 _ _ _ _ _ (hn n (Nat.le_refl n))

theorem Yields.of_succ (n : Nat) (hn : ∀ fuel ≥ n, g.hit? (fuel + 1) m e c = h) :
    g.Yields m e c h := by
  refine ⟨n + 1, fun fuel hf => ?_⟩
  cases fuel with
  | zero => cases hf
  | succ fuel => exact hn fuel (Nat.le_of_succ_le_succ hf)

theorem Repeats.of_succ (n : Nat) (hn : ∀ fuel ≥ n, g.hits? (fuel + 1) m a c = h) :
    g.Repeats m a c h := by
  refine ⟨n + 1, fun fuel hf => ?_⟩
  cases fuel with
  | zero => cases hf
  | succ fuel => exact hn fuel (Nat.le_of_succ_le_succ hf)

/-! ## Characters and texts -/

theorem yields_char {accepts : Char → Bool} {x : Char} (hx : accepts x) (p : Nat) (xs : List Char) :
    g.Yields m (.char accepts) ⟨p, x :: xs⟩ (some (⟨p + 1, xs⟩, [])) :=
  .of_succ 0 fun _ _ => if_pos hx

theorem yields_text (s : List Char) (p : Nat) (rest : List Char) :
    g.Yields m (.text s) ⟨p, s ++ rest⟩ (some (⟨p + s.length, rest⟩, [])) := by
  refine .of_succ 0 fun fuel _ => ?_
  exact congrArg (Option.map fun d => (d, [])) (Cursor.after?_append s rest p)

theorem yields_text_none {x : Char} {rest : List Char} (hx : rest.head? ≠ some x) (s : List Char)
    (p : Nat) : g.Yields m (.text (x :: s)) ⟨p, rest⟩ none := by
  refine .of_succ 0 fun fuel _ => ?_
  cases rest with
  | nil => rfl
  | cons y rest =>
    exact congrArg (Option.map fun d => (d, [])) (if_neg fun h => hx (congrArg some h.symm))

theorem yields_start (cs : List Char) : g.Yields m .start (.ofText cs) (some (.ofText cs, [])) :=
  .of_succ 0 fun _ _ => rfl

theorem yields_finish (p : Nat) : g.Yields m .finish ⟨p, []⟩ (some (⟨p, []⟩, [])) :=
  .of_succ 0 fun _ _ => rfl

theorem yields_finish_none (p : Nat) (x : Char) (xs : List Char) :
    g.Yields m .finish ⟨p, x :: xs⟩ none :=
  .of_succ 0 fun _ _ => rfl

/-! ## Operators -/

theorem Yields.rule (hg : g.SkipsForward) {r : R} {s : List Char}
    (hy : g.Yields (m.inside (g.style r)) (g.body r) c (some (d, ts))) (hs : c.rest = s ++ d.rest) :
    g.Yields m (.rule r) c (some (d, g.nodes r m s ts)) := by
  obtain ⟨s', hreads, _⟩ := hy.derives hg
  have heq : s = s' := List.append_cancel_right (hs.symm.trans hreads.rest)
  subst heq
  obtain ⟨n, hn⟩ := hy
  refine .of_succ n fun fuel hf => ?_
  unfold hit?
  dsimp only
  rw [hn fuel hf, Option.map_some, hreads.between_eq]

theorem Yields.rule_none {r : R} (hy : g.Yields (m.inside (g.style r)) (g.body r) c none) :
    g.Yields m (.rule r) c none := by
  obtain ⟨n, hn⟩ := hy
  refine .of_succ n fun fuel hf => ?_
  unfold hit?
  dsimp only
  rw [hn fuel hf, Option.map_none]

theorem Yields.seq_prepend (ha : g.Yields m a c (some (d, ts))) (hb : g.Yields m b (g.gap m d) h) :
    g.Yields m (.seq a b) c (h.prepend ts) := by
  obtain ⟨n, hn⟩ := ha
  obtain ⟨n', hn'⟩ := hb
  refine .of_succ (max n n') fun fuel hf => ?_
  unfold hit?
  dsimp only
  rw [hn fuel (by omega), Option.bind_some, hn' fuel (by omega)]

theorem Yields.seq (ha : g.Yields m a c (some (d, ts)))
    (hb : g.Yields m b (g.gap m d) (some (d', ts'))) (hus : us = ts ++ ts') :
    g.Yields m (.seq a b) c (some (d', us)) :=
  hus ▸ ha.seq_prepend hb

theorem Yields.seq_right_none (ha : g.Yields m a c (some (d, ts)))
    (hb : g.Yields m b (g.gap m d) none) : g.Yields m (.seq a b) c none :=
  ha.seq_prepend hb

theorem Yields.seq_none (ha : g.Yields m a c none) : g.Yields m (.seq a b) c none := by
  obtain ⟨n, hn⟩ := ha
  refine .of_succ n fun fuel hf => ?_
  unfold hit?
  dsimp only
  rw [hn fuel hf, Option.bind_none]

theorem Yields.left {x : Cursor × List (ParseTree R)} (ha : g.Yields m a c (some x)) :
    g.Yields m (.alt a b) c (some x) := by
  obtain ⟨n, hn⟩ := ha
  refine .of_succ n fun fuel hf => ?_
  unfold hit?
  dsimp only
  rw [hn fuel hf, Option.some_or]

theorem Yields.right (ha : g.Yields m a c none) (hb : g.Yields m b c h) :
    g.Yields m (.alt a b) c h := by
  obtain ⟨n, hn⟩ := ha
  obtain ⟨n', hn'⟩ := hb
  refine .of_succ (max n n') fun fuel hf => ?_
  unfold hit?
  dsimp only
  rw [hn fuel (by omega), Option.none_or, hn' fuel (by omega)]

theorem Yields.opt (ha : g.Yields m a c h) : g.Yields m (.opt a) c (h.or (some (c, []))) := by
  obtain ⟨n, hn⟩ := ha
  refine .of_succ n fun fuel hf => ?_
  unfold hit?
  dsimp only
  rw [hn fuel hf]

theorem Yields.absent (ha : g.Yields { m with looking := m.looking.negate } a c none) :
    g.Yields m (.absent a) c (some (c, [])) := by
  obtain ⟨n, hn⟩ := ha
  refine .of_succ n fun fuel hf => ?_
  unfold hit?
  dsimp only
  rw [hn fuel hf]
  rfl

theorem Yields.many (ha : g.Yields m a c (some (d, ts))) (hr : g.Repeats m a d (some (d', ts')))
    (hus : us = ts ++ ts') : g.Yields m (.many a) c (some (d', us)) := by
  obtain ⟨n, hn⟩ := ha
  obtain ⟨n', hn'⟩ := hr
  subst hus
  refine .of_succ (max n n') fun fuel hf => ?_
  unfold hit?
  dsimp only
  rw [hn fuel (by omega)]
  dsimp only
  rw [hn' fuel (by omega)]
  rfl

theorem Yields.many_nil (ha : g.Yields m a c none) : g.Yields m (.many a) c (some (c, [])) := by
  obtain ⟨n, hn⟩ := ha
  refine .of_succ n fun fuel hf => ?_
  unfold hit?
  dsimp only
  rw [hn fuel hf]

theorem Yields.repeats_nil (ha : g.Yields m a (g.gap m c) none) :
    g.Repeats m a c (some (c, [])) := by
  obtain ⟨n, hn⟩ := ha
  refine .of_succ n fun fuel hf => ?_
  unfold hits?
  rw [hn fuel hf]

/-- Where nothing is to be skipped, further repetitions are repetitions. -/
theorem Yields.repeats (hgap : g.gap m c = c) (hy : g.Yields m (.many a) c h) :
    g.Repeats m a c h := by
  obtain ⟨n, hn⟩ := hy
  refine .of_succ n fun fuel hf => ?_
  rw [← hn (fuel + 1) (Nat.le_succ_of_le hf)]
  unfold hits?
  rw [hgap]
  rfl

theorem Yields.repeats_of_many (hm : m.spacing ≠ .free) (hy : g.Yields m (.many a) c h) :
    g.Repeats m a c h :=
  hy.repeats (if_neg hm)

theorem yields_char_none {accepts : Char → Bool} {rest : List Char}
    (hrest : ∀ x, rest.head? = some x → accepts x = false) (p : Nat) :
    g.Yields m (.char accepts) ⟨p, rest⟩ none := by
  refine .of_succ 0 fun fuel _ => ?_
  cases rest with
  | nil => rfl
  | cons x rest => exact if_neg (by rw [hrest x rfl]; decide)

theorem yields_many_char (hm : m.spacing ≠ .free) {accepts : Char → Bool} {s rest : List Char}
    (hs : ∀ x ∈ s, accepts x) (hrest : ∀ x, rest.head? = some x → accepts x = false) (p : Nat) :
    g.Yields m (.many (.char accepts)) ⟨p, s ++ rest⟩ (some (⟨p + s.length, rest⟩, [])) := by
  induction s generalizing p with
  | nil => exact .many_nil (yields_char_none hrest p)
  | cons x s ih =>
    have hmore := ih (fun y hy => hs y (List.mem_cons_of_mem x hy)) (p + 1)
    rw [Nat.add_assoc, Nat.add_comm 1] at hmore
    exact .many (yields_char (hs x List.mem_cons_self) p (s ++ rest)) (hmore.repeats_of_many hm) rfl

/-- An expression fails at a place where no text that it derives can start. -/
theorem yields_none (hg : g.SkipsForward) {blank : Char → Bool}
    (hblank : ∀ m w x, g.Gap m w → w.head? = some x → blank x) (n : Nat)
    (he : e.mayBeEmpty (g.mayBeEmpty n) = false)
    (hc : ∀ x, c.rest.head? = some x →
      e.mayStart blank (g.mayBeEmpty n) (g.mayStart blank n) x = false) : g.Yields m e c none := by
  refine ⟨0, fun fuel _ => ?_⟩
  cases hh : g.hit? fuel m e c with
  | none => rfl
  | some x =>
    obtain ⟨s, hs, hderives⟩ := (derives_of_hit? hg fuel).1 _ _ _ _ _ hh
    cases s with
    | nil =>
      rw [hderives.mayBeEmpty rfl n] at he
      cases he
    | cons y s =>
      have hstart := hderives.mayStart hblank rfl n
      rw [hc y (by rw [hs.rest]; rfl)] at hstart
      cases hstart

/-! ## Low grammars -/

variable {n : Nat}

theorem Low.yields (hg : g.Low n) (m : Mode) (he : e.fits (g.mayBeEmpty n) (g.rank n)) (c : Cursor)
    {fuel : Nat} (hf : e.height (g.mayBeEmpty n) (g.rank n) + 64 * c.rest.length ≤ fuel) :
    g.Yields m e c (g.hit? fuel m e c) := by
  refine ⟨fuel, fun fuel' hf' => ?_⟩
  induction hf' with
  | refl => rfl
  | step hle ih => rw [(hg.hit?_succ _).1 m e c he (Nat.le_trans hf hle), ih]

theorem Low.exists_yields (hg : g.Low n) (m : Mode) (he : e.fits (g.mayBeEmpty n) (g.rank n))
    (c : Cursor) : ∃ h, g.Yields m e c h :=
  ⟨_, hg.yields m he c (Nat.le_refl _)⟩

theorem Low.parse_eq_ok (hg : g.Low n) (r : R) (cs : List Char) (trees : List (ParseTree R)) :
    g.parse r cs = .ok trees ↔ ∃ d, g.Yields {} (.rule r) (.ofText cs) (some (d, trees)) := by
  have hdepth : g.rank n r + 64 * cs.length ≤ depth cs := by
    have := hg.rank r
    rw [depth]
    omega
  have hy := hg.yields (e := .rule r) {} rfl (.ofText cs) hdepth
  unfold parse
  dsimp only
  rw [(hit_run (depth cs)).1]
  cases hh : g.hit? (depth cs) {} (.rule r) (.ofText cs) with
  | none =>
    rw [hh] at hy
    constructor
    · intro he
      cases he
    · rintro ⟨d, hd⟩
      cases hy.unique hd
  | some x =>
    rw [hh] at hy
    constructor
    · intro he
      cases he
      exact ⟨x.1, hy⟩
    · rintro ⟨d, hd⟩
      cases hy.unique hd
      rfl

/-! What an expression yields comes from what its parts yield. -/

theorem Low.rule_inv (hg : g.Low n) {r : R} (hy : g.Yields m (.rule r) c (some (d, us))) : ∃ s ts,
    c.rest = s ++ d.rest ∧ us = g.nodes r m s ts ∧
      g.Yields (m.inside (g.style r)) (g.body r) c (some (d, ts)) := by
  obtain ⟨h, hbody⟩ := hg.exists_yields (m.inside (g.style r)) (hg.fits r) c
  cases h with
  | none => cases hy.unique hbody.rule_none
  | some x =>
    obtain ⟨s, hs, _⟩ := hbody.derives hg.forward
    cases hy.unique (hbody.rule hg.forward hs.rest)
    exact ⟨s, x.2, hs.rest, rfl, hbody⟩

theorem Low.seq_inv (hg : g.Low n) (he : (a.seq b).fits (g.mayBeEmpty n) (g.rank n))
    (hy : g.Yields m (.seq a b) c (some (d', us))) : ∃ d ts ts',
      g.Yields m a c (some (d, ts)) ∧ g.Yields m b (g.gap m d) (some (d', ts')) ∧
        us = ts ++ ts' := by
  simp only [Expr.fits, Bool.and_eq_true] at he
  obtain ⟨h, ha⟩ := hg.exists_yields m he.1.1 c
  cases h with
  | none => cases hy.unique ha.seq_none
  | some x =>
    obtain ⟨h, hb⟩ := hg.exists_yields m he.1.2 (g.gap m x.1)
    obtain ⟨ts', rfl, rfl⟩ := Hit.prepend_eq_some (hy.unique (ha.seq_prepend hb)).symm
    exact ⟨x.1, x.2, ts', ha, hb, rfl⟩

theorem Low.alt_inv (hg : g.Low n) (he : (a.alt b).fits (g.mayBeEmpty n) (g.rank n))
    {x : Cursor × List (ParseTree R)} (hy : g.Yields m (.alt a b) c (some x)) :
    g.Yields m a c (some x) ∨ g.Yields m a c none ∧ g.Yields m b c (some x) := by
  simp only [Expr.fits, Bool.and_eq_true] at he
  obtain ⟨h, ha⟩ := hg.exists_yields m he.1 c
  cases h with
  | some y =>
    cases hy.unique ha.left
    exact .inl ha
  | none =>
    obtain ⟨h, hb⟩ := hg.exists_yields m he.2 c
    cases hy.unique (ha.right hb)
    exact .inr ⟨ha, hb⟩

theorem Low.opt_inv (hg : g.Low n) (he : a.fits (g.mayBeEmpty n) (g.rank n))
    {x : Cursor × List (ParseTree R)} (hy : g.Yields m (.opt a) c (some x)) :
    g.Yields m a c (some x) ∨ g.Yields m a c none ∧ x = (c, []) := by
  obtain ⟨h, ha⟩ := hg.exists_yields m he c
  cases h with
  | some y =>
    cases hy.unique ha.opt
    exact .inl ha
  | none =>
    cases hy.unique ha.opt
    exact .inr ⟨ha, rfl⟩

theorem Low.many_inv (hg : g.Low n) (he : a.fits (g.mayBeEmpty n) (g.rank n))
    (hy : g.Yields m (.many a) c (some (d', us))) :
    g.Yields m a c none ∧ us = [] ∨ ∃ d ts ts', g.Yields m a c (some (d, ts)) ∧ us = ts ++ ts' := by
  obtain ⟨h, ha⟩ := hg.exists_yields m he c
  cases h with
  | none =>
    cases hy.unique ha.many_nil
    exact .inl ⟨ha, rfl⟩
  | some x =>
    obtain ⟨k, hk⟩ := hy
    have ⟨l, hl⟩ := ha
    have hmany : g.hit? (max k l + 1) m (.many a) c = some (d', us) := hk _ (by omega)
    unfold hit? at hmany
    dsimp only at hmany
    rw [hl (max k l) (by omega)] at hmany
    obtain ⟨ts', _, hus⟩ := Hit.prepend_eq_some hmany
    exact .inr ⟨x.1, x.2, ts', ha, hus⟩

end GlyphScript.Peg.Grammar
