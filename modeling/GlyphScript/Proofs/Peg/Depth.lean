import GlyphScript.Proofs.Peg.Derivation

/-! # Enough depth

The rules of a grammar without left recursion nest a bounded number of calls before a character is
consumed. This bound is computed from the bodies of the rules, and where the check of the bodies
succeeds a match does not change any more once the depth exceeds what the rest of the input can use
up.
-/

namespace GlyphScript.Peg

variable {R : Type}

namespace Expr

/-- How many calls are nested before a character is consumed, given the ranks of the rules. -/
def height (empty : R → Bool) (rank : R → Nat) : Expr R → Nat
  | rule r => rank r
  | seq a b => max (a.height empty rank) (if a.mayBeEmpty empty then b.height empty rank else 0) + 1
  | alt a b => max (a.height empty rank) (b.height empty rank) + 1
  | opt a => a.height empty rank + 1
  | many a => a.height empty rank + 1
  | absent a => a.height empty rank + 1
  | _ => 1

/-- Whether all parts are lower than 64, and each repetition is one of texts that are not empty. -/
def fits (empty : R → Bool) (rank : R → Nat) : Expr R → Bool
  | seq a b => a.fits empty rank && b.fits empty rank && b.height empty rank < 64
  | alt a b => a.fits empty rank && b.fits empty rank
  | opt a => a.fits empty rank
  | many a => a.fits empty rank && !a.mayBeEmpty empty
  | absent a => a.fits empty rank
  | _ => true

theorem height_pos {empty : R → Bool} {rank : R → Nat} (hr : ∀ r, 0 < rank r) (e : Expr R) :
    0 < e.height empty rank := by
  cases e with
  | rule r => exact hr r
  | _ => exact Nat.succ_pos _

end Expr

namespace Grammar

/-- How many calls a rule nests before a character is consumed, looked up in the bodies of the rules
down to a depth. -/
def rank (g : Grammar R) : Nat → R → Nat
  | 0, _ => 64
  | n + 1, r => (g.body r).height (g.mayBeEmpty n) (g.rank n) + 1

structure Low (g : Grammar R) (n : Nat) : Prop where
  forward : g.SkipsForward
  height : ∀ r, (g.body r).height (g.mayBeEmpty n) (g.rank n) < g.rank n r
  rank : ∀ r, g.rank n r < 64
  fits : ∀ r, (g.body r).fits (g.mayBeEmpty n) (g.rank n)

variable {g : Grammar R} {n : Nat}

theorem length_gap_le (hg : g.SkipsForward) (m : Mode) (c : Cursor) :
    (g.gap m c).rest.length ≤ c.rest.length := by
  obtain ⟨w, hw, _⟩ := exists_reads_gap hg m c
  rw [hw.length_eq]
  exact Nat.le_add_left _ _

/-- A match consumes no less than nothing, and something if it cannot be empty. -/
theorem length_of_hit? (hg : g.SkipsForward) {fuel : Nat} {m : Mode} {e : Expr R} {c d : Cursor}
    {ts : List (ParseTree R)} (h : g.hit? fuel m e c = some (d, ts)) :
    d.rest.length ≤ c.rest.length ∧
      (e.mayBeEmpty (g.mayBeEmpty n) = false → d.rest.length < c.rest.length) := by
  obtain ⟨s, hs, hderives⟩ := (derives_of_hit? hg fuel).1 _ _ _ _ _ h
  rw [hs.length_eq]
  refine ⟨Nat.le_add_left _ _, fun he => ?_⟩
  cases s with
  | nil =>
    rw [hderives.mayBeEmpty rfl n] at he
    cases he
  | cons x s =>
    rw [List.length_cons]
    omega

/-- One more call changes nothing where the depth suffices for the rest of the input. -/
theorem Low.hit?_succ (hg : g.Low n) (fuel : Nat) :
    (∀ m e c, e.fits (g.mayBeEmpty n) (g.rank n) →
      e.height (g.mayBeEmpty n) (g.rank n) + 64 * c.rest.length ≤ fuel →
        g.hit? (fuel + 1) m e c = g.hit? fuel m e c) ∧
      ∀ m a c, a.fits (g.mayBeEmpty n) (g.rank n) → a.mayBeEmpty (g.mayBeEmpty n) = false →
        a.height (g.mayBeEmpty n) (g.rank n) + 1 + 64 * c.rest.length ≤ fuel →
          g.hits? (fuel + 1) m a c = g.hits? fuel m a c := by
  have hpos : ∀ e : Expr R, 0 < e.height (g.mayBeEmpty n) (g.rank n) :=
    Expr.height_pos fun r => Nat.zero_lt_of_lt (hg.height r)
  induction fuel with
  | zero =>
    refine ⟨fun m e c _ hle => ?_, fun m a c _ _ hle => ?_⟩
    · have := hpos e
      omega
    · omega
  | succ fuel ih =>
    obtain ⟨ihHit, ihHits⟩ := ih
    refine ⟨fun m e c hfits hle => ?_, fun m a c hfits hne hle => ?_⟩
    · unfold hit?
      cases e with
      | char _ => rfl
      | text _ => rfl
      | start => rfl
      | finish => rfl
      | rule r =>
        have hlow := hg.height r
        dsimp only
        rw [ihHit _ _ _ (hg.fits r) (by simp only [Expr.height] at hle; omega)]
      | seq a b =>
        simp only [Expr.fits, Bool.and_eq_true, decide_eq_true_eq] at hfits
        simp only [Expr.height] at hle
        dsimp only
        rw [ihHit m a c hfits.1.1 (by omega)]
        cases ha : g.hit? fuel m a c with
        | none => rfl
        | some x =>
          have hgap := length_gap_le hg.forward m x.1
          obtain ⟨hlen, hless⟩ := length_of_hit? (n := n) hg.forward ha
          simp only [Option.bind_some]
          rw [ihHit m b _ hfits.1.2]
          cases he : a.mayBeEmpty (g.mayBeEmpty n) with
          | true =>
            rw [he, if_pos rfl] at hle
            omega
          | false =>
            have := hless he
            omega
      | alt a b =>
        simp only [Expr.fits, Bool.and_eq_true] at hfits
        simp only [Expr.height] at hle
        dsimp only
        rw [ihHit m a c hfits.1 (by omega), ihHit m b c hfits.2 (by omega)]
      | opt a =>
        simp only [Expr.height] at hle
        dsimp only
        rw [ihHit m a c hfits (by omega)]
      | many a =>
        simp only [Expr.fits, Bool.and_eq_true, Bool.not_eq_true'] at hfits
        simp only [Expr.height] at hle
        dsimp only
        rw [ihHit m a c hfits.1 (by omega)]
        cases ha : g.hit? fuel m a c with
        | none => rfl
        | some x =>
          have hless := (length_of_hit? (n := n) hg.forward ha).2 hfits.2
          dsimp only
          rw [ihHits m a x.1 hfits.1 hfits.2 (by omega)]
      | absent a =>
        simp only [Expr.height] at hle
        dsimp only
        rw [ihHit _ a c hfits (by omega)]
    · have hgap := length_gap_le hg.forward m c
      unfold hits?
      rw [ihHit m a _ hfits (by omega)]
      cases ha : g.hit? fuel m a (g.gap m c) with
      | none => rfl
      | some x =>
        have hless := (length_of_hit? (n := n) hg.forward ha).2 hne
        dsimp only
        rw [ihHits m a x.1 hfits hne (by omega)]

end Grammar

end GlyphScript.Peg
