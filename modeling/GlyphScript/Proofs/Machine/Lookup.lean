import GlyphScript.Proofs.Machine.Leaving

/-! # Where names are looked up

A search climbs from the base along the parents of the scopes and ends on every stack, since it goes
on only to a lower place. In a reachable machine it passes every open scope, the innermost one
first, and then the root.
-/

namespace GlyphScript

namespace View

/-- The places that a search passes from a place on: each next one is the parent of the scope before
it, as long as that lies below. -/
inductive Climbs (frames : List Frame) : Nat → List Nat → Prop where
  | outside {i : Nat} : frames[i]? = none → Climbs frames i []
  | ends {i : Nat} {frame : Frame} : frames[i]? = some frame →
      (∀ scope, frame.scope = some scope → ¬ scope.parent < i) → Climbs frames i [i]
  | up {i : Nat} {frame : Frame} {scope : Scope} {places : List Nat} : frames[i]? = some frame →
      frame.scope = some scope → scope.parent < i → Climbs frames scope.parent places →
      Climbs frames i (i :: places)

namespace Climbs

variable {frames : List Frame} {i : Nat} {places places' : List Nat}

/-- A search ends, whatever the parents are. -/
theorem exists_places (frames : List Frame) (i : Nat) : ∃ places, Climbs frames i places := by
  induction i using Nat.strongRecOn with
  | _ i ih =>
    cases hi : frames[i]? with
    | none => exact ⟨[], .outside hi⟩
    | some frame =>
      by_cases hup : ∃ scope, frame.scope = some scope ∧ scope.parent < i
      · obtain ⟨scope, hs, hlt⟩ := hup
        obtain ⟨places, hp⟩ := ih scope.parent hlt
        exact ⟨i :: places, .up hi hs hlt hp⟩
      · exact ⟨[i], .ends hi fun scope hs hlt => hup ⟨scope, hs, hlt⟩⟩

theorem unique (h : Climbs frames i places) (h' : Climbs frames i places') : places' = places := by
  induction h generalizing places' with
  | outside hi =>
    cases h' with
    | outside => rfl
    | ends hi' => simp [hi] at hi'
    | up hi' => simp [hi] at hi'
  | ends hi hend =>
    cases h' with
    | outside hi' => simp [hi] at hi'
    | ends => rfl
    | up hi' hs hlt =>
      obtain rfl := Option.some.inj (hi.symm.trans hi')
      exact absurd hlt (hend _ hs)
  | up hi hs hlt _ ih =>
    cases h' with
    | outside hi' => simp [hi] at hi'
    | ends hi' hend =>
      obtain rfl := Option.some.inj (hi.symm.trans hi')
      exact absurd hlt (hend _ hs)
    | up hi' hs' _ hp =>
      obtain rfl := Option.some.inj (hi.symm.trans hi')
      obtain rfl := Option.some.inj (hs.symm.trans hs')
      rw [ih hp]

theorem le (h : Climbs frames i places) : ∀ j ∈ places, j ≤ i := by
  induction h with
  | outside => simp
  | ends => simp
  | up _ _ hlt _ ih =>
    rintro j (_ | ⟨_, hj⟩)
    · exact Nat.le_refl _
    · exact Nat.le_of_lt (Nat.lt_of_le_of_lt (ih j hj) hlt)

/-- No place is passed twice. -/
theorem pairwise (h : Climbs frames i places) : places.Pairwise (· > ·) := by
  induction h with
  | outside => exact .nil
  | ends => exact List.pairwise_singleton _ _
  | up _ _ hlt hp ih => exact .cons (fun j hj => Nat.lt_of_le_of_lt (hp.le j hj) hlt) ih

/-- The frames of the places, for any number of steps that suffices. -/
theorem chain_eq (h : Climbs frames i places) {fuel : Nat} (hf : i < fuel) :
    places.map (frames[·]?) = (chain frames fuel i).map some := by
  induction h generalizing fuel with
  | outside hi =>
    cases fuel with
    | zero => cases hf
    | succ fuel => simp [chain, hi]
  | @ends i frame hi hend =>
    cases fuel with
    | zero => cases hf
    | succ fuel =>
      cases hs : frame.scope with
      | none => simp [chain, hi, hs]
      | some scope => simp [chain, hi, hs, hend scope hs]
  | up hi hs hlt _ ih =>
    cases fuel with
    | zero => cases hf
    | succ fuel => simp [chain, hi, hs, hlt, ih (Nat.lt_of_lt_of_le hlt (Nat.le_of_lt_succ hf))]

/-- Frames on top change nothing. -/
theorem append (h : Climbs frames i places) (hi : i < frames.length) (above : List Frame) :
    Climbs (frames ++ above) i places := by
  have hget : ∀ {j : Nat} {frame : Frame}, frames[j]? = some frame →
      (frames ++ above)[j]? = some frame := by
    intro j frame hj
    rw [List.getElem?_append_left (List.getElem?_eq_some_iff.mp hj).1, hj]
  induction h with
  | outside hnone => simp [hi] at hnone
  | ends hframe hend => exact .ends (hget hframe) hend
  | up hframe hs hlt _ ih => exact .up (hget hframe) hs hlt (ih (Nat.lt_trans hlt hi))

end Climbs

theorem hasTag_iff {view : View} {name : String} :
    view.hasTag name ↔ ∃ frame ∈ view.frames, frame.hasTag name := by
  simp only [hasTag, List.any_eq_true, mem_order_iff]

theorem lookup?_eq_none_iff {view : View} {name : String} :
    view.lookup? name = none ↔ ∀ frame ∈ view.frames, frame.get? name = none := by
  rw [← Option.not_isSome_iff_eq_none, isSome_lookup?_iff]
  simp

end View

open View

def scopePlaces (frames : List Frame) : List Nat :=
  ((List.range frames.length).filter fun i => (frames[i]?.bind Frame.scope).isSome).reverse

theorem scopePlaces_snoc (frames : List Frame) (frame : Frame) :
    scopePlaces (frames ++ [frame]) =
      (frame.scope.map fun _ => frames.length).toList ++ scopePlaces frames := by
  have hbelow : (List.range frames.length).filter
        (fun i => ((frames ++ [frame])[i]?.bind Frame.scope).isSome) =
      (List.range frames.length).filter fun i => (frames[i]?.bind Frame.scope).isSome := by
    apply List.filter_congr
    intro i hi
    rw [List.getElem?_append_left (List.mem_range.mp hi)]
  have htop : [frames.length].filter (fun i => ((frames ++ [frame])[i]?.bind Frame.scope).isSome) =
      (frame.scope.map fun _ => frames.length).toList := by
    cases hs : frame.scope <;> simp [hs]
  rw [scopePlaces, List.length_append, List.length_singleton, List.range_succ, List.filter_append,
    hbelow, htop, List.reverse_append, ← scopePlaces]
  cases frame.scope <;> rfl

/-- Scopes that are chained by their parents are all passed, and then the root. -/
theorem Linked.climbs {l : List (Option Scope)} {b : Nat} (h : Linked l b) {frames : List Frame}
    (hf : frames.map Frame.scope = l) : Climbs frames b (scopePlaces frames ++ [0]) := by
  -- The chain grows at the top of the stack, so the places below the last frame are passed as
  -- without it.
  induction h generalizing frames with
  | root =>
    obtain ⟨frame, rfl, hs⟩ := List.map_eq_singleton_iff.mp hf
    have hplaces : scopePlaces [frame] = [] := by
      rw [← List.nil_append [frame], scopePlaces_snoc, hs]
      rfl
    rw [hplaces]
    exact .ends rfl fun scope hscope => by rw [hs] at hscope; cases hscope
  | plain hl ih =>
    obtain ⟨below, top, rfl, rfl, htop⟩ := List.map_eq_append_iff.mp hf
    obtain ⟨frame, rfl, hs⟩ := List.map_eq_singleton_iff.mp htop
    rw [scopePlaces_snoc, hs]
    exact (ih rfl).append (by simpa using hl.lt_length) _
  | @scope l s hl ih =>
    obtain ⟨below, top, rfl, rfl, htop⟩ := List.map_eq_append_iff.mp hf
    obtain ⟨frame, rfl, hs⟩ := List.map_eq_singleton_iff.mp htop
    have hlt : s.parent < below.length := by simpa using hl.lt_length
    rw [scopePlaces_snoc, hs, List.length_map]
    exact .up (by simp) hs hlt ((ih rfl).append hlt _)

namespace Machine

/-- A name is looked up in a sequence of frames that is finite on every stack: from the base along
the parents of the scopes as long as they lie below, and then from the top down. The first frame
that holds the name decides, and a hashtag is seen in any frame. In a reachable machine the search
passes all open scopes from the innermost one outwards before it comes to the root. -/
theorem lookup_climbs_scopes :
    (∀ view : View, ∃ places passed, Climbs view.frames view.base places ∧
      (∀ places', Climbs view.frames view.base places' → places' = places) ∧
        places.Pairwise (· > ·) ∧
      places.map (view.frames[·]?) = passed.map some ∧
      ∀ name,
        (∀ v, view.lookup? name = some v ↔
          ∃ before frame after, passed ++ view.frames.reverse = before ++ frame :: after ∧
            frame.get? name = some v ∧ ∀ earlier ∈ before, earlier.get? name = none) ∧
        (view.lookup? name = none ↔ ∀ frame ∈ view.frames, frame.get? name = none) ∧
        (view.hasTag name ↔ ∃ frame ∈ view.frames, frame.hasTag name)) ∧
      ∀ (program : Program) (m : Machine), Reachable program m →
        Climbs m.view.frames m.view.base (scopePlaces m.stack ++ [0]) := by
  constructor
  · intro view
    obtain ⟨places, hplaces⟩ := Climbs.exists_places view.frames view.base
    refine ⟨places, chain view.frames (view.base + 1) view.base, hplaces,
      fun _ => hplaces.unique, hplaces.pairwise, hplaces.chain_eq (Nat.lt_succ_self _), ?_⟩
    intro name
    refine ⟨?_, lookup?_eq_none_iff, hasTag_iff⟩
    intro v
    exact List.findSome?_eq_some_iff
  · intro program m hr
    exact hr.wellScoped.1.linked.climbs rfl

theorem lookup_climbs_scopes_nested :
    ∃ m, Reachable nestedTriggers m ∧ m.view.base = 2 ∧ scopePlaces m.stack = [2, 1] ∧
      Climbs m.view.frames m.view.base [2, 1, 0] := by
  have hr : Reachable nestedTriggers (Machine.steps {} 2 (Machine.start nestedTriggers)) :=
    Reachable.start.steps 0 2
  exact ⟨_, hr, by decide, by decide, lookup_climbs_scopes.2 _ _ hr⟩

end Machine

end GlyphScript
