import GlyphScript.Proofs.Peg.Hits

/-! # What a match derives

A match consumes a text that the expression derives when choices and repetitions are free. The trees
come with the derivation: every tree has its own, of the body of its rule. From the derivations
follows what a text can begin with and whether it can be empty.
-/

namespace GlyphScript.Peg

variable {R : Type}

theorem Hit.prepend_eq_some {h : Hit R} {trees ts : List (ParseTree R)} {d : Cursor}
    (he : h.prepend trees = some (d, ts)) : ∃ ts', h = some (d, ts') ∧ ts = trees ++ ts' := by
  obtain ⟨⟨d', ts'⟩, rfl, heq⟩ := Option.map_eq_some_iff.mp he
  cases heq
  exact ⟨ts', rfl, rfl⟩

def Expr.options : Expr R → List (Expr R)
  | .alt a b => a.options ++ b.options
  | e => [e]

namespace Grammar

variable (g : Grammar R)

def SkipsForward : Prop := ∀ c : Cursor, ∃ w, c.Reads w (g.skip c)

def Gap (m : Mode) (w : List Char) : Prop :=
  w = [] ∨ m.spacing = .free ∧ ∃ c : Cursor, c.Reads w (g.skip c)

inductive Derives : Mode → Expr R → List Char → List (ParseTree R) → Prop
  | char {m : Mode} {accepts : Char → Bool} {x : Char} (h : accepts x) :
      Derives m (.char accepts) [x] []
  | text (m : Mode) (cs : List Char) : Derives m (.text cs) cs []
  | start (m : Mode) : Derives m .start [] []
  | finish (m : Mode) : Derives m .finish [] []
  | rule {m : Mode} {r : R} {s : List Char} {ts : List (ParseTree R)}
      (h : Derives (m.inside (g.style r)) (g.body r) s ts) :
      Derives m (.rule r) s (g.nodes r m s ts)
  | seq {m : Mode} {a b : Expr R} {s w s' : List Char} {ts ts' : List (ParseTree R)}
      (ha : Derives m a s ts)
      (hw : g.Gap m w) (hb : Derives m b s' ts') : Derives m (.seq a b) (s ++ (w ++ s')) (ts ++ ts')
  | left {m : Mode} {a b : Expr R} {s : List Char} {ts : List (ParseTree R)}
      (h : Derives m a s ts) : Derives m (.alt a b) s ts
  | right {m : Mode} {a b : Expr R} {s : List Char} {ts : List (ParseTree R)}
      (h : Derives m b s ts) : Derives m (.alt a b) s ts
  | present {m : Mode} {a : Expr R} {s : List Char} {ts : List (ParseTree R)}
      (h : Derives m a s ts) : Derives m (.opt a) s ts
  | missing (m : Mode) (a : Expr R) : Derives m (.opt a) [] []
  | again {m : Mode} {a : Expr R} {s w s' : List Char} {ts ts' : List (ParseTree R)}
      (ha : Derives m a s ts)
      (hw : g.Gap m w) (hb : Derives m (.many a) s' ts') :
      Derives m (.many a) (s ++ (w ++ s')) (ts ++ ts')
  | enough (m : Mode) (a : Expr R) : Derives m (.many a) [] []
  | absent (m : Mode) (a : Expr R) : Derives m (.absent a) [] []

variable {g}

theorem exists_reads_gap (hg : g.SkipsForward) (m : Mode) (c : Cursor) :
    ∃ w, c.Reads w (g.gap m c) ∧ g.Gap m w := by
  unfold gap
  split
  · next hm =>
    obtain ⟨w, hw⟩ := hg c
    exact ⟨w, hw, .inr ⟨hm, c, hw⟩⟩
  · exact ⟨[], .refl c, .inl rfl⟩

theorem derives_of_hit? (hg : g.SkipsForward) (fuel : Nat) :
    (∀ m e c d ts, g.hit? fuel m e c = some (d, ts) → ∃ s, c.Reads s d ∧ g.Derives m e s ts) ∧
      ∀ m a c d ts, g.hits? fuel m a c = some (d, ts) →
        ∃ w s, c.Reads (w ++ s) d ∧ g.Gap m w ∧ g.Derives m (.many a) s ts := by
  induction fuel with
  | zero =>
    refine ⟨fun m e c d ts h => ?_, fun m a c d ts h => ?_⟩
    · cases h
    · cases h
  | succ fuel ih =>
    obtain ⟨ihHit, ihHits⟩ := ih
    refine ⟨fun m e c d ts h => ?_, fun m a c d ts h => ?_⟩
    · unfold hit? at h
      cases e with
      | char accepts =>
        obtain ⟨position, rest⟩ := c
        cases rest with
        | nil => cases h
        | cons x xs =>
          obtain ⟨hx, heq⟩ := Option.ite_none_right_eq_some.mp h
          cases heq
          exact ⟨[x], ⟨rfl, rfl⟩, .char hx⟩
      | text cs =>
        obtain ⟨d', hd, heq⟩ := Option.map_eq_some_iff.mp h
        cases heq
        exact ⟨cs, .of_after? hd, .text m cs⟩
      | start =>
        obtain ⟨_, heq⟩ := Option.ite_none_right_eq_some.mp h
        cases heq
        exact ⟨[], .refl c, .start m⟩
      | finish =>
        obtain ⟨_, heq⟩ := Option.ite_none_right_eq_some.mp h
        cases heq
        exact ⟨[], .refl c, .finish m⟩
      | rule r =>
        obtain ⟨⟨d', ts'⟩, hbody, heq⟩ := Option.map_eq_some_iff.mp h
        obtain ⟨s, hs, hderives⟩ := ihHit _ _ _ _ _ hbody
        cases heq
        rw [hs.between_eq]
        exact ⟨s, hs, .rule hderives⟩
      | seq a b =>
        obtain ⟨⟨d₁, ts₁⟩, ha, hthen⟩ := Option.bind_eq_some_iff.mp h
        obtain ⟨ts₂, hb, rfl⟩ := Hit.prepend_eq_some hthen
        obtain ⟨s₁, hs₁, hderives₁⟩ := ihHit _ _ _ _ _ ha
        obtain ⟨w, hw, hgap⟩ := exists_reads_gap hg m d₁
        obtain ⟨s₂, hs₂, hderives₂⟩ := ihHit _ _ _ _ _ hb
        exact ⟨_, hs₁.trans (hw.trans hs₂), .seq hderives₁ hgap hderives₂⟩
      | alt a b =>
        rcases Option.or_eq_some_iff.mp h with ha | ⟨_, hb⟩
        · obtain ⟨s, hs, hderives⟩ := ihHit _ _ _ _ _ ha
          exact ⟨s, hs, .left hderives⟩
        · obtain ⟨s, hs, hderives⟩ := ihHit _ _ _ _ _ hb
          exact ⟨s, hs, .right hderives⟩
      | opt a =>
        rcases Option.or_eq_some_iff.mp h with ha | ⟨_, heq⟩
        · obtain ⟨s, hs, hderives⟩ := ihHit _ _ _ _ _ ha
          exact ⟨s, hs, .present hderives⟩
        · cases heq
          exact ⟨[], .refl c, .missing m a⟩
      | many a =>
        dsimp only at h
        cases ha : g.hit? fuel m a c with
        | none =>
          rw [ha] at h
          cases h
          exact ⟨[], .refl c, .enough m a⟩
        | some x =>
          rw [ha] at h
          obtain ⟨ts', hmore, rfl⟩ := Hit.prepend_eq_some h
          obtain ⟨s, hs, hderives⟩ := ihHit _ _ _ _ _ ha
          obtain ⟨w, s', hs', hgap, hderives'⟩ := ihHits _ _ _ _ _ hmore
          exact ⟨_, hs.trans hs', .again hderives hgap hderives'⟩
      | absent a =>
        obtain ⟨_, heq⟩ := Option.ite_none_left_eq_some.mp h
        cases heq
        exact ⟨[], .refl c, .absent m a⟩
    · unfold hits? at h
      cases ha : g.hit? fuel m a (g.gap m c) with
      | none =>
        rw [ha] at h
        cases h
        exact ⟨[], [], .refl c, .inl rfl, .enough m a⟩
      | some x =>
        rw [ha] at h
        obtain ⟨ts', hmore, rfl⟩ := Hit.prepend_eq_some h
        obtain ⟨w₁, hw₁, hgap₁⟩ := exists_reads_gap hg m c
        obtain ⟨s, hs, hderives⟩ := ihHit _ _ _ _ _ ha
        obtain ⟨w, s', hs', hgap, hderives'⟩ := ihHits _ _ _ _ _ hmore
        exact ⟨w₁, _, hw₁.trans (hs.trans hs'), hgap₁, .again hderives hgap hderives'⟩

/-- A rule that asks for the end of the input in the end leaves nothing. -/
theorem rest_of_hit? {r f : R} {a : Expr R} (hr : g.body r = .seq a (.rule f))
    (hf : g.body f = .finish) {fuel : Nat} {m : Mode} {c d : Cursor} {ts : List (ParseTree R)}
    (h : g.hit? fuel m (.rule r) c = some (d, ts)) : d.rest = [] := by
  have hrule : ∀ {fuel : Nat} {m : Mode} {r : R} {c : Cursor} {ts : List (ParseTree R)},
      g.hit? fuel m (.rule r) c = some (d, ts) →
        ∃ fuel' ts', g.hit? fuel' (m.inside (g.style r)) (g.body r) c = some (d, ts') := by
    intro fuel m r c ts h
    cases fuel with
    | zero => cases h
    | succ fuel =>
      unfold hit? at h
      obtain ⟨⟨d', ts'⟩, hbody, heq⟩ := Option.map_eq_some_iff.mp h
      cases heq
      exact ⟨fuel, ts', hbody⟩
  obtain ⟨fuel, ts, hbody⟩ := hrule h
  rw [hr] at hbody
  cases fuel with
  | zero => cases hbody
  | succ fuel =>
    unfold hit? at hbody
    obtain ⟨x, _, hlast⟩ := Option.bind_eq_some_iff.mp hbody
    obtain ⟨ts', hlast, _⟩ := Hit.prepend_eq_some hlast
    obtain ⟨fuel, ts'', hfinish⟩ := hrule hlast
    rw [hf] at hfinish
    cases fuel with
    | zero => cases hfinish
    | succ fuel =>
      unfold hit? at hfinish
      obtain ⟨hempty, heq⟩ := Option.ite_none_right_eq_some.mp hfinish
      cases heq
      exact List.isEmpty_iff.mp hempty

/-- A parsed text is one that its rule derives. -/
theorem derives_of_parse (hg : g.SkipsForward) {r f : R} {a : Expr R}
    (hr : g.body r = .seq a (.rule f)) (hf : g.body f = .finish) {cs : List Char}
    {trees : List (ParseTree R)} (h : g.parse r cs = .ok trees) :
    g.Derives {} (.rule r) cs trees := by
  unfold parse at h
  dsimp only at h
  rw [(hit_run (depth cs)).1] at h
  cases hh : g.hit? (depth cs) {} (.rule r) (.ofText cs) with
  | none =>
    rw [hh] at h
    cases h
  | some x =>
    rw [hh] at h
    cases h
    obtain ⟨s, hs, hderives⟩ := (derives_of_hit? hg _).1 _ _ _ _ _ hh
    have hrest : cs = s ++ x.1.rest := hs.rest
    rw [rest_of_hit? hr hf hh, List.append_nil] at hrest
    rwa [hrest]

theorem Derives.text_inv {m : Mode} {cs s : List Char} {ts : List (ParseTree R)}
    (h : g.Derives m (.text cs) s ts) : s = cs ∧ ts = [] := by
  cases h
  exact ⟨rfl, rfl⟩

theorem Derives.rule_inv {m : Mode} {r : R} {s : List Char} {ts : List (ParseTree R)}
    (h : g.Derives m (.rule r) s ts) :
    ∃ us, g.Derives (m.inside (g.style r)) (g.body r) s us ∧ ts = g.nodes r m s us := by
  cases h with
  | rule h => exact ⟨_, h, rfl⟩

theorem Derives.seq_inv {m : Mode} {a b : Expr R} {s : List Char} {ts : List (ParseTree R)}
    (h : g.Derives m (.seq a b) s ts) : ∃ s₁ w s₂ ts₁ ts₂, g.Derives m a s₁ ts₁ ∧ g.Gap m w ∧
      g.Derives m b s₂ ts₂ ∧ s = s₁ ++ (w ++ s₂) ∧ ts = ts₁ ++ ts₂ := by
  cases h with
  | seq ha hw hb => exact ⟨_, _, _, _, _, ha, hw, hb, rfl, rfl⟩

theorem Derives.alt_inv {m : Mode} {a b : Expr R} {s : List Char} {ts : List (ParseTree R)}
    (h : g.Derives m (.alt a b) s ts) : g.Derives m a s ts ∨ g.Derives m b s ts := by
  cases h with
  | left h => exact .inl h
  | right h => exact .inr h

theorem Derives.exists_option {m : Mode} {e : Expr R} {s : List Char} {ts : List (ParseTree R)}
    (h : g.Derives m e s ts) : ∃ a ∈ e.options, g.Derives m a s ts := by
  induction e with
  | alt a b iha ihb =>
    rcases h.alt_inv with ha | hb
    · obtain ⟨c, hc, hderives⟩ := iha ha
      exact ⟨c, List.mem_append_left _ hc, hderives⟩
    · obtain ⟨c, hc, hderives⟩ := ihb hb
      exact ⟨c, List.mem_append_right _ hc, hderives⟩
  | _ => exact ⟨_, List.mem_singleton_self _, h⟩

theorem Derives.opt_inv {m : Mode} {a : Expr R} {s : List Char} {ts : List (ParseTree R)}
    (h : g.Derives m (.opt a) s ts) : g.Derives m a s ts ∨ s = [] ∧ ts = [] := by
  cases h with
  | present h => exact .inl h
  | missing => exact .inr ⟨rfl, rfl⟩

/-- What holds of nothing, and with some repetitions also with one more in front of them, holds of
all repetitions. -/
theorem Derives.many_induction {m : Mode} {a : Expr R} {P : List Char → List (ParseTree R) → Prop}
    (nil : P [] [])
    (cons : ∀ {s w s' ts ts'}, g.Derives m a s ts → g.Gap m w → P s' ts' →
      P (s ++ (w ++ s')) (ts ++ ts'))
    {s : List Char} {ts : List (ParseTree R)} (h : g.Derives m (.many a) s ts) : P s ts := by
  generalize he : Expr.many a = e at h
  induction h with
  | again ha hw _ _ ih =>
    cases he
    exact cons ha hw (ih cons rfl)
  | enough _ _ => exact nil
  | _ => cases he

theorem Gap.eq_nil {m : Mode} (hm : m.spacing ≠ .free) {w : List Char} (h : g.Gap m w) :
    w = [] := by
  rcases h with rfl | ⟨hfree, _⟩
  · rfl
  · exact absurd hfree hm

/-- Where no blanks are skipped, repetitions of a character are a text of such characters. -/
theorem Derives.many_char {m : Mode} (hm : m.spacing ≠ .free) {accepts : Char → Bool}
    {s : List Char} {ts : List (ParseTree R)} (h : g.Derives m (.many (.char accepts)) s ts) :
    ∀ x ∈ s, accepts x := by
  refine many_induction (P := fun s _ => ∀ x ∈ s, accepts x) (fun x hx => by cases hx)
    (fun ha hw ih => ?_) h
  cases ha with
  | char hx =>
    rw [hw.eq_nil hm]
    rintro y (_ | ⟨_, hy⟩)
    · exact hx
    · exact ih y hy

/-! ## Trees -/

/-- Every tree of a derivation has a part of the text, and the body of its rule derives it. -/
theorem Derives.tree {m : Mode} {e : Expr R} {s : List Char} {ts : List (ParseTree R)}
    (h : g.Derives m e s ts) {t : ParseTree R} (ht : t ∈ ts) :
    t.text <:+: s ∧
      ∃ m : Mode, g.Derives (m.inside (g.style t.rule)) (g.body t.rule) t.text t.children := by
  induction h with
  | char _ => cases ht
  | text _ _ => cases ht
  | start _ => cases ht
  | finish _ => cases ht
  | @rule m r s ts h ih =>
    unfold nodes at ht
    split at ht
    · exact ih ht
    · split at ht
      · obtain rfl := List.mem_singleton.mp ht
        exact ⟨List.infix_refl s, m, h⟩
      · cases ht
  | @seq _ _ _ s w s' _ _ _ _ _ iha ihb =>
    rcases List.mem_append.mp ht with ht | ht
    · exact ⟨(iha ht).1.trans (List.prefix_append s _).isInfix, (iha ht).2⟩
    · exact ⟨(ihb ht).1.trans ⟨s ++ w, [], by simp⟩, (ihb ht).2⟩
  | left _ ih => exact ih ht
  | right _ ih => exact ih ht
  | present _ ih => exact ih ht
  | missing _ _ => cases ht
  | @again _ _ s w s' _ _ _ _ _ iha ihb =>
    rcases List.mem_append.mp ht with ht | ht
    · exact ⟨(iha ht).1.trans (List.prefix_append s _).isInfix, (iha ht).2⟩
    · exact ⟨(ihb ht).1.trans ⟨s ++ w, [], by simp⟩, (ihb ht).2⟩
  | enough _ _ => cases ht
  | absent _ _ => cases ht

end Grammar

/-! ## Empty texts and first characters -/

namespace Expr

/-- Whether a text can be empty, given for which rules it can. -/
def mayBeEmpty (rules : R → Bool) : Expr R → Bool
  | char _ => false
  | text cs => cs.isEmpty
  | rule r => rules r
  | seq a b => a.mayBeEmpty rules && b.mayBeEmpty rules
  | alt a b => a.mayBeEmpty rules || b.mayBeEmpty rules
  | _ => true

def mayStart (blank : Char → Bool) (empty : R → Bool) (rules : R → Char → Bool) :
    Expr R → Char → Bool
  | char accepts, x => accepts x
  | text cs, x => cs.head? == some x
  | rule r, x => rules r x
  | seq a b, x =>
    a.mayStart blank empty rules x || a.mayBeEmpty empty &&
      (blank x || b.mayStart blank empty rules x)
  | alt a b, x => a.mayStart blank empty rules x || b.mayStart blank empty rules x
  | opt a, x => a.mayStart blank empty rules x
  | many a, x => a.mayStart blank empty rules x || a.mayBeEmpty empty && blank x
  | _, _ => false

def avoids (x : Char) (rules : R → Bool) : Expr R → Bool
  | char accepts => !accepts x
  | text cs => !cs.contains x
  | rule r => rules r
  | seq a b => a.avoids x rules && b.avoids x rules
  | alt a b => a.avoids x rules && b.avoids x rules
  | opt a => a.avoids x rules
  | many a => a.avoids x rules
  | _ => true

end Expr

namespace Grammar

/-- Whether a text of a rule can be empty, looked up in the bodies of the rules down to a depth. -/
def mayBeEmpty (g : Grammar R) : Nat → R → Bool
  | 0, _ => true
  | n + 1, r => (g.body r).mayBeEmpty (g.mayBeEmpty n)

def mayStart (g : Grammar R) (blank : Char → Bool) : Nat → R → Char → Bool
  | 0, _, _ => true
  | n + 1, r, x => (g.body r).mayStart blank (g.mayBeEmpty n) (g.mayStart blank n) x

def avoids (g : Grammar R) (x : Char) : Nat → R → Bool
  | 0, _ => false
  | n + 1, r => (g.body r).avoids x (g.avoids x n)

variable {g : Grammar R} {m : Mode} {e : Expr R} {s : List Char} {ts : List (ParseTree R)}

theorem Derives.mayBeEmpty (h : g.Derives m e s ts) (hs : s = []) (n : Nat) :
    e.mayBeEmpty (g.mayBeEmpty n) := by
  induction h generalizing n with
  | char _ => cases hs
  | text _ cs => exact List.isEmpty_iff.mpr hs
  | start _ => rfl
  | finish _ => rfl
  | @rule _ r _ _ _ ih =>
    cases n with
    | zero => rfl
    | succ n => exact ih hs n
  | seq _ _ _ iha ihb =>
    obtain ⟨ha, hb⟩ := List.append_eq_nil_iff.mp hs
    obtain ⟨_, hb⟩ := List.append_eq_nil_iff.mp hb
    exact Bool.and_eq_true_iff.mpr ⟨iha ha n, ihb hb n⟩
  | left _ ih => exact Bool.or_eq_true_iff.mpr (.inl (ih hs n))
  | right _ ih => exact Bool.or_eq_true_iff.mpr (.inr (ih hs n))
  | present _ _ => rfl
  | missing _ _ => rfl
  | again _ _ _ _ _ => rfl
  | enough _ _ => rfl
  | absent _ _ => rfl

/-- What may start a text in which an empty part or a gap can come first. -/
theorem head?_append_cases {x : Char} {s w s' : List Char} (h : (s ++ (w ++ s')).head? = some x) :
    s.head? = some x ∨ s = [] ∧ (w.head? = some x ∨ s'.head? = some x) := by
  cases s with
  | cons y s => exact .inl h
  | nil =>
    cases w with
    | cons y w => exact .inr ⟨rfl, .inl h⟩
    | nil => exact .inr ⟨rfl, .inr h⟩

theorem Derives.mayStart {blank : Char → Bool}
    (hblank : ∀ m w x, g.Gap m w → w.head? = some x → blank x) (h : g.Derives m e s ts) {x : Char}
    (hx : s.head? = some x) (n : Nat) :
    e.mayStart blank (g.mayBeEmpty n) (g.mayStart blank n) x := by
  induction h generalizing n with
  | char h =>
    cases hx
    exact h
  | text _ cs => exact beq_iff_eq.mpr hx
  | start _ => cases hx
  | finish _ => cases hx
  | @rule _ r _ _ _ ih =>
    cases n with
    | zero => rfl
    | succ n => exact ih hx n
  | @seq _ a b s w s' _ _ ha hw _ iha ihb =>
    simp only [Expr.mayStart, Bool.or_eq_true, Bool.and_eq_true]
    rcases head?_append_cases hx with hs | ⟨hs, hw' | hs'⟩
    · exact .inl (iha hs n)
    · exact .inr ⟨ha.mayBeEmpty hs n, .inl (hblank _ _ _ hw hw')⟩
    · exact .inr ⟨ha.mayBeEmpty hs n, .inr (ihb hs' n)⟩
  | left _ ih => exact Bool.or_eq_true_iff.mpr (.inl (ih hx n))
  | right _ ih => exact Bool.or_eq_true_iff.mpr (.inr (ih hx n))
  | present _ ih => exact ih hx n
  | missing _ _ => cases hx
  | @again _ a s w s' _ _ ha hw _ iha ihb =>
    rcases head?_append_cases hx with hs | ⟨hs, hw' | hs'⟩
    · exact Bool.or_eq_true_iff.mpr (.inl (iha hs n))
    · exact Bool.or_eq_true_iff.mpr
        (.inr (Bool.and_eq_true_iff.mpr ⟨ha.mayBeEmpty hs n, hblank _ _ _ hw hw'⟩))
    · exact ihb hs' n
  | enough _ _ => cases hx
  | absent _ _ => cases hx

theorem Derives.not_mem {x : Char} (hgap : ∀ m w, g.Gap m w → x ∉ w) (h : g.Derives m e s ts)
    (n : Nat) (he : e.avoids x (g.avoids x n)) : x ∉ s := by
  induction h generalizing n with
  | @char _ accepts y hy =>
    intro hx
    obtain rfl := List.mem_singleton.mp hx
    simp [Expr.avoids, hy] at he
  | text _ cs => simpa [Expr.avoids] using he
  | start _ => exact List.not_mem_nil
  | finish _ => exact List.not_mem_nil
  | rule _ ih =>
    cases n with
    | zero => cases he
    | succ n => exact ih n he
  | @seq _ _ _ s w s' _ _ _ hw _ iha ihb =>
    obtain ⟨ha, hb⟩ := Bool.and_eq_true_iff.mp he
    simp only [List.mem_append, not_or]
    exact ⟨iha n ha, hgap _ w hw, ihb n hb⟩
  | left _ ih => exact ih n (Bool.and_eq_true_iff.mp he).1
  | right _ ih => exact ih n (Bool.and_eq_true_iff.mp he).2
  | present _ ih => exact ih n he
  | missing _ _ => exact List.not_mem_nil
  | @again _ _ s w s' _ _ _ hw _ iha ihb =>
    simp only [List.mem_append, not_or]
    exact ⟨iha n he, hgap _ w hw, ihb n he⟩
  | enough _ _ => exact List.not_mem_nil
  | absent _ _ => exact List.not_mem_nil

end Grammar

end GlyphScript.Peg
