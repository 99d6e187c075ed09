import GlyphScript.Lambda.Expr

/-! # Strata of operators

The grammar of expressions by strata: every operator has one, a stratum joins expressions of the
next tighter one, and operators between operands join from the left. A sequence of tokens has at
most one tree by this grammar, which is the one that climbing by powers finds, and every operand
with further operands behind operators has one.
-/

namespace GlyphScript.Lambda

theorem BinaryOp.power_le (op : BinaryOp) : op.power ≤ 6 := by
  cases op <;> decide

/-- The strata, from the loosest to the tightest. -/
inductive Stratum where
  | disjunction | conjunction | equality | comparison | sum | product | sign | path
  deriving DecidableEq, Repr

namespace Stratum

def operators : Stratum → List BinaryOp
  | disjunction => [.or, .nullish]
  | conjunction => [.and]
  | equality => [.eq, .ne, .strictEq, .strictNe]
  | comparison => [.lt, .le, .gt, .ge]
  | sum => [.add, .sub]
  | product => [.mul, .div, .rem]
  | sign | path => []

def tighter : Stratum → Stratum
  | disjunction => conjunction
  | conjunction => equality
  | equality => comparison
  | comparison => sum
  | sum => product
  | product => sign
  | sign | path => path

inductive Gives : Stratum → List Token → Expr → Prop where
  | operand (e : Expr) : Gives path [.operand e] e
  | access {s : List Token} {e : Expr} (h : Gives path s e) (key : Expr) :
      Gives path (s ++ [.access key]) (.access e key)
  | unary {s : List Token} {e : Expr} (op : UnaryOp) (h : Gives sign s e) :
      Gives sign (.unary op :: s) (.unary op e)
  | binary {l : Stratum} {op : BinaryOp} {s s' : List Token} {a b : Expr} (hop : op ∈ l.operators)
      (ha : Gives l s a)
      (hb : Gives l.tighter s' b) : Gives l (s ++ .binary op :: s') (.binary op a b)
  | tighter {l : Stratum} {s : List Token} {e : Expr} (h : Gives l.tighter s e) : Gives l s e

def power : Stratum → Nat
  | disjunction => 1
  | conjunction => 2
  | equality => 3
  | comparison => 4
  | sum => 5
  | product => 6
  | sign => 7
  | path => 8

variable {l : Stratum} {op : BinaryOp}

theorem power_of_mem (h : op ∈ l.operators) : op.power = l.power := by
  revert h
  cases l <;> cases op <;> decide

theorem mem_of_power (h : op.power = l.power) : op ∈ l.operators := by
  revert h
  cases l <;> cases op <;> decide

theorem power_le_tighter (l : Stratum) : l.power ≤ l.tighter.power := by
  cases l <;> decide

/-- There is no power between those of a stratum and the next one. -/
theorem power_tighter_le (h : l.power < op.power) : l.tighter.power ≤ op.power := by
  revert h
  cases l <;> cases op <;> decide

theorem power_lt_tighter (h : op ∈ l.operators) : l.power < l.tighter.power := by
  revert h
  cases l <;> cases op <;> decide

theorem tighter_ne_path (h : op ∈ l.operators) : l.tighter ≠ path := by
  revert h
  cases l <;> cases op <;> decide

end Stratum

/-! ## Climbing -/

namespace Token

/-- How strongly a token binds what stands in front of it. -/
def power : Token → Nat
  | access _ => accessPower
  | binary op => op.power
  | unary _ | operand _ => 0

/-- No token in front binds more strongly. -/
def Bounded (p : Nat) (tokens : List Token) : Prop := ∀ t, tokens.head? = some t → t.power ≤ p

theorem bounded_cons {p : Nat} {t : Token} {rest : List Token} :
    Bounded p (t :: rest) ↔ t.power ≤ p :=
  ⟨fun h => h t rfl, fun h => by rintro _ ⟨⟩; exact h⟩

theorem Bounded.mono {p q : Nat} {tokens : List Token} (h : Bounded p tokens) (hpq : p ≤ q) :
    Bounded q tokens :=
  fun t ht => Nat.le_trans (h t ht) hpq

/-- What does not bind more strongly than signs binds less strongly. -/
theorem Bounded.of_sign {tokens : List Token} (h : Bounded 7 tokens) : Bounded 6 tokens := by
  intro t ht
  have hle := h t ht
  cases t with
  | access key => exact absurd hle (Nat.not_le_of_lt (Nat.lt_succ_self 7))
  | binary op => exact op.power_le
  | unary op => exact Nat.zero_le _
  | operand e => exact Nat.zero_le _

/-- Climbing consumes a token, and extending does not give any back. -/
theorem length_climb? (fuel : Nat) :
    (∀ floor tokens e rest, climb? fuel floor tokens = some (e, rest) →
      rest.length < tokens.length) ∧
        ∀ floor left tokens e rest, extend? fuel floor left tokens = some (e, rest) →
          rest.length ≤ tokens.length := by
  induction fuel with
  | zero =>
    refine ⟨fun floor tokens e rest h => ?_, fun floor left tokens e rest h => ?_⟩
    · cases h
    · cases h
  | succ fuel ih =>
    obtain ⟨ihClimb, ihExtend⟩ := ih
    refine ⟨fun floor tokens e rest h => ?_, fun floor left tokens e rest h => ?_⟩
    · unfold climb? at h
      split at h
      · split at h
        · next hright =>
          have hlt := ihClimb _ _ _ _ hright
          have hle := ihExtend _ _ _ _ _ h
          rw [List.length_cons]
          omega
        · cases h
      · have hle := ihExtend _ _ _ _ _ h
        rw [List.length_cons]
        omega
      · cases h
    · unfold extend? at h
      split at h
      · split at h
        · have hle := ihExtend _ _ _ _ _ h
          rw [List.length_cons]
          omega
        · cases h
          exact Nat.le_refl _
      · split at h
        · split at h
          · next hright =>
            have hlt := ihClimb _ _ _ _ hright
            have hle := ihExtend _ _ _ _ _ h
            rw [List.length_cons]
            omega
          · cases h
        · cases h
          exact Nat.le_refl _
      · cases h
        exact Nat.le_refl _

/-- One more call changes nothing if there are more calls than tokens. -/
theorem climb?_succ (fuel : Nat) :
    (∀ floor tokens, tokens.length < fuel →
      climb? (fuel + 1) floor tokens = climb? fuel floor tokens) ∧
      ∀ floor left tokens, tokens.length < fuel →
        extend? (fuel + 1) floor left tokens = extend? fuel floor left tokens := by
  induction fuel with
  | zero =>
    exact ⟨fun _ _ h => absurd h (Nat.not_lt_zero _), fun _ _ _ h => absurd h (Nat.not_lt_zero _)⟩
  | succ fuel ih =>
    obtain ⟨ihClimb, ihExtend⟩ := ih
    have hlength := (length_climb? fuel).1
    refine ⟨fun floor tokens h => ?_, fun floor left tokens h => ?_⟩
    · cases tokens with
      | nil => rfl
      | cons t rest =>
        rw [List.length_cons] at h
        cases t with
        | unary op =>
          unfold climb?
          dsimp only
          rw [ihClimb _ rest (by omega)]
          cases hright : climb? fuel (op.power - 1) rest with
          | none => rfl
          | some x =>
            have hlt := hlength _ _ _ _ hright
            exact ihExtend _ _ _ (by omega)
        | operand e => exact ihExtend _ _ rest (by omega)
        | access key => rfl
        | binary op => rfl
    · cases tokens with
      | nil => rfl
      | cons t rest =>
        rw [List.length_cons] at h
        cases t with
        | unary op => rfl
        | operand e => rfl
        | access key =>
          unfold extend?
          dsimp only
          rw [ihExtend _ _ rest (by omega)]
        | binary op =>
          unfold extend?
          dsimp only
          rw [ihClimb _ rest (by omega)]
          cases hright : climb? fuel op.power rest with
          | none => rfl
          | some x =>
            have hlt := hlength _ _ _ _ hright
            dsimp only
            rw [ihExtend _ _ _ (by omega)]

theorem extend?_eq {floor fuel fuel' : Nat} {left : Expr} {tokens : List Token}
    (h : tokens.length < fuel) (h' : tokens.length < fuel') :
    extend? fuel floor left tokens = extend? fuel' floor left tokens := by
  have hall : ∀ n, tokens.length + 1 ≤ n →
      extend? n floor left tokens = extend? (tokens.length + 1) floor left tokens := by
    intro n hn
    induction hn with
    | refl => rfl
    | @step n hn ih => rw [← ih, (climb?_succ n).2 floor left tokens hn]
  rw [hall fuel h, hall fuel' h']

/-- An expression is not extended by tokens that bind no more strongly than the floor. -/
theorem extend?_of_bounded {floor : Nat} {tokens : List Token} (h : Bounded floor tokens)
    (fuel : Nat) (left : Expr) : extend? (fuel + 1) floor left tokens = some (left, tokens) := by
  cases tokens with
  | nil => rfl
  | cons t rest =>
    have ht := h t rfl
    cases t with
    | unary op => rfl
    | operand e => rfl
    | access key => exact if_neg (Nat.not_lt.mpr ht)
    | binary op => exact if_neg (Nat.not_lt.mpr ht)

end Token

namespace Stratum

open Token

variable {l : Stratum} {s : List Token} {e : Expr}

/-- Climbing over a sequence that has a tree goes on by extending the tree, if what follows is not
part of it. -/
theorem Gives.climb?_append (h : Gives l s e) {floor : Nat} (hfloor : floor < l.power)
    {rest : List Token} (hrest : Bounded l.power rest) {fuel fuel' : Nat}
    (hf : s.length + rest.length < fuel) (hf' : rest.length < fuel') :
    climb? fuel floor (s ++ rest) = extend? fuel' floor e rest := by
  -- The tree grows at its right edge, so what follows an operand of it starts with an operator of
  -- the same stratum.
  induction h generalizing floor rest fuel fuel' with
  | operand e =>
    cases fuel with
    | zero => cases hf
    | succ fuel =>
      rw [List.length_singleton, Nat.add_comm] at hf
      exact extend?_eq (Nat.lt_of_succ_lt_succ hf) hf'
  | @access s e _ key ih =>
    rw [List.length_append, List.length_singleton] at hf
    have hstart : climb? fuel floor (s ++ .access key :: rest) =
        extend? (rest.length + 2) floor e (.access key :: rest) :=
      ih hfloor (bounded_cons.mpr (Nat.le_refl _)) (by rw [List.length_cons]; omega)
        (Nat.lt_succ_self _)
    rw [List.append_assoc, List.singleton_append, hstart, extend?]
    exact (if_pos hfloor).trans (extend?_eq (Nat.lt_succ_self _) hf')
  | @unary s e op _ ih =>
    cases fuel with
    | zero => cases hf
    | succ fuel =>
      rw [List.length_cons] at hf
      have hright : climb? fuel (op.power - 1) (s ++ rest) = some (e, rest) := by
        have hstart : climb? fuel (op.power - 1) (s ++ rest) =
            extend? (rest.length + 1) (op.power - 1) e rest :=
          ih (Nat.lt_succ_self 6) hrest (by omega) (Nat.lt_succ_self _)
        rw [hstart]
        exact extend?_of_bounded hrest.of_sign _ _
      rw [List.cons_append, climb?]
      simp only [hright]
      exact extend?_eq (by omega) hf'
  | @binary l op s s' a b hop _ _ iha ihb =>
    have hpower := power_of_mem hop
    rw [List.length_append, List.length_cons] at hf
    have hstart : climb? fuel floor (s ++ .binary op :: (s' ++ rest)) =
        extend? (s'.length + rest.length + 2) floor a (.binary op :: (s' ++ rest)) := by
      have hbound : Bounded l.power (.binary op :: (s' ++ rest)) :=
        bounded_cons.mpr (Nat.le_of_eq hpower)
      refine iha hfloor hbound ?_ ?_
      · rw [List.length_cons, List.length_append]
        omega
      · rw [List.length_cons, List.length_append]
        omega
    have hright : climb? (s'.length + rest.length + 1) op.power (s' ++ rest) = some (b, rest) := by
      rw [ihb (hpower ▸ power_lt_tighter hop) (hrest.mono l.power_le_tighter) (Nat.lt_succ_self _)
        (Nat.lt_succ_self _)]
      exact extend?_of_bounded (hpower ▸ hrest) _ _
    rw [List.append_assoc, List.cons_append, hstart, extend?]
    simp only [hpower ▸ hfloor, if_true, hright]
    exact extend?_eq (by omega) hf'
  | @tighter l s e _ ih =>
    have hle := l.power_le_tighter
    exact ih (by omega) (hrest.mono hle) hf hf'

/-- A sequence that has a tree stands for it. -/
theorem Gives.toExpr? (h : Gives .disjunction s e) : Token.toExpr? s = some e := by
  have hclimb : climb? (2 * s.length + 2) 0 (s ++ []) = extend? 1 0 e [] :=
    h.climb?_append (by decide) (by rintro _ ⟨⟩) (by rw [List.length_nil]; omega) Nat.one_pos
  rw [List.append_nil] at hclimb
  rw [Token.toExpr?, hclimb]
  rfl

theorem Gives.unique {e' : Expr} (h : Gives .disjunction s e) (h' : Gives .disjunction s e') :
    e = e' :=
  Option.some.inj (h.toExpr?.symm.trans h'.toExpr?)

/-! ## Sequences that have a tree -/

theorem Gives.of_sign (h : Gives .sign s e) (hl : l ≠ .path) : Gives l s e := by
  have hproduct : Gives .product s e := .tighter h
  have hsum : Gives .sum s e := .tighter hproduct
  have hcomparison : Gives .comparison s e := .tighter hsum
  have hequality : Gives .equality s e := .tighter hcomparison
  have hconjunction : Gives .conjunction s e := .tighter hequality
  cases l with
  | disjunction => exact .tighter hconjunction
  | path => exact absurd rfl hl
  | _ => assumption

/-- A further operand is taken by the operators at the end that bind less strongly, or joined to the
whole. -/
theorem Gives.exists_append (h : Gives l s e) {op : BinaryOp} (hop : l.power ≤ op.power)
    {s' : List Token} {b : Expr} (hb : Gives .sign s' b) :
    ∃ e', Gives l (s ++ .binary op :: s') e' := by
  have hsmall := op.power_le
  have hjoin : ∀ {l : Stratum} {s : List Token} {e : Expr}, Gives l s e → op.power = l.power →
      ∃ e', Gives l (s ++ .binary op :: s') e' := by
    intro l s e h heq
    have hmem := mem_of_power heq
    exact ⟨_, .binary hmem h (hb.of_sign (tighter_ne_path hmem))⟩
  -- The operator goes down the right edge of the tree as long as it binds more strongly than what
  -- stands there.
  induction h with
  | operand e => exact absurd hop (by rw [power]; omega)
  | access _ _ _ => exact absurd hop (by rw [power]; omega)
  | unary _ _ _ => exact absurd hop (by rw [power]; omega)
  | @binary l op' s₁ s₂ a b' hop' ha hb' _ ihb =>
    rcases Nat.lt_or_eq_of_le hop with hlt | heq
    · obtain ⟨e', he'⟩ := ihb (power_tighter_le hlt)
      exact ⟨_, by rw [List.append_assoc, List.cons_append]; exact .binary hop' ha he'⟩
    · exact hjoin (.binary hop' ha hb') heq.symm
  | @tighter l s e h ih =>
    rcases Nat.lt_or_eq_of_le hop with hlt | heq
    · obtain ⟨e', he'⟩ := ih (power_tighter_le hlt)
      exact ⟨e', he'.tighter⟩
    · exact hjoin h.tighter heq.symm

end Stratum

end GlyphScript.Lambda
