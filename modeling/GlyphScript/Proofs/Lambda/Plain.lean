import GlyphScript.Machine.State
import GlyphScript.Proofs.Value.Parts

/-! # Evaluation leaves no lambda

An expression can only give a literal, something made by an operator, or a part of what the frames
hold. The literals of the language are plain, so if all that the frames hold is plain, every value
of an expression is.
-/

namespace GlyphScript

open Value

def View.Plain (view : View) : Prop :=
  ∀ frame ∈ view.frames, ∀ key value, (key, value) ∈ frame.data → value.isPlain

namespace View

variable {view : View}

theorem mem_of_mem_chain {frames : List Frame} {frame : Frame} (fuel i : Nat)
    (h : frame ∈ chain frames fuel i) : frame ∈ frames := by
  induction fuel generalizing i with
  | zero => simp [chain] at h
  | succ fuel ih =>
    rw [chain] at h
    cases hi : frames[i]? with
    | none => simp [hi] at h
    | some first =>
      simp only [hi, List.mem_cons] at h
      rcases h with rfl | h
      · exact List.mem_of_getElem? hi
      · split at h
        · split at h
          · exact ih _ h
          · cases h
        · cases h

/-- Every frame is searched, and nothing else. -/
theorem mem_order_iff {frame : Frame} : frame ∈ view.order ↔ frame ∈ view.frames := by
  rw [order, List.mem_append, List.mem_reverse]
  constructor
  · rintro (h | h)
    · exact mem_of_mem_chain _ _ h
    · exact h
  · exact Or.inr

theorem Plain.lookup? (hv : view.Plain) {name : String} {w : Value String}
    (h : view.lookup? name = some w) : w.isPlain := by
  obtain ⟨frame, hf, hget⟩ := List.exists_of_findSome?_eq_some h
  exact hv frame (mem_order_iff.mp hf) name w (Entries.mem_of_get? hget)

end View

theorem Value.isPlain_of_member? {v key w : Value String} (hv : v.isPlain)
    (h : v.member? key = some w) : w.isPlain := by
  unfold member? at h
  split at h
  · exact (isPlain_map _).mp hv _ _ (Entries.mem_of_get? h)
  · exact (isPlain_map _).mp hv _ _ (Entries.mem_of_get? h)
  · split at h
    · cases h
      rfl
    · cases h
  · split at h
    · cases h
      rfl
    · cases h
  · split at h
    · exact (isPlain_list _).mp hv _ (List.mem_of_getElem? h)
    · cases h
  · split at h
    · obtain ⟨c, _, rfl⟩ := Option.map_eq_some_iff.mp h
      rfl
    · cases h
  · cases h

namespace Lambda

/-! ## Reading -/

def Expr.Plain : Expr → Prop
  | .constant value => ∀ w ∈ value, w.isPlain
  | .name _ => True
  | .unary _ e => e.Plain
  | .binary _ left right => left.Plain ∧ right.Plain
  | .access e key => e.Plain ∧ key.Plain
  | .choice condition yes no => condition.Plain ∧ yes.Plain ∧ no.Plain

def Token.Plain : Token → Prop
  | .operand e => e.Plain
  | .access key => key.Plain
  | _ => True

namespace Token

/-- Climbing and extending only put together what the tokens hold. -/
theorem climb_plain (fuel : Nat) :
    (∀ floor tokens e rest, (∀ t ∈ tokens, t.Plain) → climb? fuel floor tokens = some (e, rest) →
      e.Plain ∧ ∀ t ∈ rest, t.Plain) ∧
    (∀ floor left tokens e rest, left.Plain → (∀ t ∈ tokens, t.Plain) →
      extend? fuel floor left tokens = some (e, rest) → e.Plain ∧ ∀ t ∈ rest, t.Plain) := by
  induction fuel with
  | zero => simp [climb?, extend?]
  | succ fuel ih =>
    obtain ⟨hclimb, hextend⟩ := ih
    constructor
    · intro floor tokens e rest ht h
      unfold climb? at h
      split at h
      · obtain ⟨_, ht⟩ := List.forall_mem_cons.mp ht
        split at h
        · next operand rest' hop =>
          obtain ⟨he, hr⟩ := hclimb _ _ _ _ ht hop
          exact hextend _ (.unary _ operand) _ _ _ he hr h
        · cases h
      · obtain ⟨he, ht⟩ := List.forall_mem_cons.mp ht
        exact hextend _ _ _ _ _ he ht h
      · cases h
    · intro floor left tokens e rest hl ht h
      have hstop : some (left, tokens) = some (e, rest) → e.Plain ∧ ∀ t ∈ rest, t.Plain := by
        rintro ⟨⟩
        exact ⟨hl, ht⟩
      unfold extend? at h
      split at h
      · obtain ⟨hk, hr⟩ := List.forall_mem_cons.mp ht
        split at h
        · exact hextend _ (.access left _) _ _ _ ⟨hl, hk⟩ hr h
        · exact hstop h
      · obtain ⟨_, hr⟩ := List.forall_mem_cons.mp ht
        split at h
        · split at h
          · next right rest' hop =>
            obtain ⟨he, hr'⟩ := hclimb _ _ _ _ hr hop
            exact hextend _ (.binary _ left right) _ _ _ ⟨hl, he⟩ hr' h
          · cases h
        · exact hstop h
      · exact hstop h

theorem toExpr?_plain {tokens : List Token} {e : Expr} (ht : ∀ t ∈ tokens, t.Plain)
    (h : toExpr? tokens = some e) : e.Plain := by
  unfold toExpr? at h
  split at h
  · next e' hc =>
    cases h
    exact ((climb_plain _).1 _ _ _ _ ht hc).1
  · cases h

end Token

namespace Build

open Peg

theorem atom?_plain {t : ParseTree Rule} {e : Expr} (h : atom? t = some e) : e.Plain := by
  unfold atom? at h
  split at h
  · obtain ⟨x, _, rfl⟩ := Option.map_eq_some_iff.mp h
    simp [Expr.Plain]
  all_goals cases h
  all_goals simp [Expr.Plain]

/-- What is built from a tree is plain, whatever the tree. -/
theorem build_plain :
    (∀ t e, ternary? t = some e → e.Plain) ∧ (∀ t e, binary? t = some e → e.Plain) ∧
      (∀ ts tokens, tokens? ts = some tokens → ∀ t ∈ tokens, t.Plain) ∧
      ∀ t token, token? t = some token → token.Plain := by
  apply ternary?.mutual_induct
  case case1 =>
    intro text b hb e h
    rw [ternary?] at h
    exact hb e h
  case case2 =>
    intro text b yes no hb hyes hno e h
    simp only [ternary?, Option.bind_eq_bind, Option.bind_eq_some_iff, Option.pure_def,
      Option.some.injEq] at h
    obtain ⟨c, hc, y, hy, n, hn, rfl⟩ := h
    exact ⟨hb c hc, hyes y hy, hno n hn⟩
  case case3 =>
    intro t h1 h3 e h
    rw [ternary?] at h
    · cases h
    · exact h1
    · exact h3
  case case4 =>
    intro text ts ih e h
    simp only [binary?, Option.bind_eq_bind, Option.bind_eq_some_iff] at h
    obtain ⟨tokens, ht, he⟩ := h
    exact Token.toExpr?_plain (ih tokens ht) he
  case case5 =>
    intro t hne e h
    rw [binary?] at h
    · cases h
    · exact hne
  case case6 =>
    intro tokens h
    rw [tokens?] at h
    cases h
    simp
  case case7 =>
    intro t ts ht hts tokens h
    simp only [tokens?, Option.bind_eq_bind, Option.bind_eq_some_iff, Option.pure_def,
      Option.some.injEq] at h
    obtain ⟨token, htoken, rest, hrest, rfl⟩ := h
    exact List.forall_mem_cons.mpr ⟨ht token htoken, hts rest hrest⟩
  case case8 =>
    intro text cs children token h
    rw [token?] at h
    cases h
    simp [Token.Plain, Expr.Plain]
  case case9 =>
    intro text t ih token h
    rw [token?] at h
    obtain ⟨e, he, rfl⟩ := Option.map_eq_some_iff.mp h
    exact ih e he
  case case10 =>
    intro cs ts ih token h
    rw [token?] at h
    obtain ⟨e, he, rfl⟩ := Option.map_eq_some_iff.mp h
    exact ih e he
  case case11 =>
    intro r cs ts hmember hindex hternary op hop token h
    rw [token?] at h
    · simp only [hop, Option.some.injEq] at h
      subst h
      trivial
    all_goals assumption
  case case12 =>
    intro r cs ts hmember hindex hternary op hop hnone token h
    rw [token?] at h
    · simp only [hop, hnone, Option.some.injEq] at h
      subst h
      trivial
    all_goals assumption
  case case13 =>
    intro r cs ts hmember hindex hternary hunary hbinary token h
    rw [token?] at h
    · simp only [hunary, hbinary] at h
      obtain ⟨e, he, rfl⟩ := Option.map_eq_some_iff.mp h
      exact atom?_plain he
    all_goals assumption

end Build

theorem parse?_plain {code : String} {e : Expr} (h : parse? code = some e) : e.Plain := by
  unfold parse? at h
  split at h
  · unfold Build.program? at h
    split at h
    · obtain ⟨t, _, ht⟩ := Option.bind_eq_some_iff.mp h
      exact Build.build_plain.1 t e ht
    · cases h
  · cases h

/-! ## Evaluating -/

theorem BinaryOp.apply_plain (op : BinaryOp) {a b : Option (Value String)} (ha : ∀ w ∈ a, w.isPlain)
    (hb : ∀ w ∈ b, w.isPlain) : ∀ w ∈ op.apply a b, w.isPlain := by
  cases op with
  | or | and | nullish =>
    unfold apply
    dsimp only
    split
    · assumption
    · assumption
  | add =>
    unfold apply
    dsimp only
    split
    · simp
    · simp
  | _ => simp [apply]

def Denotation.Plain : Denotation → Prop
  | .value v => ∀ w ∈ v, w.isPlain
  | _ => True

variable {view : View}

theorem Denotation.toValue_plain (hv : view.Plain) {d : Denotation} (hd : d.Plain) :
    ∀ w ∈ d.toValue view, w.isPlain := by
  intro w hw
  cases d with
  | context => cases hw
  | tags => exact hv.lookup? hw
  | value v => exact hd w hw

theorem Denotation.access_plain (hv : view.Plain) {d : Denotation} (hd : d.Plain)
    (key : Option (Value String)) : (d.access view key).Plain := by
  unfold access
  split
  · simp [Plain]
  · split
    · trivial
    · exact fun w hw => hv.lookup? hw
  · simp [Plain]
  · simp [Plain]
  · simp [Plain]
  · intro w hw
    obtain ⟨v, hv, hmember⟩ := Option.bind_eq_some_iff.mp hw
    exact isPlain_of_member? (hd v hv) hmember

theorem Expr.denote_plain (hv : view.Plain) {e : Expr} (he : e.Plain) : (e.denote view).Plain := by
  induction e with
  | constant value => exact he
  | name s =>
    unfold denote Denotation.ofName
    split
    · trivial
    · split
      · trivial
      · exact fun w hw => hv.lookup? hw
  | unary op e ih => cases op <;> simp [denote, UnaryOp.apply, Denotation.Plain]
  | binary op a b iha ihb =>
    have ha := Denotation.toValue_plain hv (iha he.1)
    have hb := Denotation.toValue_plain hv (ihb he.2)
    exact op.apply_plain ha hb
  | access e key ihe ihk => exact Denotation.access_plain hv (ihe he.1) _
  | choice c yes no ihc ihy ihn =>
    rw [denote]
    split
    · exact ihy he.2.1
    · exact ihn he.2.2

theorem evaluate_plain (hv : view.Plain) {code : String} {w : Value String}
    (h : evaluate view code = some w) : w.isPlain := by
  obtain ⟨e, he, hw⟩ := Option.bind_eq_some_iff.mp h
  exact Denotation.toValue_plain hv (Expr.denote_plain hv (parse?_plain he)) w hw

end Lambda

namespace Machine

variable {view : View}

mutual

theorem evaluate_plain (hv : view.Plain) : ∀ v w, evaluate view v = some w → w.isPlain
  | .lambda code, w, h => Lambda.evaluate_plain hv (by simpa [evaluate] using h)
  | .list items, w, h => by
    rw [evaluate] at h
    cases h
    exact (isPlain_list _).mpr (evaluateItems_plain hv items)
  | .map entries, w, h => by
    rw [evaluate] at h
    cases h
    exact (isPlain_map _).mpr (evaluateEntries_plain hv entries)
  | .null, w, h => by
    cases h
    rfl
  | .bool b, w, h => by
    cases h
    rfl
  | .text s, w, h => by
    cases h
    rfl
  | .number x, w, h => by
    cases h
    rfl

theorem evaluateItems_plain (hv : view.Plain) : ∀ items, ∀ w ∈ evaluateItems view items, w.isPlain
  | [], w, hw => by cases hw
  | v :: vs, w, hw => by
    rcases List.mem_cons.mp hw with rfl | hw
    · cases he : evaluate view v with
      | none => rfl
      | some u => exact evaluate_plain hv v u he
    · exact evaluateItems_plain hv vs w hw

theorem evaluateEntries_plain (hv : view.Plain) :
    ∀ entries, ∀ k w, (k, w) ∈ evaluateEntries view entries → w.isPlain
  | [], k, w, hw => by cases hw
  | (k', v) :: vs, k, w, hw => by
    rw [evaluateEntries] at hw
    cases he : evaluate view v with
    | none =>
      rw [he] at hw
      exact evaluateEntries_plain hv vs k w hw
    | some u =>
      simp only [he, List.mem_cons, Prod.mk.injEq] at hw
      rcases hw with ⟨_, rfl⟩ | hw
      · exact evaluate_plain hv v w he
      · exact evaluateEntries_plain hv vs k w hw

end

mutual

/-- There is nothing to evaluate in a plain value. -/
theorem evaluate_of_isPlain (view : View) : ∀ v : Value String, v.isPlain → evaluate view v = some v
  | .lambda code, h => by cases h
  | .list items, h => by rw [evaluate, evaluateItems_of_isPlain view items ((isPlain_list _).mp h)]
  | .map entries, h => by
    rw [evaluate, evaluateEntries_of_isPlain view entries ((isPlain_map _).mp h)]
  | .null, _ => rfl
  | .bool _, _ => rfl
  | .text _, _ => rfl
  | .number _, _ => rfl

theorem evaluateItems_of_isPlain (view : View) :
    ∀ items : List (Value String), (∀ v ∈ items, v.isPlain) → evaluateItems view items = items
  | [], _ => rfl
  | v :: vs, h => by
    obtain ⟨hv, hvs⟩ := List.forall_mem_cons.mp h
    rw [evaluateItems, evaluate_of_isPlain view v hv, evaluateItems_of_isPlain view vs hvs,
      Option.getD_some]

theorem evaluateEntries_of_isPlain (view : View) :
    ∀ entries : List (String × Value String), (∀ k v, (k, v) ∈ entries → v.isPlain) →
      evaluateEntries view entries = entries
  | [], _ => rfl
  | (k, v) :: vs, h => by
    have hv : v.isPlain := h k v List.mem_cons_self
    have hvs :=
      evaluateEntries_of_isPlain view vs fun k' v' hmem => h k' v' (List.mem_cons_of_mem _ hmem)
    simp only [evaluateEntries, evaluate_of_isPlain view v hv, hvs]

end

end Machine

end GlyphScript
