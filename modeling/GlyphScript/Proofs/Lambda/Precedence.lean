import GlyphScript.Lambda.Eval
import GlyphScript.Proofs.Lambda.Balance
import GlyphScript.Proofs.Lambda.Strata

/-! # The precedence of operators

What the rule of unbracketed expressions matches can be read as tokens: signs, an operand and
accesses, and further operands behind operators. Such a sequence has one tree by the strata, and
this is the expression that is evaluated.
-/

namespace GlyphScript.Lambda

open Peg

namespace Build

theorem tokens?_append {ts us : List (ParseTree Rule)} {s s' : List Token} (h : tokens? ts = some s)
    (h' : tokens? us = some s') : tokens? (ts ++ us) = some (s ++ s') := by
  induction ts generalizing s with
  | nil =>
    rw [tokens?] at h
    cases h
    exact h'
  | cons t ts ih =>
    rw [tokens?] at h
    obtain ⟨token, ht, h⟩ := Option.bind_eq_some_iff.mp h
    obtain ⟨tokens, hts, h⟩ := Option.bind_eq_some_iff.mp h
    cases h
    rw [List.cons_append, tokens?, ht, ih hts]
    rfl

theorem tokens?_singleton {t : ParseTree Rule} {token : Token} (h : token? t = some token) :
    tokens? [t] = some [token] := by
  simp only [tokens?, h]
  rfl

theorem token?_binary {r : Rule} {op : BinaryOp} (h : r.binaryOp? = some op) (cs : List Char)
    (ts : List (ParseTree Rule)) : token? (.node r cs ts) = some (.binary op) := by
  unfold token?
  cases r <;> cases h <;> rfl

theorem token?_unary {r : Rule} {op : UnaryOp} (h : r.unaryOp? = some op) (cs : List Char)
    (ts : List (ParseTree Rule)) : token? (.node r cs ts) = some (.unary op) := by
  unfold token?
  cases r <;> cases h <;> rfl

/-- Literals and names are the rules without blanks. -/
theorem token?_atom {r : Rule} (hr : r.style ≠ .plain) (cs : List Char)
    (ts : List (ParseTree Rule)) :
    token? (.node r cs ts) = (atom? (.node r cs ts)).map .operand := by
  unfold token?
  cases r <;> first | rfl | exact absurd rfl hr

end Build

/-! ## Numbers -/

theorem numerals_inv {m : Mode} (hm : m.spacing ≠ .free) {s : List Char}
    {ts : List (ParseTree Rule)} (h : grammar.Derives m (.some1 (.char Char.isDigit)) s ts) :
    s ≠ [] ∧ ∀ x ∈ s, x.isDigit := by
  obtain ⟨s₁, w, s₂, _, _, hfirst, hw, hmore, rfl, _⟩ := Grammar.Derives.seq_inv h
  cases hfirst with
  | char hx =>
    rw [hw.eq_nil hm]
    refine ⟨by simp, ?_⟩
    rintro y (_ | ⟨_, hy⟩)
    · exact hx
    · exact hmore.many_char hm y hy

theorem isSome_readUnsigned? {whole rest : List Char} (hne : whole ≠ [])
    (hwhole : ∀ x ∈ whole, x.isDigit)
    (hrest : rest = [] ∨ ∃ fraction, rest = '.' :: fraction ∧ ∀ x ∈ fraction, x.isDigit) :
    (Number.readUnsigned? (whole ++ rest)).isSome := by
  unfold Number.readUnsigned?
  rw [List.takeWhile_append_of_pos hwhole, List.dropWhile_append_of_pos hwhole]
  rcases hrest with rfl | ⟨fraction, rfl, hfraction⟩
  · simp [hne, Number.readExponent?]
  · have hdrop : fraction.dropWhile Char.isDigit = [] := by
      have happend : (fraction ++ []).dropWhile Char.isDigit = [] :=
        List.dropWhile_append_of_pos hfraction
      rwa [List.append_nil] at happend
    simp [hdrop, hne, Number.readExponent?]

/-- What starts with a digit has no sign. -/
theorem isSome_read?_of_digit {c : Char} {cs : List Char} (hc : c.isDigit)
    (h : (Number.readUnsigned? (c :: cs)).isSome) : (Number.read? (c :: cs)).isSome := by
  unfold Number.read?
  split
  next negative digits hsign =>
    have hdigits : digits = c :: cs := by
      split at hsign
      · next heq =>
        cases heq
        cases hc
      · next heq =>
        cases heq
        cases hc
      · cases hsign
        rfl
    rw [hdigits]
    dsimp only
    rw [Option.isSome_map]
    split
    · rfl
    · split
      · rfl
      · exact h

/-- The text of a number is one that can be read. -/
theorem isSome_read? {m : Mode} (hm : m.spacing ≠ .free) {s : List Char}
    {ts : List (ParseTree Rule)} (h : grammar.Derives m (Rule.expr .number) s ts) :
    (Number.read? s).isSome := by
  obtain ⟨whole, w, rest, _, _, hwhole, hw, hrest, rfl, _⟩ := Grammar.Derives.seq_inv h
  obtain ⟨hne, hdigits⟩ := numerals_inv hm hwhole
  have hrest' : rest = [] ∨ ∃ fraction, rest = '.' :: fraction ∧ ∀ x ∈ fraction, x.isDigit := by
    rcases hrest.opt_inv with hsome | ⟨hnil, _⟩
    · obtain ⟨s₁, w', s₂, _, _, hpoint, hw', hfraction, rfl, _⟩ := Grammar.Derives.seq_inv hsome
      obtain ⟨rfl, _⟩ := hpoint.text_inv
      rw [hw'.eq_nil hm]
      exact .inr ⟨s₂, rfl, (numerals_inv hm hfraction).2⟩
    · exact .inl hnil
  rw [hw.eq_nil hm, List.nil_append]
  obtain ⟨c, cs, rfl⟩ := List.exists_cons_of_ne_nil hne
  exact isSome_read?_of_digit (hdigits c List.mem_cons_self)
    (isSome_readUnsigned? hne hdigits hrest')

/-! ## Tokens -/

/-- Shorter texts of the rule of whole expressions have an expression. -/
def ReadsBelow (n : Nat) : Prop :=
  ∀ s ts, s.length < n → grammar.Derives {} (.rule .ternary) s ts →
    ∃ us e, ts = [.node .ternary s us] ∧ Build.ternary? (.node .ternary s us) = some e

section Tokens

variable {n : Nat} {s : List Char} {ts : List (ParseTree Rule)}

theorem silent_inv {r : Rule} (hr : r.style = .silent) (h : grammar.Derives {} (.rule r) s ts) :
    grammar.Derives {} r.expr s ts := by
  obtain ⟨us, hbody, rfl⟩ := h.rule_inv
  have hstyle : grammar.style r = .silent := hr
  rw [Grammar.nodes, if_pos hstyle]
  rw [hstyle] at hbody
  exact hbody

theorem visible_inv {r : Rule} (hr : r.style ≠ .silent) (h : grammar.Derives {} (.rule r) s ts) :
    ∃ us, grammar.Derives (Mode.inside {} r.style) r.expr s us ∧ ts = [.node r s us] := by
  obtain ⟨us, hbody, rfl⟩ := h.rule_inv
  have hstyle : grammar.style r ≠ .silent := hr
  rw [Grammar.nodes, if_neg hstyle, if_pos (keepsNodes_around rfl _)]
  exact ⟨us, hbody, rfl⟩

theorem plain_inv {r : Rule} (hr : r.style = .plain) (h : grammar.Derives {} (.rule r) s ts) :
    ∃ us, grammar.Derives {} r.expr s us ∧ ts = [.node r s us] := by
  obtain ⟨us, hbody, hts⟩ := visible_inv (by rw [hr]; decide) h
  rw [hr] at hbody
  exact ⟨us, hbody, hts⟩

theorem tokens_of_sign (h : grammar.Derives {} (.rule .prefixOp) s ts) :
    ∃ op, Build.tokens? ts = some [.unary op] := by
  rcases (silent_inv rfl h).alt_inv with hnot | hneg
  · obtain ⟨us, _, rfl⟩ := plain_inv rfl hnot
    exact ⟨.not, Build.tokens?_singleton (Build.token?_unary rfl s us)⟩
  · obtain ⟨us, _, rfl⟩ := plain_inv rfl hneg
    exact ⟨.neg, Build.tokens?_singleton (Build.token?_unary rfl s us)⟩

theorem tokens_of_operator (h : grammar.Derives {} (.rule .infixOp) s ts) :
    ∃ op, Build.tokens? ts = some [.binary op] := by
  have hoptions : ∀ a ∈ (Rule.expr .infixOp).options,
      ∃ r op, a = .rule r ∧ r.style = .plain ∧ r.binaryOp? = some op := by
    iterate 16 refine List.forall_mem_cons.mpr ⟨⟨_, _, rfl, rfl, rfl⟩, ?_⟩
    exact List.forall_mem_nil _
  obtain ⟨a, ha, hoption⟩ := (silent_inv rfl h).exists_option
  obtain ⟨r, op, rfl, hstyle, hop⟩ := hoptions a ha
  obtain ⟨us, _, rfl⟩ := plain_inv hstyle hoption
  exact ⟨op, Build.tokens?_singleton (Build.token?_binary hop s us)⟩

theorem tokens_of_access (hn : ReadsBelow n) (hs : s.length ≤ n)
    (h : grammar.Derives {} (.rule .postfixOp) s ts) :
    ∃ key, Build.tokens? ts = some [.access key] := by
  rcases (silent_inv rfl h).alt_inv with hmember | hindex
  · obtain ⟨us, hbody, rfl⟩ := plain_inv rfl hmember
    obtain ⟨s₁, w, s₂, ts₁, ts₂, hpoint, _, hname, rfl, rfl⟩ := Grammar.Derives.seq_inv hbody
    obtain ⟨_, rfl⟩ := hpoint.text_inv
    obtain ⟨us, _, rfl⟩ := visible_inv (by decide) hname
    refine ⟨.constant (some (.text (String.ofList s₂))), Build.tokens?_singleton ?_⟩
    rw [List.nil_append, Build.token?]
  · obtain ⟨us, hbody, rfl⟩ := plain_inv rfl hindex
    obtain ⟨s₁, w, s₂, ts₁, ts₂, hfront, _, hclose, rfl, rfl⟩ := Grammar.Derives.seq_inv hbody
    obtain ⟨s₃, w', s₄, ts₃, ts₄, hopen, _, hkey, rfl, rfl⟩ := Grammar.Derives.seq_inv hfront
    obtain ⟨rfl, rfl⟩ := hopen.text_inv
    obtain ⟨rfl, rfl⟩ := hclose.text_inv
    obtain ⟨us, e, rfl, he⟩ := hn s₄ ts₄ (by simp at hs; omega) hkey
    refine ⟨e, Build.tokens?_singleton ?_⟩
    rw [List.append_nil, List.nil_append, Build.token?, he]
    rfl

theorem atom_of_string {us : List (ParseTree Rule)}
    (h : grammar.Derives (Mode.inside {} .compound) (Rule.expr .string) s us) :
    ∃ e, Build.atom? (.node .string s us) = some e := by
  rcases h.alt_inv with hdouble | hsingle
  · obtain ⟨s', vs, _, rfl⟩ := quotation_inv rfl hdouble
    exact ⟨_, rfl⟩
  · obtain ⟨s', vs, _, rfl⟩ := quotation_inv rfl hsingle
    exact ⟨_, rfl⟩

theorem tokens_of_primary (hn : ReadsBelow n) (hs : s.length ≤ n)
    (h : grammar.Derives {} (.rule .primary) s ts) : ∃ e, Build.tokens? ts = some [.operand e] := by
  have hatom : ∀ {r : Rule}, r.style ≠ .plain → r.style ≠ .silent →
      grammar.Derives {} (.rule r) s ts →
      (∀ us, grammar.Derives (Mode.inside {} r.style) r.expr s us →
        ∃ e, Build.atom? (.node r s us) = some e) → ∃ e, Build.tokens? ts = some [.operand e] := by
    intro r hplain hsilent h hread
    obtain ⟨us, hbody, rfl⟩ := visible_inv hsilent h
    obtain ⟨e, he⟩ := hread us hbody
    exact ⟨e, Build.tokens?_singleton (by rw [Build.token?_atom hplain, he]; rfl)⟩
  rcases (silent_inv rfl h).alt_inv with hnumber | h
  · refine hatom (by decide) (by decide) hnumber fun us hbody => ?_
    obtain ⟨x, hx⟩ := Option.isSome_iff_exists.mp (isSome_read? (by decide) hbody)
    exact ⟨_, congrArg (Option.map _) hx⟩
  rcases h.alt_inv with hstring | h
  · exact hatom (by decide) (by decide) hstring fun us hbody => atom_of_string hbody
  rcases h.alt_inv with hboolean | h
  · exact hatom (by decide) (by decide) hboolean fun us _ => ⟨_, rfl⟩
  rcases h.alt_inv with hnull | h
  · exact hatom (by decide) (by decide) hnull fun us _ => ⟨_, rfl⟩
  rcases h.alt_inv with hundefined | h
  · exact hatom (by decide) (by decide) hundefined fun us _ => ⟨_, rfl⟩
  rcases h.alt_inv with hident | h
  · exact hatom (by decide) (by decide) hident fun us _ => ⟨_, rfl⟩
  obtain ⟨s₁, w, s₂, ts₁, ts₂, hfront, _, hclose, rfl, rfl⟩ := Grammar.Derives.seq_inv h
  obtain ⟨s₃, w', s₄, ts₃, ts₄, hopen, _, hinner, rfl, rfl⟩ := Grammar.Derives.seq_inv hfront
  obtain ⟨rfl, rfl⟩ := hopen.text_inv
  obtain ⟨rfl, rfl⟩ := hclose.text_inv
  obtain ⟨us, e, rfl, he⟩ := hn s₄ ts₄ (by simp at hs; omega) hinner
  refine ⟨e, Build.tokens?_singleton ?_⟩
  rw [Build.token?, he]
  rfl

end Tokens

/-! ## Sequences -/

section Sequences

open Stratum

variable {n : Nat} {s : List Char} {ts : List (ParseTree Rule)}

theorem tokens_of_signs (h : grammar.Derives {} (.many (.rule .prefixOp)) s ts) : ∃ tokens,
    Build.tokens? ts = some tokens ∧
      ∀ s e, Gives .sign s e → ∃ e', Gives .sign (tokens ++ s) e' := by
  refine Grammar.Derives.many_induction
    (P := fun _ ts => ∃ tokens, Build.tokens? ts = some tokens ∧
      ∀ s e, Gives .sign s e → ∃ e', Gives .sign (tokens ++ s) e')
    ⟨[], by rw [Build.tokens?], fun s e h => ⟨e, h⟩⟩ ?_ h
  rintro s w s' ts ts' hsign _ ⟨tokens, htokens, hgives⟩
  obtain ⟨op, hop⟩ := tokens_of_sign hsign
  refine ⟨_, Build.tokens?_append hop htokens, fun s e h => ?_⟩
  obtain ⟨e', he'⟩ := hgives s e h
  exact ⟨_, .unary op he'⟩

theorem tokens_of_accesses (hn : ReadsBelow n) (hs : s.length ≤ n)
    (h : grammar.Derives {} (.many (.rule .postfixOp)) s ts) : ∃ tokens,
    Build.tokens? ts = some tokens ∧
      ∀ s e, Gives .path s e → ∃ e', Gives .path (s ++ tokens) e' := by
  refine Grammar.Derives.many_induction
    (P := fun s ts => s.length ≤ n → ∃ tokens, Build.tokens? ts = some tokens ∧
      ∀ s e, Gives .path s e → ∃ e', Gives .path (s ++ tokens) e')
    (fun _ => ⟨[], by rw [Build.tokens?], fun s e h => ⟨e, by rwa [List.append_nil]⟩⟩) ?_ h hs
  intro s w s' ts ts' haccess _ ih hs
  simp only [List.length_append] at hs
  obtain ⟨key, hkey⟩ := tokens_of_access hn (by omega) haccess
  obtain ⟨tokens, htokens, hgives⟩ := ih (by omega)
  refine ⟨_, Build.tokens?_append hkey htokens, fun s e h => ?_⟩
  rw [← List.append_assoc]
  exact hgives _ _ (h.access key)

theorem tokens_of_operand (hn : ReadsBelow n) (hs : s.length ≤ n)
    (h : grammar.Derives {} (.rule .operand) s ts) :
    ∃ tokens e, Build.tokens? ts = some tokens ∧ Gives .sign tokens e := by
  obtain ⟨s₁, w, s₂, ts₁, ts₂, hfront, _, haccesses, rfl, rfl⟩ :=
    Grammar.Derives.seq_inv (silent_inv rfl h)
  obtain ⟨s₃, w', s₄, ts₃, ts₄, hsigns, _, hprimary, rfl, rfl⟩ := Grammar.Derives.seq_inv hfront
  simp only [List.length_append] at hs
  obtain ⟨signs, hsigns, hsign⟩ := tokens_of_signs hsigns
  obtain ⟨e, he⟩ := tokens_of_primary hn (by omega) hprimary
  obtain ⟨keys, hkeys, hpath⟩ := tokens_of_accesses hn (by omega) haccesses
  obtain ⟨e₁, he₁⟩ := hpath _ _ (.operand e)
  obtain ⟨e₂, he₂⟩ := hsign _ _ (.tighter he₁)
  refine ⟨_, e₂, Build.tokens?_append (Build.tokens?_append hsigns he) hkeys, ?_⟩
  rw [List.append_assoc]
  exact he₂

theorem tokens_of_operands (hn : ReadsBelow n) (hs : s.length ≤ n)
    (h : grammar.Derives {} (.many (.seq (.rule .infixOp) (.rule .operand))) s ts) : ∃ tokens,
    Build.tokens? ts = some tokens ∧
      ∀ s e, Gives .disjunction s e → ∃ e', Gives .disjunction (s ++ tokens) e' := by
  refine Grammar.Derives.many_induction
    (P := fun s ts => s.length ≤ n → ∃ tokens, Build.tokens? ts = some tokens ∧
      ∀ s e, Gives .disjunction s e → ∃ e', Gives .disjunction (s ++ tokens) e')
    (fun _ => ⟨[], by rw [Build.tokens?], fun s e h => ⟨e, by rwa [List.append_nil]⟩⟩) ?_ h hs
  intro s w s' ts ts' hstep _ ih hs
  obtain ⟨s₁, w', s₂, ts₁, ts₂, hoperator, _, hoperand, rfl, rfl⟩ := hstep.seq_inv
  simp only [List.length_append] at hs
  obtain ⟨op, hop⟩ := tokens_of_operator hoperator
  obtain ⟨right, b, hright, hb⟩ := tokens_of_operand hn (by omega) hoperand
  obtain ⟨tokens, htokens, hgives⟩ := ih (by omega)
  refine ⟨_, Build.tokens?_append (Build.tokens?_append hop hright) htokens, fun s e h => ?_⟩
  have hpower : Stratum.power .disjunction ≤ op.power := by cases op <;> decide
  obtain ⟨e', he'⟩ := h.exists_append hpower hb
  rw [← List.append_assoc]
  exact hgives _ _ he'

/-- The sequence of an unbracketed expression has a tree, which is its expression. -/
theorem binary_of_derives (hn : ReadsBelow n) (hs : s.length ≤ n)
    (h : grammar.Derives {} (.rule .binary) s ts) :
    ∃ us tokens e, ts = [.node .binary s us] ∧ Build.tokens? us = some tokens ∧
      Gives .disjunction tokens e ∧ Build.binary? (.node .binary s us) = some e := by
  obtain ⟨us, hbody, rfl⟩ := plain_inv rfl h
  obtain ⟨s₁, w, s₂, ts₁, ts₂, hfirst, _, hmore, rfl, rfl⟩ := Grammar.Derives.seq_inv hbody
  simp only [List.length_append] at hs
  obtain ⟨first, a, hfirst, ha⟩ := tokens_of_operand hn (by omega) hfirst
  obtain ⟨more, hmore, hgives⟩ := tokens_of_operands hn (by omega) hmore
  obtain ⟨e, he⟩ := hgives _ _ (ha.of_sign (by decide))
  have htokens := Build.tokens?_append hfirst hmore
  refine ⟨_, _, e, rfl, htokens, he, ?_⟩
  rw [Build.binary?, htokens]
  exact he.toExpr?

theorem ternary_of_derives (hn : ReadsBelow n) (hs : s.length ≤ n)
    (h : grammar.Derives {} (.rule .ternary) s ts) :
    ∃ us e, ts = [.node .ternary s us] ∧ Build.ternary? (.node .ternary s us) = some e := by
  obtain ⟨us, hbody, rfl⟩ := plain_inv rfl h
  obtain ⟨s₁, w, s₂, ts₁, ts₂, hcondition, _, hchoice, rfl, rfl⟩ := Grammar.Derives.seq_inv hbody
  simp only [List.length_append] at hs
  obtain ⟨vs, _, condition, rfl, _, _, hcondition⟩ := binary_of_derives hn (by omega) hcondition
  rcases hchoice.opt_inv with hchoice | ⟨rfl, rfl⟩
  · obtain ⟨s₃, w₁, s₄, ts₃, ts₄, hfront, _, hno, rfl, rfl⟩ := Grammar.Derives.seq_inv hchoice
    obtain ⟨s₅, w₂, s₆, ts₅, ts₆, hstart, _, hcolon, rfl, rfl⟩ := Grammar.Derives.seq_inv hfront
    obtain ⟨s₇, w₃, s₈, ts₇, ts₈, hmark, _, hyes, rfl, rfl⟩ := Grammar.Derives.seq_inv hstart
    obtain ⟨rfl, rfl⟩ := hmark.text_inv
    obtain ⟨rfl, rfl⟩ := hcolon.text_inv
    simp only [List.length_append] at hs
    have hlength : "?".toList.length = 1 := by decide
    obtain ⟨us₁, yes, rfl, hread⟩ := hn s₈ ts₈ (by omega) hyes
    obtain ⟨us₂, no, rfl, hread'⟩ := hn s₄ ts₄ (by omega) hno
    refine ⟨_, .choice condition yes no, rfl, ?_⟩
    simp only [List.append_nil, List.nil_append, List.cons_append]
    rw [Build.ternary?, hcondition, hread, hread']
    rfl
  · refine ⟨_, condition, rfl, ?_⟩
    simp only [List.append_nil]
    rw [Build.ternary?, hcondition]

theorem readsBelow (n : Nat) : ReadsBelow n := by
  -- Expressions in brackets, in indices and in choices are shorter than what holds them.
  induction n with
  | zero => exact fun s ts hs _ => absurd hs (Nat.not_lt_zero _)
  | succ n ih => exact fun s ts hs h => ternary_of_derives ih (Nat.le_of_lt_succ hs) h

end Sequences

/-- What the rule of unbracketed expressions matches is a sequence of tokens that has one tree by
the strata, and its value in any view is the value of this tree. -/
theorem binary_follows_strata {fuel : Nat} {c d : Cursor} {trail : Trail Rule}
    {trees : List (ParseTree Rule)}
    (h : (grammar.run fuel {} (.rule .binary) c trail).hit = some (d, trees)) :
    ∃ t tokens tree, trees = [t] ∧ Build.tokens? t.children = some tokens ∧
      (∀ e, Stratum.Gives .disjunction tokens e ↔ e = tree) ∧
      ∀ view, (Build.binary? t).map (Expr.denote view) = some (tree.denote view) := by
  rw [(Grammar.hit_run fuel).1] at h
  obtain ⟨s, _, hderives⟩ := (Grammar.derives_of_hit? grammar_skipsForward fuel).1 _ _ _ _ _ h
  obtain ⟨us, tokens, e, rfl, htokens, hgives, hbinary⟩ :=
    binary_of_derives (readsBelow s.length) (Nat.le_refl _) hderives
  refine ⟨_, tokens, e, rfl, htokens, fun e' => ⟨fun h' => h'.unique hgives, fun he => he ▸ hgives⟩,
    fun view => ?_⟩
  rw [hbinary]
  rfl

theorem binary_follows_strata_mixed :
    ∃ d t, (grammar.run 300 {} (.rule .binary) (.ofText "!a.b - c * d - e".toList) {}).hit =
      some (d, [t]) ∧ ∀ view, (Build.binary? t).map (Expr.denote view) =
        some ((Expr.binary .sub
          (.binary .sub (.unary .not (.access (.name "a") (.constant (some (.text "b")))))
            (.binary .mul (.name "c") (.name "d")))
          (.name "e")).denote view) := by
  let us : List (ParseTree Rule) :=
    [.node .not ['!'] [], .node .ident ['a'] [], .node .member ['.', 'b'] [.node .ident ['b'] []],
      .node .sub ['-'] [], .node .ident ['c'] [], .node .mul ['*'] [], .node .ident ['d'] [],
      .node .sub ['-'] [], .node .ident ['e'] []]
  have hrun : (grammar.run 300 {} (.rule .binary) (.ofText "!a.b - c * d - e".toList) {}).hit =
      some (⟨16, []⟩, [.node .binary "!a.b - c * d - e".toList us]) := rfl
  have hus : Build.tokens? us = some
      [.unary .not, .operand (.name "a"), .access (.constant (some (.text "b"))), .binary .sub,
        .operand (.name "c"),
        .binary .mul, .operand (.name "d"), .binary .sub, .operand (.name "e")] := by
    simp [us, Build.tokens?, Build.token?, Build.atom?, Rule.binaryOp?, Rule.unaryOp?]
  obtain ⟨t, tokens, tree, ht, htokens, htree, hvalue⟩ := binary_follows_strata hrun
  cases ht
  cases hus.symm.trans htokens
  have hname : ∀ x, Stratum.Gives .product [.operand (.name x)] (.name x) := fun x =>
    .tighter (.tighter (.operand (.name x)))
  have hnot : Stratum.Gives .sign
      [.unary .not, .operand (.name "a"), .access (.constant (some (.text "b")))]
      (.unary .not (.access (.name "a") (.constant (some (.text "b"))))) :=
    .unary .not (.tighter (.access (.operand (.name "a")) _))
  have hproduct : Stratum.Gives .product [.operand (.name "c"), .binary .mul, .operand (.name "d")]
      (.binary .mul (.name "c") (.name "d")) :=
    .binary (by decide) (hname "c") (.tighter (.operand (.name "d")))
  have hfirst : Stratum.Gives .sum
      [.unary .not, .operand (.name "a"), .access (.constant (some (.text "b"))), .binary .sub,
        .operand (.name "c"), .binary .mul, .operand (.name "d")]
      (.binary .sub (.unary .not (.access (.name "a") (.constant (some (.text "b")))))
        (.binary .mul (.name "c") (.name "d"))) :=
    .binary (by decide) (hnot.of_sign (by decide)) hproduct
  have hsum := htree _ |>.mp
    (.tighter (.tighter (.tighter (.tighter (.binary (by decide) hfirst (hname "e"))))))
  exact ⟨_, _, hrun, fun view => hsum ▸ hvalue view⟩

end GlyphScript.Lambda
