import GlyphScript.Proofs.Lambda.Balance
import GlyphScript.Proofs.Script.Embedding

/-! # Which lambdas survive in a script

A script that holds the code of a lambda gives the code back if and only if the code is balanced.
Otherwise the rule of the code stops elsewhere. The script may still be read then, but every lambda
in it has fewer visible characters than the code, the first one included.
-/

namespace GlyphScript.Script

open Peg Text

/-! ## Visible characters -/

/-- The number of characters that are not blank. -/
def visible (cs : List Char) : Nat := cs.countP fun c => !Text.isBlank c

theorem visible_append (cs ds : List Char) : visible (cs ++ ds) = visible cs + visible ds :=
  List.countP_append

theorem visible_le_of_part {cs ds : List Char} (h : cs <:+: ds) : visible cs ≤ visible ds :=
  h.sublist.countP_le

theorem visible_dropWhile (cs : List Char) : visible (cs.dropWhile Text.isBlank) = visible cs := by
  induction cs with
  | nil => rfl
  | cons c cs ih =>
    cases hc : Text.isBlank c with
    | true =>
      rw [List.dropWhile_cons_of_pos hc, ih, visible, visible,
        List.countP_cons_of_neg (by simp [hc])]
    | false => rw [List.dropWhile_cons_of_neg (by simp [hc])]

theorem visible_reverse (cs : List Char) : visible cs.reverse = visible cs := List.countP_reverse

theorem visible_trim (cs : List Char) : visible (Text.trim cs) = visible cs := by
  rw [Text.trim, Text.trimBy, visible_reverse, visible_dropWhile, visible_reverse,
    visible_dropWhile]

theorem visible_eq_of_trim {cs ds : List Char}
    (h : String.ofList (Text.trim cs) = String.ofList (Text.trim ds)) :
    visible cs = visible ds := by
  rw [← visible_trim cs, ← visible_trim ds, String.ofList_injective h]

/-- Of two parentheses at the end of a text only the last one can be the only visible character
left. -/
theorem eq_close_of_visible {cs code r : List Char} (h : cs ++ [')', ')'] = code ++ ')' :: r)
    (hr : visible r = 1) : r = [')'] := by
  have hr' : r <:+ cs ++ [')', ')'] := ⟨code ++ [')'], by simp [h]⟩
  rcases List.suffix_or_suffix_of_suffix hr' (List.suffix_append cs [')', ')']) with hshort | hlong
  · rcases List.suffix_cons_iff.mp hshort with rfl | hshort
    · cases hr
    · rcases List.suffix_cons_iff.mp hshort with rfl | hnil
      · rfl
      · rw [List.suffix_nil.mp hnil] at hr
        cases hr
  · have hle := visible_le_of_part hlong.isInfix
    rw [hr] at hle
    exact absurd hle (by decide)

/-! ## Reading the parameters -/

namespace Build

theorem bare?_eq_lambda {t : ParseTree Rule} {x : String} (h : bare? t = some (.lambda x)) :
    ∃ s cs ts, t = .node .lambda s [.node .lambdaCode cs ts] ∧
      x = String.ofList (Text.trim cs) := by
  unfold bare? at h
  split at h
  · cases h
    exact ⟨_, _, _, rfl, rfl⟩
  all_goals simp at h

theorem value?_eq_some {t : ParseTree Rule} {v : Value String} (h : value? t = some v) :
    ∃ s u, t = .node .value s [u] ∧ bare? u = some v := by
  unfold value? at h
  split at h
  · exact ⟨_, _, rfl, h⟩
  · cases h

theorem pair?_eq_some {t : ParseTree Rule} {key : String} {v : Value String}
    (h : pair? t = some (key, v)) : ∃ s k u, t = .node .pair s [k, u] ∧ value? u = some v := by
  unfold pair? at h
  split at h
  · obtain ⟨key', _, h⟩ := Option.bind_eq_some_iff.mp h
    obtain ⟨v', hv, h⟩ := Option.bind_eq_some_iff.mp h
    cases h
    exact ⟨_, _, _, rfl, hv⟩
  · cases h

theorem mem_arguments? {ts : List (ParseTree Rule)} {named : List (String × Value String)}
    {positional : List (Value String)} (h : arguments? ts = some (named, positional)) {key : String}
    {v : Value String} (hmem : (key, v) ∈ named) :
    ∃ s t, .node .arg s [t] ∈ ts ∧ pair? t = some (key, v) := by
  fun_induction arguments? ts generalizing named positional with
  | case1 =>
    cases h
    cases hmem
  | case2 s t ts ih =>
    obtain ⟨⟨named', positional'⟩, hts, h⟩ := Option.bind_eq_some_iff.mp h
    dsimp only at h
    have hlater : (key, v) ∈ named' → ∃ s' t', .node .arg s' [t'] ∈ .node .arg s [t] :: ts ∧
        pair? t' = some (key, v) := fun hmem' => by
      obtain ⟨s', t', hmem', hpair⟩ := ih hts hmem'
      exact ⟨s', t', List.mem_cons_of_mem _ hmem', hpair⟩
    split at h
    · obtain ⟨pair, hpair, h⟩ := Option.bind_eq_some_iff.mp h
      cases h
      rcases List.mem_cons.mp hmem with rfl | hmem'
      · exact ⟨s, t, List.mem_cons_self, hpair⟩
      · exact hlater hmem'
    · obtain ⟨value, _, h⟩ := Option.bind_eq_some_iff.mp h
      cases h
      exact hlater hmem
  | case3 => cases h

end Build

theorem get?_addPositional {key : String} (hid : key ≠ "id") (hargs : key ≠ "args")
    (params : Params String) (positional : List (Value String)) :
    (addPositional params positional).get? key = params.get? key := by
  cases positional with
  | nil => rfl
  | cons first rest =>
    have hfirst : (if first.text?.isSome && !params.contains "id" then params.insert "id" first
        else params.insert "args" (.list [first])).get? key = params.get? key := by
      split
      · rw [Entries.get?_insert, if_neg hid]
      · rw [Entries.get?_insert, if_neg hargs]
    unfold addPositional
    dsimp only
    split
    · exact hfirst
    · split
      · rw [Entries.get?_insert, if_neg hargs, hfirst]
      · rw [Entries.get?_insert, if_neg hargs, hfirst]

def lambdaArg (s₁ s₂ s₃ s₄ code : List Char) (key : ParseTree Rule) (ts : List (ParseTree Rule)) :
    ParseTree Rule :=
  .node .arg s₁
    [.node .pair s₂ [key, .node .value s₃ [.node .lambda s₄ [.node .lambdaCode code ts]]]]

theorem exists_lambdaArg {s : List Char} {ts : List (ParseTree Rule)} {params : Params String}
    {x : String} (h : Build.params? (.node .args s ts) = some params)
    (hv : params.get? "v" = some (.lambda x)) :
    ∃ s₁ s₂ s₃ s₄ code key us, lambdaArg s₁ s₂ s₃ s₄ code key us ∈ ts ∧
      x = String.ofList (Text.trim code) := by
  obtain ⟨⟨named, positional⟩, harguments, h⟩ := Option.bind_eq_some_iff.mp h
  cases h
  rw [get?_addPositional (by decide) (by decide)] at hv
  have hnamed := Entries.mem_of_mem_ofList (Entries.mem_of_get? hv)
  obtain ⟨s₁, t, hmem, hpair⟩ := Build.mem_arguments? harguments hnamed
  obtain ⟨s₂, key, u, rfl, hvalue⟩ := Build.pair?_eq_some hpair
  obtain ⟨s₃, u, rfl, hbare⟩ := Build.value?_eq_some hvalue
  obtain ⟨s₄, code, us, rfl, rfl⟩ := Build.bare?_eq_lambda hbare
  exact ⟨s₁, s₂, s₃, s₄, code, key, us, hmem, rfl⟩

/-- A lambda has three visible characters around its code. -/
theorem visible_lambda {m : Mode} {s : List Char} {ts : List (ParseTree Rule)}
    (h : grammar.Derives m (Rule.expr .lambda) s ts) {t : ParseTree Rule} (ht : t ∈ ts) :
    visible t.text + 3 ≤ visible s := by
  obtain ⟨s₁, _, s₂, ts₁, ts₂, hfront, _, hclose, rfl, rfl⟩ := h.seq_inv
  obtain ⟨s₃, _, s₄, ts₃, ts₄, hstart, _, hcode, rfl, rfl⟩ := hfront.seq_inv
  obtain ⟨s₅, _, s₆, ts₅, ts₆, hsign, _, hopen, rfl, rfl⟩ := hstart.seq_inv
  obtain ⟨rfl, rfl⟩ := hclose.text_inv
  obtain ⟨rfl, rfl⟩ := hsign.text_inv
  obtain ⟨rfl, rfl⟩ := hopen.text_inv
  simp only [List.append_nil, List.nil_append] at ht
  have hle := visible_le_of_part (hcode.tree ht).1
  simp only [visible_append]
  have hsum : visible "λ".toList = 1 ∧ visible "(".toList = 1 ∧ visible ")".toList = 1 := by decide
  omega

/-- Trees of a derivation of a part of a text. -/
def Within (r : List Char) (ts : List (ParseTree Rule)) : Prop :=
  ∀ t ∈ ts, t.text <:+: r ∧ ∃ m : Mode,
    grammar.Derives (m.inside (grammar.style t.rule)) (grammar.body t.rule) t.text t.children

theorem within_of_yields {m m' : Mode} {e : Expr Rule} {r : List Char} {q : Nat} {d : Cursor}
    {ts : List (ParseTree Rule)} (h : grammar.Yields m e (grammar.gap m' ⟨q, r⟩) (some (d, ts))) :
    Within r ts := by
  obtain ⟨w, hw, _⟩ := Grammar.exists_reads_gap grammar_skipsForward m' ⟨q, r⟩
  obtain ⟨s, hs, hderives⟩ := h.derives grammar_skipsForward
  have hpart : s <:+: r := ⟨w, d.rest, by rw [List.append_assoc, ← hs.rest, ← hw.rest]⟩
  exact fun t ht => ⟨(hderives.tree ht).1.trans hpart, (hderives.tree ht).2⟩

theorem Within.children {r : List Char} {ts : List (ParseTree Rule)} (h : Within r ts)
    {t : ParseTree Rule} (ht : t ∈ ts) : Within r t.children := by
  obtain ⟨hpart, m, hderives⟩ := h t ht
  exact fun u hu => ⟨(hderives.tree hu).1.trans hpart, (hderives.tree hu).2⟩

theorem Within.visible_code {r : List Char} {ts us : List (ParseTree Rule)} (h : Within r ts)
    {s₁ s₂ s₃ s₄ code : List Char} {key : ParseTree Rule}
    (ht : lambdaArg s₁ s₂ s₃ s₄ code key us ∈ ts) : visible code + 3 ≤ visible r := by
  have hlambda : Within r [.node .lambda s₄ [.node .lambdaCode code us]] :=
    ((h.children ht).children (t := .node .pair s₂ _) List.mem_cons_self).children
      (t := .node .value s₃ _) (List.mem_cons_of_mem _ List.mem_cons_self)
  obtain ⟨hpart, m, hderives⟩ := hlambda _ List.mem_cons_self
  exact Nat.le_trans (visible_lambda hderives List.mem_cons_self) (visible_le_of_part hpart)

/-! ## The parameters and the file -/

section Inversion

variable {cs r : List Char} {p q : Nat} {t : ParseTree Rule} {d : Cursor}
  {us : List (ParseTree Rule)}

/-- The parameters after the first one are read from what is behind it. -/
theorem args_inv (harg : grammar.Yields {} (.rule .arg) ⟨p + 1, cs⟩ (some (⟨q, r⟩, [t])))
    (hcs : ∀ x, cs.head? = some x → startsGap x = false ∧ x ≠ ')')
    (hargs : grammar.Yields {} (.rule .args) ⟨p, '(' :: cs⟩ (some (d, us))) :
    ∃ s ts, us = [.node .args s (t :: ts)] ∧ Within r ts := by
  have hstart : grammar.gap {} ⟨p + 1, cs⟩ = ⟨p + 1, cs⟩ := gap_eq fun x hx => (hcs x hx).1
  obtain ⟨s, vs, _, rfl, hbody⟩ := grammar_low.rule_inv hargs
  obtain ⟨d₁, ts₁, ts₂, hfront, hclose, rfl⟩ := grammar_low.seq_inv (by decide) hbody
  obtain ⟨d₂, ts₃, ts₄, hopen, hitems, rfl⟩ := grammar_low.seq_inv (by decide) hfront
  cases hopen.unique (Grammar.yields_text ['('] p cs)
  have hitems' : grammar.Yields {}
      (.opt (.seq (.seq (.rule .arg) (.many (.seq (.text [',']) (.rule .arg))))
        (.opt (.text [','])))) ⟨p + 1, cs⟩ (some (d₁, ts₄)) := by
    rw [← hstart]
    exact hitems
  rcases grammar_low.opt_inv (by decide) hitems' with hsome | ⟨_, hnone⟩
  · obtain ⟨d₃, ts₅, ts₆, hlist, hlast, rfl⟩ := grammar_low.seq_inv (by decide) hsome
    obtain ⟨d₄, ts₇, ts₈, hfirst, hmany, rfl⟩ := grammar_low.seq_inv (by decide) hlist
    cases hfirst.unique harg
    obtain ⟨_, _, hlast⟩ := hlast.derives grammar_skipsForward
    obtain ⟨_, _, hclose⟩ := hclose.derives grammar_skipsForward
    have hcomma : ts₆ = [] := by
      cases hlast with
      | present h => exact h.text_inv.2
      | missing => rfl
    obtain ⟨_, rfl⟩ := hclose.text_inv
    refine ⟨s, ts₈, ?_, within_of_yields hmany⟩
    rw [hcomma]
    simp only [List.append_nil, List.nil_append]
    rfl
  · cases hnone
    have hmiss : grammar.Yields {} (.text [')']) (grammar.gap {} ⟨p + 1, cs⟩) none := by
      rw [hstart]
      exact Grammar.yields_text_none (fun hx => (hcs _ hx).2 rfl) _ _
    cases hclose.unique hmiss

/-- A trigger, or an element with the given parameters. -/
def Heads (args t : ParseTree Rule) : Prop :=
  (∃ s ts, t = .node .trigger s ts) ∨ ∃ s ts, t = .node .element s (glyphTree :: args :: ts)

theorem element_inv {d₀ : Cursor}
    (hargs : grammar.Yields {} (.rule .args) ⟨1, '(' :: cs⟩ (some (d₀, [t])))
    (hy : grammar.Yields {} (.rule .element) ⟨0, '📌' :: '(' :: cs⟩ (some (d, us))) :
    ∃ s ts, us = [.node .element s (glyphTree :: t :: ts)] := by
  obtain ⟨s, ts, _, rfl, hbody⟩ := grammar_low.rule_inv hy
  obtain ⟨d₁, ts₁, ts₂, htagged, _, rfl⟩ := grammar_low.seq_inv (by decide) hbody
  obtain ⟨d₂, ts₃, ts₄, hplain, _, rfl⟩ := grammar_low.seq_inv (by decide) htagged
  obtain ⟨d₃, ts₅, ts₆, hglyph, hopt, rfl⟩ := grammar_low.seq_inv (by decide) hplain
  cases hglyph.unique (yields_glyph 0 cs)
  cases hopt.unique hargs.opt
  refine ⟨s, ts₄ ++ ts₂, ?_⟩
  simp only [List.cons_append, List.nil_append]
  rfl

theorem node_inv {d₀ : Cursor}
    (hargs : grammar.Yields {} (.rule .args) ⟨1, '(' :: cs⟩ (some (d₀, [t])))
    (hy : grammar.Yields {} (.rule .node) ⟨0, '📌' :: '(' :: cs⟩ (some (d, us))) :
    ∃ s u, us = [.node .node s [u]] ∧ Heads t u := by
  obtain ⟨s, ts, _, rfl, hbody⟩ := grammar_low.rule_inv hy
  rcases grammar_low.alt_inv (by decide) hbody with htrigger | ⟨_, helement⟩
  · obtain ⟨s', ts', _, rfl, _⟩ := grammar_low.rule_inv htrigger
    exact ⟨s, _, rfl, .inl ⟨s', ts', rfl⟩⟩
  · obtain ⟨s', ts', rfl⟩ := element_inv hargs helement
    exact ⟨s, _, rfl, .inr ⟨s', ts', rfl⟩⟩

theorem file_inv {d₀ : Cursor}
    (hargs : grammar.Yields {} (.rule .args) ⟨1, '(' :: cs⟩ (some (d₀, [t])))
    (hy : grammar.Yields {} (.rule .file) (.ofText ('📌' :: '(' :: cs)) (some (d, us))) :
    ∃ s s' u ts, us = [.node .file s (.node .node s' [u] :: ts)] ∧ Heads t u := by
  obtain ⟨s, ts, _, rfl, hbody⟩ := grammar_low.rule_inv hy
  obtain ⟨d₁, ts₁, ts₂, hfront, hfinish, rfl⟩ := grammar_low.seq_inv (by decide) hbody
  obtain ⟨d₂, ts₃, ts₄, hstart, hitems, rfl⟩ := grammar_low.seq_inv (by decide) hfront
  cases hstart.unique (Grammar.yields_start _)
  rcases grammar_low.many_inv (by decide) hitems with ⟨hnone, rfl⟩ | ⟨d₃, ts₅, ts₆, hfirst, rfl⟩
  · cases hitems.unique hnone.many_nil
    cases hfinish.unique (.rule_none (Grammar.yields_finish_none 0 '📌' ('(' :: cs)))
  · rcases grammar_low.alt_inv (by decide) hfirst with hnode | ⟨_, hsemicolon⟩
    · obtain ⟨s', u, rfl, hheads⟩ := node_inv hargs hnode
      exact ⟨s, s', u, ts₆ ++ ts₂, rfl, hheads⟩
    · have hmiss : grammar.Yields {} (.text [';']) ⟨0, '📌' :: '(' :: cs⟩ none :=
        Grammar.yields_text_none (by simp) _ _
      cases hsemicolon.unique hmiss

end Inversion

theorem get?_ends (source target : Option String) :
    (Build.textEntry "from" source ++ Build.textEntry "to" target).get? "v" = none := by
  cases source <;> cases target <;> rfl

/-- A trigger has no parameter but its ends, and an element has those that are written. -/
theorem Heads.params? {s s' : List Char} {ts : List (ParseTree Rule)} {t : ParseTree Rule}
    (h : Heads (.node .args s ts) t) {node : Node}
    (hn : Build.node? (.node .node s' [t]) = some node) {v : Value String}
    (hv : node.params.get? "v" = some v) : Build.params? (.node .args s ts) = some node.params := by
  rcases h with ⟨s'', us, rfl⟩ | ⟨s'', us, rfl⟩
  · unfold Build.node? at hn
    obtain ⟨origin, _, hn⟩ := Option.bind_eq_some_iff.mp hn
    obtain ⟨tags, _, hn⟩ := Option.bind_eq_some_iff.mp hn
    obtain ⟨elements, _, hn⟩ := Option.bind_eq_some_iff.mp hn
    split at hn
    · cases hn
      cases hv.symm.trans (get?_ends _ _)
    · cases hn
  · unfold Build.node? Build.element? at hn
    obtain ⟨glyph, _, hn⟩ := Option.bind_eq_some_iff.mp hn
    obtain ⟨params, hparams, hn⟩ := Option.bind_eq_some_iff.mp hn
    obtain ⟨tags, _, hn⟩ := Option.bind_eq_some_iff.mp hn
    obtain ⟨body, _, hn⟩ := Option.bind_eq_some_iff.mp hn
    cases hn
    exact hparams

/-- A lambda that comes back has the code in which no parenthesis closes before the end. All other
codes in the script have fewer visible characters. -/
theorem balanced_of_parse_embed {code : String} {node : Node} (h : parse (embed code) = .ok [node])
    (hv : node.params.get? "v" = some (.lambda (String.ofList (Text.trim code.toList)))) :
    Balanced code.toList := by
  cases hc : closing false 0 (code.toList ++ [')', ')']) with
  | none => exact absurd h (parse_embed_of_open hc _)
  | some r =>
    obtain ⟨q, code', heq, harg⟩ := yields_arg hc (1 + 1)
    rw [parse_eq_ok, toList_embed] at h
    obtain ⟨d, trees, hfile, hforest⟩ := h
    obtain ⟨outcome, hargs⟩ := grammar_low.exists_yields (e := .rule .args) {} rfl
      ⟨1, '(' :: 'v' :: ':' :: ' ' :: 'λ' :: '(' :: (code.toList ++ [')', ')'])⟩
    cases outcome with
    | none => cases hfile.unique (yields_file_none hargs)
    | some x =>
      obtain ⟨s, ts, hx, hwithin⟩ := args_inv harg (by simp [startsGap, isSpace]) hargs
      obtain ⟨d', us⟩ := x
      cases hx
      obtain ⟨_, s', t, us, rfl, hheads⟩ := file_inv hargs hfile
      obtain ⟨node', hnode, hforest⟩ := Option.bind_eq_some_iff.mp hforest
      obtain ⟨nodes, _, hforest⟩ := Option.bind_eq_some_iff.mp hforest
      cases hforest
      obtain ⟨_, _, _, _, code'', _, _, hmem, htrim⟩ :=
        exists_lambdaArg (hheads.params? hnode hv) hv
      have hvisible := visible_eq_of_trim htrim
      have hsum : visible code.toList + 2 = visible code' + (1 + visible r) := by
        have hvisible := congrArg visible heq
        rw [visible_append, List.append_cons, visible_append, visible_append,
          Nat.add_assoc] at hvisible
        exact hvisible
      rcases List.mem_cons.mp hmem with hfirst | hlater
      · cases hfirst
        rw [balanced_iff, hc, eq_close_of_visible heq (by omega)]
      · have hle := hwithin.visible_code hlater
        omega

def Survives (code : String) : Prop :=
  ∃ node, parse (embed code) = .ok [node] ∧
    node.params.get? "v" = some (.lambda (String.ofList (Text.trim code.toList)))

theorem survives_of_balanced {code : String} (h : Balanced code.toList) : Survives code :=
  ⟨lambdaState code.toList, parse_embed h, rfl⟩

/-- The lambdas that survive are those with balanced code, and nothing else is in their scripts. An
expression survives if there are no double quotes in its double quoted strings, and neither these
nor parentheses in its single quoted ones. -/
theorem lambda_survives_iff_balanced (code : String) : (Survives code ↔ Balanced code.toList) ∧
    (Survives code → parse (embed code) = .ok [lambdaState code.toList]) ∧
    ∀ trees, Lambda.grammar.parse .program code.toList = .ok trees → Lambda.arePlain trees →
      Survives code := by
  have hbalanced : Survives code → Balanced code.toList := by
    rintro ⟨node, hparse, hv⟩
    exact balanced_of_parse_embed hparse hv
  refine ⟨⟨hbalanced, survives_of_balanced⟩, fun h => parse_embed (hbalanced h), ?_⟩
  intro trees hparse hplain
  exact survives_of_balanced (Lambda.balanced_of_parse hparse hplain)

theorem lambda_survives_iff_balanced_nested :
    ∃ trees, Lambda.grammar.parse .program " (tags[\"(x)\"] ?? 'none') ".toList = .ok trees ∧
      Lambda.arePlain trees ∧ Survives " (tags[\"(x)\"] ?? 'none') " ∧
      parse (embed " (tags[\"(x)\"] ?? 'none') ") =
        .ok [{ op := .context .state,
               params := [("v", .lambda "(tags[\"(x)\"] ?? 'none')")] }] := by
  obtain ⟨_, hnode, hsurvives⟩ := lambda_survives_iff_balanced " (tags[\"(x)\"] ?? 'none') "
  have hplain : (Lambda.grammar.parse .program " (tags[\"(x)\"] ?? 'none') ".toList).toOption.map
      Lambda.arePlain = some true := by decide +kernel
  have htrim : String.ofList (Text.trim " (tags[\"(x)\"] ?? 'none') ".toList) =
      "(tags[\"(x)\"] ?? 'none')" := by
    decide +kernel
  cases hp : Lambda.grammar.parse .program " (tags[\"(x)\"] ?? 'none') ".toList with
  | error trail =>
    rw [hp] at hplain
    cases hplain
  | ok trees =>
    rw [hp] at hplain
    have hplain := Option.some.inj hplain
    have hs := hsurvives trees hp hplain
    refine ⟨trees, rfl, hplain, hs, ?_⟩
    rw [hnode hs, lambdaState, htrim]

/-- A parenthesis in single quotes is part of an expression, but opens a group in a script. -/
theorem quoted_parenthesis_lost :
    (∃ trees, Lambda.grammar.parse .program "'('".toList = .ok trees) ∧ ¬ Survives "'('" := by
  constructor
  · have hok : (Lambda.grammar.parse .program "'('".toList).toOption.isSome := by decide +kernel
    cases hp : Lambda.grammar.parse .program "'('".toList with
    | error trail =>
      rw [hp] at hok
      cases hok
    | ok trees => exact ⟨trees, rfl⟩
  · rintro ⟨node, hparse, hv⟩
    exact absurd (balanced_of_parse_embed hparse hv) (by decide +kernel)

end GlyphScript.Script
