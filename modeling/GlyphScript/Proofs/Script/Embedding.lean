import GlyphScript.Proofs.Script.Lambdas

/-! # A lambda in a script

The script of a state with a lambda as its parameter, read from the inside outwards. The parameter
ends behind the parenthesis that closes the code. If this is the last but one character of the
script, the script is read as the state, and if nothing closes the code, the state has no parameters
and the script is not read.
-/

namespace GlyphScript.Script

open Peg Text

/-- A script with a lambda as the parameter of a state. -/
def embed (code : String) : String := "📌(v: λ(" ++ code ++ "))"

theorem toList_embed (code : String) :
    (embed code).toList = '📌' :: '(' :: 'v' :: ':' :: ' ' :: 'λ' :: '(' ::
      (code.toList ++ [')', ')']) := by
  rw [embed, String.toList_append, String.toList_append]
  rfl

def glyphTree : ParseTree Rule := .node .glyph ['📌'] []

def argTree (code : List Char) : ParseTree Rule :=
  .node .arg ('v' :: ':' :: ' ' :: 'λ' :: '(' :: (code ++ [')']))
    [.node .pair ('v' :: ':' :: ' ' :: 'λ' :: '(' :: (code ++ [')']))
      [.node .key ['v'] [.node .ident ['v'] []],
        .node .value ('λ' :: '(' :: (code ++ [')'])) [lambdaTree code]]]

theorem yields_glyph (p : Nat) (cs : List Char) :
    grammar.Yields {} (.rule .glyph) ⟨p, '📌' :: '(' :: cs⟩
      (some (⟨p + 1, '(' :: cs⟩, [glyphTree])) := by
  have hbody : grammar.Yields unspaced (Rule.expr .glyph) ⟨p, '📌' :: '(' :: cs⟩
      (some (⟨p + 1, '(' :: cs⟩, [])) :=
    .seq (Grammar.yields_char (by decide) p _) (.many_nil (misses (by decide) (by decide) cs)) rfl
  exact .rule grammar_skipsForward (s := ['📌']) hbody rfl

theorem yields_ident (p : Nat) (cs : List Char) :
    grammar.Yields unspaced (Rule.expr .ident) ⟨p, 'v' :: ':' :: cs⟩
      (some (⟨p + 1, ':' :: cs⟩, [])) :=
  .seq (Grammar.yields_char (by decide) p _) (.many_nil (misses (by decide) (by decide) cs)) rfl

theorem yields_key (p : Nat) (cs : List Char) :
    grammar.Yields {} (.rule .key) ⟨p, 'v' :: ':' :: cs⟩
      (some (⟨p + 1, ':' :: cs⟩, [.node .key ['v'] [.node .ident ['v'] []]])) := by
  have hident : grammar.Yields {} (.rule .ident) ⟨p, 'v' :: ':' :: cs⟩
      (some (⟨p + 1, ':' :: cs⟩, [.node .ident ['v'] []])) :=
    .rule grammar_skipsForward (s := ['v']) (yields_ident p cs) rfl
  exact .rule grammar_skipsForward (s := ['v']) (.right (misses (by decide) (by decide) _) hident)
    rfl

/-- The blank behind the colon is skipped. -/
theorem yields_binding {c : Cursor} {q : Nat} {key : ParseTree Rule} {cs : List Char} {h : Hit Rule}
    (hkey : grammar.Yields {} (.rule .key) c (some (⟨q, ':' :: ' ' :: cs⟩, [key])))
    (hcs : ∀ x, cs.head? = some x → startsGap x = false)
    (hvalue : grammar.Yields {} (.rule .value) ⟨q + 1 + 1, cs⟩ h) :
    grammar.Yields {} (Rule.expr .pair) c (h.prepend [key]) := by
  rw [← gap_blank hcs (q + 1)] at hvalue
  exact .seq_prepend (.seq hkey (Grammar.yields_text [':'] q _) rfl) hvalue

theorem yields_pair {cs : List Char} {h : Hit Rule} (p : Nat)
    (hvalue : grammar.Yields {} (.rule .value) ⟨p + 1 + 1 + 1, 'λ' :: cs⟩ h) :
    grammar.Yields {} (Rule.expr .pair) ⟨p, 'v' :: ':' :: ' ' :: 'λ' :: cs⟩
      (h.prepend [.node .key ['v'] [.node .ident ['v'] []]]) :=
  yields_binding (yields_key p _) (by simp [startsGap, isSpace]) hvalue

theorem yields_arg {cs r : List Char} (h : closing false 0 cs = some r) (p : Nat) : ∃ q code,
    cs = code ++ ')' :: r ∧
      grammar.Yields {} (.rule .arg) ⟨p, 'v' :: ':' :: ' ' :: 'λ' :: '(' :: cs⟩
        (some (⟨q, r⟩, [argTree code])) := by
  obtain ⟨q, code, rfl, hlambda⟩ := yields_lambda h (p + 1 + 1 + 1)
  have hvalue : grammar.Yields {} (.rule .value) ⟨p + 1 + 1 + 1, 'λ' :: '(' :: (code ++ ')' :: r)⟩
      (some (⟨q, r⟩, [.node .value ('λ' :: '(' :: (code ++ [')'])) [lambdaTree code]])) :=
    .rule grammar_skipsForward hlambda.left (by simp)
  exact ⟨q, code, rfl, .rule grammar_skipsForward
    (.left (.rule grammar_skipsForward (yields_pair p hvalue) (by simp))) (by simp)⟩

/-- Without the lambda the key is read as a value. -/
theorem yields_arg_word {cs : List Char} (h : closing false 0 cs = none) (p : Nat) : ∃ t,
    grammar.Yields {} (.rule .arg) ⟨p, 'v' :: ':' :: ' ' :: 'λ' :: '(' :: cs⟩
      (some (⟨p + 1, ':' :: ' ' :: 'λ' :: '(' :: cs⟩, [t])) := by
  have hvalue : grammar.Yields {} (.rule .value) ⟨p + 1 + 1 + 1, 'λ' :: '(' :: cs⟩ none :=
    .rule_none (.right (yields_lambda_none h _) (misses (by decide) (by decide) _))
  have hpair : grammar.Yields {} (.rule .pair) ⟨p, 'v' :: ':' :: ' ' :: 'λ' :: '(' :: cs⟩ none :=
    .rule_none (yields_pair p hvalue)
  have hident : grammar.Yields unspaced (.rule .ident) ⟨p, 'v' :: ':' :: ' ' :: 'λ' :: '(' :: cs⟩
      (some (⟨p + 1, ':' :: ' ' :: 'λ' :: '(' :: cs⟩, [])) :=
    .rule grammar_skipsForward (s := ['v']) (yields_ident p _) rfl
  have hword : grammar.Yields {} (.rule .word) ⟨p, 'v' :: ':' :: ' ' :: 'λ' :: '(' :: cs⟩
      (some (⟨p + 1, ':' :: ' ' :: 'λ' :: '(' :: cs⟩, [.node .word ['v'] []])) :=
    .rule grammar_skipsForward (s := ['v']) hident rfl
  have hvalue : grammar.Yields {} (Rule.expr .value) ⟨p, 'v' :: ':' :: ' ' :: 'λ' :: '(' :: cs⟩
      (some (⟨p + 1, ':' :: ' ' :: 'λ' :: '(' :: cs⟩, [.node .word ['v'] []])) := by
    -- the seven other values do not start with this character
    iterate 7 refine .right (misses (by decide) (by decide) _) ?_
    exact hword
  exact ⟨_, .rule grammar_skipsForward (s := ['v'])
    (.right hpair (.rule grammar_skipsForward (s := ['v']) hvalue rfl)) rfl⟩

/-- A list of parameters with only one, if neither a comma nor a blank follows it. -/
theorem yields_args {cs rest : List Char} {p q : Nat} {t : ParseTree Rule} {h : Hit Rule}
    (harg : grammar.Yields {} (.rule .arg) ⟨p + 1, cs⟩ (some (⟨q, rest⟩, [t])))
    (hcs : ∀ x, cs.head? = some x → startsGap x = false)
    (hrest : ∀ x, rest.head? = some x → startsGap x = false ∧ x ≠ ',')
    (hclose : grammar.Yields {} (.text [')']) ⟨q, rest⟩ h) :
    grammar.Yields {} (Rule.expr .args) ⟨p, '(' :: cs⟩ (h.prepend [t]) := by
  have hstart : grammar.gap {} ⟨p + 1, cs⟩ = ⟨p + 1, cs⟩ := gap_eq hcs
  have hgap : grammar.gap {} ⟨q, rest⟩ = ⟨q, rest⟩ := gap_eq fun x hx => (hrest x hx).1
  have hcomma : grammar.Yields {} (.text [',']) ⟨q, rest⟩ none :=
    Grammar.yields_text_none (fun hx => (hrest _ hx).2 rfl) _ q
  have hmany : grammar.Yields {} (.many (.seq (.text [',']) (.rule .arg)))
      (grammar.gap {} ⟨q, rest⟩) (some (⟨q, rest⟩, [])) := by
    rw [hgap]
    exact .many_nil (.seq_none hcomma)
  have hlast : grammar.Yields {} (.opt (.text [','])) (grammar.gap {} ⟨q, rest⟩)
      (some (⟨q, rest⟩, [])) := by
    rw [hgap]
    exact hcomma.opt
  have hitems : grammar.Yields {}
      (.opt (.seq (.seq (.rule .arg) (.many (.seq (.text [',']) (.rule .arg))))
        (.opt (.text [','])))) (grammar.gap {} ⟨p + 1, cs⟩) (some (⟨q, rest⟩, [t])) := by
    rw [hstart]
    exact ((harg.seq hmany rfl).seq hlast rfl).opt
  rw [← hgap] at hclose
  exact .seq_prepend (.seq (Grammar.yields_text ['('] p cs) hitems rfl) hclose

/-- The items of a file that begins with an element, up to where its parameters end or did not
begin. -/
theorem yields_items {cs : List Char} {d : Cursor} {ts : List (ParseTree Rule)} {h : Hit Rule}
    (hargs : grammar.Yields {} (.rule .args) ⟨1, '(' :: cs⟩ h)
    (hd : h.or (some (⟨1, '(' :: cs⟩, [])) = some (d, ts))
    (hstop : ∀ x, d.rest.head? = some x → x = '(') : ∃ s,
    grammar.Yields {} (.many (.alt (.rule .node) (.text [';']))) ⟨0, '📌' :: '(' :: cs⟩
      (some (d, [.node .node s [.node .element s (glyphTree :: ts)]])) := by
  have hgap : grammar.gap {} d = d := gap_eq fun x hx => by rw [hstop x hx]; rfl
  have hmiss : ∀ {e : Expr Rule}, e.mayBeEmpty (grammar.mayBeEmpty 8) = false →
      e.mayStart startsGap (grammar.mayBeEmpty 8) (grammar.mayStart startsGap 8) '(' = false →
        grammar.Yields {} e (grammar.gap {} d) none := fun he hx => by
    rw [hgap]
    exact misses_of he fun x hx' => by rw [hstop x hx', hx]
  have hmissing : ∀ {e : Expr Rule}, grammar.Yields {} e (grammar.gap {} d) none →
      grammar.Yields {} (.opt e) (grammar.gap {} d) (some (d, [])) := fun h => by
    have hopt := h.opt
    rw [Option.none_or] at hopt
    rwa [hgap] at hopt ⊢
  have hopt : grammar.Yields {} (.opt (.rule .args)) ⟨1, '(' :: cs⟩ (some (d, ts)) := hd ▸ hargs.opt
  obtain ⟨s, hs, _⟩ :=
    (Grammar.Yields.seq (yields_glyph 0 cs) hopt rfl).derives grammar_skipsForward
  have horigin : grammar.Yields {} (.rule .origin) ⟨0, '📌' :: '(' :: cs⟩
      (some (d, [.node .origin s (glyphTree :: ts)])) :=
    .rule grammar_skipsForward (.seq (yields_glyph 0 cs) hopt rfl) hs.rest
  have htrigger : grammar.Yields {} (.rule .trigger) ⟨0, '📌' :: '(' :: cs⟩ none :=
    .rule_none (.seq_none (.seq_none (.seq_right_none horigin.opt (hmiss rfl rfl))))
  have helement : grammar.Yields {} (.rule .element) ⟨0, '📌' :: '(' :: cs⟩
      (some (d, [.node .element s (glyphTree :: ts)])) := by
    refine .rule grammar_skipsForward
      (.seq (.seq (.seq (yields_glyph 0 cs) hopt rfl) (hmissing (hmiss rfl rfl)) rfl)
      (hmissing (hmiss rfl rfl)) ?_) hs.rest
    simp
  have hnode : grammar.Yields {} (.rule .node) ⟨0, '📌' :: '(' :: cs⟩
      (some (d, [.node .node s [.node .element s (glyphTree :: ts)]])) :=
    .rule grammar_skipsForward (.right htrigger helement) hs.rest
  exact ⟨s, .many hnode.left (hmiss rfl rfl).repeats_nil rfl⟩

theorem yields_file {cs : List Char} {ts : List (ParseTree Rule)} {q : Nat}
    (hargs : grammar.Yields {} (.rule .args) ⟨1, '(' :: cs⟩ (some (⟨q, []⟩, ts))) : ∃ s,
    grammar.Yields {} (.rule .file) (.ofText ('📌' :: '(' :: cs)) (some (⟨q, []⟩,
      [.node .file ('📌' :: '(' :: cs)
        [.node .node s [.node .element s (glyphTree :: ts)], .node .finish [] []]])) := by
  obtain ⟨s, hitems⟩ := yields_items hargs rfl (by simp)
  have hfinish : grammar.Yields {} (.rule .finish) ⟨q, []⟩
      (some (⟨q, []⟩, [.node .finish [] []])) :=
    .rule grammar_skipsForward (Grammar.yields_finish q) rfl
  exact ⟨s, .rule grammar_skipsForward (.seq (.seq (Grammar.yields_start _) hitems rfl) hfinish rfl)
    (List.append_nil _).symm⟩

theorem yields_file_none {cs : List Char}
    (hargs : grammar.Yields {} (.rule .args) ⟨1, '(' :: cs⟩ none) :
    grammar.Yields {} (.rule .file) (.ofText ('📌' :: '(' :: cs)) none := by
  obtain ⟨s, hitems⟩ := yields_items hargs rfl (by simp)
  exact .rule_none (.seq_right_none (.seq (Grammar.yields_start _) hitems rfl)
    (.rule_none (Grammar.yields_finish_none 1 '(' cs)))

def lambdaState (code : List Char) : Node :=
  { op := .context .state, params := [("v", .lambda (String.ofList (Text.trim code)))] }

theorem forest?_embed (code s s' s'' : List Char) :
    Build.forest?
        [.node .file s
          [.node .node s' [.node .element s' [glyphTree, .node .args s'' [argTree code]]],
            .node .finish [] []]] = some [lambdaState code] := by
  have hglyph : Op.ofGlyph (String.ofList ['📌']) = .context .state := by decide +kernel
  rw [lambdaState, ← hglyph]
  rfl

theorem parse_embed {code : String} (h : Balanced code.toList) :
    parse (embed code) = .ok [lambdaState code.toList] := by
  obtain ⟨q, code', heq, harg⟩ := yields_arg ((balanced_iff _).mp h) (1 + 1)
  obtain rfl : code.toList = code' := List.append_cancel_right heq
  have hbody := yields_args harg (by simp [startsGap, isSpace]) (by simp [startsGap, isSpace])
    (Grammar.yields_text [')'] q [])
  obtain ⟨s, hs, _⟩ := hbody.derives grammar_skipsForward
  have hargs : grammar.Yields {} (.rule .args)
      _ (some (⟨q + 1, []⟩, [.node .args s [argTree code.toList]])) :=
    .rule grammar_skipsForward hbody hs.rest
  obtain ⟨s', hfile⟩ := yields_file hargs
  rw [parse_eq_ok, toList_embed]
  exact ⟨_, _, hfile, forest?_embed _ _ _ _⟩

/-- Without a parenthesis that closes the code there is no list of parameters. -/
theorem parse_embed_of_open {code : String} (h : closing false 0 (code.toList ++ [')', ')']) = none)
    (forest : Forest) : parse (embed code) ≠ .ok forest := by
  obtain ⟨t, harg⟩ := yields_arg_word h (1 + 1)
  have hbody := yields_args harg (by simp [startsGap, isSpace]) (by simp [startsGap, isSpace])
    (Grammar.yields_text_none (by simp) _ _)
  rw [Ne, parse_eq_ok, toList_embed]
  rintro ⟨d, trees, hfile, _⟩
  cases hfile.unique (yields_file_none (.rule_none hbody))

end GlyphScript.Script
