import GlyphScript.Proofs.Script.Embedding

/-! # Literals in scripts

Values without numbers and lambdas have a text from which a script reads them back: texts are
quoted, with a backslash in front of double quotes and backslashes, and items and entries stand
between commas. The text of a value ends in front of a comma or of a closing mark, whatever comes
later, so that values are read at every depth.
-/

namespace GlyphScript

/-- Values that a script can write out: no numbers and no lambdas, and maps without repeated
keys. -/
inductive Value.Literal : Value String → Prop where
  | null : Literal .null
  | bool (b : Bool) : Literal (.bool b)
  | text (s : String) : Literal (.text s)
  | list {items : List (Value String)} (hitems : ∀ v ∈ items, Literal v) : Literal (.list items)
  | map {entries : List (String × Value String)} (hkeys : (Entries.keys entries).Nodup)
      (hentries : ∀ e ∈ entries, Literal e.2) : Literal (.map entries)

namespace Script

open Peg

/-! ## Texts of values -/

def escape : List Char → List Char
  | [] => []
  | c :: cs => if c == '"' || c == '\\' then '\\' :: c :: escape cs else c :: escape cs

def quote (s : String) : List Char := '"' :: (escape s.toList ++ ['"'])

def separate (texts : List (List Char)) : List Char := [',', ' '].intercalate texts

mutual

def literal : Value String → List Char
  | .null => ['n', 'u', 'l', 'l']
  | .bool b => if b then ['t', 'r', 'u', 'e'] else ['f', 'a', 'l', 's', 'e']
  | .text s => quote s
  | .number x => (Number.text x).toList
  | .lambda code => 'λ' :: '(' :: (code.toList ++ [')'])
  | .list items => '[' :: (separate (itemTexts items) ++ [']'])
  | .map entries => '\x7b' :: (separate (entryTexts entries) ++ ['\x7d'])

def itemTexts : List (Value String) → List (List Char)
  | [] => []
  | v :: vs => literal v :: itemTexts vs

def entryTexts : List (String × Value String) → List (List Char)
  | [] => []
  | (k, v) :: es => (quote k ++ ':' :: ' ' :: literal v) :: entryTexts es

end

def entryText (e : String × Value String) : List Char := quote e.1 ++ ':' :: ' ' :: literal e.2

theorem itemTexts_eq (items : List (Value String)) : itemTexts items = items.map literal := by
  induction items with
  | nil => rfl
  | cons v vs ih => rw [itemTexts, ih, List.map_cons]

theorem entryTexts_eq (entries : List (String × Value String)) :
    entryTexts entries = entries.map entryText := by
  induction entries with
  | nil => rfl
  | cons e es ih => rw [entryTexts, ih, List.map_cons, entryText]

theorem separate_cons (s : List Char) (texts : List (List Char)) :
    separate (s :: texts) = s ++ texts.flatMap fun t => ',' :: ' ' :: t := by
  induction texts generalizing s with
  | nil => simp [separate, List.intercalate]
  | cons t texts ih =>
    have ih' := ih t
    simp only [separate, List.intercalate] at ih'
    simp [separate, List.intercalate, ih']

/-! ## Quoted texts -/

theorem unescape_escape (s : List Char) : unescape (escape s) = s := by
  induction s with
  | nil => rfl
  | cons c s ih =>
    by_cases hc : (c == '"' || c == '\\') = true
    · have hplain : c ≠ 'n' ∧ c ≠ 't' ∧ c ≠ 'r' := by
        rcases Bool.or_eq_true_iff.mp hc with h | h <;> rw [beq_iff_eq.mp h] <;> decide
      rw [escape, if_pos hc, unescape, ih]
      simp [hplain]
    · have hslash : c ≠ '\\' := by
        rintro rfl
        exact hc rfl
      rw [escape, if_neg hc, unescape, ih]
      exact fun _ _ h => absurd h hslash

/-- An escaped text is read up to the double quote behind it. -/
theorem yields_escape (s rest : List Char) (p : Nat) : ∃ q,
    grammar.Yields unspaced (Rule.expr .inner) ⟨p, escape s ++ '"' :: rest⟩
      (some (⟨q, '"' :: rest⟩, [])) := by
  induction s generalizing p with
  | nil => exact ⟨p, .many_nil (misses (by decide) (by decide) rest)⟩
  | cons c s ih =>
    by_cases hc : (c == '"' || c == '\\') = true
    · obtain ⟨q, hmore⟩ := ih (p + 1 + 1)
      have hslash : grammar.Yields unspaced (.char fun c => !(c == '"' || c == '\\'))
          ⟨p, '\\' :: c :: (escape s ++ '"' :: rest)⟩ none := misses (by decide) (by decide) _
      have hkept : grammar.Yields unspaced (.seq (.text ['\\']) (.char fun _ => true))
          ⟨p, '\\' :: c :: (escape s ++ '"' :: rest)⟩
          (some (⟨p + 1 + 1, escape s ++ '"' :: rest⟩, [])) :=
        .seq (Grammar.yields_text ['\\'] p _) (Grammar.yields_char rfl (p + 1) _) rfl
      rw [escape, if_pos hc]
      exact ⟨q, .many (.right hslash hkept) (hmore.repeats_of_many unspaced_ne_free) rfl⟩
    · obtain ⟨q, hmore⟩ := ih (p + 1)
      have hchar : grammar.Yields unspaced (.char fun c => !(c == '"' || c == '\\'))
          ⟨p, c :: (escape s ++ '"' :: rest)⟩ (some (⟨p + 1, escape s ++ '"' :: rest⟩, [])) :=
        Grammar.yields_char (by simpa using hc) p _
      rw [escape, if_neg hc]
      exact ⟨q, .many (.left hchar) (hmore.repeats_of_many unspaced_ne_free) rfl⟩

def quoteTree (s : String) : ParseTree Rule :=
  .node .string (quote s) [.node .inner (escape s.toList) []]

theorem string?_quoteTree (s : String) : Build.string? (quoteTree s) = some s := by
  rw [quoteTree, Build.string?, unescape_escape, String.ofList_toList]

theorem yields_quote (s : String) (rest : List Char) (p : Nat) : ∃ q,
    grammar.Yields {} (.rule .string) ⟨p, quote s ++ rest⟩ (some (⟨q, rest⟩, [quoteTree s])) := by
  obtain ⟨q, hescape⟩ := yields_escape s.toList rest (p + 1)
  have hinner : grammar.Yields { spacing := .tight } (.rule .inner)
      ⟨p + 1, escape s.toList ++ '"' :: rest⟩
      (some (⟨q, '"' :: rest⟩, [.node .inner (escape s.toList) []])) :=
    .rule grammar_skipsForward hescape rfl
  have hquote : quote s ++ rest = '"' :: (escape s.toList ++ '"' :: rest) := by simp [quote]
  rw [hquote]
  exact ⟨q + 1, .rule grammar_skipsForward
    (.seq (.seq (Grammar.yields_text ['"'] p _) hinner rfl) (Grammar.yields_text ['"'] q rest) rfl)
    hquote.symm⟩

/-! ## Texts between commas -/

/-- Marks in front of which the text of a value ends. -/
def isEnd (c : Char) : Bool := c == ',' || c == ')' || c == ']' || c == '\x7d'

theorem startsGap_of_isEnd {c : Char} (h : isEnd c) : startsGap c = false := by
  simp only [isEnd, Bool.or_eq_true, beq_iff_eq] at h
  rcases h with ((rfl | rfl) | rfl) | rfl <;> decide

theorem isIdentChar_of_isEnd {c : Char} (h : isEnd c) : isIdentChar c = false := by
  simp only [isEnd, Bool.or_eq_true, beq_iff_eq] at h
  rcases h with ((rfl | rfl) | rfl) | rfl <;> decide

def separated (item : Expr Rule) : Expr Rule :=
  .opt (.seq (.seq item (.many (.seq (.text [',']) item))) (.opt (.text [','])))

section Separate

variable {α : Type} {item : Expr Rule} {read : ParseTree Rule → Option α} {text : α → List Char}

/-- A text from which something is read back, in front of whatever can follow it. -/
structure ReadsBack (item : Expr Rule) (read : ParseTree Rule → Option α) (x : α) (s : List Char) :
    Prop where
  starts : ∃ c cs, s = c :: cs ∧ startsGap c = false
  yields : ∀ p rest, (∀ c, rest.head? = some c → isEnd c) → ∃ q t,
    grammar.Yields {} item ⟨p, s ++ rest⟩ (some (⟨q, rest⟩, [t])) ∧ read t = some x

/-- Nothing is skipped in front of such a text. -/
theorem ReadsBack.clear {x : α} {s : List Char} (h : ReadsBack item read x s) (rest : List Char) :
    ∀ c, (s ++ rest).head? = some c → startsGap c = false := by
  obtain ⟨c, cs, rfl, hc⟩ := h.starts
  rintro _ ⟨⟩
  exact hc

variable {xs : List α} {close : Char} (hclose : isEnd close) (hcomma : close ≠ ',')
  (rest : List Char)

def following (text : α → List Char) (xs : List α) : List Char :=
  (xs.map text).flatMap fun t => ',' :: ' ' :: t

include hclose in
theorem isEnd_following (text : α → List Char) (xs : List α) (c : Char)
    (hc : (following text xs ++ close :: rest).head? = some c) : isEnd c := by
  cases xs with
  | nil =>
    cases hc
    exact hclose
  | cons x xs =>
    cases hc
    rfl

include hclose in
theorem gap_following (text : α → List Char) (xs : List α) (q : Nat) :
    grammar.gap {} ⟨q, following text xs ++ close :: rest⟩ =
      ⟨q, following text xs ++ close :: rest⟩ :=
  gap_eq fun c hc => startsGap_of_isEnd (isEnd_following hclose rest text xs c hc)

include hclose hcomma in
theorem yields_following (h : ∀ x ∈ xs, ReadsBack item read x (text x)) (p : Nat) : ∃ q ts,
    grammar.Yields {} (.many (.seq (.text [',']) item)) ⟨p, following text xs ++ close :: rest⟩
      (some (⟨q, close :: rest⟩, ts)) ∧ ts.mapM read = some xs := by
  induction xs generalizing p with
  | nil =>
    have hnone : grammar.Yields {} (.text [',']) ⟨p, close :: rest⟩ none :=
      Grammar.yields_text_none (by simpa using hcomma) _ p
    exact ⟨p, [], .many_nil (.seq_none hnone), rfl⟩
  | cons x xs ih =>
    obtain ⟨hx, hxs⟩ := List.forall_mem_cons.mp h
    obtain ⟨q, t, hitem, hread⟩ := hx.yields (p + 1 + 1) _ (isEnd_following hclose rest text xs)
    obtain ⟨q', ts, hmore, hreads⟩ := ih hxs q
    have hfirst : grammar.Yields {} (.seq (.text [',']) item)
        ⟨p, ',' :: ' ' :: (text x ++ (following text xs ++ close :: rest))⟩
        (some (⟨q, following text xs ++ close :: rest⟩, [t])) := by
      rw [← gap_blank (hx.clear _) (p + 1)] at hitem
      exact .seq (Grammar.yields_text [','] p _) hitem rfl
    have htext : following text (x :: xs) ++ close :: rest =
        ',' :: ' ' :: (text x ++ (following text xs ++ close :: rest)) := by
      simp [following]
    rw [htext]
    refine ⟨q', t :: ts, .many hfirst (hmore.repeats (gap_following hclose rest text xs q)) rfl, ?_⟩
    simp [List.mapM_cons, hread, hreads]

include hclose hcomma in
/-- Items between two marks. -/
theorem yields_enclosed (h : ∀ x ∈ xs, ReadsBack item read x (text x)) (opening : Char)
    (hmiss : ∀ p, grammar.Yields {} item ⟨p, close :: rest⟩ none) (p : Nat) : ∃ q ts,
    grammar.Yields {} (.seq (.seq (.text [opening]) (separated item)) (.text [close]))
      ⟨p, opening :: (separate (xs.map text) ++ close :: rest)⟩ (some (⟨q, rest⟩, ts)) ∧
        ts.mapM read = some xs := by
  have hstop : ∀ q, grammar.gap {} ⟨q, close :: rest⟩ = ⟨q, close :: rest⟩ :=
    gap_following hclose rest text []
  -- what stands between the marks is read up to the second one
  suffices hinside : ∃ q ts, grammar.Yields {} (separated item)
      (grammar.gap {} ⟨p + 1, separate (xs.map text) ++ close :: rest⟩)
      (some (⟨q, close :: rest⟩, ts)) ∧ ts.mapM read = some xs by
    obtain ⟨q, ts, hitems, hread⟩ := hinside
    have hend : grammar.Yields {} (.text [close]) (grammar.gap {} ⟨q, close :: rest⟩)
        (some (⟨q + 1, rest⟩, [])) := by
      rw [hstop q]
      exact Grammar.yields_text [close] q rest
    exact ⟨q + 1, ts, .seq (.seq (Grammar.yields_text [opening] p _) hitems rfl) hend (by simp),
      hread⟩
  cases xs with
  | nil =>
    have hempty : grammar.Yields {} (separated item) ⟨p + 1, close :: rest⟩
        (some (⟨p + 1, close :: rest⟩, [])) :=
      (Grammar.Yields.seq_none (.seq_none (hmiss (p + 1)))).opt
    exact ⟨p + 1, [], (hstop (p + 1)).symm ▸ hempty, rfl⟩
  | cons x xs =>
    obtain ⟨hx, hxs⟩ := List.forall_mem_cons.mp h
    obtain ⟨q, t, hitem, hread⟩ := hx.yields (p + 1) _ (isEnd_following hclose rest text xs)
    obtain ⟨q', ts, hmore, hreads⟩ := yields_following hclose hcomma rest hxs q
    have htext : separate ((x :: xs).map text) ++ close :: rest =
        text x ++ (following text xs ++ close :: rest) := by
      rw [List.map_cons, separate_cons, List.append_assoc]
      rfl
    have hstart : grammar.gap {} ⟨p + 1, text x ++ (following text xs ++ close :: rest)⟩ =
        ⟨p + 1, text x ++ (following text xs ++ close :: rest)⟩ := gap_eq (hx.clear _)
    have hlast : grammar.Yields {} (.opt (.text [','])) (grammar.gap {} ⟨q', close :: rest⟩)
        (some (⟨q', close :: rest⟩, [])) := by
      rw [hstop q']
      exact (Grammar.yields_text_none (by simpa using hcomma) _ q').opt
    rw [htext, hstart]
    rw [← gap_following hclose rest text xs q] at hmore
    refine ⟨q', t :: ts, ((hitem.seq hmore rfl).seq hlast (by simp)).opt, ?_⟩
    simp [List.mapM_cons, hread, hreads]

end Separate

/-! ## Values -/

theorem values?_eq_mapM (ts : List (ParseTree Rule)) : Build.values? ts = ts.mapM Build.value? := by
  induction ts with
  | nil => rfl
  | cons t ts ih => rw [Build.values?, ih, List.mapM_cons]

theorem pairs?_eq_mapM (ts : List (ParseTree Rule)) : Build.pairs? ts = ts.mapM Build.pair? := by
  induction ts with
  | nil => rfl
  | cons t ts ih => rw [Build.pairs?, ih, List.mapM_cons]

/-- A value whose text is read by one of the rules for values. -/
theorem value_readsBack {v : Value String} {c : Char} {cs : List Char} (htext : literal v = c :: cs)
    (hc : startsGap c = false)
    (h : ∀ p rest, (∀ c, rest.head? = some c → isEnd c) →
      ∃ q t, grammar.Yields {} (Rule.expr .value) ⟨p, literal v ++ rest⟩ (some (⟨q, rest⟩, [t])) ∧
      Build.bare? t = some v) : ReadsBack (.rule .value) Build.value? v (literal v) := by
  refine ⟨⟨c, cs, htext, hc⟩, fun p rest hrest => ?_⟩
  obtain ⟨q, t, hyields, hread⟩ := h p rest hrest
  exact ⟨q, .node .value (literal v) [t], .rule grammar_skipsForward hyields rfl, hread⟩

/-- The words of the three constants end in front of what is no part of a word. -/
theorem yields_absent {rest : List Char} (hrest : ∀ c, rest.head? = some c → isEnd c) (p : Nat) :
    grammar.Yields unspaced (.absent (.rule .identChar)) ⟨p, rest⟩ (some (⟨p, rest⟩, [])) :=
  .absent (.rule_none (Grammar.yields_char_none (fun c hc => isIdentChar_of_isEnd (hrest c hc)) p))

theorem null_readsBack : ReadsBack (.rule .value) Build.value? .null (literal .null) := by
  refine value_readsBack rfl (by decide) fun p rest hrest => ?_
  have hnull : grammar.Yields {} (.rule .null) ⟨p, ['n', 'u', 'l', 'l'] ++ rest⟩
      (some (⟨p + 4, rest⟩, [.node .null ['n', 'u', 'l', 'l'] []])) :=
    .rule grammar_skipsForward
      (.seq (Grammar.yields_text ['n', 'u', 'l', 'l'] p rest) (yields_absent hrest _) rfl) rfl
  refine ⟨p + 4, .node .null ['n', 'u', 'l', 'l'] [], ?_, rfl⟩
  iterate 4 refine .right (misses (by decide) (by decide) _) ?_
  exact hnull.left

theorem yields_boolean {s rest : List Char} {p q : Nat} (hrest : ∀ c, rest.head? = some c → isEnd c)
    (h : grammar.Yields unspaced
      (.alt (.text ['t', 'r', 'u', 'e']) (.text ['f', 'a', 'l', 's', 'e'])) ⟨p, s ++ rest⟩
      (some (⟨q, rest⟩, []))) :
    grammar.Yields {} (.rule .boolean) ⟨p, s ++ rest⟩ (some (⟨q, rest⟩, [.node .boolean s []])) :=
  .rule grammar_skipsForward (.seq h (yields_absent hrest q) rfl) rfl

theorem bool_readsBack (b : Bool) :
    ReadsBack (.rule .value) Build.value? (.bool b) (literal (.bool b)) := by
  cases b with
  | true =>
    refine value_readsBack rfl (by decide) fun p rest hrest => ?_
    refine ⟨p + 4, .node .boolean ['t', 'r', 'u', 'e'] [], ?_, rfl⟩
    iterate 3 refine .right (misses (by decide) (by decide) _) ?_
    exact (yields_boolean hrest (.left (Grammar.yields_text ['t', 'r', 'u', 'e'] p rest))).left
  | false =>
    refine value_readsBack rfl (by decide) fun p rest hrest => ?_
    have hnotTrue : grammar.Yields unspaced (.text ['t', 'r', 'u', 'e'])
        ⟨p, ['f', 'a', 'l', 's', 'e'] ++ rest⟩ none :=
      misses (by decide) (by decide) _
    refine ⟨p + 5, .node .boolean ['f', 'a', 'l', 's', 'e'] [], ?_, rfl⟩
    iterate 3 refine .right (misses (by decide) (by decide) _) ?_
    exact (yields_boolean hrest
      (.right hnotTrue (Grammar.yields_text ['f', 'a', 'l', 's', 'e'] p rest))).left

theorem text_readsBack (s : String) :
    ReadsBack (.rule .value) Build.value? (.text s) (literal (.text s)) := by
  refine value_readsBack rfl (by decide) fun p rest _ => ?_
  obtain ⟨q, hquote⟩ := yields_quote s rest p
  refine ⟨q, quoteTree s, .right (misses (by decide) (by decide) _) hquote.left, ?_⟩
  exact congrArg (Option.map Value.text) (string?_quoteTree s)

theorem list_readsBack {items : List (Value String)}
    (h : ∀ v ∈ items, ReadsBack (.rule .value) Build.value? v (literal v)) :
    ReadsBack (.rule .value) Build.value? (.list items) (literal (.list items)) := by
  refine value_readsBack rfl (by decide) fun p rest _ => ?_
  obtain ⟨q, ts, hitems, hread⟩ := yields_enclosed (rfl : isEnd ']') (by decide) rest h '['
    (fun _ => misses (by decide) (by decide) rest) p
  have htext : literal (.list items) ++ rest =
      '[' :: (separate (items.map literal) ++ ']' :: rest) := by
    simp [literal, itemTexts_eq]
  rw [← htext] at hitems
  have hlist : grammar.Yields {} (.rule .list) ⟨p, literal (.list items) ++ rest⟩
      (some (⟨q, rest⟩, [.node .list (literal (.list items)) ts])) :=
      .rule grammar_skipsForward hitems rfl
  refine ⟨q, .node .list (literal (.list items)) ts, ?_, ?_⟩
  · iterate 5 refine .right (misses (by decide) (by decide) _) ?_
    exact hlist.left
  · rw [Build.bare?, values?_eq_mapM, hread]
    rfl

theorem entry_readsBack {e : String × Value String}
    (h : ReadsBack (.rule .value) Build.value? e.2 (literal e.2)) :
    ReadsBack (.rule .pair) Build.pair? e (entryText e) := by
  refine ⟨⟨'"', _, rfl, by decide⟩, fun p rest hrest => ?_⟩
  obtain ⟨q, hquote⟩ := yields_quote e.1 (':' :: ' ' :: (literal e.2 ++ rest)) p
  have hkey : grammar.Yields {} (.rule .key) ⟨p, quote e.1 ++ ':' :: ' ' :: (literal e.2 ++ rest)⟩
      (some (⟨q, ':' :: ' ' :: (literal e.2 ++ rest)⟩, [.node .key (quote e.1) [quoteTree e.1]])) :=
    .rule grammar_skipsForward hquote.left rfl
  obtain ⟨q', t, hvalue, hread⟩ := h.yields (q + 1 + 1) rest hrest
  have hpair := yields_binding hkey (h.clear rest) hvalue
  have htext : entryText e ++ rest = quote e.1 ++ ':' :: ' ' :: (literal e.2 ++ rest) := by
    simp [entryText]
  rw [← htext] at hpair
  refine ⟨q', .node .pair (entryText e) [.node .key (quote e.1) [quoteTree e.1], t],
    .rule grammar_skipsForward hpair rfl, ?_⟩
  have hread' : Build.key? (.node .key (quote e.1) [quoteTree e.1]) = some e.1 :=
    string?_quoteTree e.1
  rw [Build.pair?, hread', hread]
  rfl

theorem map_readsBack {entries : List (String × Value String)}
    (hkeys : (Entries.keys entries).Nodup)
    (h : ∀ e ∈ entries, ReadsBack (.rule .value) Build.value? e.2 (literal e.2)) :
    ReadsBack (.rule .value) Build.value? (.map entries) (literal (.map entries)) := by
  refine value_readsBack rfl (by decide) fun p rest _ => ?_
  obtain ⟨q, ts, hentries, hread⟩ := yields_enclosed (rfl : isEnd '\x7d') (by decide) rest
    (fun e he => entry_readsBack (h e he)) '\x7b' (fun _ => misses (by decide) (by decide) rest) p
  have htext : literal (.map entries) ++ rest =
      '\x7b' :: (separate (entries.map entryText) ++ '\x7d' :: rest) := by
    simp [literal, entryTexts_eq]
  rw [← htext] at hentries
  have hmap : grammar.Yields {} (.rule .map) ⟨p, literal (.map entries) ++ rest⟩
      (some (⟨q, rest⟩, [.node .map (literal (.map entries)) ts])) :=
      .rule grammar_skipsForward hentries rfl
  refine ⟨q, .node .map (literal (.map entries)) ts, ?_, ?_⟩
  · iterate 6 refine .right (misses (by decide) (by decide) _) ?_
    exact hmap.left
  · rw [Build.bare?, pairs?_eq_mapM, hread, Option.map_some, Entries.ofList_of_nodup hkeys]

theorem literal_readsBack {v : Value String} (h : v.Literal) :
    ReadsBack (.rule .value) Build.value? v (literal v) := by
  induction h with
  | null => exact null_readsBack
  | bool b => exact bool_readsBack b
  | text s => exact text_readsBack s
  | list _ ih => exact list_readsBack ih
  | map hkeys _ ih => exact map_readsBack hkeys ih

/-! ## Scripts -/

def embedValue (v : Value String) : String := "📌(v: " ++ String.ofList (literal v) ++ ")"

theorem toList_embedValue (v : Value String) :
    (embedValue v).toList = '📌' :: '(' :: 'v' :: ':' :: ' ' :: (literal v ++ [')']) := by
  have hliteral : (String.ofList (literal v)).toList = literal v := String.toList_ofList
  rw [embedValue, String.toList_append, String.toList_append, hliteral]
  rfl

theorem arg_readsBack {v : Value String} (h : ReadsBack (.rule .value) Build.value? v (literal v))
    (p : Nat) : ∃ q s t,
    grammar.Yields {} (.rule .arg) ⟨p, 'v' :: ':' :: ' ' :: (literal v ++ [')'])⟩
      (some (⟨q, [')']⟩, [.node .arg s [t]])) ∧ t.rule = .pair ∧ Build.pair? t = some ("v", v) := by
  obtain ⟨q, t, hvalue, hread⟩ := h.yields (p + 1 + 1 + 1) [')'] (by simp [isEnd])
  have hpair := yields_binding (yields_key p _) (h.clear [')']) hvalue
  have hyields : grammar.Yields {} (.rule .pair) ⟨p, 'v' :: ':' :: ' ' :: (literal v ++ [')'])⟩
      (some (⟨q, [')']⟩, [.node .pair ('v' :: ':' :: ' ' :: literal v)
        [.node .key ['v'] [.node .ident ['v'] []], t]])) := .rule grammar_skipsForward hpair rfl
  refine ⟨q, 'v' :: ':' :: ' ' :: literal v, _, .rule grammar_skipsForward hyields.left rfl,
    rfl, ?_⟩
  have hkey : Build.key? (.node .key ['v'] [.node .ident ['v'] []]) = some "v" := rfl
  rw [Build.pair?, hkey, hread]
  rfl

theorem forest?_embedValue {v : Value String} {t : ParseTree Rule} (hrule : t.rule = .pair)
    (ht : Build.pair? t = some ("v", v)) (s s₁ s₂ s₃ : List Char) :
    Build.forest?
        [.node .file s
          [.node .node s₁ [.node .element s₁ [glyphTree, .node .args s₂ [.node .arg s₃ [t]]]],
            .node .finish [] []]] = some [{ op := .context .state, params := [("v", v)] }] := by
  have hglyph : Op.ofGlyph (String.ofList ['📌']) = .context .state := by decide +kernel
  have hparams : Build.params? (.node .args s₂ [.node .arg s₃ [t]]) = some [("v", v)] := by
    simp [Build.params?, Build.arguments?, hrule, ht, addPositional, Entries.ofList,
      Entries.insertAll, Entries.insert]
  have helement :
      Build.element? (.node .element s₁ [glyphTree, .node .args s₂ [.node .arg s₃ [t]]]) =
        some { op := .context .state, params := [("v", v)] } := by
    simp [Build.element?, Build.part?, Build.optional?, Build.bodies?, glyphTree, ParseTree.rule,
      ParseTree.text, hparams, hglyph]
  simp [Build.forest?, Build.nodes?, Build.node?, helement]

/-- Every literal is read back from its text, as the only parameter of the only node. -/
theorem parse_embedded_literal {v : Value String} (h : v.Literal) :
    parse (embedValue v) = .ok [{ op := .context .state, params := [("v", v)] }] := by
  obtain ⟨q, s, t, harg, hrule, hread⟩ := arg_readsBack (literal_readsBack h) (1 + 1)
  have hbody := yields_args harg (by simp [startsGap, isSpace]) (by simp [startsGap, isSpace])
    (Grammar.yields_text [')'] q [])
  obtain ⟨s', hs', _⟩ := hbody.derives grammar_skipsForward
  have hargs : grammar.Yields {} (.rule .args) _
      (some (⟨q + 1, []⟩, [.node .args s' [.node .arg s [t]]])) :=
    .rule grammar_skipsForward hbody hs'.rest
  obtain ⟨s'', hfile⟩ := yields_file hargs
  rw [parse_eq_ok, toList_embedValue]
  exact ⟨_, _, hfile, forest?_embedValue hrule hread _ _ _ _⟩

/-- Marks, comments and escapes inside quotes belong to the text. -/
theorem parse_embedded_literal_nested :
    Value.Literal
      (.map [("\"k\\", .list [.null, .bool true, .text "// ])\x7d \"λ(\" \\n\n"]), ("", .map [])]) ∧
    parse
    "📌(v: \x7b\"\\\"k\\\\\": [null, true, \"// ])\x7d \\\"λ(\\\" \\\\n\n\"], \"\": \x7b\x7d\x7d)" =
        .ok [{ op := .context .state
               params :=
                 [("v", .map [("\"k\\", .list [.null, .bool true, .text "// ])\x7d \"λ(\" \\n\n"]),
                   ("", .map [])])] }] := by
  have hliteral : Value.Literal
      (.map [("\"k\\", .list [.null, .bool true, .text "// ])\x7d \"λ(\" \\n\n"]),
        ("", .map [])]) := by
    refine .map (by decide)
      (List.forall_mem_cons.mpr ⟨.list ?_, List.forall_mem_cons.mpr ⟨.map (by decide) ?_, ?_⟩⟩)
    · simp [Value.Literal.null, Value.Literal.bool, Value.Literal.text]
    · simp
    · simp
  have htext : embedValue
      (.map [("\"k\\", .list [.null, .bool true, .text "// ])\x7d \"λ(\" \\n\n"]),
        ("", .map [])]) =
    "📌(v: \x7b\"\\\"k\\\\\": [null, true, \"// ])\x7d \\\"λ(\\\" \\\\n\n\"], \"\": \x7b\x7d\x7d)" :=
    by decide +kernel
  exact ⟨hliteral, htext ▸ parse_embedded_literal hliteral⟩

end Script

end GlyphScript
