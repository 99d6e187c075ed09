import GlyphScript.Console.Alias

/-! # Aliases are replaced word by word

A text falls apart into words, each a colon with all the letters after it, and other characters.
Replacing aliases works on each word for itself. Since no glyph has a colon or a letter in it, a
glyph never becomes part of a word, and a second replacement finds nothing to do.
-/

namespace GlyphScript.Console

/-- A part of a text: a colon with the letters after it, or another character. -/
inductive Piece where
  | word (letters : List Char)
  | other (c : Char)

def glyph? (letters : List Char) : Option String := aliases.lookup (String.ofList (':' :: letters))

def EndsWord (cs : List Char) : Prop := ∀ c ∈ cs.head?, c.isAlpha = false

namespace Piece

def text : Piece → List Char
  | word letters => ':' :: letters
  | other c => [c]

/-- What is written for a piece: an alias gives way to its glyph, and all else stays. -/
def expanded : Piece → List Char
  | word letters =>
    match glyph? letters with
    | some glyph => glyph.toList
    | none => ':' :: letters
  | other c => [c]

def settled : Piece → List Piece
  | word letters =>
    match glyph? letters with
    | some glyph => glyph.toList.map other
    | none => [word letters]
  | other c => [other c]

end Piece

/-- A text falls apart into pieces, in which each word has all the letters that it can have. -/
inductive Splits : List Char → List Piece → Prop where
  | nil : Splits [] []
  | other {c : Char} {cs : List Char} {pieces : List Piece} : c ≠ ':' → Splits cs pieces →
      Splits (c :: cs) (.other c :: pieces)
  | word {letters cs : List Char} {pieces : List Piece} : (∀ c ∈ letters, c.isAlpha = true) →
      EndsWord cs → Splits cs pieces → Splits (':' :: (letters ++ cs)) (.word letters :: pieces)

/-- A word stands in a text between what comes before and after it, and cannot be made longer. -/
structure HasWord (cs before letters after : List Char) : Prop where
  eq : cs = before ++ ':' :: (letters ++ after)
  isAlpha : ∀ c ∈ letters, c.isAlpha = true
  endsWord : EndsWord after

variable {cs ds letters before after : List Char} {pieces pieces' : List Piece} {c : Char}

namespace EndsWord

theorem append (h : EndsWord cs) (h' : EndsWord ds) : EndsWord (cs ++ ds) := by
  cases cs with
  | nil => exact h'
  | cons c cs => exact h

theorem takeWhile_eq (h : EndsWord cs) : cs.takeWhile Char.isAlpha = [] := by
  cases cs with
  | nil => rfl
  | cons c cs => simp [h c rfl]

/-- There is only one way to tell the letters of a word from what comes after it. -/
theorem letters_unique {letters' : List Char} (hl : ∀ c ∈ letters, c.isAlpha = true)
    (hl' : ∀ c ∈ letters', c.isAlpha = true) (h : EndsWord cs) (h' : EndsWord ds)
    (he : letters ++ cs = letters' ++ ds) : letters = letters' ∧ cs = ds := by
  have hletters := congrArg (List.takeWhile Char.isAlpha) he
  rw [List.takeWhile_append_of_pos hl, List.takeWhile_append_of_pos hl', h.takeWhile_eq,
    h'.takeWhile_eq, List.append_nil, List.append_nil] at hletters
  subst hletters
  exact ⟨rfl, List.append_cancel_left he⟩

end EndsWord

namespace Splits

theorem text_eq (h : Splits cs pieces) : pieces.flatMap Piece.text = cs := by
  induction h with
  | nil => rfl
  | other _ _ ih => simp [Piece.text, ih]
  | word _ _ _ ih => simp [Piece.text, ih]

theorem exists_pieces (cs : List Char) : ∃ pieces, Splits cs pieces := by
  match cs with
  | [] => exact ⟨[], .nil⟩
  | c :: cs =>
    by_cases hc : c = ':'
    · subst hc
      obtain ⟨pieces, hp⟩ := exists_pieces (cs.dropWhile Char.isAlpha)
      have hletters : ∀ c ∈ cs.takeWhile Char.isAlpha, c.isAlpha = true :=
        List.all_eq_true.mp List.all_takeWhile
      have hends : EndsWord (cs.dropWhile Char.isAlpha) := by
        intro c hc
        have hhead := List.head?_dropWhile_not Char.isAlpha cs
        rw [hc] at hhead
        simpa using hhead
      have hword := Splits.word hletters hends hp
      rw [List.takeWhile_append_dropWhile] at hword
      exact ⟨_, hword⟩
    · obtain ⟨pieces, hp⟩ := exists_pieces cs
      exact ⟨_, .other hc hp⟩
termination_by cs.length
decreasing_by
  · exact Nat.lt_succ_of_le (List.dropWhile_sublist _).length_le
  · exact Nat.lt_succ_self _

theorem word_inv (h : Splits (':' :: ds) pieces) :
    ∃ letters cs rest, ds = letters ++ cs ∧ pieces = .word letters :: rest ∧
      (∀ c ∈ letters, c.isAlpha = true) ∧ EndsWord cs ∧ Splits cs rest := by
  generalize he : ':' :: ds = text at h
  cases h with
  | nil => cases he
  | other hc => cases he; exact absurd rfl hc
  | word hl hends h => cases he; exact ⟨_, _, _, rfl, rfl, hl, hends, h⟩

theorem unique (h : Splits cs pieces) (h' : Splits cs pieces') : pieces' = pieces := by
  induction h generalizing pieces' with
  | nil => cases h'; rfl
  | @other c cs pieces hc _ ih =>
    generalize he : c :: cs = text at h'
    cases h' with
    | nil => cases he
    | other _ h' => cases he; rw [ih h']
    | word => cases he; exact absurd rfl hc
  | word hl hends _ ih =>
    obtain ⟨letters, cs, rest, he, rfl, hl', hends', h'⟩ := h'.word_inv
    obtain ⟨rfl, rfl⟩ := EndsWord.letters_unique hl hl' hends hends' he
    rw [ih h']

/-- Two texts can be split apart, unless a word goes on from the first one to the second one. -/
theorem append (h : Splits cs pieces) (h' : Splits ds pieces') (hends : EndsWord ds) :
    Splits (cs ++ ds) (pieces ++ pieces') := by
  induction h with
  | nil => exact h'
  | other hc _ ih => exact .other hc ih
  | @word letters cs pieces hl hends' _ ih =>
    have hword := Splits.word hl (hends'.append hends) ih
    rwa [← List.append_assoc] at hword

/-- The words among the pieces are the words that stand in the text. -/
theorem hasWord_iff (h : Splits cs pieces) :
    HasWord cs before letters after ↔ ∃ ps qs, pieces = ps ++ .word letters :: qs ∧
      ps.flatMap Piece.text = before ∧ qs.flatMap Piece.text = after := by
  constructor
  · rintro ⟨rfl, hl, hends⟩
    obtain ⟨ps, hps⟩ := exists_pieces before
    obtain ⟨qs, hqs⟩ := exists_pieces after
    have hcolon : EndsWord (':' :: (letters ++ after)) := by
      rintro c ⟨⟩
      rfl
    exact ⟨ps, qs, (hps.append (.word hl hends hqs) hcolon).unique h, hps.text_eq, hqs.text_eq⟩
  · rintro ⟨ps, qs, rfl, rfl, rfl⟩
    induction ps generalizing cs with
    | nil =>
      cases h with
      | word hl hends h => exact ⟨by rw [h.text_eq]; rfl, hl, h.text_eq ▸ hends⟩
    | cons p ps ih =>
      obtain ⟨heq, hl, hends⟩ : HasWord ((ps ++ .word letters :: qs).flatMap Piece.text) _ _ _ := by
        cases h with
        | other _ h => exact ih (h.text_eq ▸ h)
        | word _ _ h => exact ih (h.text_eq ▸ h)
      exact ⟨by rw [← h.text_eq, List.cons_append, List.flatMap_cons, heq]; simp, hl, hends⟩

end Splits

/-! ## What is written -/

theorem expandWord_append (hl : ∀ c ∈ letters, c.isAlpha = true) (hends : EndsWord cs)
    (read : List Char) :
    expandWord read (letters ++ cs) = replacement (read.reverse ++ letters) ++ expandFrom cs := by
  induction letters generalizing read with
  | nil =>
    cases cs with
    | nil => simp [expandWord, expandFrom]
    | cons c cs =>
      have hc : c.isAlpha = false := hends c rfl
      by_cases hcolon : c = ':'
      · subst hcolon
        simp [expandWord, expandFrom, hc]
      · simp [expandWord, expandFrom, hc, hcolon]
  | cons c letters ih =>
    have hc : c.isAlpha = true := hl c List.mem_cons_self
    rw [List.cons_append, expandWord, if_pos hc, ih fun d hd => hl d (List.mem_cons_of_mem _ hd)]
    simp

theorem replacement_eq (letters : List Char) :
    replacement letters = (Piece.word letters).expanded := by
  cases hg : aliases.lookup (String.ofList (':' :: letters)) with
  | none => simp only [replacement, Piece.expanded, glyph?, hg]
  | some glyph => simp only [replacement, Piece.expanded, glyph?, hg]

theorem Splits.expandFrom_eq (h : Splits cs pieces) :
    expandFrom cs = pieces.flatMap Piece.expanded := by
  induction h with
  | nil => rfl
  | other hc _ ih => simp [expandFrom, ih, Piece.expanded]
  | @word letters cs pieces hl hends _ ih =>
    rw [expandFrom, expandWord_append hl hends, List.flatMap_cons, ih, List.reverse_nil,
      List.nil_append, replacement_eq]

/-- Glyphs are written without colons and letters. -/
theorem glyph_plain {glyph : String} (h : glyph? letters = some glyph) (hc : c ∈ glyph.toList) :
    c ≠ ':' ∧ c.isAlpha = false := by
  have htable : ∀ entry ∈ aliases, (entry.2.toList.all fun c => c != ':' && !c.isAlpha) = true := by
    decide
  obtain ⟨_, _, he, _⟩ := List.lookup_eq_some_iff.mp h
  have hglyph := htable (_, glyph) (he ▸ List.mem_append_right _ List.mem_cons_self)
  simpa using List.all_eq_true.mp hglyph c hc

namespace Splits

theorem others (h : ∀ c ∈ cs, c ≠ ':') : Splits cs (cs.map .other) := by
  induction cs with
  | nil => exact .nil
  | cons c cs ih =>
    exact .other (h c List.mem_cons_self) (ih fun d hd => h d (List.mem_cons_of_mem _ hd))

/-- A word that ended in front of a text also ends in front of what is written for it. -/
theorem endsWord_expanded (h : Splits cs pieces) (hends : EndsWord cs) :
    EndsWord (pieces.flatMap Piece.expanded) := by
  induction h with
  | nil => exact hends
  | other => exact hends
  | @word letters cs pieces _ hrest _ ih =>
    rw [List.flatMap_cons]
    cases hg : glyph? letters with
    | none =>
      rw [Piece.expanded, hg]
      rintro c ⟨⟩
      rfl
    | some glyph =>
      rw [Piece.expanded, hg]
      have hglyph : EndsWord glyph.toList :=
        fun c hc => (glyph_plain hg (List.mem_of_mem_head? hc)).2
      exact hglyph.append (ih hrest)

/-- No word arises where a glyph meets what stands beside it. -/
theorem expanded (h : Splits cs pieces) :
    Splits (pieces.flatMap Piece.expanded) (pieces.flatMap Piece.settled) := by
  induction h with
  | nil => exact .nil
  | other hc _ ih => exact .other hc ih
  | @word letters cs pieces hl hends h ih =>
    have hrest := h.endsWord_expanded hends
    rw [List.flatMap_cons, List.flatMap_cons, Piece.expanded, Piece.settled]
    cases hg : glyph? letters with
    | none => exact .word hl hrest ih
    | some glyph => exact (others fun c hc => (glyph_plain hg hc).1).append ih hrest

end Splits

namespace Piece

theorem glyph?_of_mem_settled {piece : Piece} (h : .word letters ∈ piece.settled) :
    glyph? letters = none := by
  cases piece with
  | other c => simp [settled] at h
  | word letters' =>
    cases hg : glyph? letters' with
    | none =>
      obtain rfl : letters = letters' := by simpa [settled, hg] using h
      exact hg
    | some glyph => simp [settled, hg] at h

theorem expanded_settled (piece : Piece) : piece.settled.flatMap expanded = piece.expanded := by
  cases piece with
  | other c => rfl
  | word letters =>
    cases hg : glyph? letters with
    | none => simp [settled, expanded, hg]
    | some glyph => simp [settled, expanded, hg, List.flatMap_map]

end Piece

/-- Aliases are replaced word by word: a text falls apart in one way into words that cannot be made
longer and other characters, every word that is an alias gives way to its glyph, and all else stays
in its place. No alias is left behind, and replacing a second time changes nothing. -/
theorem expand_replaces_words (s : String) :
    (∃ pieces, Splits s.toList pieces ∧ (∀ pieces', Splits s.toList pieces' → pieces' = pieces) ∧
      (∀ before letters after, HasWord s.toList before letters after ↔
        ∃ ps qs, pieces = ps ++ .word letters :: qs ∧
        ps.flatMap Piece.text = before ∧ qs.flatMap Piece.text = after) ∧
      s = String.ofList (pieces.flatMap Piece.text) ∧
        expand s = String.ofList (pieces.flatMap Piece.expanded)) ∧
      (∀ before letters after, HasWord (expand s).toList before letters after →
        aliases.lookup (String.ofList (':' :: letters)) = none) ∧
      expand (expand s) = expand s := by
  obtain ⟨pieces, h⟩ := Splits.exists_pieces s.toList
  have hexpand : expand s = String.ofList (pieces.flatMap Piece.expanded) := by
    rw [expand, h.expandFrom_eq]
  have hagain : Splits (expand s).toList (pieces.flatMap Piece.settled) := by
    rw [hexpand, String.toList_ofList]
    exact h.expanded
  refine ⟨⟨pieces, h, fun _ => h.unique, fun _ _ _ => h.hasWord_iff, ?_, hexpand⟩, ?_, ?_⟩
  · rw [h.text_eq, String.ofList_toList]
  · intro before letters after hword
    obtain ⟨ps, qs, he, _⟩ := hagain.hasWord_iff.mp hword
    have hmem : .word letters ∈ pieces.flatMap Piece.settled :=
      he ▸ List.mem_append_right _ List.mem_cons_self
    obtain ⟨piece, _, hp⟩ := List.mem_flatMap.mp hmem
    exact Piece.glyph?_of_mem_settled hp
  · have hexpanded : (fun piece : Piece => piece.settled.flatMap Piece.expanded) = Piece.expanded :=
      funext Piece.expanded_settled
    rw [expand, hagain.expandFrom_eq, List.flatMap_assoc, hexpanded, hexpand]

/-- A colon in front of an alias is a word of its own, and letters of another word belong to no
alias. -/
example : expand "::tag :tags a:" = ":🔑 :tags a:" := by decide

end GlyphScript.Console
