import GlyphScript.Proofs.Console.Sessions

/-! # Lines are read once

A console keeps lines until their braces are closed and then reads them together. So the lines that
were entered fall apart into batches, each read as one command when its last line came, and the
lines that are still open.
-/

namespace GlyphScript.Console

/-- What comes out of a line: an error, or the command that it completes. -/
abbrev Answer := Except CommandError (Option Command)

def textOf (lines : List String) : String := String.join (lines.map (· ++ "\n"))

def Unclosed (lines : List String) : Prop :=
  (textOf lines).toList.count '\x7d' < (textOf lines).toList.count '\x7b'

/-- What comes out of entering lines that are read together: only the last one is answered. -/
def answers (batch : List String) : List (Answer) :=
  (batch.dropLast.map fun _ => .ok none) ++ [(Command.parse (textOf batch)).map some]

/-- A new console after lines were entered, with what came out of each of them. Commands may have
been executed in between. -/
inductive Entered (read : FileReader) : List (String × Answer) → Console → Prop where
  | new : Entered read [] {}
  | line {past : List (String × Answer)} {console : Console} (line : String) :
      Entered read past console →
      Entered read (past ++ [(line, (console.enterLine line).2)]) (console.enterLine line).1
  | command {past : List (String × Answer)} {console : Console} (now : Nat)
      (command : Command) : Entered read past console →
      Entered read past (execute read now console command).console

/-- Lines that are read together: their braces are closed by the last line, and not before. -/
structure Complete (batch : List String) : Prop where
  ne_nil : batch ≠ []
  closed : ¬ Unclosed batch
  unclosed : ∀ k, 0 < k → k < batch.length → Unclosed (batch.take k)

def Pending (lines : List String) : Prop := ∀ k, 0 < k → k ≤ lines.length → Unclosed (lines.take k)

/-- The lines entered so far fall apart into batches and the lines in the buffer. -/
structure Batched (past : List (String × Answer)) (buffer : String)
    (batches : List (List String)) (rest : List String) : Prop where
  lines : past.map Prod.fst = batches.flatten ++ rest
  answers : past.map Prod.snd = batches.flatMap answers ++ rest.map fun _ => .ok none
  buffer : buffer = textOf rest
  complete : ∀ batch ∈ batches, Complete batch
  pending : Pending rest

section Texts

variable {lines lines' : List String} {line : String} {console : Console}

theorem textOf_append (lines lines' : List String) :
    textOf (lines ++ lines') = textOf lines ++ textOf lines' := by
  rw [textOf, List.map_append, String.join_append]
  rfl

theorem textOf_flatten (batches : List (List String)) :
    textOf batches.flatten = String.join (batches.map textOf) := by
  induction batches with
  | nil => rfl
  | cons batch batches ih =>
    rw [List.flatten_cons, textOf_append, ih, List.map_cons, String.join_cons]

theorem textOf_snoc (lines : List String) (line : String) :
    textOf (lines ++ [line]) = textOf lines ++ line ++ "\n" := by
  rw [textOf_append, String.append_assoc]
  simp [textOf]

theorem openBraces_eq (cs : List Char) :
    openBraces cs = (cs.count '\x7b' : Int) - cs.count '\x7d' := by
  -- The sum is over a depth that the characters before have left.
  have hfrom : ∀ depth : Int, cs.foldl
      (fun depth c => if c == '\x7b' then depth + 1 else if c == '\x7d' then depth - 1 else depth)
        depth = depth + ((cs.count '\x7b' : Int) - cs.count '\x7d') := by
    induction cs with
    | nil => simp
    | cons c cs ih =>
      intro depth
      rw [List.foldl_cons, ih, List.count_cons, List.count_cons]
      by_cases hopen : c = '\x7b'
      · subst hopen
        simp
        omega
      · by_cases hclose : c = '\x7d'
        · subst hclose
          simp
          omega
        · simp [hopen, hclose]
  rw [openBraces, hfrom, Int.zero_add]

theorem unclosed_iff : Unclosed lines ↔ 0 < openBraces (textOf lines).toList := by
  rw [openBraces_eq, Unclosed]
  omega

theorem enterLine_of_unclosed (hbuffer : console.buffer = textOf lines)
    (h : Unclosed (lines ++ [line])) :
    console.enterLine line = ({ console with buffer := textOf (lines ++ [line]) }, .ok none) := by
  rw [unclosed_iff, textOf_snoc] at h
  simp only [enterLine, hbuffer, textOf_snoc, h, if_true]

theorem enterLine_of_closed (hbuffer : console.buffer = textOf lines)
    (h : ¬ Unclosed (lines ++ [line])) :
    console.enterLine line =
      ({ console with buffer := "" }, (Command.parse (textOf (lines ++ [line]))).map some) := by
  rw [unclosed_iff, textOf_snoc] at h
  simp only [enterLine, hbuffer, textOf_snoc, h, if_false]

/-- Whatever comes out of a line but that more is awaited, the buffer is empty afterwards. -/
theorem buffer_enterLine (h : (console.enterLine line).2 ≠ .ok none) :
    (console.enterLine line).1.buffer = "" := by
  by_cases ho : 0 < openBraces (console.buffer ++ line ++ "\n").toList
  · simp only [enterLine, ho, if_true, ne_eq, not_true_eq_false] at h
  · simp only [enterLine, ho, if_false]

end Texts

section Batches

variable {past : List (String × Answer)} {buffer : String}
  {batches : List (List String)} {rest : List String} {line : String}

theorem Pending.nil : Pending [] := by
  intro k hpos hk
  exact absurd hk (Nat.not_le_of_lt hpos)

theorem Pending.snoc (h : Pending rest) (hline : Unclosed (rest ++ [line])) :
    Pending (rest ++ [line]) := by
  intro k hpos hk
  rcases Nat.lt_or_ge rest.length k with hlt | hge
  · rwa [List.take_of_length_le (by simp; omega)]
  · rw [List.take_append_of_le_length hge]
    exact h k hpos hge

theorem Pending.complete (h : Pending rest) (hline : ¬ Unclosed (rest ++ [line])) :
    Complete (rest ++ [line]) := by
  refine ⟨by simp, hline, ?_⟩
  intro k hpos hk
  have hle : k ≤ rest.length := by simpa [Nat.lt_succ_iff] using hk
  rw [List.take_append_of_le_length hle]
  exact h k hpos hle

namespace Batched

/-- A line that leaves braces open is kept. -/
theorem keep (h : Batched past buffer batches rest) (hline : Unclosed (rest ++ [line])) :
    Batched (past ++ [(line, .ok none)]) (textOf (rest ++ [line])) batches (rest ++ [line]) where
  lines := by simp [h.lines]
  answers := by simp [h.answers]
  buffer := rfl
  complete := h.complete
  pending := h.pending.snoc hline

/-- A line that closes all braces completes a batch. -/
theorem handOver (h : Batched past buffer batches rest) (hline : ¬ Unclosed (rest ++ [line])) :
    Batched (past ++ [(line, (Command.parse (textOf (rest ++ [line]))).map some)]) ""
      (batches ++ [rest ++ [line]]) [] where
  lines := by simp [h.lines]
  answers := by simp [h.answers, Console.answers]
  buffer := rfl
  complete := by
    intro batch hbatch
    rcases List.mem_append.mp hbatch with hbatch | hbatch
    · exact h.complete batch hbatch
    · rw [List.mem_singleton.mp hbatch]
      exact h.pending.complete hline
  pending := .nil

/-- What entering a line keeps. -/
theorem enter {console : Console} (h : Batched past console.buffer batches rest) (line : String) :
    ∃ batches' rest', Batched (past ++ [(line, (console.enterLine line).2)])
      (console.enterLine line).1.buffer batches' rest' := by
  by_cases hline : Unclosed (rest ++ [line])
  · rw [enterLine_of_unclosed h.buffer hline]
    exact ⟨_, _, h.keep hline⟩
  · rw [enterLine_of_closed h.buffer hline]
    exact ⟨_, _, h.handOver hline⟩

end Batched

end Batches

section Consoles

variable {read : FileReader} {past : List (String × Answer)} {console : Console}

theorem buffer_fresh (command : Command) (program : Except Failure Program) (say : Nat → String) :
    (console.fresh command program say).console.buffer = console.buffer := by
  cases program <;> rfl

theorem buffer_onMachine (command : Command) (act : Machine → Machine × String) :
    (console.onMachine command act).console.buffer = console.buffer := by
  cases hm : console.machine <;> simp only [onMachine, hm]

/-- Commands leave the open lines alone. -/
theorem buffer_execute (now : Nat) (command : Command) :
    (execute read now console command).console.buffer = console.buffer := by
  rw [execute]
  cases console.resolve command with
  | none => rfl
  | some command =>
    cases command with
    | load path => exact buffer_fresh _ _ _
    | snippet text => exact buffer_fresh _ _ _
    | step count => exact buffer_onMachine _ _
    | print => exact buffer_onMachine _ _
    | _ => rfl

namespace Entered

theorem batched (h : Entered read past console) :
    ∃ batches rest, Batched past console.buffer batches rest := by
  induction h with
  | new => exact ⟨[], [], rfl, rfl, rfl, by simp, .nil⟩
  | line line _ ih =>
    obtain ⟨batches, rest, hb⟩ := ih
    exact hb.enter line
  | command now command _ ih =>
    rw [buffer_execute]
    exact ih

theorem turn (h : Entered read past console) (now : Nat) (line : String) :
    Entered read (past ++ [(line, (console.enterLine line).2)])
      (Console.turn read now console line).console := by
  have hline := h.line line
  rw [Console.turn]
  generalize console.enterLine line = entered at hline ⊢
  rcases entered with ⟨console', e | _ | command⟩
  · exact hline
  · exact hline
  · have hcommand := hline.command now command
    dsimp only
    split
    · exact hcommand
    · exact hcommand

theorem session (h : Entered read past console) (now : Nat) (lines : List String) :
    ∃ past', past'.map Prod.fst = past.map Prod.fst ++ lines ∧
      Entered read past' (Console.session read now console lines) := by
  induction lines generalizing past console with
  | nil => exact ⟨past, by simp, h⟩
  | cons line lines ih =>
    obtain ⟨past', hpast, hentered⟩ := ih (h.turn now line)
    exact ⟨past', by simpa using hpast, hentered⟩

end Entered

/-- Lines are neither lost nor read twice: however lines and commands follow on each other, the
texts that are read and the buffer together are the lines, each with its newline. A text is read as
soon as it does not open more braces than it closes, and a line that fails leaves nothing in the
buffer. -/
theorem lines_are_read_once (read : FileReader) :
    (∀ past console, Entered read past console →
      ∃ (batches : List (List String)) (rest : List String),
      past.map Prod.fst = batches.flatten ++ rest ∧
      past.map Prod.snd = batches.flatMap answers ++ rest.map (fun _ => .ok none) ∧
      String.join (batches.map textOf) ++ console.buffer = textOf (past.map Prod.fst) ∧
      console.buffer = textOf rest ∧
      (∀ batch ∈ batches, batch ≠ [] ∧
        (textOf batch).toList.count '\x7b' ≤ (textOf batch).toList.count '\x7d' ∧
        ∀ k, 0 < k → k < batch.length →
          (textOf (batch.take k)).toList.count '\x7d' <
            (textOf (batch.take k)).toList.count '\x7b') ∧
      ∀ k, 0 < k → k ≤ rest.length →
        (textOf (rest.take k)).toList.count '\x7d' < (textOf (rest.take k)).toList.count '\x7b') ∧
      (∀ now lines, ∃ past, past.map Prod.fst = lines ∧
        Entered read past (session read now {} lines)) ∧
      ∀ (console : Console) line e, (console.enterLine line).2 = .error e →
        (console.enterLine line).1.buffer = "" := by
  refine ⟨?_, ?_, ?_⟩
  · intro past console h
    obtain ⟨batches, rest, hb⟩ := h.batched
    refine ⟨batches, rest, hb.lines, hb.answers, ?_, hb.buffer, ?_, hb.pending⟩
    · rw [hb.lines, textOf_append, textOf_flatten, hb.buffer]
    · intro batch hbatch
      have hcomplete := hb.complete batch hbatch
      exact ⟨hcomplete.ne_nil, Nat.le_of_not_lt hcomplete.closed, hcomplete.unclosed⟩
  · intro now lines
    exact Entered.new.session now lines
  · intro console line e he
    apply buffer_enterLine
    rw [he]
    rintro ⟨⟩

/-- A line that fails is gone, and a brace closed too often is not held against later lines. -/
example :
    issued "" [".st x", "\x7d", "\x7b", "\x7d"] = [.snippet "\x7d", .snippet "\x7b\n\x7d"] := by
  decide

end Consoles

end GlyphScript.Console
