import GlyphScript.Console.Session
import GlyphScript.Proofs.Machine.Runs

/-! # Sessions are programs and steps

All that a session leaves behind follows from the commands that have succeeded, an empty line
standing for the last one of them: the machine is that of the program compiled last, run for the
counts of steps since then.
-/

namespace GlyphScript.Console

def Command.program? (read : FileReader) (now : Nat) : Command → Option (Except Failure Program)
  | .load path => some (Source.programOfFile read now path)
  | .snippet text => some (Source.programOfText now text false)
  | _ => none

def Command.count? : Command → Option Nat
  | .step count => some count
  | _ => none

/-- A command leaves nothing behind that ends the session, or that stands for another one. -/
def Command.isRemembered : Command → Bool
  | .exit => false
  | .last => false
  | _ => true

/-- What a command stands for after others have succeeded. -/
def standsFor (past : List Command) : Command → Option Command
  | .last => past.getLast?
  | command => some command

/-- Whether a command fails after others have succeeded: its program must compile, and steps and
prints need one. -/
def fails (read : FileReader) (now : Nat) (past : List Command) (command : Command) : Bool :=
  match command with
  | .step _ => past.all fun c => (c.program? read now).isNone
  | .print => past.all fun c => (c.program? read now).isNone
  | _ => (command.program? read now).any fun program => !program.isOk

/-- The commands that have succeeded, after one more. -/
def record (read : FileReader) (now : Nat) (past : List Command) (command : Command) :
    List Command :=
  match standsFor past command with
  | some c => if c.isRemembered && !fails read now past c then past ++ [c] else past
  | none => past

/-- The command that a line completes after lines that are still open. -/
def completed (buffer line : String) : Option Command :=
  match (enterLine { buffer } line).2 with
  | .ok command => command
  | .error _ => none

def issued : String → List String → List Command
  | _, [] => []
  | buffer, line :: lines =>
    (completed buffer line).toList ++ issued (enterLine { buffer } line).1.buffer lines

/-- The commands that succeed in a session, in order. -/
def history (read : FileReader) (now : Nat) (lines : List String) : List Command :=
  (issued "" lines).foldl (record read now) []

def session (read : FileReader) (now : Nat) (console : Console) (lines : List String) : Console :=
  lines.foldl (fun console line => (turn read now console line).console) console

def runAll (now : Nat) (m : Machine) (counts : List Nat) : Machine :=
  counts.foldl (fun m n => (Machine.run { now } n m).machine) m

/-- The machine after commands have succeeded: there is none if no program was compiled, and else
that of the last one, run for the counts since then. -/
def Leaves (read : FileReader) (now : Nat) (past : List Command) (machine : Option Machine) :
    Prop :=
  (machine = none ∧ ∀ c ∈ past, c.program? read now = none) ∨
    ∃ before command since program, past = before ++ command :: since ∧
      command.program? read now = some (.ok program) ∧ (∀ c ∈ since, c.program? read now = none) ∧
      machine = some (runAll now (Machine.start program) (since.filterMap Command.count?))

/-- A console is what commands that have succeeded leave behind. -/
structure Follows (read : FileReader) (now : Nat) (past : List Command) (console : Console) :
    Prop where
  last : console.last = past.getLast?
  leaves : Leaves read now past console.machine

section Commands

variable {read : FileReader} {now : Nat} {past : List Command} {console : Console}
  {command : Command} {machine : Option Machine}

theorem runAll_append (now : Nat) (m : Machine) (counts counts' : List Nat) :
    runAll now m (counts ++ counts') = runAll now (runAll now m counts) counts' :=
  List.foldl_append

namespace Leaves

/-- A program that was compiled just now has made no steps. -/
theorem compiled (past : List Command) {program : Program}
    (hc : command.program? read now = some (.ok program)) :
    Leaves read now (past ++ [command]) (some (Machine.start program)) :=
  .inr ⟨past, command, [], program, rfl, hc, by simp, rfl⟩

/-- Other commands only add their steps. -/
theorem snoc (h : Leaves read now past machine) (hc : command.program? read now = none) :
    Leaves read now (past ++ [command])
      (machine.map fun m => runAll now m command.count?.toList) := by
  have hnone : ∀ {cs : List Command}, (∀ c ∈ cs, c.program? read now = none) →
      ∀ c ∈ cs ++ [command], c.program? read now = none := by
    rintro cs hcs c hmem
    rcases List.mem_append.mp hmem with hmem | hmem
    · exact hcs c hmem
    · rw [List.mem_singleton.mp hmem, hc]
  rcases h with ⟨rfl, hpast⟩ | ⟨before, c, since, program, rfl, hprogram, hsince, rfl⟩
  · exact .inl ⟨rfl, hnone hpast⟩
  · refine .inr ⟨before, c, since ++ [command], program, by simp, hprogram, hnone hsince, ?_⟩
    have hcounts : [command].filterMap Command.count? = command.count?.toList := by
      cases hcount : command.count? with
      | none => simp [hcount]
      | some n => simp [hcount]
    rw [List.filterMap_append, hcounts, runAll_append]
    rfl

/-- There is no machine exactly if no program was compiled. -/
theorem all_isNone (h : Leaves read now past machine) :
    (past.all fun c => (c.program? read now).isNone) = machine.isNone := by
  rcases h with ⟨rfl, hpast⟩ | ⟨before, c, since, program, rfl, hprogram, _, rfl⟩
  · rw [List.all_eq_true.mpr fun c hc => by rw [hpast c hc]; rfl]
    rfl
  · simp [hprogram]

end Leaves

/-- A command fails and changes nothing, or succeeds and is remembered. -/
def Fulfils (read : FileReader) (now : Nat) (past : List Command) (console : Console)
    (command : Command) (reply : Reply) : Prop :=
  (fails read now past command = true ∧ ∃ e, reply = { console, result := .error e }) ∨
    (fails read now past command = false ∧ reply.result.isOk = true ∧
      reply.console.buffer = console.buffer ∧
      Follows read now (if command.isRemembered then past ++ [command] else past) reply.console)

theorem fresh_fulfils {program : Except Failure Program}
    (hc : command.program? read now = some program)
    (hfails : fails read now past command = !program.isOk) (hr : command.isRemembered = true)
    (say : Nat → String) :
    Fulfils read now past console command (console.fresh command program say) := by
  cases program with
  | error e => exact .inl ⟨hfails, e, rfl⟩
  | ok program =>
    refine .inr ⟨hfails, rfl, rfl, ?_⟩
    rw [if_pos hr]
    exact ⟨List.getLast?_concat.symm, .compiled past hc⟩

theorem onMachine_fulfils (h : Follows read now past console)
    (hc : command.program? read now = none)
    (hfails : fails read now past command = past.all fun c => (c.program? read now).isNone)
    (hr : command.isRemembered = true) {act : Machine → Machine × String}
    (hact : ∀ m, (act m).1 = runAll now m command.count?.toList) :
    Fulfils read now past console command (console.onMachine command act) := by
  rw [h.leaves.all_isNone] at hfails
  have hsnoc := h.leaves.snoc hc
  cases hm : console.machine with
  | none =>
    rw [hm] at hfails
    exact .inl ⟨hfails, _, by rw [onMachine, hm]⟩
  | some m =>
    rw [hm] at hfails hsnoc
    refine .inr ⟨hfails, by rw [onMachine, hm]; rfl, by rw [onMachine, hm], ?_⟩
    rw [if_pos hr, onMachine, hm]
    refine ⟨List.getLast?_concat.symm, ?_⟩
    dsimp only
    rw [hact]
    exact hsnoc

theorem perform_fulfils (h : Follows read now past console) (command : Command) :
    Fulfils read now past console command (perform read now console command) := by
  have hquiet : ∀ c : Command, c.program? read now = none → c.count? = none →
      Follows read now (past ++ [c]) { console with last := some c } := by
    intro c hc hcount
    refine ⟨List.getLast?_concat.symm, ?_⟩
    simpa [hcount, runAll] using h.leaves.snoc hc
  cases command with
  | load path =>
    rw [perform]
    apply fresh_fulfils
    · rfl
    · rfl
    · rfl
  | snippet text =>
    rw [perform]
    apply fresh_fulfils
    · rfl
    · rfl
    · rfl
  | step count =>
    rw [perform]
    apply onMachine_fulfils h
    · rfl
    · rfl
    · rfl
    · exact fun m => (Machine.machine_run { now } count m).symm
  | print =>
    rw [perform]
    apply onMachine_fulfils h
    · rfl
    · rfl
    · rfl
    · exact fun m => rfl
  | clear => exact .inr ⟨rfl, rfl, rfl, hquiet .clear rfl rfl⟩
  | help => exact .inr ⟨rfl, rfl, rfl, hquiet .help rfl rfl⟩
  | exit => exact .inr ⟨rfl, rfl, rfl, h⟩
  | last => exact .inr ⟨rfl, rfl, rfl, h⟩

theorem execute_follows (h : Follows read now past console) (command : Command) :
    (execute read now console command).console.buffer = console.buffer ∧
      Follows read now (record read now past command) (execute read now console command).console ∧
      ((execute read now console command).result.isOk = false ↔
        ∃ c, standsFor past command = some c ∧ fails read now past c = true) := by
  have hresolve : console.resolve command = standsFor past command := by
    cases command with
    | last => exact h.last
    | _ => rfl
  rw [execute, hresolve, record]
  cases standsFor past command with
  | none => exact ⟨rfl, h, by simp [Except.isOk, Except.toBool]⟩
  | some c =>
    rcases perform_fulfils h c with ⟨hfails, e, he⟩ | ⟨hfails, hok, hbuffer, hfollows⟩
    · dsimp only
      rw [he, hfails]
      exact ⟨rfl, by simpa using h, by simp [hfails, Except.isOk, Except.toBool]⟩
    · dsimp only
      rw [hok, hfails, Bool.not_false, Bool.and_true]
      exact ⟨hbuffer, hfollows, by simp [hfails]⟩

/-- A command that fails changes nothing. -/
theorem console_of_error {e : Failure} (he : (execute read now console command).result = .error e) :
    (execute read now console command).console = console := by
  have hfresh : ∀ c program say, (fresh console c program say).result = .error e →
      (fresh console c program say).console = console := by
    rintro c (e | program) say hresult
    · rfl
    · cases hresult
  have hmachine : ∀ c act, (onMachine console c act).result = .error e →
      (onMachine console c act).console = console := by
    intro c act hresult
    cases hm : console.machine with
    | none => rw [onMachine, hm]
    | some m =>
      rw [onMachine, hm] at hresult
      cases hresult
  rw [execute] at he ⊢
  cases hc : console.resolve command with
  | none => rfl
  | some c =>
    rw [hc] at he
    cases c with
    | load path => exact hfresh _ _ _ he
    | snippet text => exact hfresh _ _ _ he
    | step count => exact hmachine _ _ he
    | print => exact hmachine _ _ he
    | _ => cases he

end Commands

/-! ## Lines -/

section Lines

variable {read : FileReader} {now : Nat} {past : List Command} {console : Console}

/-- Taking a line is a matter of the lines that are open. -/
theorem enterLine_eq (console : Console) (line : String) :
    console.enterLine line =
      ({ console with buffer := (enterLine { buffer := console.buffer } line).1.buffer },
        (enterLine { buffer := console.buffer } line).2) := by
  by_cases ho : 0 < openBraces (console.buffer ++ line ++ "\n").toList
  · simp only [enterLine, ho, if_true]
  · simp only [enterLine, ho, if_false]

theorem turn_follows (h : Follows read now past console) (line : String) :
    (turn read now console line).console.buffer =
      (enterLine { buffer := console.buffer } line).1.buffer ∧
      Follows read now ((completed console.buffer line).toList.foldl (record read now) past)
        (turn read now console line).console := by
  have hbuffered : ∀ buffer, Follows read now past { console with buffer } :=
    fun _ => ⟨h.last, h.leaves⟩
  rw [turn, enterLine_eq, completed]
  cases (enterLine { buffer := console.buffer } line).2 with
  | error e => exact ⟨rfl, hbuffered _⟩
  | ok command? =>
    cases command? with
    | none => exact ⟨rfl, hbuffered _⟩
    | some command =>
      obtain ⟨hbuffer, hfollows, _⟩ := execute_follows (hbuffered _) command
      dsimp only
      split
      · exact ⟨hbuffer, hfollows⟩
      · exact ⟨hbuffer, hfollows⟩

theorem session_follows (h : Follows read now past console) (lines : List String) :
    Follows read now ((issued console.buffer lines).foldl (record read now) past)
      (session read now console lines) := by
  -- Which commands come out depends on the open lines alone, so the history needs no console.
  induction lines generalizing past console with
  | nil => exact h
  | cons line lines ih =>
    obtain ⟨hbuffer, hfollows⟩ := turn_follows h line
    rw [issued, List.foldl_append, ← hbuffer]
    exact ih hfollows

/-- An empty line repeats the help, and there is nothing to step. -/
example (read : FileReader) : history read 0 [".help", "", ".step 2"] = [.help, .help] := rfl

end Lines

end GlyphScript.Console
