import GlyphScript.Peg.Trail

/-! # Matching a grammar

`Grammar.run` matches an expression at a place of the input. It gives the place behind the match and
the trees of the rules inside, and in any case the trail of failures. The first argument bounds the
depth of nested calls.
-/

namespace GlyphScript.Peg

/-- Whether blanks are skipped, and whether rules inside are visible. -/
inductive Spacing where
  | free
  | tight
  | hidden
  deriving DecidableEq, Repr

/-- Whether the match is only looked at, and with which sense. -/
inductive Looking where
  | no
  | positive
  | negative
  deriving DecidableEq, Repr

def Looking.negate : Looking → Looking
  | .negative => .positive
  | _ => .negative

structure Mode where
  spacing : Spacing := .free
  looking : Looking := .no

namespace Mode

/-- The mode inside a rule. -/
def inside (m : Mode) : Style → Mode
  | .atomic => { m with spacing := .hidden }
  | .compound => { m with spacing := .tight }
  | _ => m

/-- The mode in which a rule itself is reported. -/
def around (m : Mode) : Style → Mode
  | .compound => { m with spacing := .tight }
  | _ => m

def isVisible (m : Mode) : Bool := m.spacing ≠ .hidden

/-- Whether a matched rule leaves a node. -/
def keepsNodes (m : Mode) : Bool := m.isVisible && m.looking = .no

/-- Whether the outcome of a rule counts as a failure. -/
def fails (m : Mode) (matched : Bool) : Bool := matched == (m.looking == .negative)

end Mode

structure Outcome (R : Type) where
  hit : Option (Cursor × List (ParseTree R))
  trail : Trail R

namespace Outcome

variable {R : Type}

def miss (t : Trail R) : Outcome R := ⟨none, t⟩

def done (c : Cursor) (t : Trail R) : Outcome R := ⟨some (c, []), t⟩

/-- Puts trees in front of those of a later match. -/
def prepend (trees : List (ParseTree R)) (o : Outcome R) : Outcome R :=
  { o with hit := o.hit.map fun (c, ts) => (c, trees ++ ts) }

end Outcome

namespace Grammar

variable {R : Type}

def gap (g : Grammar R) (m : Mode) (c : Cursor) : Cursor :=
  if m.spacing = .free then g.skip c else c

/-- Records how a rule came out, and makes its node. -/
def close (r : R) (style : Style) (m : Mode) (c : Cursor) (t : Trail R) (o : Outcome R) :
    Outcome R :=
  if style = .silent then o
  else
    let m := m.around style
    let trail :=
      if m.isVisible && m.fails o.hit.isSome then
        o.trail.note c.position (t.mark c.position) r (m.looking == .negative)
      else o.trail
    let hit := o.hit.map fun (d, trees) =>
      (d, if m.keepsNodes then [ParseTree.node r (c.between d) trees] else [])
    ⟨hit, trail⟩

mutual

def run (g : Grammar R) : Nat → Mode → Expr R → Cursor → Trail R → Outcome R
  | 0, _, _, _, t => .miss t
  | fuel + 1, m, e, c, t =>
    match e with
    | .char accepts =>
      match c.rest with
      | x :: xs => if accepts x then .done ⟨c.position + 1, xs⟩ t else .miss t
      | [] => .miss t
    | .text cs =>
      match c.after? cs with
      | some d => .done d t
      | none => .miss t
    | .start => if c.position = 0 then .done c t else .miss t
    | .finish => if c.rest.isEmpty then .done c t else .miss t
    | .rule r => close r (g.style r) m c t (run g fuel (m.inside (g.style r)) (g.body r) c t)
    | .seq a b =>
      match run g fuel m a c t with
      | ⟨some (d, trees), t⟩ => (run g fuel m b (g.gap m d) t).prepend trees
      | ⟨none, t⟩ => .miss t
    | .alt a b =>
      match run g fuel m a c t with
      | ⟨some hit, t⟩ => ⟨some hit, t⟩
      | ⟨none, t⟩ => run g fuel m b c t
    | .opt a =>
      match run g fuel m a c t with
      | ⟨some hit, t⟩ => ⟨some hit, t⟩
      | ⟨none, t⟩ => .done c t
    | .many a =>
      match run g fuel m a c t with
      | ⟨some (d, trees), t⟩ => (more g fuel m a d t).prepend trees
      | ⟨none, t⟩ => .done c t
    | .absent a =>
      match run g fuel { m with looking := m.looking.negate } a c t with
      | ⟨some _, t⟩ => .miss t
      | ⟨none, t⟩ => .done c t

/-- Further repetitions; the blanks in front of one that does not match are not consumed. -/
def more (g : Grammar R) : Nat → Mode → Expr R → Cursor → Trail R → Outcome R
  | 0, _, _, _, t => .miss t
  | fuel + 1, m, a, c, t =>
    match run g fuel m a (g.gap m c) t with
    | ⟨some (d, trees), t⟩ => (more g fuel m a d t).prepend trees
    | ⟨none, t⟩ => .done c t

end

/-- A bound on the depth for an input: the rules of a grammar without left recursion nest a bounded
number of calls before they consume a character. -/
def depth (cs : List Char) : Nat := 64 * (cs.length + 4)

/-- Matches a rule from the start of the input. The rule itself has to ask for the end of the
input. -/
def parse (g : Grammar R) (r : R) (cs : List Char) : Except (Trail R) (List (ParseTree R)) :=
  let o := g.run (depth cs) {} (.rule r) (.ofText cs) {}
  match o.hit with
  | some (_, trees) => .ok trees
  | none => .error o.trail

end Grammar

end GlyphScript.Peg
