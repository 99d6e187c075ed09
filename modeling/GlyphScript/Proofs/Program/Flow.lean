import GlyphScript.Proofs.Program.Placement

/-! # The shape of compiled code

An instruction of a compiled program leads nowhere, to an instruction behind it, or back to a
trigger whose body holds it. Only a trigger without a body leads to itself. Bodies lie one in
another or apart from each other. So control goes forward as long as it does not come to a trigger,
and it cannot go in a circle without passing one.
-/

namespace GlyphScript

namespace Placed

variable {forest : Forest} {node inner : Node} {a b : Nat} {d e : Address}

theorem unique (h : Placed forest node a d) (h' : Placed forest inner a e) : node = inner :=
  Option.some.inj (h.preorder.symm.trans h'.preorder)

theorem end_le (h : Placed forest node a d) : a + node.span ≤ Node.spans forest := by
  have hlt : a < Node.spans forest := lt_spans_iff_placed.mpr ⟨node, d, h⟩
  obtain ⟨n, e, hp, hle⟩ := Placed.exists_among forest .top (Nat.zero_le a) (by omega)
  obtain rfl := h.unique hp
  omega

/-- A node behind another one in preorder stands behind its tree or has its own tree in it. -/
theorem apart_or_nested (h : Placed forest node a d) (h' : Placed forest inner b e) (hab : a < b) :
    a + node.span ≤ b ∨ b + inner.span ≤ a + node.span := by
  obtain ⟨ret, rest, hs, _⟩ := h
  rcases Nat.lt_or_ge b (a + node.span) with hlt | hge
  · obtain ⟨n, e, hp, hle⟩ := Placed.exists_inside node hs (Nat.le_of_lt hab) hlt
    obtain rfl := h'.unique hp
    exact .inr hle
  · exact .inl hge

end Placed

namespace Image

variable {symbols : Link.Symbols} {timestamp a : Nat} {d : Address} {node : Node}
  {instr : Instruction String}

theorem bodyEnd_leaf (h : Image symbols timestamp node a d instr) (hbody : node.body = []) :
    instr.bodyEnd = none := by
  rw [h.bodyEnd, if_pos hbody]
  rfl

theorem bodyEnd_inner (h : Image symbols timestamp node a d instr) (hbody : node.body ≠ []) :
    instr.bodyEnd = some ((a + node.span : Nat) : Address) := by
  rw [h.bodyEnd, if_neg hbody]
  rfl

theorem stop_eq (h : Image symbols timestamp node a d instr) : instr.stop a = a + node.span := by
  have hspan := node.span_eq
  by_cases hbody : node.body = []
  · simp only [Instruction.stop, h.bodyEnd_leaf hbody]
    rw [hspan, hbody]
    rfl
  · have hlt : (a : Address) < (a + node.span : Nat) := Int.ofNat_lt.mpr (by omega)
    simp only [Instruction.stop, h.bodyEnd_inner hbody, if_pos hlt, Int.toNat_natCast]

end Image

namespace Program

/-- Where an instruction may lead: nowhere, ahead, back to a trigger around it, or to itself if it
is a trigger without a body. -/
inductive LeadsTo (program : Program) (a : Nat) (instr : Instruction String) : Address → Prop where
  | ends : LeadsTo program a instr nowhere
  | ahead {b : Nat} : a < b → b < program.size → LeadsTo program a instr b
  | back {b : Nat} {trigger : Instruction String} : program.decode b = .ok trigger →
      trigger.op = .trigger → a ∈ trigger.bodyAddresses b → LeadsTo program a instr b
  | itself : instr.op = .trigger → instr.bodyEnd = none → LeadsTo program a instr a

/-- Control can go from an address to another one along successors, and leaves the given
addresses. -/
inductive Flows (program : Program) : Nat → List Nat → Nat → Prop where
  | nil (a : Nat) : Flows program a [] a
  | cons {a b c : Nat} {path : List Nat} {instr : Instruction String} :
      program.decode a = .ok instr →
      (b : Address) ∈ instr.next → Flows program b path c → Flows program a (a :: path) c

def TriggerAt (program : Program) (a : Nat) : Prop :=
  ∃ instr, program.decode a = .ok instr ∧ instr.op = .trigger

variable {program : Program} {a b c : Nat} {path : List Nat} {instr : Instruction String}

theorem LeadsTo.lt (h : program.LeadsTo a instr (b : Nat)) (hd : program.decode a = .ok instr)
    (hb : ¬ program.TriggerAt b) : a < b := by
  generalize ht : (b : Address) = t at h
  cases h with
  | ends => cases ht
  | ahead hlt _ =>
    obtain rfl := Int.ofNat_inj.mp ht
    exact hlt
  | back hd' hop _ =>
    obtain rfl := Int.ofNat_inj.mp ht
    exact absurd ⟨_, hd', hop⟩ hb
  | itself hop _ =>
    obtain rfl := Int.ofNat_inj.mp ht
    exact absurd ⟨_, hd, hop⟩ hb

theorem Flows.start_mem (h : Flows program a path c) : a ∈ path ∨ a = c := by
  cases h with
  | nil => exact .inr rfl
  | cons _ _ _ => exact .inl List.mem_cons_self

/-- Control that meets no trigger goes forward. -/
theorem Flows.lt
    (hleads : ∀ (a : Nat) instr, program.decode a = .ok instr →
      ∀ t ∈ instr.next, program.LeadsTo a instr t)
    (h : Flows program a path c) (hpath : ∀ x ∈ path, ¬ program.TriggerAt x)
    (hc : ¬ program.TriggerAt c) (hne : path ≠ []) : a < c := by
  induction h with
  | nil => exact absurd rfl hne
  | @cons a b c path instr hd hb hrest ih =>
    have hafter : ∀ x ∈ path, ¬ program.TriggerAt x :=
      fun x hx => hpath x (List.mem_cons_of_mem _ hx)
    have htrigger : ¬ program.TriggerAt b := by
      rcases hrest.start_mem with hmem | rfl
      · exact hafter b hmem
      · exact hc
    have hlt : a < b := (hleads a instr hd b hb).lt hd htrigger
    by_cases hend : path = []
    · subst hend
      cases hrest
      exact hlt
    · exact Nat.lt_trans hlt (ih hafter hc hend)

end Program

section Compiled

variable {forest : Forest} {timestamp : Nat} {program : Program}

theorem Placed.leadsTo {node : Node} {a : Nat} {d : Address} {instr : Instruction String}
    (hp : Placed forest node a d) (h : compile forest timestamp = .ok program)
    (himage : Image program.symbols timestamp node a d instr) {t : Address} (ht : t ∈ instr.next) :
    program.LeadsTo a instr t := by
  have hsize := compile_size h
  have hspan := node.span_eq
  rcases himage.mem_next ht with ⟨rfl, hop, hbody⟩ | ⟨rfl, hbody⟩ | rfl
  · exact .itself (himage.op.trans hop) (himage.bodyEnd_leaf hbody)
  · obtain ⟨child, rest, hcons⟩ := List.exists_cons_of_ne_nil hbody
    have hend := hp.end_le
    have hchild := child.span_eq
    rw [hcons, Node.spans] at hspan
    exact .ahead (by omega) (by omega)
  · generalize hexit : node.span = n at hspan
    have he := hp.exit
    rw [hexit] at he
    cases he with
    | ends => exact .ends
    | ahead hb hlt => exact .ahead (by omega) (by omega)
    | back hp' hop hlt hin =>
      obtain ⟨trigger, hd, himage'⟩ := hp'.image h
      refine .back hd (himage'.op.trans hop) (Instruction.mem_bodyAddresses.mpr ⟨hlt, ?_⟩)
      rw [himage'.stop_eq]
      omega

theorem compile_leadsTo (h : compile forest timestamp = .ok program) (a : Nat)
    (instr : Instruction String) (hd : program.decode a = .ok instr) :
    ∀ t ∈ instr.next, program.LeadsTo a instr t := by
  obtain ⟨node, b, d, hp, hab, himage⟩ := compile_decode h hd
  obtain rfl := Int.ofNat_inj.mp hab
  exact fun t ht => hp.leadsTo h himage ht

theorem compile_bodies (h : compile forest timestamp = .ok program) {a b : Nat}
    {outer inner : Instruction String} (ha : program.decode a = .ok outer)
    (hb : program.decode b = .ok inner) (hab : a < b) :
    outer.stop a ≤ b ∨ b ∈ outer.bodyAddresses a ∧ inner.stop b ≤ outer.stop a := by
  obtain ⟨node, a', d, hp, haa, himage⟩ := compile_decode h ha
  obtain rfl := Int.ofNat_inj.mp haa
  obtain ⟨node', b', d', hp', hbb, himage'⟩ := compile_decode h hb
  obtain rfl := Int.ofNat_inj.mp hbb
  have hspan := node'.span_eq
  rw [Instruction.mem_bodyAddresses, himage.stop_eq, himage'.stop_eq]
  rcases hp.apart_or_nested hp' hab with hout | hin
  · exact .inl hout
  · exact .inr ⟨⟨hab, by omega⟩, hin⟩

/-- The successors of each instruction of a compiled program lead nowhere, ahead, or back to a
trigger around it, but for triggers without a body. Bodies end within the program and lie one in
another or apart. So control that comes back to where it was has passed a trigger. -/
theorem compile_flow (h : compile forest timestamp = .ok program) :
    (∀ a < program.size, ∃ instr, program.decode a = .ok instr ∧
      (∀ t ∈ instr.next, program.LeadsTo a instr t) ∧
      ∀ stop, instr.bodyEnd = some stop → (a : Address) < stop ∧ stop ≤ program.size) ∧
    (∀ (a b : Nat) outer inner, program.decode a = .ok outer → program.decode b = .ok inner →
      a < b → outer.stop a ≤ b ∨ b ∈ outer.bodyAddresses a ∧ inner.stop b ≤ outer.stop a) ∧
    ∀ a path, program.Flows a path a → path ≠ [] → ∃ x ∈ path, program.TriggerAt x := by
  refine ⟨?_, fun a b outer inner ha hb hab => compile_bodies h ha hb hab, ?_⟩
  · intro a ha
    rw [compile_size h] at ha
    obtain ⟨node, d, hp⟩ := lt_spans_iff_placed.mp ha
    obtain ⟨instr, hd, himage⟩ := hp.image h
    refine ⟨instr, hd, compile_leadsTo h a instr hd, ?_⟩
    intro stop hstop
    have hspan := node.span_eq
    by_cases hbody : node.body = []
    · rw [himage.bodyEnd_leaf hbody] at hstop
      cases hstop
    · rw [himage.bodyEnd_inner hbody] at hstop
      cases hstop
      rw [compile_size h]
      exact ⟨Int.ofNat_lt.mpr (by omega), Int.ofNat_le.mpr hp.end_le⟩
  · intro a path hflows hne
    apply Classical.byContradiction
    intro hnone
    have hpath : ∀ x ∈ path, ¬ program.TriggerAt x := fun x hx htrigger => hnone ⟨x, hx, htrigger⟩
    have ha : ¬ program.TriggerAt a := by
      cases hflows with
      | nil => exact absurd rfl hne
      | cons _ _ _ => exact hpath _ List.mem_cons_self
    exact Nat.lt_irrefl a (hflows.lt (compile_leadsTo h) hpath ha hne)

end Compiled

theorem compile_flow_nested :
    ∃ program, compile nestedForest 7 = .ok program ∧ program.Flows 1 [1, 2, 3] 1 ∧
      (∃ instr, program.decode 3 = .ok instr ∧ instr.next = [1] ∧ program.LeadsTo 3 instr 1) ∧
      ∃ x ∈ [1, 2, 3], program.TriggerAt x := by
  let program := Link.link (Layout.ofForest 7 nestedForest) (Layout.entry nestedForest)
  have h : compile nestedForest 7 = .ok program := rfl
  have hround : program.Flows 1 [1, 2, 3] 1 :=
    .cons rfl (List.mem_cons_self)
      (.cons rfl (List.mem_cons_self) (.cons rfl (List.mem_cons_self) (.nil 1)))
  obtain ⟨hnext, _, hcycle⟩ := compile_flow h
  obtain ⟨instr, hd, hleads, _⟩ := hnext 3 (by decide +kernel)
  have hback : instr.next = [1] := by
    cases hd
    rfl
  exact ⟨program, h, hround, ⟨instr, hd, hback, hleads 1 (by rw [hback]; exact List.mem_cons_self)⟩,
    hcycle 1 _ hround (by simp)⟩

end GlyphScript
