import GlyphScript.Machine.Step

/-! # The scopes on the stack

The frames with a scope form one chain: each names the next one below it as its parent, the lowest
one names the root frame, and the base register holds the topmost one. All that a handler does to
the scopes is to push a frame, to change the scope of the base, or to cut the stack below the base.
-/

namespace GlyphScript

/-- The scopes of the frames from the root upwards, chained by their parents up to the one at a
place. -/
inductive Linked : List (Option Scope) → Nat → Prop where
  | root : Linked [none] 0
  | plain {l : List (Option Scope)} {b : Nat} : Linked l b → Linked (l ++ [none]) b
  | scope {l : List (Option Scope)} {s : Scope} : Linked l s.parent →
      Linked (l ++ [some s]) l.length

def openScopes (l : List (Option Scope)) : List Scope := l.reverse.filterMap id

/-- A place is that of the topmost scope below another one, or the root if there is none. -/
def TopmostScope (l : List (Option Scope)) (i b : Nat) : Prop :=
  (b < i ∧ (∃ s, l[b]? = some (some s)) ∧ ∀ j, b < j → j < i → ∀ s, l[j]? ≠ some (some s)) ∨
    (b = 0 ∧ ∀ j < i, ∀ s, l[j]? ≠ some (some s))

section Lists

variable {l below above : List (Option Scope)} {b : Nat}

theorem modify_append_cons {α : Type} (below above : List α) (x : α) (f : α → α) :
    (below ++ x :: above).modify below.length f = below ++ f x :: above := by
  induction below with
  | nil => rfl
  | cons y below ih => simpa using ih

theorem map_modify {α β : Type} {f : α → α} {g : α → β} {k : β → β} (h : ∀ a, g (f a) = k (g a))
    (l : List α) (i : Nat) : (l.modify i f).map g = (l.map g).modify i k := by
  induction l generalizing i with
  | nil => simp
  | cons a l ih => cases i <;> simp [h, ih]

theorem map_modify_of_eq {α β : Type} {f : α → α} {g : α → β} (h : ∀ a, g (f a) = g a) (l : List α)
    (i : Nat) : (l.modify i f).map g = l.map g := by
  have hm := map_modify (k := id) h l i
  rwa [List.modify_id] at hm

theorem modify_congr {α : Type} {f g : α → α} {l : List α} {i : Nat} {x : α} (h : l[i]? = some x)
    (hx : f x = g x) : l.modify i f = l.modify i g := by
  apply List.ext_getElem?
  intro j
  rw [List.getElem?_modify, List.getElem?_modify]
  by_cases hj : i = j
  · subst hj
    simp [h, hx]
  · simp [hj]

theorem openScopes_append (l l' : List (Option Scope)) :
    openScopes (l ++ l') = openScopes l' ++ openScopes l := by
  simp [openScopes]

theorem openScopes_of_none (h : ∀ x ∈ l, x = none) : openScopes l = [] := by
  simpa [openScopes] using h

theorem openScopes_split (x : Option Scope) (ha : ∀ y ∈ above, y = none) :
    openScopes (below ++ x :: above) = x.toList ++ openScopes below := by
  have hx : openScopes [x] = x.toList := by cases x <;> rfl
  rw [← List.singleton_append, openScopes_append, openScopes_append, openScopes_of_none ha, hx]
  rfl

theorem TopmostScope.append {i : Nat} (l' : List (Option Scope)) (hi : i ≤ l.length)
    (h : TopmostScope l i b) : TopmostScope (l ++ l') i b := by
  have hl : ∀ j < i, (l ++ l')[j]? = l[j]? := fun j hj => List.getElem?_append_left (by omega)
  rcases h with ⟨hb, ⟨s, hs⟩, hj⟩ | ⟨rfl, hj⟩
  · exact Or.inl ⟨hb, ⟨s, by rw [hl b hb, hs]⟩, fun j h h' => by rw [hl j h']; exact hj j h h'⟩
  · exact Or.inr ⟨rfl, fun j h => by rw [hl j h]; exact hj j h⟩

theorem getElem?_snoc {x : Option Scope} {i : Nat} {s : Scope}
    (h : (l ++ [x])[i]? = some (some s)) :
    i < l.length ∧ l[i]? = some (some s) ∨ i = l.length ∧ x = some s := by
  rcases Nat.lt_or_ge i l.length with hi | hi
  · exact Or.inl ⟨hi, by rwa [List.getElem?_append_left hi] at h⟩
  · rw [List.getElem?_append_right hi, List.getElem?_singleton] at h
    split at h
    · exact Or.inr ⟨by omega, by simpa using h⟩
    · simp at h

namespace Linked

theorem pad (h : Linked l b) (ha : ∀ x ∈ above, x = none) : Linked (l ++ above) b := by
  induction above generalizing l with
  | nil => simpa using h
  | cons x above ih =>
    obtain rfl := ha x (by simp)
    have hp := ih h.plain fun y hy => ha y (by simp [hy])
    simpa using hp

/-- Above the place there are no scopes. At the place is the root, or a scope whose parent is the
place of the scopes below. -/
theorem split (h : Linked l b) :
    ∃ below x above, l = below ++ x :: above ∧ below.length = b ∧ (∀ y ∈ above, y = none) ∧
      (x = none ∧ below = [] ∨ ∃ s, x = some s ∧ Linked below s.parent) := by
  induction h with
  | root => exact ⟨[], none, [], rfl, rfl, by simp, Or.inl ⟨rfl, rfl⟩⟩
  | plain _ ih =>
    obtain ⟨below, x, above, rfl, hb, ha, hx⟩ := ih
    refine ⟨below, x, above ++ [none], by simp, hb, ?_, hx⟩
    intro y hy
    rcases List.mem_append.mp hy with hy | hy
    · exact ha y hy
    · simpa using hy
  | @scope l s h _ => exact ⟨l, some s, [], by simp, rfl, by simp, Or.inr ⟨s, rfl, h⟩⟩

theorem head?_openScopes (h : Linked l b) : (openScopes l).head? = l[b]?.join := by
  obtain ⟨below, x, above, rfl, rfl, ha, ⟨rfl, rfl⟩ | ⟨s, rfl, _⟩⟩ := h.split
  · rw [openScopes_split none ha]
    rfl
  · simp [openScopes_split (some s) ha]

theorem modify (h : Linked l b) {f : Scope → Scope} (hf : ∀ s, (f s).parent = s.parent) :
    Linked (l.modify b (Option.map f)) b := by
  obtain ⟨below, x, above, rfl, rfl, ha, ⟨rfl, rfl⟩ | ⟨s, rfl, hs⟩⟩ := h.split
  · exact Linked.root.pad ha
  · rw [modify_append_cons]
    have hl : Linked (below ++ [some (f s)]) below.length := .scope (hf s ▸ hs)
    simpa using hl.pad ha

theorem openScopes_modify (h : Linked l b) (f : Scope → Scope) :
    openScopes (l.modify b (Option.map f)) = (openScopes l).modifyHead f := by
  obtain ⟨below, x, above, rfl, rfl, ha, ⟨rfl, rfl⟩ | ⟨s, rfl, _⟩⟩ := h.split
  · rw [modify_append_cons, openScopes_split _ ha, openScopes_split none ha]
    rfl
  · rw [modify_append_cons, openScopes_split _ ha, openScopes_split _ ha]
    rfl

/-- Below a scope, the chain goes on from its parent. -/
theorem cut (h : Linked l b) {s : Scope} (hs : l[b]? = some (some s)) :
    Linked (l.take b) s.parent ∧ openScopes l = s :: openScopes (l.take b) := by
  obtain ⟨below, x, above, rfl, rfl, ha, ⟨rfl, rfl⟩ | ⟨s', rfl, hl⟩⟩ := h.split
  · simp at hs
  · obtain rfl : s' = s := by simpa using hs
    exact ⟨by simpa using hl, by simp [openScopes_split _ ha]⟩

theorem lt_length (h : Linked l b) : b < l.length := by
  obtain ⟨below, x, above, rfl, rfl, _⟩ := h.split
  simp

theorem root_none (h : Linked l b) : l[0]? = some none := by
  induction h with
  | root => rfl
  | plain h ih => rw [List.getElem?_append_left (by have := h.lt_length; omega), ih]
  | scope h ih => rw [List.getElem?_append_left (by have := h.lt_length; omega), ih]

theorem topmost (h : Linked l b) : TopmostScope l l.length b := by
  obtain ⟨below, x, above, rfl, rfl, ha, hx⟩ := h.split
  have hno : ∀ j, below.length < j → ∀ s, (below ++ x :: above)[j]? ≠ some (some s) := by
    intro j hj s hs
    rw [List.getElem?_append_right (Nat.le_of_lt hj), List.getElem?_cons] at hs
    split at hs
    · omega
    · exact Option.some_ne_none s (ha _ (List.mem_of_getElem? hs))
  rcases hx with ⟨rfl, rfl⟩ | ⟨s, rfl, _⟩
  · refine Or.inr ⟨rfl, fun j _ s hs => ?_⟩
    rcases Nat.eq_zero_or_pos j with rfl | hj
    · simp at hs
    · exact hno j hj s hs
  · exact Or.inl ⟨by simp, ⟨s, by simp⟩, fun j hj _ => hno j hj⟩

/-- Every scope lies above its parent, which is the topmost scope below it. -/
theorem parent (h : Linked l b) {i : Nat} {s : Scope} (hs : l[i]? = some (some s)) :
    s.parent < i ∧ TopmostScope l i s.parent := by
  induction h with
  | root => rcases i with _ | i <;> simp at hs
  | plain _ ih =>
    rcases getElem?_snoc hs with ⟨hi, hs⟩ | ⟨_, hs⟩
    · exact ⟨(ih hs).1, (ih hs).2.append _ (Nat.le_of_lt hi)⟩
    · simp at hs
  | scope h ih =>
    rcases getElem?_snoc hs with ⟨hi, hs⟩ | ⟨rfl, he⟩
    · exact ⟨(ih hs).1, (ih hs).2.append _ (Nat.le_of_lt hi)⟩
    · obtain rfl := Option.some.inj he
      exact ⟨h.lt_length, h.topmost.append _ (Nat.le_refl _)⟩

end Linked

end Lists

/-- A scope belongs to a trigger of the program, which runs its body once per tag and at least
once. -/
structure Scope.Fits (program : Program) (s : Scope) : Prop where
  count_lt : s.cycle.count < s.cycle.maxim
  trigger : ∃ instr, program.fetch? s.address = some instr ∧ instr.op = .trigger ∧
    s.cycle.maxim = max 1 instr.tags.length ∧ s.cycle.start = instr.first ∧
    s.cycle.ret = instr.second

theorem Scope.Fits.congr {program : Program} {s s' : Scope} (h : s.Fits program)
    (hc : s'.cycle = s.cycle) (ha : s'.address = s.address) : s'.Fits program :=
  ⟨by rw [hc]; exact h.count_lt, by rw [hc, ha]; exact h.trigger⟩

namespace Machine

def scoping (m : Machine) : List (Option Scope) := m.stack.map Frame.scope

def scopes (m : Machine) : List Scope := openScopes m.scoping

/-- The scopes are chained from the base down, fit the program, and the top register is up to
date. -/
structure WellScoped (m : Machine) : Prop where
  linked : Linked m.scoping m.registers.bsp
  esp : m.registers.esp = m.scoping.length - 1
  fits : ∀ s, some s ∈ m.scoping → s.Fits m.program

variable {m m' : Machine}

theorem getElem?_scoping (m : Machine) (i : Nat) : m.scoping[i]? = m.stack[i]?.map Frame.scope := by
  simp [scoping]

theorem scope?_eq (m : Machine) : m.scope? = m.scoping[m.registers.bsp]?.join := by
  rw [getElem?_scoping, scope?, base?]
  cases m.stack[m.registers.bsp]? <;> rfl

@[simp] theorem scoping_push (m : Machine) (frame : Frame) :
    (m.push frame).scoping = m.scoping ++ [frame.scope] := by
  simp [scoping, push]

theorem scoping_modifyBase {f : Frame → Frame} (hf : ∀ frame, (f frame).scope = frame.scope) :
    (m.modifyBase f).scoping = m.scoping :=
  map_modify_of_eq hf m.stack m.registers.bsp

theorem scoping_modifyScope (m : Machine) (f : Scope → Scope) :
    (m.modifyScope f).scoping = m.scoping.modify m.registers.bsp (Option.map f) := by
  apply map_modify
  intro frame
  rfl

namespace WellScoped

theorem congr (h : m.WellScoped) (hp : m'.program = m.program) (hs : m'.scoping = m.scoping)
    (hb : m'.registers.bsp = m.registers.bsp) (he : m'.registers.esp = m.registers.esp) :
    m'.WellScoped := by
  refine ⟨?_, ?_, ?_⟩
  · rw [hs, hb]; exact h.linked
  · rw [hs, he]; exact h.esp
  · rw [hs, hp]; exact h.fits

theorem scope?_eq_head? (h : m.WellScoped) : m.scope? = m.scopes.head? := by
  rw [scope?_eq, scopes, h.linked.head?_openScopes]

/-- Without an open scope the base is the root frame. -/
theorem of_scopes_nil (h : m.WellScoped) (hs : m.scopes = []) :
    m.registers.bsp = 0 ∧ ∀ frame ∈ m.stack, frame.scope = none := by
  obtain ⟨below, x, above, hl, hb, ha, hx⟩ := h.linked.split
  rw [scopes, hl, openScopes_split x ha] at hs
  rcases hx with ⟨rfl, rfl⟩ | ⟨s, rfl, _⟩
  · refine ⟨hb.symm, fun frame hf => ?_⟩
    have hmem : frame.scope ∈ m.scoping := List.mem_map_of_mem hf
    rw [hl] at hmem
    rcases List.mem_cons.mp hmem with hnone | hmem
    · exact hnone
    · exact ha _ hmem
  · cases hs

theorem bsp_lt (h : m.WellScoped) : m.registers.bsp < m.stack.length := by
  simpa [scoping] using h.linked.lt_length

theorem base?_isSome (h : m.WellScoped) : m.base?.isSome := by
  simp [base?, h.bsp_lt]

theorem modifyScope (h : m.WellScoped) {f : Scope → Scope} (hp : ∀ s, (f s).parent = s.parent)
    (hf : ∀ s, m.scope? = some s → s.Fits m.program → (f s).Fits m.program) :
    (m.modifyScope f).WellScoped := by
  refine ⟨?_, ?_, ?_⟩
  · rw [scoping_modifyScope]
    exact h.linked.modify hp
  · rw [scoping_modifyScope, List.length_modify]
    exact h.esp
  · intro s hs
    rw [scoping_modifyScope] at hs
    obtain ⟨i, hi⟩ := List.getElem?_of_mem hs
    rw [List.getElem?_modify] at hi
    by_cases hb : m.registers.bsp = i
    · obtain ⟨x, hx, hs⟩ := Option.map_eq_some_iff.mp hi
      rw [if_pos hb] at hs
      obtain ⟨s, rfl, rfl⟩ := Option.map_eq_some_iff.mp hs
      exact hf s (by rw [scope?_eq, hb, hx]; rfl) (h.fits s (List.mem_of_getElem? hx))
    · obtain ⟨x, hx, hs⟩ := Option.map_eq_some_iff.mp hi
      rw [if_neg hb] at hs
      exact h.fits s (List.mem_of_getElem? (hs ▸ hx))

theorem scopes_modifyScope (h : m.WellScoped) (f : Scope → Scope) :
    (m.modifyScope f).scopes = m.scopes.modifyHead f := by
  rw [scopes, scoping_modifyScope, h.linked.openScopes_modify]
  rfl

end WellScoped

end Machine

end GlyphScript
