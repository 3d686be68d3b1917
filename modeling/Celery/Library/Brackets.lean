/-
# Matched brackets

A sequence is scanned with a stack of the closing brackets that are still to come: `scan`.  It is
balanced if a scan from the empty stack ends with the empty stack.

What is balanced leaves any stack as it is (`Balanced.scan_eq`).  A scan that succeeds changes the
height of the stack by `net`, the opening brackets less the closing ones (`length_of_scan`), so a
sequence whose `net` is not zero is not balanced, and what begins a balanced sequence is balanced
itself exactly if its `net` is zero (`balanced_iff_net`).
-/

import Mathlib.Algebra.BigOperators.Group.List.Basic
import Mathlib.Tactic.Common
import Mathlib.Tactic.Ring

/-- Which characters are opening brackets, with the closing bracket of each, and which are closing
ones. -/
structure Brackets (α : Type) where
  close : α → Option α
  closes : α → Bool

namespace Brackets

variable {α : Type} [DecidableEq α] (β : Brackets α)

/-- The stack after a character, if a closing bracket is the one that is expected. -/
def step (stack : List α) (a : α) : Option (List α) :=
  match β.close a with
  | some c => some (c :: stack)
  | none =>
    if β.closes a then
      match stack with
      | c :: stack => if c = a then some stack else none
      | [] => none
    else some stack

/-- The stack after a sequence. -/
def scan (stack s : List α) : Option (List α) := s.foldlM β.step stack

/-- All brackets are matched. -/
def Balanced (s : List α) : Prop := β.scan [] s = some []

instance (s : List α) : Decidable (β.Balanced s) := inferInstanceAs (Decidable (_ = _))

omit [DecidableEq α] in
/-- What a character adds to the number of open brackets. -/
def weight (a : α) : ℤ :=
  match β.close a with
  | some _ => 1
  | none => if β.closes a then -1 else 0

omit [DecidableEq α] in
/-- Opening brackets less closing brackets. -/
def net (s : List α) : ℤ := (s.map β.weight).sum

variable {β} {s t stack stack' : List α}

omit [DecidableEq α] in
@[simp] theorem net_nil : β.net [] = 0 := rfl

omit [DecidableEq α] in
@[simp] theorem net_cons (a : α) (s : List α) : β.net (a :: s) = β.weight a + β.net s := by
  rw [net, List.map_cons, List.sum_cons]
  rfl

omit [DecidableEq α] in
@[simp] theorem net_append (s t : List α) : β.net (s ++ t) = β.net s + β.net t := by
  rw [net, List.map_append, List.sum_append]
  rfl

@[simp] theorem scan_nil (stack : List α) : β.scan stack [] = some stack := rfl

theorem scan_cons (stack : List α) (a : α) (s : List α) :
    β.scan stack (a :: s) = (β.step stack a).bind fun stack => β.scan stack s :=
  List.foldlM_cons

theorem scan_append (stack s t : List α) :
    β.scan stack (s ++ t) = (β.scan stack s).bind fun stack => β.scan stack t :=
  List.foldlM_append

theorem step_append_stack {a : α} (h : β.step stack a = some stack') (below : List α) :
    β.step (stack ++ below) a = some (stack' ++ below) := by
  unfold step at h ⊢
  rcases hclose : β.close a with _ | c
  · rw [hclose] at h
    by_cases hcloses : β.closes a = true
    · rcases stack with _ | ⟨c, stack⟩
      · simp [hcloses] at h
      · dsimp only [List.cons_append] at h ⊢
        rw [if_pos hcloses] at h ⊢
        obtain ⟨hc, heq⟩ := Option.ite_none_right_eq_some.mp h
        obtain rfl := Option.some_inj.mp heq
        exact if_pos hc
    · dsimp only at h ⊢
      rw [if_neg hcloses] at h ⊢
      obtain rfl := Option.some_inj.mp h
      rfl
  · rw [hclose] at h
    obtain rfl := Option.some_inj.mp h
    rfl

/-- A scan does not see what is below the stack that it needs. -/
theorem scan_append_stack (h : β.scan stack s = some stack') (below : List α) :
    β.scan (stack ++ below) s = some (stack' ++ below) := by
  induction s generalizing stack with
  | nil =>
    obtain rfl := Option.some_inj.mp h
    rfl
  | cons a s ih =>
    rw [scan_cons] at h ⊢
    obtain ⟨next, hstep, hscan⟩ := Option.bind_eq_some_iff.mp h
    rw [step_append_stack hstep, Option.bind_some]
    exact ih hscan

theorem length_of_step {a : α} (h : β.step stack a = some stack') :
    (stack'.length : ℤ) = stack.length + β.weight a := by
  unfold step at h
  rw [weight]
  rcases hclose : β.close a with _ | c
  · rw [hclose] at h
    by_cases hcloses : β.closes a = true
    · rcases stack with _ | ⟨c, stack⟩
      · simp [hcloses] at h
      · dsimp only at h ⊢
        rw [if_pos hcloses] at h ⊢
        obtain ⟨-, heq⟩ := Option.ite_none_right_eq_some.mp h
        obtain rfl := Option.some_inj.mp heq
        rw [List.length_cons]
        push_cast
        ring
    · dsimp only at h ⊢
      rw [if_neg hcloses] at h ⊢
      obtain rfl := Option.some_inj.mp h
      rw [add_zero]
  · rw [hclose] at h
    obtain rfl := Option.some_inj.mp h
    rw [List.length_cons]
    push_cast
    rfl

/-- **A scan that succeeds** changes the height of the stack by `net`. -/
theorem length_of_scan (h : β.scan stack s = some stack') :
    (stack'.length : ℤ) = stack.length + β.net s := by
  induction s generalizing stack with
  | nil =>
    obtain rfl := Option.some_inj.mp h
    rw [net_nil, add_zero]
  | cons a s ih =>
    rw [scan_cons] at h
    obtain ⟨next, hstep, hscan⟩ := Option.bind_eq_some_iff.mp h
    rw [ih hscan, length_of_step hstep, net_cons]
    ring

namespace Balanced

/-- **What is balanced** leaves any stack as it is. -/
theorem scan_eq (h : β.Balanced s) (stack : List α) : β.scan stack s = some stack :=
  scan_append_stack h stack

theorem net_eq (h : β.Balanced s) : β.net s = 0 := by
  have hlength := length_of_scan h
  rw [List.length_nil, Nat.cast_zero, zero_add] at hlength
  exact hlength.symm

theorem append (h : β.Balanced s) (h' : β.Balanced t) : β.Balanced (s ++ t) := by
  rw [Balanced, scan_append, h, Option.bind_some, h']

end Balanced

/-- What begins a balanced sequence opens at least as many brackets as it closes. -/
theorem exists_scan_of_balanced (h : β.Balanced (s ++ t)) : ∃ stack, β.scan [] s = some stack := by
  rw [Balanced, scan_append] at h
  obtain ⟨stack, hscan, -⟩ := Option.bind_eq_some_iff.mp h
  exact ⟨stack, hscan⟩

theorem net_nonneg_of_balanced (h : β.Balanced (s ++ t)) : 0 ≤ β.net s := by
  obtain ⟨stack, hscan⟩ := exists_scan_of_balanced h
  have hlength := length_of_scan hscan
  rw [List.length_nil, Nat.cast_zero, zero_add] at hlength
  exact hlength ▸ Int.natCast_nonneg _

/-- **What begins a balanced sequence** is balanced exactly if it has no bracket open. -/
theorem balanced_iff_net (h : β.Balanced (s ++ t)) : β.Balanced s ↔ β.net s = 0 := by
  refine ⟨Balanced.net_eq, fun hnet => ?_⟩
  obtain ⟨stack, hscan⟩ := exists_scan_of_balanced h
  have hlength := length_of_scan hscan
  rw [hnet, List.length_nil, Nat.cast_zero, add_zero] at hlength
  rw [Balanced, hscan, List.eq_nil_of_length_eq_zero (Int.natCast_eq_zero.mp hlength)]

/-! ## Sequences without opening brackets -/

/-- Closing brackets close what is to come first. -/
theorem scan_closing (h : ∀ a ∈ s, β.close a = none) (stack : List α) :
    β.scan (s.filter β.closes ++ stack) s = some stack := by
  induction s with
  | nil => rfl
  | cons a s ih =>
    obtain ⟨ha, hs⟩ := List.forall_mem_cons.mp h
    by_cases hcloses : β.closes a = true
    · have hstep : β.step (a :: (s.filter β.closes ++ stack)) a =
          some (s.filter β.closes ++ stack) := by simp [step, ha, hcloses]
      rw [List.filter_cons_of_pos hcloses, List.cons_append, scan_cons, hstep, Option.bind_some]
      exact ih hs
    · have hstep : β.step (s.filter β.closes ++ stack) a =
          some (s.filter β.closes ++ stack) := by simp [step, ha, hcloses]
      rw [List.filter_cons_of_neg hcloses, scan_cons, hstep, Option.bind_some]
      exact ih hs

end Brackets
