/-
# Level by level

A traversal that takes what is first in a queue and puts its children at the end.  Where everything
has only finitely many descendants, as told by a size that is larger than those of the children
together (`Branching`), it ends, and goes through the levels one after the other
(`breadthFirst_eq_flatten`).  So it comes to all descendants and to nothing else
(`mem_breadthFirst_iff`).
-/

import Mathlib.Algebra.BigOperators.Group.List.Basic
import Mathlib.Algebra.GroupWithZero.Nat
import Mathlib.Logic.Relation
import Mathlib.Tactic.Common

/-- What everything branches into, and a size that makes the branching end. -/
structure Branching (β : Type) where
  children : β → List β
  size : β → ℕ
  size_children : ∀ b, ((children b).map size).sum < size b

namespace Branching

variable {β : Type} (B : Branching β)

/-- The size of a queue. -/
def total (queue : List β) : ℕ := (queue.map B.size).sum

theorem total_append (f g : List β) : B.total (f ++ g) = B.total f + B.total g := by
  rw [total, List.map_append, List.sum_append, total, total]

theorem total_cons (b : β) (f : List β) : B.total (b :: f) = B.size b + B.total f := by
  rw [total, List.map_cons, List.sum_cons, total]

theorem total_append_children_lt (b : β) (rest : List β) :
    B.total (rest ++ B.children b) < B.total (b :: rest) := by
  rw [total_append, total_cons, Nat.add_comm]
  exact Nat.add_lt_add_right (B.size_children b) _

/-- The level below. -/
def below (level : List β) : List β := level.flatMap B.children

theorem below_cons (b : β) (level : List β) :
    B.below (b :: level) = B.children b ++ B.below level := List.flatMap_cons

theorem total_below_le (level : List β) : B.total (B.below level) ≤ B.total level := by
  induction level with
  | nil => exact Nat.le_refl _
  | cons b level ih =>
    rw [below_cons, total_append, total_cons]
    exact Nat.add_le_add (Nat.le_of_lt (B.size_children b)) ih

theorem total_below_lt {level : List β} (h : level ≠ []) :
    B.total (B.below level) < B.total level := by
  obtain ⟨b, rest, rfl⟩ := List.exists_cons_of_ne_nil h
  rw [below_cons, total_append, total_cons]
  exact Nat.add_lt_add_of_lt_of_le (B.size_children b) (B.total_below_le rest)

/-- The traversal. -/
def breadthFirst : List β → List β
  | [] => []
  | b :: rest => b :: breadthFirst (rest ++ B.children b)
termination_by queue => B.total queue
decreasing_by exact B.total_append_children_lt b rest

/-- The levels. -/
def levels : List β → List (List β)
  | [] => []
  | b :: rest => (b :: rest) :: levels (B.below (b :: rest))
termination_by level => B.total level
decreasing_by exact B.total_below_lt (List.cons_ne_nil b rest)

@[simp] theorem breadthFirst_nil : B.breadthFirst [] = [] := by rw [breadthFirst]

theorem breadthFirst_cons (b : β) (rest : List β) :
    B.breadthFirst (b :: rest) = b :: B.breadthFirst (rest ++ B.children b) := by
  rw [breadthFirst]

/-- What is in front is gone through before what it branches into. -/
theorem breadthFirst_append (f g : List β) :
    B.breadthFirst (f ++ g) = f ++ B.breadthFirst (g ++ B.below f) := by
  induction f generalizing g with
  | nil => rw [List.nil_append, List.nil_append, below, List.flatMap_nil, List.append_nil]
  | cons b f ih =>
    rw [List.cons_append, breadthFirst_cons, List.append_assoc, ih, List.append_assoc,
      List.cons_append, below_cons]

/-- **The traversal goes through the levels.** -/
theorem breadthFirst_eq_flatten (level : List β) :
    B.breadthFirst level = (B.levels level).flatten := by
  induction level using levels.induct B with
  | case1 => rw [breadthFirst_nil, levels, List.flatten_nil]
  | case2 b rest ih =>
    have happend := B.breadthFirst_append (b :: rest) []
    rw [List.append_nil, List.nil_append] at happend
    rw [happend, ih, levels, List.flatten_cons]

/-- `c` is a child of `b`. -/
def Child (b c : β) : Prop := c ∈ B.children b

/-- **The traversal comes to all descendants**, and to nothing else. -/
theorem mem_breadthFirst_iff {queue : List β} {x : β} :
    x ∈ B.breadthFirst queue ↔ ∃ b ∈ queue, Relation.ReflTransGen B.Child b x := by
  induction queue using breadthFirst.induct B with
  | case1 => simp
  | case2 b rest ih =>
    rw [breadthFirst_cons, List.mem_cons, ih]
    constructor
    · rintro (rfl | ⟨c, hc, hpath⟩)
      · exact ⟨x, List.mem_cons_self, .refl⟩
      · obtain hc | hc := List.mem_append.mp hc
        · exact ⟨c, List.mem_cons_of_mem _ hc, hpath⟩
        · exact ⟨b, List.mem_cons_self, .head hc hpath⟩
    · rintro ⟨c, hc, hpath⟩
      obtain rfl | hc := List.mem_cons.mp hc
      · obtain rfl | ⟨d, hd, hpath⟩ := hpath.cases_head
        · exact .inl rfl
        · exact .inr ⟨d, List.mem_append_right _ hd, hpath⟩
      · exact .inr ⟨c, List.mem_append_left _ hc, hpath⟩

end Branching
