/-
# Strictly sorted lists and `bisect`

Python's `bisect` module on a strictly sorted list of numbers, and the indexing
facts a search over such a list uses: the entries grow with the index
(`getD_lt_getD`), a member above the `i`-th entry is at or beyond the next one
(`getD_succ_le`), and `bisect` splits the list at its argument
(`getD_bisect_le`, `lt_getD_bisect`).

Then `bisect.insort` as it computes, by halving, on any list of any type with
keys: it inserts its argument somewhere (`insort_perm`), and into a list sorted by
key at a place that keeps it sorted (`insort_sorted`).

The last entry of a sorted list is the greatest (`getLast?_eq_max?`), and two lists
have the same greatest entry if each is bounded by the other (`max?_eq_iff`).
-/

import Mathlib.Data.List.GetD
import Mathlib.Data.List.Induction
import Mathlib.Data.List.Pairwise
import Mathlib.Order.Lattice
import Mathlib.Order.MinMax
import Mathlib.Order.Nat
import Mathlib.Tactic.Common

namespace Bisect

/-- `bisect.bisect` (`bisect_right`) on a sorted list: how many entries are at most `x`. -/
def bisect (xs : List ℕ) (x : ℕ) : ℕ := (xs.filter fun n => decide (n ≤ x)).length

/-- `bisect.bisect_left` on a sorted list: how many entries are below `x`. -/
def bisectLeft (xs : List ℕ) (x : ℕ) : ℕ := (xs.filter fun n => decide (n < x)).length

variable {xs : List ℕ} {i j x : ℕ}

theorem getD_mem (hi : i < xs.length) : xs.getD i 0 ∈ xs := by
  rw [List.getD_eq_getElem _ _ hi]
  exact List.getElem_mem hi

theorem exists_getD_eq (hx : x ∈ xs) : ∃ i < xs.length, xs.getD i 0 = x := by
  obtain ⟨i, hi, rfl⟩ := List.getElem_of_mem hx
  exact ⟨i, hi, List.getD_eq_getElem _ _ hi⟩

theorem getD_lt_getD (hs : xs.Pairwise (· < ·)) (hij : i < j) (hj : j < xs.length) :
    xs.getD i 0 < xs.getD j 0 := by
  rw [List.getD_eq_getElem _ _ (hij.trans hj), List.getD_eq_getElem _ _ hj]
  exact List.pairwise_iff_getElem.1 hs i j _ hj hij

theorem getD_le_getD (hs : xs.Pairwise (· < ·)) (hij : i ≤ j) (hj : j < xs.length) :
    xs.getD i 0 ≤ xs.getD j 0 := by
  rcases Nat.lt_or_ge i j with h | h
  · exact (getD_lt_getD hs h hj).le
  · rw [Nat.le_antisymm hij h]

theorem lt_of_getD_lt (hs : xs.Pairwise (· < ·)) (hi : i < xs.length)
    (h : xs.getD i 0 < xs.getD j 0) : i < j := by
  by_contra hn
  exact absurd (getD_le_getD hs (Nat.le_of_not_lt hn) hi) (Nat.not_le.2 h)

theorem le_of_getD_le (hs : xs.Pairwise (· < ·)) (hi : i < xs.length)
    (h : xs.getD i 0 ≤ xs.getD j 0) : i ≤ j := by
  by_contra hn
  exact absurd (getD_lt_getD hs (Nat.lt_of_not_le hn) hi) (Nat.not_lt.2 h)

/-- A member above the `i`-th entry is at or beyond the next entry. -/
theorem getD_succ_le (hs : xs.Pairwise (· < ·)) (hi : i < xs.length) (hx : x ∈ xs)
    (h : xs.getD i 0 < x) : i + 1 < xs.length ∧ xs.getD (i + 1) 0 ≤ x := by
  obtain ⟨j, hj, rfl⟩ := exists_getD_eq hx
  have hij : i < j := lt_of_getD_lt hs hi h
  exact ⟨by omega, getD_le_getD hs hij hj⟩

/-- Every member is at or beyond the first entry. -/
theorem getD_zero_le (hs : xs.Pairwise (· < ·)) (hx : x ∈ xs) : xs.getD 0 0 ≤ x := by
  obtain ⟨j, hj, rfl⟩ := exists_getD_eq hx
  exact getD_le_getD hs (Nat.zero_le j) hj

theorem bisect_le_length (xs : List ℕ) (x : ℕ) : bisect xs x ≤ xs.length :=
  List.length_filter_le _ _

/-- A sorted list has its entries at most `x` before its entries above `x`. -/
theorem lt_bisect_iff (hs : xs.Pairwise (· < ·)) (hi : i < xs.length) :
    i < bisect xs x ↔ xs.getD i 0 ≤ x := by
  unfold bisect
  induction xs generalizing i with
  | nil => cases hi
  | cons a xs ih =>
    obtain ⟨ha, hxs⟩ := List.pairwise_cons.1 hs
    by_cases hax : a ≤ x
    · rw [List.filter_cons_of_pos (by simpa using hax)]
      cases i with
      | zero => simpa using hax
      | succ i =>
        have := ih hxs (Nat.lt_of_succ_lt_succ hi)
        simp only [List.length_cons, Nat.succ_lt_succ_iff, List.getD_cons_succ]
        exact this
    · have hnil : (a :: xs).filter (fun n => decide (n ≤ x)) = [] := by
        rw [List.filter_eq_nil_iff]
        intro b hb
        rcases List.mem_cons.1 hb with rfl | hb
        · simpa using hax
        · have := ha b hb
          simp only [decide_eq_true_eq]
          omega
      rw [hnil]
      have hge : a ≤ (a :: xs).getD i 0 := getD_zero_le hs (getD_mem hi)
      simp only [List.length_nil, Nat.not_lt_zero, false_iff]
      omega

theorem getD_bisect_le (hs : xs.Pairwise (· < ·)) (hi : i < xs.length) (h : i < bisect xs x) :
    xs.getD i 0 ≤ x :=
  (lt_bisect_iff hs hi).1 h

theorem lt_getD_bisect (hs : xs.Pairwise (· < ·)) (hi : i < xs.length) (h : bisect xs x ≤ i) :
    x < xs.getD i 0 := by
  by_contra hn
  exact absurd ((lt_bisect_iff hs hi).2 (Nat.le_of_not_lt hn)) (Nat.not_lt.2 h)

/-- `bisect_left` finds a member. -/
theorem getD_bisectLeft (hs : xs.Pairwise (· < ·)) (hx : x ∈ xs) :
    bisectLeft xs x < xs.length ∧ xs.getD (bisectLeft xs x) 0 = x := by
  unfold bisectLeft
  induction xs with
  | nil => cases hx
  | cons a xs ih =>
    obtain ⟨ha, hxs⟩ := List.pairwise_cons.1 hs
    rcases List.mem_cons.1 hx with rfl | hx
    · have hnil : (x :: xs).filter (fun n => decide (n < x)) = [] := by
        rw [List.filter_eq_nil_iff]
        intro b hb
        rcases List.mem_cons.1 hb with rfl | hb
        · simp
        · have := ha b hb
          simp only [decide_eq_true_eq]
          omega
      rw [hnil]
      simp
    · have hax : a < x := ha x hx
      have := ih hxs hx
      rw [List.filter_cons_of_pos (by simpa using hax)]
      simpa only [List.length_cons, Nat.succ_lt_succ_iff, List.getD_cons_succ] using this

/-! ## `insort` -/

section Insort

variable {α κ : Type} [LinearOrder κ] (key : α → κ)

/-- The loop of `bisect.bisect_right`, between `lo` and `hi`. -/
def searchRight (x : α) (xs : List α) : ℕ → ℕ → ℕ → ℕ
  | 0, lo, _ => lo
  | fuel + 1, lo, hi =>
    if lo < hi then
      let mid := (lo + hi) / 2
      match xs[mid]? with
      | none => lo
      | some y =>
        if key x < key y then searchRight x xs fuel lo mid
        else searchRight x xs fuel (mid + 1) hi
    else lo

/-- `bisect.insort` (`insort_right`). -/
def insort (x : α) (xs : List α) : List α :=
  let lo := searchRight key x xs xs.length 0 xs.length
  xs.take lo ++ x :: xs.drop lo

variable {key} {x : α} {xs : List α}

/-- The list is only longer by the new entry. -/
theorem insort_perm (key : α → κ) (x : α) (xs : List α) : (insort key x xs).Perm (x :: xs) := by
  refine List.perm_middle.trans (List.Perm.cons x ?_)
  rw [List.take_append_drop]

/-- On a sorted list the search ends where the entries pass the argument: what is
before `lo` is not above it, and what is from `hi` on is. -/
theorem searchRight_spec (hs : xs.Pairwise fun a b => key a ≤ key b) {fuel lo hi : ℕ}
    (hfuel : hi - lo ≤ fuel) (hlo : lo ≤ hi) (hhi : hi ≤ xs.length)
    (hbefore : ∀ i (h : i < xs.length), i < lo → key xs[i] ≤ key x)
    (hafter : ∀ i (h : i < xs.length), hi ≤ i → key x < key xs[i]) :
    (∀ i (h : i < xs.length), i < searchRight key x xs fuel lo hi → key xs[i] ≤ key x) ∧
      ∀ i (h : i < xs.length), searchRight key x xs fuel lo hi ≤ i → key x < key xs[i] := by
  have hmono : ∀ i j (hi : i < xs.length) (hj : j < xs.length), i ≤ j → key xs[i] ≤ key xs[j] := by
    intro i j hi hj hij
    rcases Nat.lt_or_ge i j with h | h
    · exact List.pairwise_iff_getElem.1 hs i j hi hj h
    · obtain rfl := Nat.le_antisymm hij h
      exact le_rfl
  induction fuel generalizing lo hi with
  | zero =>
    obtain rfl : lo = hi := by omega
    exact ⟨hbefore, hafter⟩
  | succ fuel ih =>
    rw [searchRight]
    split
    next hlt =>
      have hmid : (lo + hi) / 2 < xs.length := by omega
      dsimp only
      rw [List.getElem?_eq_getElem hmid]
      dsimp only
      split
      next hx =>
        refine ih (by omega) (by omega) (by omega) hbefore fun i h hle => ?_
        exact hx.trans_le (hmono _ i hmid h hle)
      next hx =>
        refine ih (by omega) (by omega) hhi (fun i h hi' => ?_) hafter
        exact (hmono i _ h hmid (by omega)).trans (not_lt.1 hx)
    next =>
      obtain rfl : lo = hi := by omega
      exact ⟨hbefore, hafter⟩

/-- A sorted list stays sorted. -/
theorem insort_sorted (hs : xs.Pairwise fun a b => key a ≤ key b) :
    (insort key x xs).Pairwise fun a b => key a ≤ key b := by
  obtain ⟨hbefore, hafter⟩ := searchRight_spec (x := x) hs (Nat.sub_le xs.length 0)
    (Nat.zero_le _) le_rfl (fun i _ h => absurd h (Nat.not_lt_zero i))
    fun i h hle => absurd h (Nat.not_lt.2 hle)
  refine List.pairwise_append.2 ⟨hs.sublist (List.take_sublist _ _),
    List.pairwise_cons.2 ⟨fun b hb => ?_, hs.sublist (List.drop_sublist _ _)⟩, fun a ha b hb => ?_⟩
  · obtain ⟨i, hi, rfl⟩ := List.getElem_of_mem hb
    rw [List.getElem_drop]
    exact (hafter _ _ (Nat.le_add_right _ _)).le
  · have hax : key a ≤ key x := by
      obtain ⟨i, hi, rfl⟩ := List.getElem_of_mem ha
      rw [List.getElem_take]
      rw [List.length_take] at hi
      exact hbefore i _ (by omega)
    rcases List.mem_cons.1 hb with rfl | hb
    · exact hax
    · obtain ⟨i, hi, rfl⟩ := List.getElem_of_mem hb
      rw [List.getElem_drop]
      exact hax.trans (hafter _ _ (Nat.le_add_right _ _)).le

end Insort

/-! ## The greatest entry -/

section Greatest

variable {κ : Type} [LinearOrder κ] {ys zs : List κ}

/-- Two lists have the same greatest entry exactly if each is bounded by the other. -/
theorem max?_eq_iff : ys.max? = zs.max? ↔
    (∀ y ∈ ys, ∃ z ∈ zs, y ≤ z) ∧ ∀ z ∈ zs, ∃ y ∈ ys, z ≤ y := by
  cases hy : ys.max? with
  | none =>
    obtain rfl := List.max?_eq_none_iff.mp hy
    rw [eq_comm, List.max?_eq_none_iff]
    simp [List.eq_nil_iff_forall_not_mem]
  | some y =>
    obtain ⟨hmem, hle⟩ := List.max?_eq_some_iff.mp hy
    rw [eq_comm, List.max?_eq_some_iff]
    constructor
    · rintro ⟨hz, hzle⟩
      exact ⟨fun x hx => ⟨y, hz, hle x hx⟩, fun z hz => ⟨y, hmem, hzle z hz⟩⟩
    · rintro ⟨hyz, hzy⟩
      have hbound : ∀ z ∈ zs, z ≤ y := by
        intro z hz
        obtain ⟨x, hx, hzx⟩ := hzy z hz
        exact hzx.trans (hle x hx)
      obtain ⟨z, hz, hyz⟩ := hyz y hmem
      exact ⟨le_antisymm hyz (hbound z hz) ▸ hz, hbound⟩

/-- The last entry of a sorted list is the greatest. -/
theorem getLast?_eq_max? (hs : ys.Pairwise (· ≤ ·)) : ys.getLast? = ys.max? := by
  induction ys using List.reverseRecOn with
  | nil => rfl
  | append_singleton ys y ih =>
    have hle := (List.pairwise_append.mp hs).2.2
    rw [List.getLast?_concat, eq_comm, List.max?_eq_some_iff]
    refine ⟨by simp, fun x hx => ?_⟩
    rcases List.mem_append.mp hx with hx | hx
    · exact hle x hx y (List.mem_singleton_self y)
    · exact (List.mem_singleton.mp hx).le

end Greatest

end Bisect
