/-
# `heapq`

Python's `heapq` as it computes, over arrays of any type and any comparison: `_siftdown`
moves an item up to the root while it is less than its parent, `_siftup` moves an item
down to a leaf along the lesser children and then up again, and `heappush`, `heappop`
and `heapify` are made of these.

A comparison need not be an order.  It is enough that it agrees with some key: what is
less has no greater key, and what is not less no smaller one.  Then a heap has its
least key first (`Heap.key_zero_le`), and the operations keep it a heap of the same
items.
-/

import Mathlib.Order.Lattice
import Mathlib.Order.Nat
import Mathlib.Tactic.Common

namespace Heapq

variable {α : Type}

/-- `_siftdown(heap, startpos, pos)`. -/
def siftdown (lt : α → α → Bool) (startpos : ℕ) (heap : Array α) (pos : ℕ)
    (hpos : pos < heap.size) : Array α :=
  if h : startpos < pos then
    if lt heap[pos] heap[(pos - 1) / 2] then
      siftdown lt startpos (heap.swap pos ((pos - 1) / 2)) ((pos - 1) / 2) (by simp; omega)
    else heap
  else heap
termination_by pos

/-- The lesser child of a position that has one. -/
def lesserChild (lt : α → α → Bool) (heap : Array α) (pos : ℕ) (h : 2 * pos + 1 < heap.size) : ℕ :=
  if hright : 2 * pos + 2 < heap.size then
    if lt heap[2 * pos + 1] heap[2 * pos + 2] then 2 * pos + 1 else 2 * pos + 2
  else 2 * pos + 1

theorem lesserChild_lt (lt : α → α → Bool) {heap : Array α} {pos : ℕ}
    (h : 2 * pos + 1 < heap.size) :
    pos < lesserChild lt heap pos h ∧ lesserChild lt heap pos h < heap.size := by
  unfold lesserChild
  split_ifs <;> omega

/-- `_siftup(heap, startpos)`, at the position `pos`. -/
def siftup (lt : α → α → Bool) (startpos : ℕ) (heap : Array α) (pos : ℕ)
    (hpos : pos < heap.size) : Array α :=
  if h : 2 * pos + 1 < heap.size then
    have hchild := lesserChild_lt lt h
    siftup lt startpos (heap.swap pos (lesserChild lt heap pos h) hpos hchild.2)
      (lesserChild lt heap pos h) (by simpa using hchild.2)
  else siftdown lt startpos heap pos hpos
termination_by heap.size - pos
decreasing_by simp; omega

/-- `heappush`. -/
def heappush (lt : α → α → Bool) (heap : Array α) (item : α) : Array α :=
  siftdown lt 0 (heap.push item) heap.size (by simp)

/-- `heappop`; `none` for the `IndexError` of an empty heap. -/
def heappop (lt : α → α → Bool) (heap : Array α) : Option (α × Array α) :=
  if h : 0 < heap.size then
    if h' : 0 < heap.pop.size then
      some (heap[0], siftup lt 0 (heap.pop.set 0 heap.back) 0 (by simpa using h'))
    else some (heap.back, heap.pop)
  else none

/-- The loop of `heapify`, over the positions below `n` from the last one down. -/
def heapifyFrom (lt : α → α → Bool) : ℕ → Array α → Array α
  | 0, heap => heap
  | n + 1, heap => heapifyFrom lt n (if h : n < heap.size then siftup lt n heap n h else heap)

/-- `heapify`. -/
def heapify (lt : α → α → Bool) (heap : Array α) : Array α := heapifyFrom lt (heap.size / 2) heap

/-! ## The same items -/

section Perm

variable {lt : α → α → Bool}

theorem siftdown_perm (startpos : ℕ) (heap : Array α) (pos : ℕ) (hpos : pos < heap.size) :
    (siftdown lt startpos heap pos hpos).Perm heap := by
  fun_induction siftdown with
  | case1 heap pos hpos h hlt ih => exact ih.trans (Array.swap_perm _ _)
  | case2 => exact Array.Perm.rfl
  | case3 => exact Array.Perm.rfl

theorem siftup_perm (startpos : ℕ) (heap : Array α) (pos : ℕ) (hpos : pos < heap.size) :
    (siftup lt startpos heap pos hpos).Perm heap := by
  fun_induction siftup with
  | case1 heap pos hpos h hchild ih => exact ih.trans (Array.swap_perm _ _)
  | case2 heap pos hpos => exact siftdown_perm startpos heap pos hpos

theorem heapifyFrom_perm (n : ℕ) (heap : Array α) : (heapifyFrom lt n heap).Perm heap := by
  induction n generalizing heap with
  | zero => exact Array.Perm.rfl
  | succ n ih =>
    refine (ih _).trans ?_
    split_ifs with h
    · exact siftup_perm n heap n h
    · exact Array.Perm.rfl

end Perm

/-! ## The order -/

/-- `c` is a child of `p`. -/
def IsChild (p c : ℕ) : Prop := c = 2 * p + 1 ∨ c = 2 * p + 2

theorem isChild_parent {pos : ℕ} (h : 0 < pos) : IsChild ((pos - 1) / 2) pos := by
  unfold IsChild
  omega

theorem IsChild.lt {p c : ℕ} (h : IsChild p c) : p < c := by
  unfold IsChild at h
  omega

theorem IsChild.unique {p q c : ℕ} (h : IsChild p c) (h' : IsChild q c) : p = q := by
  unfold IsChild at h h'
  omega

/-- `pos` is `startpos`, or below it. -/
inductive Below (startpos : ℕ) : ℕ → Prop where
  | refl : Below startpos startpos
  | child {p c : ℕ} : IsChild p c → Below startpos p → Below startpos c

theorem Below.le {startpos pos : ℕ} (h : Below startpos pos) : startpos ≤ pos := by
  induction h with
  | refl => exact le_rfl
  | child hc _ ih => exact ih.trans hc.lt.le

theorem Below.parent {startpos p c : ℕ} (h : Below startpos c) (hlt : startpos < c)
    (hc : IsChild p c) : Below startpos p := by
  cases h with
  | refl => exact absurd hlt (lt_irrefl _)
  | child hc' h => rwa [hc.unique hc']

section Order

variable {κ : Type} [LinearOrder κ] (key : α → κ)

/-- From `startpos` on, no item has a smaller key than its parent. -/
def HeapFrom (startpos : ℕ) (heap : Array α) : Prop :=
  ∀ p c (_ : p < heap.size) (_ : c < heap.size), IsChild p c → startpos ≤ p →
    key heap[p] ≤ key heap[c]

/-- A heap. -/
def Heap (heap : Array α) : Prop := HeapFrom key 0 heap

/-- A heap from `startpos` on but for the item at `pos`, which may have a smaller key
than its parent. -/
structure HeapUp (startpos : ℕ) (heap : Array α) (pos : ℕ) : Prop where
  except : ∀ p c (_ : p < heap.size) (_ : c < heap.size), IsChild p c → startpos ≤ p → c ≠ pos →
    key heap[p] ≤ key heap[c]
  grand : ∀ g c (_ : g < heap.size) (_ : c < heap.size), IsChild g pos → IsChild pos c →
    startpos ≤ g → key heap[g] ≤ key heap[c]

/-- A heap from `startpos` on but for the item at `pos`, which may have a greater key
than its children. -/
structure HeapDown (startpos : ℕ) (heap : Array α) (pos : ℕ) : Prop where
  except : ∀ p c (_ : p < heap.size) (_ : c < heap.size), IsChild p c → startpos ≤ p → c ≠ pos →
    p ≠ pos → key heap[p] ≤ key heap[c]
  grand : ∀ g c (_ : g < heap.size) (_ : c < heap.size), IsChild g pos → IsChild pos c →
    startpos ≤ g → key heap[g] ≤ key heap[c]

variable {key} {lt : α → α → Bool} {startpos pos : ℕ} {heap : Array α}

/-- The first item of a heap has the least key. -/
theorem Heap.key_zero_le (h : Heap key heap) (i : ℕ) (hi : i < heap.size) :
    key heap[0] ≤ key heap[i] := by
  induction i using Nat.strongRecOn with
  | _ i ih =>
    rcases Nat.eq_zero_or_pos i with rfl | hpos
    · exact le_rfl
    · have hchild := isChild_parent hpos
      have hle := hchild.lt
      exact (ih _ hle (hle.trans hi)).trans (h _ i (hle.trans hi) hi hchild (Nat.zero_le _))

/-- One step of `_siftdown`. -/
theorem HeapUp.move {q : ℕ} (h : HeapUp key startpos heap pos) (hpos : pos < heap.size)
    (hq : q < heap.size) (hchild : IsChild q pos) (hstart : startpos ≤ q)
    (hkey : key heap[pos] ≤ key heap[q]) : HeapUp key startpos (heap.swap pos q) q := by
  constructor
  · intro p c hp hc hpc hsp hne
    have hp' : p < heap.size := by simpa using hp
    have hc' : c < heap.size := by simpa using hc
    have hpc' := hpc.lt
    rw [Array.getElem_swap, Array.getElem_swap]
    by_cases hcpos : c = pos
    · subst hcpos
      obtain rfl := hpc.unique hchild
      simpa [hpc'.ne] using hkey
    · by_cases hppos : p = pos
      · subst hppos
        simpa [hcpos, hne] using h.grand q c hq hc' hchild hpc hstart
      · have hother := h.except p c hp' hc' hpc hsp hcpos
        by_cases hpq : p = q
        · subst hpq
          simpa [hcpos, hne, hppos] using hkey.trans hother
        · simpa [hcpos, hne, hppos, hpq] using hother
  · intro g c hg hc hgq hqc hsg
    have hg' : g < heap.size := by simpa using hg
    have hc' : c < heap.size := by simpa using hc
    have hgq' := hgq.lt
    have hqc' := hqc.lt
    have hqpos := hchild.lt
    have hup := h.except g q hg' hq hgq hsg hqpos.ne
    rw [Array.getElem_swap, Array.getElem_swap]
    by_cases hcpos : c = pos
    · subst hcpos
      simpa [hgq'.ne, (hgq'.trans hqpos).ne] using hup
    · have hdown := h.except q c hq hc' hqc hstart hcpos
      simpa [hcpos, hqc'.ne', hgq'.ne, (hgq'.trans hqpos).ne] using hup.trans hdown

/-- Where the item is not smaller than its parent, all is in order. -/
theorem HeapUp.finish (h : HeapUp key startpos heap pos) (hpos : pos < heap.size)
    (hkey : ∀ q (_ : q < heap.size), IsChild q pos → startpos ≤ q → key heap[q] ≤ key heap[pos]) :
    HeapFrom key startpos heap := by
  intro p c hp hc hpc hsp
  by_cases hcpos : c = pos
  · subst hcpos
    exact hkey p hp hpc hsp
  · exact h.except p c hp hc hpc hsp hcpos

/-- One step of `_siftup`. -/
theorem HeapDown.move {q : ℕ} (h : HeapDown key startpos heap pos) (hpos : pos < heap.size)
    (hq : q < heap.size) (hchild : IsChild pos q) (hstart : startpos ≤ pos)
    (hleast : ∀ c (_ : c < heap.size), IsChild pos c → key heap[q] ≤ key heap[c]) :
    HeapDown key startpos (heap.swap pos q) q := by
  constructor
  · intro p c hp hc hpc hsp hne hpne
    have hp' : p < heap.size := by simpa using hp
    have hc' : c < heap.size := by simpa using hc
    have hpc' := hpc.lt
    rw [Array.getElem_swap, Array.getElem_swap]
    by_cases hcpos : c = pos
    · subst hcpos
      simpa [hpc'.ne, hpne] using h.grand p q hp' hq hpc hchild hsp
    · by_cases hppos : p = pos
      · subst hppos
        simpa [hcpos, hne] using hleast c hc' hpc
      · simpa [hcpos, hne, hppos, hpne] using h.except p c hp' hc' hpc hsp hcpos hppos
  · intro g c hg hc hgq hqc hsg
    have hc' : c < heap.size := by simpa using hc
    have hqc' := hqc.lt
    have hposq := hchild.lt
    obtain rfl := hgq.unique hchild
    rw [Array.getElem_swap, Array.getElem_swap]
    simpa [hqc'.ne', (hposq.trans hqc').ne'] using
      h.except q c hq hc' hqc (hstart.trans hposq.le) (hposq.trans hqc').ne' hposq.ne'

/-- At a leaf, the item can only be smaller than its parent. -/
theorem HeapDown.leaf (h : HeapDown key startpos heap pos) (hleaf : heap.size ≤ 2 * pos + 1) :
    HeapUp key startpos heap pos := by
  have hnone : ∀ c, c < heap.size → ¬ IsChild pos c := by
    intro c hc hchild
    unfold IsChild at hchild
    omega
  constructor
  · intro p c hp hc hpc hsp hne
    refine h.except p c hp hc hpc hsp hne ?_
    rintro rfl
    exact hnone c hc hpc
  · intro g c _ hc _ hpc
    exact absurd hpc (hnone c hc)

section Agrees

variable (hlt : ∀ x y, lt x y = true → key x ≤ key y) (hge : ∀ x y, lt x y = false → key y ≤ key x)

include hlt hge

theorem siftdown_heapFrom (hpos : pos < heap.size) (hbelow : Below startpos pos)
    (h : HeapUp key startpos heap pos) :
    HeapFrom key startpos (siftdown lt startpos heap pos hpos) := by
  fun_induction siftdown with
  | case1 heap pos hpos hstart hless ih =>
    have hchild := isChild_parent (Nat.zero_lt_of_lt hstart)
    have hparent := hbelow.parent hstart hchild
    exact ih hparent (h.move hpos _ hchild hparent.le (hlt _ _ hless))
  | case2 heap pos hpos hstart hless =>
    have hchild := isChild_parent (Nat.zero_lt_of_lt hstart)
    refine h.finish hpos fun q hq hq' _ => ?_
    obtain rfl := hq'.unique hchild
    exact hge _ _ (Bool.eq_false_iff.mpr hless)
  | case3 heap pos hpos hstart =>
    refine h.finish hpos fun q _ hq' hsq => ?_
    exact absurd (hsq.trans_lt hq'.lt) hstart

theorem lesserChild_spec {q : ℕ} (h : 2 * pos + 1 < heap.size)
    (hq : lesserChild lt heap pos h = q) (hq' : q < heap.size) :
    IsChild pos q ∧ ∀ c (_ : c < heap.size), IsChild pos c → key heap[q] ≤ key heap[c] := by
  unfold lesserChild at hq
  split_ifs at hq with hright hless
  · subst hq
    refine ⟨Or.inl rfl, fun c hc hchild => ?_⟩
    obtain rfl | rfl := hchild
    · exact le_rfl
    · exact hlt _ _ hless
  · subst hq
    refine ⟨Or.inr rfl, fun c hc hchild => ?_⟩
    obtain rfl | rfl := hchild
    · exact hge _ _ (Bool.eq_false_iff.mpr hless)
    · exact le_rfl
  · subst hq
    refine ⟨Or.inl rfl, fun c hc hchild => ?_⟩
    obtain rfl | rfl := hchild
    · exact le_rfl
    · exact absurd hc hright

theorem siftup_heapFrom (hpos : pos < heap.size) (hbelow : Below startpos pos)
    (h : HeapDown key startpos heap pos) :
    HeapFrom key startpos (siftup lt startpos heap pos hpos) := by
  fun_induction siftup with
  | case1 heap pos hpos hinner hchild ih =>
    obtain ⟨hisChild, hleast⟩ := lesserChild_spec hlt hge hinner rfl hchild.2
    exact ih (.child hisChild hbelow) (h.move hpos hchild.2 hisChild hbelow.le hleast)
  | case2 heap pos hpos hleaf =>
    exact siftdown_heapFrom hlt hge hpos hbelow (h.leaf (not_lt.mp hleaf))

theorem heapifyFrom_heap (n : ℕ) (heap : Array α) (h : HeapFrom key n heap) :
    Heap key (heapifyFrom lt n heap) := by
  induction n generalizing heap with
  | zero => exact h
  | succ n ih =>
    rw [heapifyFrom]
    refine ih _ ?_
    split_ifs with hn
    · refine siftup_heapFrom hlt hge hn .refl
        ⟨fun p c hp hc hpc hsp _ hne => ?_, fun g c _ _ hg _ hsg => ?_⟩
      · exact h p c hp hc hpc (lt_of_le_of_ne hsp (Ne.symm hne))
      · exact absurd (hsg.trans_lt hg.lt) (lt_irrefl _)
    · exact fun p c hp _ _ hsp => absurd (hsp.trans_lt hp) hn

/-- **`heapify` makes a heap.** -/
theorem heapify_heap (heap : Array α) : Heap key (heapify lt heap) := by
  refine heapifyFrom_heap hlt hge _ heap fun p c _ hc hpc hsp => ?_
  unfold IsChild at hpc
  omega

/-- **`heappush` keeps a heap.** -/
theorem heappush_heap (h : Heap key heap) (item : α) : Heap key (heappush lt heap item) := by
  have hbelow : ∀ pos, Below 0 pos := by
    intro pos
    induction pos using Nat.strongRecOn with
    | _ pos ih =>
      rcases Nat.eq_zero_or_pos pos with rfl | hpos
      · exact .refl
      · exact .child (isChild_parent hpos) (ih _ (isChild_parent hpos).lt)
  refine siftdown_heapFrom hlt hge _ (hbelow _)
    ⟨fun p c hp hc hpc hsp hne => ?_, fun g c _ hc _ hpc => ?_⟩
  · have hc' : c < heap.size := by
      rw [Array.size_push] at hc
      omega
    have hp' := hpc.lt.trans hc'
    rw [Array.getElem_push_lt hp', Array.getElem_push_lt hc']
    exact h p c hp' hc' hpc hsp
  · have hlt' := hpc.lt
    rw [Array.size_push] at hc
    omega

/-- **`heappop` keeps a heap.** -/
theorem heappop_heap (h : Heap key heap) {item : α} {rest : Array α}
    (hpop : heappop lt heap = some (item, rest)) : Heap key rest := by
  unfold heappop at hpop
  split_ifs at hpop with hsize hpopsize
  · obtain ⟨-, rfl⟩ := Prod.mk.inj (Option.some.inj hpop)
    refine siftup_heapFrom hlt hge _ .refl
      ⟨fun p c hp hc hpc hsp hne hpne => ?_, fun g c _ _ hg => ?_⟩
    · have hp' : p < heap.size := by simp at hp; omega
      have hc' : c < heap.size := by simp at hc; omega
      simpa [Array.getElem_set, Ne.symm hne, Ne.symm hpne] using h p c hp' hc' hpc hsp
    · exact absurd hg.lt (Nat.not_lt_zero _)
  · obtain ⟨-, rfl⟩ := Prod.mk.inj (Option.some.inj hpop)
    intro p c hp
    omega

end Agrees

end Order

/-- `heappush` adds the item. -/
theorem heappush_perm (lt : α → α → Bool) (heap : Array α) (item : α) :
    (heappush lt heap item).Perm (heap.push item) := siftdown_perm _ _ _ _

theorem heappush_empty (lt : α → α → Bool) (item : α) : heappush lt #[] item = #[item] := by
  have hperm := (heappush_perm lt #[] item).toList
  rw [Array.toList_push, List.nil_append, List.perm_singleton] at hperm
  exact Array.toList_inj.mp hperm

theorem heapify_perm (lt : α → α → Bool) (heap : Array α) : (heapify lt heap).Perm heap :=
  heapifyFrom_perm _ _

/-- `heappop` takes the first item. -/
theorem heappop_eq {lt : α → α → Bool} {heap : Array α} (h : 0 < heap.size) :
    ∃ rest, heappop lt heap = some (heap[0], rest) ∧ heap.toList.Perm (heap[0] :: rest.toList) := by
  obtain ⟨items⟩ := heap
  cases items with
  | nil => simp at h
  | cons first tail =>
    rcases List.eq_nil_or_concat tail with rfl | ⟨middle, last, rfl⟩
    · exact ⟨#[], by simp [heappop], by simp⟩
    · have hperm := @siftup_perm _ lt 0 ((first :: middle).toArray.set 0 last) 0 (by simp)
      rw [Array.perm_iff_toList_perm] at hperm
      have hpop : (first :: (middle ++ [last])).dropLast = first :: middle := by
        rw [← List.cons_append, List.dropLast_concat]
      have hback : ∀ hne, (first :: (middle ++ [last])).getLast hne = last := by
        intro _
        rw [List.getLast_cons (by simp), List.getLast_concat]
      refine ⟨siftup lt 0 ((first :: middle).toArray.set 0 last) 0 (by simp), ?_, ?_⟩
      · simp [heappop, hpop, hback]
      · refine ((hperm.cons first).trans ?_).symm
        simpa using (List.perm_append_singleton last middle).symm

end Heapq
