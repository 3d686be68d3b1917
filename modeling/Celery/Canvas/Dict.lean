/-
# Keyword arguments

A `dict` of keyword arguments is the list of its entries, in the order of insertion.  Setting a
key that is there keeps its place (`dictSet_comm`), so merging dicts is associative, order
included (`dictUpdate_dictUpdate`).
-/

import Celery.Canvas.Freeze

namespace Celery
namespace Canvas

variable {V : Type}

/-- A keyword map: no name is in it twice. -/
abbrev Kwargs (V : Type) := { d : List (String × V) // (d.map Prod.fst).Nodup }

section Dict

variable {x y : String} {v w : V} {d k l : List (String × V)}

theorem dictSet_dictSet_self : dictSet x v (dictSet x w d) = dictSet x v d := by
  induction d with
  | nil => simp [dictSet]
  | cons e d ih =>
    obtain ⟨z, u⟩ := e
    by_cases hz : z = x
    · simp [dictSet, hz]
    · simp [dictSet, hz, ih]

/-- What is there keeps its place, so it does not matter when it is set. -/
theorem dictSet_comm (hx : x ∈ d.map Prod.fst) (hxy : x ≠ y) :
    dictSet x v (dictSet y w d) = dictSet y w (dictSet x v d) := by
  induction d with
  | nil => cases hx
  | cons e d ih =>
    obtain ⟨z, u⟩ := e
    by_cases hzx : z = x
    · subst hzx
      simp [dictSet, hxy]
    · have hx : x ∈ d.map Prod.fst := (List.mem_cons.mp hx).resolve_left (Ne.symm hzx)
      by_cases hzy : z = y
      · simp [dictSet, hzy, Ne.symm hxy]
      · simp [dictSet, hzx, hzy, ih hx]

/-- What a dict has under a key, entry by entry. -/
theorem lookup_cons_eq_ite (x y : String) (w : V) (d : List (String × V)) :
    ((y, w) :: d).lookup x = if x = y then some w else d.lookup x := by
  by_cases hxy : x = y
  · rw [if_pos hxy, hxy, List.lookup_cons_self]
  · have hbeq : (x == y) = false := beq_eq_false_iff_ne.mpr hxy
    rw [if_neg hxy, List.lookup_cons, hbeq]

/-- Setting a key changes what is under this key. -/
theorem lookup_dictSet (x y : String) (w : V) (d : List (String × V)) :
    (dictSet y w d).lookup x = if x = y then some w else d.lookup x := by
  induction d with
  | nil => exact lookup_cons_eq_ite x y w []
  | cons entry d ih =>
    rw [dictSet]
    split
    next heq =>
      rw [lookup_cons_eq_ite, lookup_cons_eq_ite, heq]
      split
      · rfl
      · rfl
    next hne =>
      rw [lookup_cons_eq_ite, lookup_cons_eq_ite, ih]
      by_cases hxy : x = y
      · rw [if_pos hxy, if_pos hxy, if_neg fun heq => hne (heq.symm.trans hxy)]
      · rw [if_neg hxy, if_neg hxy]

/-- Entries go by their keys. -/
theorem lookup_filter (keep : String → Bool) (x : String) (d : List (String × V)) :
    (d.filter fun entry => keep entry.1).lookup x = if keep x then d.lookup x else none := by
  induction d with
  | nil => rw [List.filter_nil, List.lookup_nil, ite_self]
  | cons entry d ih =>
    rw [List.filter_cons, lookup_cons_eq_ite]
    by_cases hx : x = entry.1
    · subst hx
      split
      next => rw [lookup_cons_eq_ite, if_pos rfl, if_pos rfl]
      next hkeep => rw [ih, if_neg hkeep]
    · rw [if_neg hx]
      split
      next => rw [lookup_cons_eq_ite, if_neg hx, ih]
      next => exact ih

theorem keys_dictSet (x : String) (v : V) (d : List (String × V)) :
    (dictSet x v d).map Prod.fst
      = if x ∈ d.map Prod.fst then d.map Prod.fst else d.map Prod.fst ++ [x] := by
  induction d with
  | nil => simp [dictSet]
  | cons e d ih =>
    obtain ⟨z, u⟩ := e
    by_cases hz : z = x
    · simp [dictSet, hz]
    · simp only [dictSet, hz, if_false, List.map_cons, List.mem_cons, Ne.symm hz, false_or, ih]
      split_ifs <;> rfl

theorem mem_dictSet (h : x = y ∨ x ∈ d.map Prod.fst) : x ∈ (dictSet y w d).map Prod.fst := by
  rw [keys_dictSet]
  split_ifs with hy
  · rcases h with rfl | h
    · exact hy
    · exact h
  · rcases h with rfl | h
    · simp
    · exact List.mem_append_left _ h

theorem nodup_dictSet (hk : (k.map Prod.fst).Nodup) : ((dictSet x v k).map Prod.fst).Nodup := by
  rw [keys_dictSet]
  split_ifs with hx
  · exact hk
  · exact List.nodup_append.mpr ⟨hk, by simp, fun a ha b hb => by
      rw [List.mem_singleton.mp hb]
      rintro rfl
      exact hx ha⟩

theorem dictSet_dictUpdate (hx : x ∈ d.map Prod.fst) (hk : x ∉ k.map Prod.fst) :
    dictSet x v (dictUpdate d k) = dictUpdate (dictSet x v d) k := by
  induction k generalizing d with
  | nil => rfl
  | cons e k ih =>
    obtain ⟨y, w⟩ := e
    simp only [List.map_cons, List.mem_cons, not_or] at hk
    show dictSet x v (dictUpdate (dictSet y w d) k) = dictUpdate (dictSet y w (dictSet x v d)) k
    rw [ih (mem_dictSet (.inr hx)) hk.2, dictSet_comm hx hk.1]

/-- One more entry. -/
theorem dictUpdate_dictSet (hk : (k.map Prod.fst).Nodup) :
    dictUpdate d (dictSet x v k) = dictSet x v (dictUpdate d k) := by
  induction k generalizing d with
  | nil => rfl
  | cons e k ih =>
    obtain ⟨y, w⟩ := e
    rw [List.map_cons, List.nodup_cons] at hk
    by_cases hy : y = x
    · subst hy
      have hset : dictSet y v ((y, w) :: k) = (y, v) :: k := by simp [dictSet]
      rw [hset]
      show dictUpdate (dictSet y v d) k = dictSet y v (dictUpdate (dictSet y w d) k)
      rw [dictSet_dictUpdate (mem_dictSet (.inl rfl)) hk.1, dictSet_dictSet_self]
    · have hset : dictSet x v ((y, w) :: k) = (y, w) :: dictSet x v k := by simp [dictSet, hy]
      rw [hset]
      exact ih hk.2

/-- **Merging is associative**: `{**d, **k, **l}`. -/
theorem dictUpdate_dictUpdate (d : List (String × V)) (hk : (k.map Prod.fst).Nodup)
    (l : List (String × V)) :
    dictUpdate d (dictUpdate k l) = dictUpdate (dictUpdate d k) l := by
  induction l generalizing k with
  | nil => rfl
  | cons e l ih =>
    show dictUpdate d (dictUpdate (dictSet e.1 e.2 k) l)
      = dictUpdate (dictSet e.1 e.2 (dictUpdate d k)) l
    rw [ih (nodup_dictSet hk), dictUpdate_dictSet hk]

theorem dictSet_of_not_mem (h : x ∉ d.map Prod.fst) : dictSet x v d = d ++ [(x, v)] := by
  induction d with
  | nil => rfl
  | cons e d ih =>
    obtain ⟨z, u⟩ := e
    simp only [List.map_cons, List.mem_cons, not_or] at h
    simp [dictSet, Ne.symm h.1, ih h.2]

theorem dictUpdate_of_disjoint (hl : (l.map Prod.fst).Nodup)
    (hd : ∀ x ∈ l.map Prod.fst, x ∉ d.map Prod.fst) : dictUpdate d l = d ++ l := by
  induction l generalizing d with
  | nil => exact (List.append_nil d).symm
  | cons e l ih =>
    rw [List.map_cons, List.nodup_cons] at hl
    rw [List.map_cons, List.forall_mem_cons] at hd
    show dictUpdate (dictSet e.1 e.2 d) l = _
    rw [dictSet_of_not_mem hd.1, ih hl.2, List.append_assoc, List.singleton_append]
    intro x hx
    rw [List.map_append, List.mem_append, not_or]
    refine ⟨hd.2 x hx, ?_⟩
    rw [List.map_singleton, List.mem_singleton]
    rintro rfl
    exact hl.1 hx

/-- `{**l}`. -/
theorem dictUpdate_nil_left (hl : (l.map Prod.fst).Nodup) : dictUpdate [] l = l :=
  dictUpdate_of_disjoint hl (by simp)

end Dict

end Canvas
end Celery
