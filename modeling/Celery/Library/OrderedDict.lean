/-
# Ordered dicts

A dict whose entries are in the order in which their keys were added: `set` is `d[k] = v`,
which leaves a key where it is, and `setLast` does `d.move_to_end(k)` as well, so that the first
entry is the one that was used the longest ago.

What a key is mapped to is read off `get?_pop`, `get?_set` and `get?_setLast`, which keys there
are off `keys_set`, and what holds of all values off `forall_pop` and `forall_setLast`.  The values may have a size: `weight` is the sum of
these, and of it every operation takes what was at its key and adds what it leaves there
(`weight_pop`, `weight_setLast`).
-/

import Mathlib.Algebra.BigOperators.Group.List.Basic
import Mathlib.Algebra.GroupWithZero.Nat
import Mathlib.Data.List.Induction
import Mathlib.Data.List.Nodup
import Mathlib.Tactic.Common

/-- A dict with its entries in order. -/
@[ext] structure OrderedDict (K V : Type) where
  items : List (K × V)
  nodup : (items.map Prod.fst).Nodup

namespace OrderedDict

variable {K V : Type}

/-- `OrderedDict()`. -/
def empty : OrderedDict K V := ⟨[], List.nodup_nil⟩

@[simp] theorem items_empty : (empty : OrderedDict K V).items = [] := rfl

/-- The keys, in order. -/
def keys (d : OrderedDict K V) : List K := d.items.map Prod.fst

/-- The values, in order. -/
def values (d : OrderedDict K V) : List V := d.items.map Prod.snd

variable [DecidableEq K]

theorem nodup_filter (items : List (K × V)) (h : (items.map Prod.fst).Nodup) (k : K) :
    ((items.filter fun e => e.1 ≠ k).map Prod.fst).Nodup :=
  (List.filter_sublist.map Prod.fst).nodup h

theorem not_mem_keys_filter (items : List (K × V)) (k : K) :
    k ∉ (items.filter fun e => e.1 ≠ k).map Prod.fst := by
  simp

theorem filter_ne_of_not_mem {items : List (K × V)} {k : K} (h : k ∉ items.map Prod.fst) :
    (items.filter fun e => e.1 ≠ k) = items := by
  rw [List.filter_eq_self]
  rintro ⟨l, v⟩ he
  have hne : l ≠ k := fun heq => h (heq ▸ List.mem_map_of_mem he)
  simpa using hne

theorem nodup_concat {items : List (K × V)} (h : (items.map Prod.fst).Nodup) (k : K) (v : V) :
    (((items.filter fun e => e.1 ≠ k) ++ [(k, v)]).map Prod.fst).Nodup := by
  rw [List.map_append]
  refine (nodup_filter items h k).append (List.nodup_singleton k) ?_
  exact List.disjoint_singleton.mpr (not_mem_keys_filter items k)

/-- `d.get(k)`. -/
def get? (d : OrderedDict K V) (k : K) : Option V := d.items.lookup k

/-- `d.pop(k)`, or `d` if there is no `k`. -/
def pop (d : OrderedDict K V) (k : K) : OrderedDict K V :=
  ⟨d.items.filter fun e => e.1 ≠ k, nodup_filter d.items d.nodup k⟩

/-- `d[k] = v` and `d.move_to_end(k)`. -/
def setLast (d : OrderedDict K V) (k : K) (v : V) : OrderedDict K V :=
  ⟨(d.pop k).items ++ [(k, v)], nodup_concat d.nodup k v⟩

@[simp] theorem items_setLast (d : OrderedDict K V) (k : K) (v : V) :
    (d.setLast k v).items = (d.pop k).items ++ [(k, v)] := rfl

/-- The entries after `d[k] = v`. -/
def setItems (k : K) (v : V) : List (K × V) → List (K × V)
  | [] => [(k, v)]
  | e :: items => if e.1 = k then (k, v) :: items else e :: setItems k v items

theorem keys_setItems (k : K) (v : V) (items : List (K × V)) :
    (setItems k v items).map Prod.fst =
      if k ∈ items.map Prod.fst then items.map Prod.fst else items.map Prod.fst ++ [k] := by
  induction items with
  | nil => rfl
  | cons e items ih =>
    rw [setItems]
    split
    next he => simp [he]
    next he =>
      have hne : k ≠ e.1 := fun heq => he heq.symm
      rw [List.map_cons, ih, List.map_cons]
      simp only [List.mem_cons, hne, false_or]
      split <;> rfl

theorem nodup_setItems {items : List (K × V)} (h : (items.map Prod.fst).Nodup) (k : K) (v : V) :
    ((setItems k v items).map Prod.fst).Nodup := by
  rw [keys_setItems]
  split
  · exact h
  next hk => exact h.append (List.nodup_singleton k) (List.disjoint_singleton.mpr hk)

/-- `d[k] = v`. -/
def set (d : OrderedDict K V) (k : K) (v : V) : OrderedDict K V :=
  ⟨setItems k v d.items, nodup_setItems d.nodup k v⟩

/-- **A key that is set stays where it is**, or comes last if it is new. -/
theorem keys_set (d : OrderedDict K V) (k : K) (v : V) :
    (d.set k v).keys = if k ∈ d.keys then d.keys else d.keys ++ [k] := keys_setItems k v d.items

/-- `{k: v for k, v in items}`. -/
def ofItems (items : List (K × V)) : OrderedDict K V :=
  items.foldl (fun d e => d.set e.1 e.2) empty

theorem setItems_of_not_mem {items : List (K × V)} {k : K} (h : k ∉ items.map Prod.fst) (v : V) :
    setItems k v items = items ++ [(k, v)] := by
  induction items with
  | nil => rfl
  | cons e items ih =>
    obtain ⟨hne, hnot⟩ := not_or.mp (mt List.mem_cons.mpr h)
    rw [setItems, if_neg (Ne.symm hne), ih hnot, List.cons_append]

/-- Items with different keys are the entries. -/
theorem items_ofItems {items : List (K × V)} (h : (items.map Prod.fst).Nodup) :
    (ofItems items).items = items := by
  have hfold : ∀ (items : List (K × V)) (d : OrderedDict K V),
      ((d.items ++ items).map Prod.fst).Nodup →
        (items.foldl (fun d e => d.set e.1 e.2) d).items = d.items ++ items := by
    intro items
    induction items with
    | nil => exact fun d _ => (List.append_nil _).symm
    | cons e items ih =>
      intro d hd
      have hset : (d.set e.1 e.2).items = d.items ++ [e] := by
        refine setItems_of_not_mem (fun hmem => ?_) e.2
        rw [List.map_append, List.map_cons] at hd
        exact List.disjoint_of_nodup_append hd hmem List.mem_cons_self
      have hd' : (((d.set e.1 e.2).items ++ items).map Prod.fst).Nodup := by
        rwa [hset, List.append_assoc]
      rw [List.foldl_cons, ih _ hd', hset, List.append_assoc]
      rfl
  exact hfold items empty h

/-! ## What is at a key -/

theorem lookup_cons_eq_ite (k l : K) (v : V) (items : List (K × V)) :
    ((k, v) :: items).lookup l = if l = k then some v else items.lookup l := by
  rw [List.lookup_cons]
  cases hl : l == k
  · rw [if_neg (ne_of_beq_false hl)]
  · rw [if_pos (eq_of_beq hl)]

theorem lookup_setItems (items : List (K × V)) (k l : K) (v : V) :
    (setItems k v items).lookup l = if l = k then some v else items.lookup l := by
  induction items with
  | nil => exact lookup_cons_eq_ite k l v []
  | cons e items ih =>
    obtain ⟨k', w⟩ := e
    rw [setItems]
    split
    next he =>
      obtain rfl : k' = k := he
      rw [lookup_cons_eq_ite, lookup_cons_eq_ite]
      split <;> rfl
    next he =>
      rw [lookup_cons_eq_ite, lookup_cons_eq_ite, ih]
      split
      next hl => rw [if_neg (hl ▸ he)]
      · rfl

@[simp] theorem get?_set (d : OrderedDict K V) (k l : K) (v : V) :
    (d.set k v).get? l = if l = k then some v else d.get? l := lookup_setItems d.items k l v

/-- The last of the items with a key is what it is mapped to. -/
theorem get?_ofItems (items : List (K × V)) (k : K) :
    (ofItems items).get? k = (items.reverse.find? fun e => e.1 = k).map Prod.snd := by
  induction items using List.reverseRecOn with
  | nil => rfl
  | append_singleton items e ih =>
    have hset : ofItems (items ++ [e]) = (ofItems items).set e.1 e.2 := List.foldl_concat ..
    rw [hset, get?_set, ih, List.reverse_concat, List.find?_cons]
    by_cases he : e.1 = k
    · rw [if_pos he.symm, decide_eq_true he]
      rfl
    · rw [if_neg (Ne.symm he), decide_eq_false he]

theorem mem_keys_iff {d : OrderedDict K V} {k : K} : k ∈ d.keys ↔ ∃ v, d.get? k = some v := by
  rw [← Option.isSome_iff_exists, get?, List.lookup_isSome_iff, keys, List.mem_map]
  simp only [beq_iff_eq]
  exact ⟨fun ⟨e, he, heq⟩ => ⟨e, he, heq.symm⟩, fun ⟨e, he, heq⟩ => ⟨e, he, heq.symm⟩⟩

theorem lookup_filter_ne (items : List (K × V)) (k l : K) :
    (items.filter fun e => e.1 ≠ k).lookup l = if l = k then none else items.lookup l := by
  induction items with
  | nil => simp
  | cons e items ih =>
    obtain ⟨k', v⟩ := e
    by_cases hk : k' = k
    · subst hk
      rw [List.filter_cons_of_neg (by simp), ih, lookup_cons_eq_ite]
      split <;> rfl
    · rw [List.filter_cons_of_pos (by simpa using hk), lookup_cons_eq_ite, lookup_cons_eq_ite, ih]
      split
      next hl => rw [if_neg (hl ▸ hk)]
      · rfl

theorem get?_pop (d : OrderedDict K V) (k l : K) :
    (d.pop k).get? l = if l = k then none else d.get? l := lookup_filter_ne d.items k l

@[simp] theorem get?_setLast (d : OrderedDict K V) (k l : K) (v : V) :
    (d.setLast k v).get? l = if l = k then some v else d.get? l := by
  have hpop : (d.pop k).items.lookup l = (d.pop k).get? l := rfl
  rw [get?, items_setLast, List.lookup_append, hpop, get?_pop, lookup_cons_eq_ite]
  split
  · rfl
  · exact Option.or_none

/-- A key that is not there. -/
theorem not_mem_keys_of_get? {d : OrderedDict K V} {k : K} (h : d.get? k = none) :
    k ∉ d.items.map Prod.fst := by
  intro hmem
  obtain ⟨⟨l, v⟩, he, rfl⟩ := List.mem_map.mp hmem
  exact absurd (List.lookup_eq_none_iff.mp h _ he) (by simp)

theorem pop_of_get?_eq_none {d : OrderedDict K V} {k : K} (h : d.get? k = none) : d.pop k = d :=
  OrderedDict.ext (filter_ne_of_not_mem (not_mem_keys_of_get? h))

/-- Only the last value that is set counts. -/
theorem setLast_setLast (d : OrderedDict K V) (k : K) (v w : V) :
    (d.setLast k v).setLast k w = d.setLast k w := by
  refine OrderedDict.ext (congrArg (fun items => items ++ [(k, w)]) ?_)
  have hpop : (d.pop k).items.filter (fun e => e.1 ≠ k) = (d.pop k).items :=
    filter_ne_of_not_mem (not_mem_keys_filter d.items k)
  have hlast : [(k, v)].filter (fun e => e.1 ≠ k) = [] := List.filter_cons_of_neg (by simp)
  have hsplit : ((d.setLast k v).pop k).items =
      (d.pop k).items.filter (fun e => e.1 ≠ k) ++ [(k, v)].filter (fun e => e.1 ≠ k) :=
    List.filter_append ..
  rw [hsplit, hpop, hlast, List.append_nil]

/-- The first entry is the one at its key. -/
theorem get?_of_items_eq_cons {d : OrderedDict K V} {k : K} {v : V} {rest : List (K × V)}
    (h : d.items = (k, v) :: rest) : d.get? k = some v := by
  rw [get?, h, lookup_cons_eq_ite, if_pos rfl]

/-- Without its first entry a dict has the entries that follow. -/
theorem items_pop_of_items_eq_cons {d : OrderedDict K V} {k : K} {v : V} {rest : List (K × V)}
    (h : d.items = (k, v) :: rest) : (d.pop k).items = rest := by
  have hnodup := d.nodup
  rw [h, List.map_cons, List.nodup_cons] at hnodup
  have hfilter : (d.pop k).items = d.items.filter fun e => e.1 ≠ k := rfl
  rw [hfilter, h, List.filter_cons_of_neg (by simp), filter_ne_of_not_mem hnodup.1]

/-! ## What holds of all values -/

theorem forall_pop {P : V → Prop} {d : OrderedDict K V} (h : ∀ e ∈ d.items, P e.2) (k : K) :
    ∀ e ∈ (d.pop k).items, P e.2 := fun e he => h e (List.mem_of_mem_filter he)

theorem forall_setLast {P : V → Prop} {d : OrderedDict K V} (h : ∀ e ∈ d.items, P e.2) (k : K)
    {v : V} (hv : P v) : ∀ e ∈ (d.setLast k v).items, P e.2 := by
  intro e he
  rcases List.mem_append.mp he with he | he
  · exact forall_pop h k e he
  · obtain rfl := List.mem_singleton.mp he
    exact hv

omit [DecidableEq K] in
theorem mem_of_lookup [BEq K] [LawfulBEq K] {items : List (K × V)} {k : K} {v : V}
    (h : items.lookup k = some v) : (k, v) ∈ items := by
  obtain ⟨before, after, heq, -⟩ := List.lookup_eq_some_iff.mp h
  rw [heq]
  exact List.mem_append_right _ (List.mem_cons_self)

theorem mem_of_get? {d : OrderedDict K V} {k : K} {v : V} (h : d.get? k = some v) :
    (k, v) ∈ d.items := mem_of_lookup h

/-- An entry is what is at its key. -/
theorem get?_of_mem {d : OrderedDict K V} {k : K} {v : V} (h : (k, v) ∈ d.items) :
    d.get? k = some v := by
  have hkey : k ∈ d.keys := List.mem_map_of_mem h
  obtain ⟨w, hw⟩ := mem_keys_iff.mp hkey
  have hinj := List.inj_on_of_nodup_map d.nodup (mem_of_get? hw) h rfl
  obtain ⟨-, rfl⟩ := Prod.mk.inj hinj
  exact hw

theorem mem_values_iff {d : OrderedDict K V} {v : V} : v ∈ d.values ↔ ∃ k, d.get? k = some v := by
  constructor
  · intro hv
    obtain ⟨⟨k, w⟩, he, rfl⟩ := List.mem_map.mp hv
    exact ⟨k, get?_of_mem he⟩
  · rintro ⟨k, hget⟩
    exact List.mem_map_of_mem (mem_of_get? hget)

/-! ## The sum of the sizes -/

omit [DecidableEq K] in
/-- The sum of the sizes of all values. -/
def weight (size : V → ℕ) (d : OrderedDict K V) : ℕ := (d.items.map fun e => size e.2).sum

variable (size : V → ℕ)

theorem sum_filter_ne {items : List (K × V)} (h : (items.map Prod.fst).Nodup) (k : K) :
    (items.map fun e => size e.2).sum =
      ((items.lookup k).map size).getD 0 +
        ((items.filter fun e => e.1 ≠ k).map fun e => size e.2).sum := by
  induction items with
  | nil => rfl
  | cons e items ih =>
    obtain ⟨k', v⟩ := e
    rw [List.map_cons, List.nodup_cons] at h
    rw [List.map_cons, List.sum_cons, List.lookup_cons]
    by_cases hk : k = k'
    · subst hk
      rw [beq_self_eq_true, List.filter_cons_of_neg (by simp), filter_ne_of_not_mem h.1]
      rfl
    · have hne : k' ≠ k := fun heq => hk heq.symm
      rw [beq_false_of_ne hk, List.filter_cons_of_pos (by simpa using hne), List.map_cons,
        List.sum_cons, ih h.2]
      exact Nat.add_left_comm _ _ _

/-- **What a `pop` takes** from the sum is the size of what was at the key. -/
theorem weight_pop (d : OrderedDict K V) (k : K) :
    d.weight size = ((d.get? k).map size).getD 0 + (d.pop k).weight size :=
  sum_filter_ne size d.nodup k

theorem weight_setLast (d : OrderedDict K V) (k : K) (v : V) :
    (d.setLast k v).weight size = size v + (d.pop k).weight size := by
  rw [weight, items_setLast, List.map_append, List.sum_append, Nat.add_comm]
  simp [weight]

end OrderedDict
