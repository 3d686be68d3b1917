/-
# `celery/utils/collections.py`: `LimitedSet`

A `LimitedSet` (lines 450-698) keeps its items with the times they were added at, and has a
heap to find the oldest one.  It holds `maxlen` items at most, and forgets an item `expires`
seconds after it was added, at the next `purge`.

The heap may have entries of items that have been discarded since, but it has those of all
items that are there.  The operations keep it so (`Sound.step`), so that a `pop` takes an
item out as long as there is one (`Sound.length_pop`), and a `purge` leaves no more than
`maxlen` (`length_purge_le`).

Items are added with a given time, and a `purge` comes when `maxlen` is reached.  So a dict
of items and times that is shorter is taken over as it is (`asDict_updateDict`), and of one
that is as long, what has expired by the clock is lost (`forall_mem_purge_iff`).

Times are rational numbers, and the clock stands still within an operation.  Updating a set
from another `LimitedSet` is in `Celery.Utils.Purging`.
-/

import Celery.Library.Heapq
import Mathlib.Algebra.Field.Rat
import Mathlib.Algebra.Order.Ring.Unbundled.Rat
import Mathlib.Data.List.Induction
import Mathlib.Data.List.Nodup
import Mathlib.Data.NNRat.Defs
import Mathlib.Data.Prod.Lex

namespace Celery

/-! ## The set -/

/-- An entry `(inserted, sequence number, item)`. -/
structure Entry (α : Type) where
  inserted : ℚ
  seq : ℕ
  item : α
deriving DecidableEq, Repr

variable {α : Type}

/-- What entries are ordered by first. -/
def Entry.key (e : Entry α) : ℚ ×ₗ ℕ := toLex (e.inserted, e.seq)

/-- The comparison of entries, which are tuples.  The sequence numbers of a set differ, so items
are compared only where entries of another set have come in. -/
def Entry.lt [LT α] [DecidableLT α] (e e' : Entry α) : Bool :=
  decide (e.key < e'.key ∨ e.key = e'.key ∧ e.item < e'.item)

/-- The arguments of a `LimitedSet`, as its constructor checks them. -/
structure Limits where
  maxlen : ℕ
  expires : NNRat
  minlen : ℕ
  minlen_le : minlen ≤ maxlen

/-- `LimitedSet`: `data` in the order of insertion, the heap, and the next sequence number. -/
structure LimitedSet (α : Type) where
  limits : Limits
  data : List (Entry α)
  heap : Array (Entry α)
  seq : ℕ

namespace LimitedSet

/-- `LimitedSet(maxlen, expires, minlen=minlen)`. -/
def new (limits : Limits) : LimitedSet α := ⟨limits, [], #[], 0⟩

variable (s : LimitedSet α)

/-- The items. -/
def items : List α := s.data.map Entry.item

/-- `as_dict`. -/
def asDict : List (α × ℚ) := s.data.map fun e => (e.item, e.inserted)

variable [LT α] [DecidableLT α]

/-- `__iter__`: the items from the oldest on. -/
def iter : List α := (s.data.mergeSort fun e e' => !e'.lt e).map Entry.item

/-- `_refresh_heap`. -/
def refreshHeap : LimitedSet α := { s with heap := Heapq.heapify Entry.lt s.data.toArray }

/-- `_maybe_refresh_heap`: the heap has at least 15% more entries than there are items. -/
def maybeRefreshHeap : LimitedSet α :=
  if 115 * max s.data.length 1 ≤ 100 * s.heap.size then s.refreshHeap else s

omit [LT α] [DecidableLT α] in
/-- `clear`. -/
def clear : LimitedSet α := { s with data := [], heap := #[] }

variable [DecidableEq α]

omit [LT α] [DecidableLT α] in
/-- `_data.pop(item)`. -/
def remove (item : α) : LimitedSet α := { s with data := s.data.filter fun e => e.item ≠ item }

/-- `discard`. -/
def discard (item : α) : LimitedSet α := (s.remove item).maybeRefreshHeap

/-- The loop of `pop`, for the first entries of the heap. -/
def popFrom : ℕ → LimitedSet α → Option α × LimitedSet α
  | 0, s => (none, s)
  | n + 1, s =>
    match Heapq.heappop Entry.lt s.heap with
    | none => (none, s)
    | some (e, heap) =>
      let s := { s with heap := heap }
      if e.item ∈ s.items then (some e.item, s.remove e.item) else popFrom n s

/-- `pop`. -/
def pop : Option α × LimitedSet α := popFrom s.heap.size s

/-- The first loop of `purge`. -/
def trimFrom : ℕ → LimitedSet α → LimitedSet α
  | 0, s => s
  | n + 1, s => if s.limits.maxlen < s.data.length then trimFrom n s.pop.2 else s

/-- The second loop of `purge`; `_heap[0]` is there as long as there are items. -/
def expireFrom (now : ℚ) : ℕ → LimitedSet α → LimitedSet α
  | 0, s => s
  | n + 1, s =>
    if s.limits.minlen < s.data.length then
      match s.heap[0]? with
      | none => s
      | some e =>
        if now < e.inserted + s.limits.expires then s else expireFrom now n s.pop.2
    else s

/-- `purge`; every turn of its loops takes out an item. -/
def purge (now : ℚ) : LimitedSet α :=
  let s := if s.limits.maxlen = 0 then s else trimFrom s.data.length s
  if s.limits.expires = 0 then s else expireFrom now s.data.length s

omit [DecidableEq α] in
/-- The entry of a new item goes into the dict and the heap. -/
def push (item : α) (inserted : ℚ) : LimitedSet α :=
  let entry : Entry α := ⟨inserted, s.seq, item⟩
  { s with
    data := s.data ++ [entry], heap := Heapq.heappush Entry.lt s.heap entry, seq := s.seq + 1 }

/-- `add`, with the time of insertion and the clock. -/
def add (item : α) (inserted now : ℚ) : LimitedSet α :=
  let s := (if item ∈ s.items then s.discard item else s).push item inserted
  if s.limits.maxlen ≠ 0 ∧ s.limits.maxlen ≤ s.data.length then s.purge now else s

/-- `update` from a dict of items and times. -/
def updateDict (other : List (α × ℚ)) (now : ℚ) : LimitedSet α :=
  other.foldl (fun s entry => s.add entry.1 entry.2 now) s

/-- `update` from any other items. -/
def update (other : List α) (now : ℚ) : LimitedSet α :=
  other.foldl (fun s item => s.add item now now) s

end LimitedSet

/-- What a `LimitedSet` is pickled as: `__reduce__` gives the arguments of its constructor. -/
structure Pickled (α : Type) where
  limits : Limits
  data : List (α × ℚ)

/-- `__reduce__`. -/
def LimitedSet.reduce (s : LimitedSet α) : Pickled α := ⟨s.limits, s.asDict⟩

/-- `pickle.loads`, which calls the constructor. -/
def Pickled.load [LT α] [DecidableLT α] [DecidableEq α] (p : Pickled α) (now : ℚ) : LimitedSet α :=
  (LimitedSet.new p.limits).updateDict p.data now

/-- What is done with a `LimitedSet`. -/
inductive SetAction (α : Type) where
  | add (item : α) (inserted now : ℚ)
  | discard (item : α)
  | pop
  | purge (now : ℚ)
  | clear

namespace LimitedSet

variable [LT α] [DecidableLT α] [DecidableEq α]

/-- One step. -/
def step (s : LimitedSet α) : SetAction α → LimitedSet α
  | .add item inserted now => s.add item inserted now
  | .discard item => s.discard item
  | .pop => s.pop.2
  | .purge now => s.purge now
  | .clear => s.clear

/-- A new set after some actions. -/
def after (limits : Limits) (as : List (SetAction α)) : LimitedSet α :=
  as.foldl LimitedSet.step (new limits)

/-! ## The heap -/

/-- The heap has the entries of all items, and those of one item only once. -/
structure Sound (s : LimitedSet α) : Prop where
  nodup : s.items.Nodup
  mem_heap : ∀ e ∈ s.data, e ∈ s.heap.toList
  heap : Heapq.Heap Entry.key s.heap

section Heap

variable {s : LimitedSet α} {e : Entry α}

omit [DecidableEq α] in
theorem lt_key (e e' : Entry α) (h : e.lt e' = true) : e.key ≤ e'.key :=
  (of_decide_eq_true h).elim le_of_lt fun heq => heq.1.le

omit [DecidableEq α] in
theorem key_le (e e' : Entry α) (h : e.lt e' = false) : e'.key ≤ e.key :=
  le_of_not_gt fun hlt => of_decide_eq_false h (Or.inl hlt)

omit [LT α] [DecidableLT α] [DecidableEq α] in
theorem mem_items {item : α} : item ∈ s.items ↔ ∃ e ∈ s.data, e.item = item := List.mem_map

omit [DecidableEq α] in
theorem Sound.refreshHeap (h : s.items.Nodup) : s.refreshHeap.Sound := by
  refine ⟨h, fun e (he : e ∈ s.data) => ?_, Heapq.heapify_heap lt_key key_le _⟩
  exact (Heapq.heapify_perm Entry.lt s.data.toArray).toList.mem_iff.mpr (by simpa using he)

omit [DecidableEq α] in
theorem Sound.maybeRefreshHeap (h : s.Sound) : s.maybeRefreshHeap.Sound := by
  rw [LimitedSet.maybeRefreshHeap]
  split
  · exact Sound.refreshHeap h.nodup
  · exact h

omit [LT α] [DecidableLT α] in
theorem items_remove (s : LimitedSet α) (item : α) :
    (s.remove item).items = s.items.filter fun x => x ≠ item := by
  rw [items, items, List.filter_map]
  rfl

omit [LT α] [DecidableLT α] in
theorem nodup_remove (h : s.items.Nodup) (item : α) : (s.remove item).items.Nodup :=
  h.sublist (List.filter_sublist.map _)

omit [LT α] [DecidableLT α] in
theorem Sound.remove (h : s.Sound) (item : α) : (s.remove item).Sound :=
  ⟨nodup_remove h.nodup item, fun e he => h.mem_heap e (List.mem_of_mem_filter he), h.heap⟩

theorem Sound.discard (h : s.Sound) (item : α) : (s.discard item).Sound :=
  (h.remove item).maybeRefreshHeap

omit [LT α] [DecidableLT α] in
/-- An item that is there is taken out alone. -/
theorem length_remove (h : s.items.Nodup) {item : α} (hitem : item ∈ s.items) :
    (s.remove item).data.length + 1 = s.data.length := by
  have herase : (s.remove item).items = s.items.erase item := by
    rw [h.erase_eq_filter, items_remove]
    exact List.filter_congr fun x _ => Bool.eq_iff_iff.mpr (by simp)
  have hlength := congrArg List.length herase
  rw [List.length_erase_of_mem hitem] at hlength
  have hpos := List.length_pos_of_mem hitem
  simp only [items, List.length_map] at hlength hpos
  omega

/-- The first entry of the heap goes: what is left is sound but for the item of the entry. -/
theorem Sound.heappop (h : s.Sound) {heap : Array (Entry α)}
    (hpop : Heapq.heappop Entry.lt s.heap = some (e, heap)) :
    (LimitedSet.remove { s with heap := heap } e.item).Sound ∧
      (e.item ∉ s.items → LimitedSet.Sound { s with heap := heap }) := by
  have hrest := Heapq.heappop_heap lt_key key_le h.heap hpop
  have hsize : 0 < s.heap.size := by
    by_contra hsize
    rw [Heapq.heappop, dif_neg hsize] at hpop
    cases hpop
  obtain ⟨rest, hpop', hperm⟩ := @Heapq.heappop_eq _ Entry.lt s.heap hsize
  rw [hpop] at hpop'
  obtain ⟨rfl, rfl⟩ : e = s.heap[0] ∧ heap = rest := by simpa using hpop'
  have hother : ∀ e' ∈ s.data, e'.item ≠ s.heap[0].item → e' ∈ heap.toList := by
    intro e' he' hne
    refine (List.mem_cons.mp (hperm.mem_iff.mp (h.mem_heap e' he'))).resolve_left ?_
    rintro rfl
    exact hne rfl
  refine ⟨⟨nodup_remove h.nodup _, fun e' he' => ?_, hrest⟩, fun hitem => ⟨h.nodup, ?_, hrest⟩⟩
  · obtain ⟨he', hne⟩ := List.mem_filter.mp he'
    exact hother e' he' (by simpa using hne)
  · intro e' he'
    refine hother e' he' fun heq => hitem ?_
    exact mem_items.mpr ⟨e', he', heq⟩

/-- What a `pop` does: it takes an item out, or there was none. -/
theorem Sound.popFrom_spec (h : s.Sound) (n : ℕ) (hn : n = s.heap.size) :
    (popFrom n s).2.Sound ∧ (popFrom n s).2.limits = s.limits ∧
      (popFrom n s).2.data.Sublist s.data ∧
      (popFrom n s).2.data.length = s.data.length - 1 := by
  induction n generalizing s with
  | zero =>
    have hdata : s.data = [] := by
      rw [List.eq_nil_iff_forall_not_mem]
      intro e he
      have hmem := h.mem_heap e he
      rw [Array.size_eq_zero_iff.mp hn.symm] at hmem
      cases hmem
    rw [popFrom, hdata]
    exact ⟨h, rfl, List.Sublist.refl _, rfl⟩
  | succ n ih =>
    obtain ⟨rest, hpop, hperm⟩ := @Heapq.heappop_eq _ Entry.lt s.heap (by omega)
    obtain ⟨hremove, hkeep⟩ := h.heappop hpop
    rw [popFrom, hpop]
    dsimp only
    split
    next hitem =>
      have hlength := length_remove (s := { s with heap := rest }) h.nodup hitem
      refine ⟨hremove, rfl, List.filter_sublist, ?_⟩
      exact Nat.eq_sub_of_add_eq hlength
    next hitem =>
      have hsize : n = rest.size := by
        have hlength := hperm.length_eq
        rw [List.length_cons, Array.length_toList, Array.length_toList] at hlength
        omega
      exact ih (hkeep hitem) hsize

theorem Sound.pop (h : s.Sound) : s.pop.2.Sound := (h.popFrom_spec _ rfl).1

theorem Sound.limits_pop (h : s.Sound) : s.pop.2.limits = s.limits := (h.popFrom_spec _ rfl).2.1

theorem Sound.pop_sublist (h : s.Sound) : s.pop.2.data.Sublist s.data :=
  (h.popFrom_spec _ rfl).2.2.1

/-- **A `pop` takes an item out**, if there is one. -/
theorem Sound.length_pop (h : s.Sound) : s.pop.2.data.length = s.data.length - 1 :=
  (h.popFrom_spec _ rfl).2.2.2

/-- What the first loop of `purge` leaves. -/
theorem Sound.trimFrom_spec (h : s.Sound) (n : ℕ) (hn : s.data.length ≤ n) :
    (trimFrom n s).Sound ∧ (trimFrom n s).limits = s.limits ∧
      (trimFrom n s).data.Sublist s.data ∧ (trimFrom n s).data.length ≤ s.limits.maxlen := by
  induction n generalizing s with
  | zero => exact ⟨h, rfl, List.Sublist.refl _, (Nat.le_zero.mp hn).trans_le (Nat.zero_le _)⟩
  | succ n ih =>
    rw [trimFrom]
    split
    next hlong =>
      have hlength := h.length_pop
      obtain ⟨hsound, hlimits, hsub, hle⟩ := ih h.pop (by omega)
      rw [h.limits_pop] at hlimits hle
      exact ⟨hsound, hlimits, hsub.trans h.pop_sublist, hle⟩
    next hshort => exact ⟨h, rfl, List.Sublist.refl _, Nat.le_of_not_lt hshort⟩

/-- What the second loop of `purge` leaves. -/
theorem Sound.expireFrom_spec (h : s.Sound) (now : ℚ) (n : ℕ) :
    (expireFrom now n s).Sound ∧ (expireFrom now n s).limits = s.limits ∧
      (expireFrom now n s).data.Sublist s.data := by
  induction n generalizing s with
  | zero => exact ⟨h, rfl, List.Sublist.refl _⟩
  | succ n ih =>
    rw [expireFrom]
    split
    · split
      · exact ⟨h, rfl, List.Sublist.refl _⟩
      · split
        · exact ⟨h, rfl, List.Sublist.refl _⟩
        · obtain ⟨hsound, hlimits, hsub⟩ := ih h.pop
          exact ⟨hsound, hlimits.trans h.limits_pop, hsub.trans h.pop_sublist⟩
    · exact ⟨h, rfl, List.Sublist.refl _⟩

/-- What `purge` leaves. -/
theorem Sound.purge_spec (h : s.Sound) (now : ℚ) :
    (s.purge now).Sound ∧ (s.purge now).limits = s.limits ∧ (s.purge now).data.Sublist s.data ∧
      (s.limits.maxlen ≠ 0 → (s.purge now).data.length ≤ s.limits.maxlen) := by
  obtain ⟨t, ht, htrim, hlimits, hsub, hle⟩ : ∃ t : LimitedSet α,
      (if s.limits.maxlen = 0 then s else trimFrom s.data.length s) = t ∧ t.Sound ∧
        t.limits = s.limits ∧ t.data.Sublist s.data ∧
        (s.limits.maxlen ≠ 0 → t.data.length ≤ s.limits.maxlen) := by
    refine ⟨_, rfl, ?_⟩
    split
    next hzero => exact ⟨h, rfl, List.Sublist.refl _, fun hne => absurd hzero hne⟩
    next =>
      obtain ⟨hsound, hlimits, hsub, hle⟩ := h.trimFrom_spec s.data.length le_rfl
      exact ⟨hsound, hlimits, hsub, fun _ => hle⟩
  rw [LimitedSet.purge, ht]
  split
  · exact ⟨htrim, hlimits, hsub, hle⟩
  · obtain ⟨hsound, hlimits', hsub'⟩ := htrim.expireFrom_spec now t.data.length
    exact ⟨hsound, hlimits'.trans hlimits, hsub'.trans hsub,
      fun hne => hsub'.length_le.trans (hle hne)⟩

theorem Sound.purge (h : s.Sound) (now : ℚ) : (s.purge now).Sound := (h.purge_spec now).1

/-- **A set that has been purged has no more than `maxlen` items.** -/
theorem length_purge_le (h : s.Sound) (now : ℚ) (hmaxlen : s.limits.maxlen ≠ 0) :
    (s.purge now).data.length ≤ s.limits.maxlen :=
  (h.purge_spec now).2.2.2 hmaxlen

omit [DecidableEq α] in
theorem items_push (s : LimitedSet α) (item : α) (inserted : ℚ) :
    (s.push item inserted).items = s.items ++ [item] :=
  List.map_append

omit [DecidableEq α] in
/-- A new entry, of an item that is not there. -/
theorem Sound.push (h : s.Sound) {item : α} (hitem : item ∉ s.items) (inserted : ℚ) :
    (s.push item inserted).Sound := by
  have hperm := (Heapq.heappush_perm Entry.lt s.heap ⟨inserted, s.seq, item⟩).toList
  refine ⟨?_, fun e' he' => ?_, Heapq.heappush_heap lt_key key_le h.heap _⟩
  · rw [items_push]
    exact h.nodup.append (List.nodup_singleton _) (List.disjoint_singleton.mpr hitem)
  · refine hperm.mem_iff.mpr ?_
    rw [Array.toList_push, List.mem_append]
    exact (List.mem_append.mp he').imp_left (h.mem_heap e')

theorem not_mem_items_discard (s : LimitedSet α) (item : α) : item ∉ (s.discard item).items := by
  have hitems : (s.discard item).items = (s.remove item).items := by
    rw [LimitedSet.discard, LimitedSet.maybeRefreshHeap]
    split
    · rfl
    · rfl
  rw [hitems, items_remove]
  simp

theorem Sound.add (h : s.Sound) (item : α) (inserted now : ℚ) :
    (s.add item inserted now).Sound := by
  obtain ⟨t, ht, hsound, hitem⟩ : ∃ t, (if item ∈ s.items then s.discard item else s) = t ∧
      t.Sound ∧ item ∉ t.items := by
    refine ⟨_, rfl, ?_⟩
    split
    next => exact ⟨h.discard item, not_mem_items_discard s item⟩
    next hitem => exact ⟨h, hitem⟩
  have hpush := hsound.push hitem inserted
  rw [LimitedSet.add, ht]
  split
  · exact hpush.purge now
  · exact hpush

omit [LT α] [DecidableLT α] [DecidableEq α] in
theorem sound_empty (limits : Limits) (seq : ℕ) :
    (⟨limits, [], #[], seq⟩ : LimitedSet α).Sound :=
  ⟨List.nodup_nil, fun _ he => absurd he List.not_mem_nil,
    fun _ _ hp => absurd hp (Nat.not_lt_zero _)⟩

/-- **The heap has the entries of all items**, whatever is done. -/
theorem Sound.step (h : s.Sound) (a : SetAction α) : (s.step a).Sound := by
  cases a with
  | add item inserted now => exact h.add item inserted now
  | discard item => exact h.discard item
  | pop => exact h.pop
  | purge now => exact h.purge now
  | clear => exact sound_empty s.limits s.seq

theorem sound_after (limits : Limits) (as : List (SetAction α)) : (after limits as).Sound := by
  induction as using List.reverseRecOn with
  | nil => exact sound_empty limits 0
  | append_singleton as a ih =>
    rw [after, List.foldl_concat]
    exact ih.step a

/-- The limits stay what they are. -/
theorem Sound.limits_step (h : s.Sound) (a : SetAction α) : (s.step a).limits = s.limits := by
  have hdiscard : ∀ item : α, (s.discard item).limits = s.limits := by
    intro item
    rw [LimitedSet.discard, LimitedSet.maybeRefreshHeap]
    split
    · rfl
    · rfl
  cases a with
  | add item inserted now =>
    obtain ⟨t, ht, hsound, hitem, hlimits⟩ : ∃ t,
        (if item ∈ s.items then s.discard item else s) = t ∧ t.Sound ∧ item ∉ t.items ∧
          t.limits = s.limits := by
      refine ⟨_, rfl, ?_⟩
      split
      next => exact ⟨h.discard item, not_mem_items_discard s item, hdiscard item⟩
      next hitem => exact ⟨h, hitem, rfl⟩
    rw [LimitedSet.step, LimitedSet.add, ht]
    split
    · exact ((hsound.push hitem inserted).purge_spec now).2.1.trans hlimits
    · exact hlimits
  | discard item => exact hdiscard item
  | pop => exact h.limits_pop
  | purge now => exact (h.purge_spec now).2.1
  | clear => rfl

theorem limits_after (limits : Limits) (as : List (SetAction α)) :
    (after limits as).limits = limits := by
  induction as using List.reverseRecOn with
  | nil => rfl
  | append_singleton as a ih =>
    rw [after, List.foldl_concat]
    exact ((sound_after limits as).limits_step a).trans ih

end Heap

/-! ## Adding to a new set -/

section Load

variable {s t : LimitedSet α} {now : ℚ}

/-- The heap has the entries of the items, and no others. -/
def Tight (s : LimitedSet α) : Prop := s.heap.toList.Perm s.data

omit [DecidableEq α] in
theorem Tight.push (h : s.Tight) (item : α) (inserted : ℚ) : (s.push item inserted).Tight := by
  have hperm := (Heapq.heappush_perm Entry.lt s.heap ⟨inserted, s.seq, item⟩).toList
  rw [Array.toList_push] at hperm
  exact hperm.trans (h.append_right _)

omit [DecidableEq α] in
theorem asDict_push (s : LimitedSet α) (item : α) (inserted : ℚ) :
    (s.push item inserted).asDict = s.asDict ++ [(item, inserted)] :=
  List.map_append

omit [LT α] [DecidableLT α] [DecidableEq α] in
theorem map_fst_asDict (s : LimitedSet α) : s.asDict.map Prod.fst = s.items := by
  rw [asDict, List.map_map]
  rfl

omit [LT α] [DecidableLT α] [DecidableEq α] in
theorem length_asDict (s : LimitedSet α) : s.asDict.length = s.data.length := List.length_map _

/-- A new item is added; a `purge` comes if there are `maxlen` then. -/
theorem add_of_not_mem {item : α} (hitem : item ∉ s.items) (inserted now : ℚ) :
    s.add item inserted now =
      if s.limits.maxlen ≠ 0 ∧ s.limits.maxlen ≤ s.data.length + 1 then
        (s.push item inserted).purge now
      else s.push item inserted := by
  have hlength : (s.push item inserted).data.length = s.data.length + 1 := List.length_append
  rw [add, if_neg hitem, hlength]
  rfl

/-- **Where there is room, a dict is taken over as it is.** -/
theorem asDict_updateDict (h : s.Sound) (htight : s.Tight) (now : ℚ) {entries : List (α × ℚ)}
    (hnodup : (s.items ++ entries.map Prod.fst).Nodup)
    (hroom : s.limits.maxlen = 0 ∨ s.data.length + entries.length < s.limits.maxlen) :
    (s.updateDict entries now).Sound ∧ (s.updateDict entries now).Tight ∧
      (s.updateDict entries now).limits = s.limits ∧
      (s.updateDict entries now).asDict = s.asDict ++ entries := by
  induction entries generalizing s with
  | nil => exact ⟨h, htight, rfl, (List.append_nil _).symm⟩
  | cons entry entries ih =>
    have hitem : entry.1 ∉ s.items := by
      intro hmem
      exact List.disjoint_of_nodup_append hnodup hmem (by simp)
    have hadd : s.add entry.1 entry.2 now = s.push entry.1 entry.2 := by
      rw [add_of_not_mem hitem, if_neg]
      rintro ⟨hne, hle⟩
      have hlt := hroom.resolve_left hne
      rw [List.length_cons] at hlt
      omega
    have hlength : (s.push entry.1 entry.2).data.length = s.data.length + 1 := List.length_append
    have hroom' : s.limits.maxlen = 0 ∨
        (s.push entry.1 entry.2).data.length + entries.length < s.limits.maxlen := by
      rw [hlength]
      rw [List.length_cons] at hroom
      omega
    obtain ⟨hsound, htight', hlimits, hdict⟩ := ih (h.push hitem entry.2)
      (htight.push entry.1 entry.2) (by simpa [items_push] using hnodup) hroom'
    rw [updateDict, List.foldl_cons, ← updateDict, hadd]
    refine ⟨hsound, htight', hlimits, ?_⟩
    rw [hdict, asDict_push, List.append_assoc]
    rfl

/-- A dict as long as may be is taken over, and there is a `purge` at the end. -/
theorem updateDict_eq (h : s.Sound) (htight : s.Tight) {entries : List (α × ℚ)}
    (hnodup : (s.items ++ entries.map Prod.fst).Nodup) (hlt : s.data.length < s.limits.maxlen)
    (hfull : s.data.length + entries.length = s.limits.maxlen) :
    ∃ t : LimitedSet α, t.Sound ∧ t.Tight ∧ t.limits = s.limits ∧ t.asDict = s.asDict ++ entries ∧
      s.updateDict entries now = t.purge now := by
  rcases List.eq_nil_or_concat entries with rfl | ⟨init, last, rfl⟩
  · rw [List.length_nil] at hfull
    omega
  · rw [List.concat_eq_append] at hnodup hfull ⊢
    rw [List.length_append, List.length_singleton] at hfull
    rw [List.map_append, ← List.append_assoc] at hnodup
    obtain ⟨hsound, htight', hlimits, hdict⟩ := asDict_updateDict h htight now
      hnodup.of_append_left (Or.inr (by omega))
    have hlength : (s.updateDict init now).data.length + 1 = s.limits.maxlen := by
      rw [← length_asDict, hdict, List.length_append, length_asDict]
      omega
    have hitem : last.1 ∉ (s.updateDict init now).items := by
      rw [← map_fst_asDict, hdict, List.map_append, map_fst_asDict]
      exact fun hmem => List.disjoint_of_nodup_append hnodup hmem (by simp)
    refine ⟨(s.updateDict init now).push last.1 last.2, hsound.push hitem last.2,
      htight'.push last.1 last.2, hlimits, ?_, ?_⟩
    · rw [asDict_push, hdict, List.append_assoc]
    · rw [updateDict, List.foldl_concat, ← updateDict, add_of_not_mem hitem, if_pos]
      rw [hlimits, hlength]
      exact ⟨by omega, le_rfl⟩

/-- **A dict goes into a new set**: all of it, and a `purge` follows if it is full then. -/
theorem updateDict_new (limits : Limits) {entries : List (α × ℚ)}
    (hnodup : (entries.map Prod.fst).Nodup)
    (hle : limits.maxlen ≠ 0 → entries.length ≤ limits.maxlen) (now : ℚ) :
    ∃ t : LimitedSet α, t.Sound ∧ t.Tight ∧ t.limits = limits ∧ t.asDict = entries ∧
      (new limits).updateDict entries now =
        if limits.maxlen ≠ 0 ∧ entries.length = limits.maxlen then t.purge now else t := by
  have hsound : (new limits : LimitedSet α).Sound := sound_empty limits 0
  have htight : (new limits : LimitedSet α).Tight := List.Perm.refl []
  split
  next hfull =>
    refine updateDict_eq hsound htight hnodup (Nat.pos_of_ne_zero hfull.1) ?_
    exact (Nat.zero_add _).trans hfull.2
  next hroom =>
    have hlt : limits.maxlen = 0 ∨ 0 + entries.length < limits.maxlen := by
      by_cases hzero : limits.maxlen = 0
      · exact Or.inl hzero
      · have hne : entries.length ≠ limits.maxlen := fun heq => hroom ⟨hzero, heq⟩
        have := hle hzero
        exact Or.inr (by omega)
    obtain ⟨hsound', htight', hlimits, hdict⟩ :=
      asDict_updateDict hsound htight now hnodup hlt
    exact ⟨_, hsound', htight', hlimits, hdict, rfl⟩

theorem trimFrom_of_le (n : ℕ) (h : s.data.length ≤ s.limits.maxlen) : trimFrom n s = s := by
  cases n with
  | zero => rfl
  | succ n => rw [trimFrom, if_neg (Nat.not_lt.mpr h)]

theorem purge_of_le (h : s.limits.maxlen ≠ 0 → s.data.length ≤ s.limits.maxlen) (now : ℚ) :
    s.purge now =
      if s.limits.expires = 0 then s else expireFrom now s.data.length s := by
  have htrim : (if s.limits.maxlen = 0 then s else trimFrom s.data.length s) = s := by
    split
    · rfl
    next hne => exact trimFrom_of_le _ (h hne)
  rw [purge, htrim]

/-- **What has not expired stays.** -/
theorem purge_of_live (htight : s.Tight)
    (hle : s.limits.maxlen ≠ 0 → s.data.length ≤ s.limits.maxlen)
    (hlive : s.limits.expires = 0 ∨ ∀ e ∈ s.data, now < e.inserted + s.limits.expires) :
    s.purge now = s := by
  rw [purge_of_le hle]
  split
  · rfl
  next hexpires =>
    have hlive := hlive.resolve_left hexpires
    cases s.data.length with
    | zero => rfl
    | succ n =>
      rw [expireFrom]
      split
      · cases hfirst : s.heap[0]? with
        | none => rfl
        | some e =>
          have hmem : e ∈ s.data := htight.mem_iff.mp
            (Array.mem_toList_iff.mpr (Array.mem_of_getElem? hfirst))
          exact if_pos (hlive e hmem)
      · rfl

/-- **Of what has expired, the oldest goes.** -/
theorem exists_not_mem_purge (h : s.Sound) (htight : s.Tight)
    (hle : s.limits.maxlen ≠ 0 → s.data.length ≤ s.limits.maxlen)
    (hminlen : s.limits.minlen < s.data.length) (hexpires : s.limits.expires ≠ 0) {e : Entry α}
    (he : e ∈ s.data) (hdead : e.inserted + s.limits.expires ≤ now) :
    ∃ item ∈ s.items, item ∉ (s.purge now).items := by
  have hheap : e ∈ s.heap := Array.mem_toList_iff.mp (h.mem_heap e he)
  obtain ⟨i, hi, rfl⟩ := Array.mem_iff_getElem.mp hheap
  have hsize : 0 < s.heap.size := Nat.zero_lt_of_lt hi
  have hfirst : s.heap[0] ∈ s.data :=
    htight.mem_iff.mp (Array.mem_toList_iff.mpr (Array.getElem_mem hsize))
  have hkey : s.heap[0].inserted ≤ s.heap[i].inserted :=
    Prod.Lex.monotone_fst _ _ (h.heap.key_zero_le i hi)
  have hitem : s.heap[0].item ∈ s.items := mem_items.mpr ⟨_, hfirst, rfl⟩
  refine ⟨s.heap[0].item, hitem, ?_⟩
  rw [purge_of_le hle, if_neg hexpires]
  obtain ⟨n, hn⟩ : ∃ n, s.data.length = n + 1 := ⟨s.data.length - 1, by omega⟩
  have hnotlive : ¬ now < s.heap[0].inserted + s.limits.expires :=
    not_lt.mpr ((add_le_add_left hkey _).trans hdead)
  rw [hn, expireFrom, if_pos hminlen, Array.getElem?_eq_getElem hsize]
  dsimp only
  rw [if_neg hnotlive]
  have hpop : s.pop.2.items = (s.remove s.heap[0].item).items := by
    obtain ⟨rest, hheappop, -⟩ := @Heapq.heappop_eq _ Entry.lt s.heap hsize
    obtain ⟨m, hm⟩ : ∃ m, s.heap.size = m + 1 := ⟨s.heap.size - 1, by omega⟩
    have hstep : popFrom (m + 1) s =
        (some s.heap[0].item, LimitedSet.remove { s with heap := rest } s.heap[0].item) := by
      rw [popFrom, hheappop]
      exact if_pos hitem
    rw [pop, hm, hstep]
    rfl
  have hsub := ((h.pop.expireFrom_spec now n).2.2.map Entry.item).subset
  intro hmem
  have hmem : s.heap[0].item ∈ s.pop.2.items := hsub hmem
  rw [hpop, items_remove] at hmem
  simp at hmem

/-- **A purge keeps all items exactly if none has expired.** -/
theorem forall_mem_purge_iff (h : s.Sound) (htight : s.Tight)
    (hle : s.limits.maxlen ≠ 0 → s.data.length ≤ s.limits.maxlen)
    (hminlen : s.limits.minlen < s.data.length) (now : ℚ) :
    (∀ item ∈ s.items, item ∈ (s.purge now).items) ↔
      s.limits.expires = 0 ∨ ∀ e ∈ s.data, now < e.inserted + s.limits.expires := by
  constructor
  · intro hkept
    by_contra hdead
    simp only [not_or, not_forall, not_lt] at hdead
    obtain ⟨hexpires, e, he, hdead⟩ := hdead
    obtain ⟨item, hitem, hlost⟩ := exists_not_mem_purge h htight hle hminlen hexpires he hdead
    exact hlost (hkept item hitem)
  · intro hlive item hitem
    rwa [purge_of_live htight hle hlive]

end Load

end LimitedSet
end Celery
