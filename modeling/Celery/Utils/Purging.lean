/-
# `celery/utils/collections.py`: what holds of a `LimitedSet`, whatever is done with it

`discard`, and `add` of an item that is there, take an item out of the dict and leave its entry
in the heap, until `_maybe_refresh_heap` (lines 554-557) finds the heap 15% longer than the
dict.  A `pop` (639-648) takes entries off the heap until one is of an item that is there
(`Pops`).

Here are all operations, those that can raise among them: `purge` (618-637) looks at
`_heap[0]`, and `update` (585-610) takes another `LimitedSet`, a dict or any other items.
Whatever is done, the heap is a heap with the entries of all items, so that `_heap[0]` is there
and a `pop` finds an item; there are never more than `maxlen` items, and expiry leaves `minlen`
of them (`run_never_raises`).  What the functions of `heapq` keep of a heap, all operations
keep (`HeapRule.run?`).
-/

import Celery.Library.Transition
import Celery.Utils.LimitedSet

namespace Celery
namespace LimitedSet

variable {α : Type} {s t : LimitedSet α}

/-! ## What a `pop` takes -/

theorem first_key_le (h : s.Sound) (hsize : 0 < s.heap.size) {e : Entry α}
    (he : e ∈ s.heap.toList) : s.heap[0].key ≤ e.key := by
  obtain ⟨i, hi, rfl⟩ := Array.mem_iff_getElem.mp (Array.mem_toList_iff.mp he)
  exact h.heap.key_zero_le i hi

/-- **`_heap[0]` is there** as long as an item is. -/
theorem heap_pos (h : s.Sound) (hne : s.data ≠ []) : 0 < s.heap.size := by
  obtain ⟨e, he⟩ := List.exists_mem_of_ne_nil _ hne
  have hlength := List.length_pos_of_mem (h.mem_heap e he)
  rwa [Array.length_toList] at hlength

variable [DecidableEq α]

/-- A `pop` of `s` with the result `r`: the entries that are skipped are of no item that is
there, and `e`, the first that is of one, goes with its item. -/
structure Pops (s : LimitedSet α) (e : Entry α) (skipped : List (Entry α))
    (r : Option α × LimitedSet α) : Prop where
  perm : s.heap.toList.Perm (skipped ++ e :: r.2.heap.toList)
  not_mem : ∀ e' ∈ skipped, e'.item ∉ s.items
  mem : e.item ∈ s.items
  least : ∀ e' ∈ s.heap.toList, e'.item ∈ s.items → e.key ≤ e'.key
  item : r.1 = some e.item
  data : r.2.data = (s.remove e.item).data
  limits : r.2.limits = s.limits
  seq : r.2.seq = s.seq

variable [LT α] [DecidableLT α]

theorem Sound.popFrom_pops (h : s.Sound) (hne : s.data ≠ []) (n : ℕ) (hn : n = s.heap.size) :
    ∃ e skipped, s.Pops e skipped (popFrom n s) := by
  induction n generalizing s with
  | zero => exact absurd hn.symm (heap_pos h hne).ne'
  | succ n ih =>
    have hsize : 0 < s.heap.size := by omega
    obtain ⟨rest, hpop, hperm⟩ := @Heapq.heappop_eq _ Entry.lt s.heap hsize
    rw [popFrom, hpop]
    dsimp only
    split
    next hitem =>
      exact ⟨s.heap[0], [], hperm, by simp, hitem, fun e' he' _ => first_key_le h hsize he',
        rfl, rfl, rfl, rfl⟩
    next hitem =>
      have hrest : n = rest.size := by
        have hlength := hperm.length_eq
        rw [List.length_cons, Array.length_toList, Array.length_toList] at hlength
        omega
      obtain ⟨e, skipped, hpops⟩ := ih ((h.heappop hpop).2 hitem) hne hrest
      refine ⟨e, s.heap[0] :: skipped, hperm.trans (hpops.perm.cons _), ?_, hpops.mem, ?_,
        hpops.item, hpops.data, hpops.limits, hpops.seq⟩
      · exact List.forall_mem_cons.mpr ⟨hitem, hpops.not_mem⟩
      · intro e' he' hmem
        refine hpops.least e' ((List.mem_cons.mp (hperm.mem_iff.mp he')).resolve_left ?_) hmem
        rintro rfl
        exact hitem hmem

/-- **A `pop` takes the item of the first entry that is of one.** -/
theorem Sound.exists_pops (h : s.Sound) (hne : s.data ≠ []) :
    ∃ e skipped, s.Pops e skipped s.pop := h.popFrom_pops hne _ rfl

/-! ## The operations that raise or merge -/

/-- The second loop of `purge`; `none` stands for the `IndexError` of `_heap[0]`. -/
def expireFrom? (now : ℚ) : ℕ → LimitedSet α → Option (LimitedSet α)
  | 0, s => some s
  | n + 1, s =>
    if s.limits.minlen < s.data.length then
      match s.heap[0]? with
      | none => none
      | some e =>
        if now < e.inserted + s.limits.expires then some s else expireFrom? now n s.pop.2
    else some s

/-- The first part of `purge`. -/
def trim (s : LimitedSet α) : LimitedSet α :=
  if s.limits.maxlen = 0 then s else trimFrom s.data.length s

/-- `purge`, with its `IndexError`. -/
def purge? (s : LimitedSet α) (now : ℚ) : Option (LimitedSet α) :=
  let s := s.trim
  if s.limits.expires = 0 then some s else expireFrom? now s.data.length s

/-- `add` up to its `purge`. -/
def enter (s : LimitedSet α) (item : α) (inserted : ℚ) : LimitedSet α :=
  (if item ∈ s.items then s.discard item else s).push item inserted

/-- `add`, with the `IndexError` of its `purge`. -/
def add? (s : LimitedSet α) (item : α) (inserted now : ℚ) : Option (LimitedSet α) :=
  let s := s.enter item inserted
  if s.limits.maxlen ≠ 0 ∧ s.limits.maxlen ≤ s.data.length then s.purge? now else some s

omit [LT α] [DecidableLT α] in
/-- `data[item] = entry`. -/
def setEntry (e : Entry α) : List (Entry α) → List (Entry α)
  | [] => [e]
  | e' :: data => if e'.item = e.item then e :: data else e' :: setEntry e data

/-- `update` from a `LimitedSet`, up to its `purge`. -/
def merge (s other : LimitedSet α) : LimitedSet α :=
  LimitedSet.refreshHeap { s with data := other.data.foldl (fun data e => setEntry e data) s.data }

/-- `update` from a `LimitedSet`. -/
def updateSet? (s other : LimitedSet α) (now : ℚ) : Option (LimitedSet α) :=
  if other.data = [] then some s else (s.merge other).purge? now

/-- `update` from a dict of items, with what the clock shows at each `add`.  What stands for a
time and is not a float is `none`: it raises a `ValueError`, and what has been added stays. -/
def updateDict? (s : LimitedSet α) : List (α × Option ℚ × ℚ) → Option (LimitedSet α)
  | [] => some s
  | (_, none, _) :: _ => some s
  | (item, some inserted, now) :: entries =>
    (s.add? item inserted now).bind fun s => updateDict? s entries

/-- What can be done with a set. -/
inductive Call (α : Type) where
  | add (item : α) (inserted now : ℚ)
  | discard (item : α)
  | pop
  | purge (now : ℚ)
  | clear
  | updateSet (other : LimitedSet α) (now : ℚ)
  | updateDict (entries : List (α × Option ℚ × ℚ))
  /-- Any other items, each with the times of its `add` and of the `purge` in it. -/
  | update (items : List (α × ℚ × ℚ))

/-- One operation; `none` if it raises an `IndexError`. -/
def call? (s : LimitedSet α) : Call α → Option (LimitedSet α)
  | .add item inserted now => s.add? item inserted now
  | .discard item => some (s.discard item)
  | .pop => some s.pop.2
  | .purge now => s.purge? now
  | .clear => some s.clear
  | .updateSet other now => s.updateSet? other now
  | .updateDict entries => updateDict? s entries
  | .update items => items.foldlM (fun s item => s.add? item.1 item.2.1 item.2.2) s

/-- The operations that take items out for another reason than that they have expired. -/
def Call.takes : Call α → Bool
  | .discard _ => true
  | .pop => true
  | .clear => true
  | _ => false

/-- A new set after some operations. -/
def run? (limits : Limits) (calls : List (Call α)) : Option (LimitedSet α) :=
  calls.foldlM call? (new limits)

/-! ## What every operation keeps -/

/-- `t` is sound as `s` is, not longer than it may be, and as long as it has to be. -/
structure Kept (s t : LimitedSet α) : Prop where
  sound : t.Sound
  limits : t.limits = s.limits
  bounded : s.limits.maxlen ≠ 0 → s.data.length ≤ s.limits.maxlen →
    t.data.length ≤ s.limits.maxlen
  floor : min s.limits.minlen s.data.length ≤ t.data.length

omit [DecidableEq α] [LT α] [DecidableLT α] in
theorem Kept.refl (h : s.Sound) : s.Kept s := ⟨h, rfl, fun _ hle => hle, min_le_right _ _⟩

omit [DecidableEq α] [LT α] [DecidableLT α] in
theorem Kept.trans {u : LimitedSet α} (h : s.Kept t) (h' : t.Kept u) : s.Kept u := by
  refine ⟨h'.sound, h'.limits.trans h.limits, fun hne hle => ?_, ?_⟩
  · have hbounded := h'.bounded
    rw [h.limits] at hbounded
    exact hbounded hne (h.bounded hne hle)
  · have hfloor := h'.floor
    rw [h.limits] at hfloor
    have := h.floor
    omega

theorem expireFrom?_eq_some (h : s.Sound) (now : ℚ) (n : ℕ) :
    expireFrom? now n s = some (expireFrom now n s) := by
  induction n generalizing s with
  | zero => rfl
  | succ n ih =>
    rw [expireFrom?, expireFrom]
    split
    next hlong =>
      have hne : s.data ≠ [] := fun hnil => by simp [hnil] at hlong
      rw [Array.getElem?_eq_getElem (heap_pos h hne)]
      dsimp only
      split
      · rfl
      · exact ih h.pop
    next => rfl

/-- **`purge` does not raise.** -/
theorem Sound.purge?_eq_some (h : s.Sound) (now : ℚ) : s.purge? now = some (s.purge now) := by
  have htrim : s.trim.Sound := by
    rw [trim]
    split
    · exact h
    · exact (h.trimFrom_spec s.data.length le_rfl).1
  rw [purge?, LimitedSet.purge, ← trim]
  split
  · rfl
  · exact expireFrom?_eq_some htrim now _

theorem Sound.min_le_length_trimFrom (h : s.Sound) (n : ℕ) :
    min s.limits.maxlen s.data.length ≤ (trimFrom n s).data.length := by
  induction n generalizing s with
  | zero => exact min_le_right _ _
  | succ n ih =>
    rw [trimFrom]
    split
    next hlong =>
      have hpop := ih h.pop
      rw [h.limits_pop, h.length_pop] at hpop
      omega
    next => exact min_le_right _ _

theorem Sound.min_le_length_expireFrom (h : s.Sound) (now : ℚ) (n : ℕ) :
    min s.limits.minlen s.data.length ≤ (expireFrom now n s).data.length := by
  induction n generalizing s with
  | zero => exact min_le_right _ _
  | succ n ih =>
    rw [expireFrom]
    split
    next hlong =>
      split
      · exact min_le_right _ _
      · split
        · exact min_le_right _ _
        · have hpop := ih h.pop
          rw [h.limits_pop, h.length_pop] at hpop
          omega
    next => exact min_le_right _ _

/-- **Expiry leaves `minlen` items.** -/
theorem Sound.min_le_length_purge (h : s.Sound) (now : ℚ) :
    min s.limits.minlen s.data.length ≤ (s.purge now).data.length := by
  have hminlen := s.limits.minlen_le
  obtain ⟨htrim, hlimits, hlength⟩ : s.trim.Sound ∧ s.trim.limits = s.limits ∧
      min s.limits.minlen s.data.length ≤ s.trim.data.length := by
    rw [trim]
    split
    · exact ⟨h, rfl, min_le_right _ _⟩
    · obtain ⟨hsound, hlimits, -⟩ := h.trimFrom_spec s.data.length le_rfl
      have := h.min_le_length_trimFrom s.data.length
      exact ⟨hsound, hlimits, by omega⟩
  rw [LimitedSet.purge, ← trim]
  split
  · exact hlength
  · have hexpire := htrim.min_le_length_expireFrom now s.trim.data.length
    rw [hlimits] at hexpire
    omega

theorem Sound.kept_purge (h : s.Sound) (now : ℚ) : s.Kept (s.purge now) :=
  ⟨h.purge now, (h.purge_spec now).2.1, fun hne _ => length_purge_le h now hne,
    h.min_le_length_purge now⟩

omit [DecidableEq α] in
theorem maybeRefreshHeap_data (s : LimitedSet α) : s.maybeRefreshHeap.data = s.data := by
  rw [maybeRefreshHeap]
  split
  · rfl
  · rfl

theorem Sound.enter (h : s.Sound) (item : α) (inserted : ℚ) :
    (s.enter item inserted).Sound ∧ (s.enter item inserted).limits = s.limits ∧
      s.data.length ≤ (s.enter item inserted).data.length := by
  rw [LimitedSet.enter]
  split
  next hitem =>
    have hdata : (s.discard item).data = (s.remove item).data := maybeRefreshHeap_data _
    have hlength := length_remove h.nodup hitem
    refine ⟨(h.discard item).push (not_mem_items_discard s item) inserted,
      h.limits_step (.discard item), ?_⟩
    rw [LimitedSet.push, List.length_append, hdata]
    exact hlength.ge
  next hitem =>
    refine ⟨h.push hitem inserted, rfl, ?_⟩
    rw [LimitedSet.push, List.length_append]
    exact Nat.le_add_right _ _

theorem Sound.add?_kept (h : s.Sound) (item : α) (inserted now : ℚ) :
    ∃ t, s.add? item inserted now = some t ∧ s.Kept t := by
  obtain ⟨hsound, hlimits, hlength⟩ := h.enter item inserted
  rw [add?]
  split
  next =>
    refine ⟨_, hsound.purge?_eq_some now, hsound.purge now, ?_, fun hne _ => ?_, ?_⟩
    · exact (hsound.purge_spec now).2.1.trans hlimits
    · exact hlimits ▸ length_purge_le hsound now (hlimits ▸ hne)
    · have := hlimits ▸ hsound.min_le_length_purge now
      omega
  next hshort =>
    refine ⟨_, rfl, hsound, hlimits, fun hne _ => ?_, by omega⟩
    rw [hlimits] at hshort
    by_contra hlong
    exact hshort ⟨hne, by omega⟩

omit [LT α] [DecidableLT α] in
theorem mem_map_setEntry {e : Entry α} {data : List (Entry α)} {item : α}
    (h : item ∈ (setEntry e data).map Entry.item) :
    item = e.item ∨ item ∈ data.map Entry.item := by
  induction data with
  | nil => exact Or.inl (by simpa [setEntry] using h)
  | cons e' data ih =>
    rw [setEntry] at h
    split at h
    next =>
      rw [List.map_cons, List.mem_cons] at h
      exact h.imp_right (List.mem_cons_of_mem _)
    next =>
      rw [List.map_cons, List.mem_cons] at h
      rcases h with rfl | h
      · exact Or.inr List.mem_cons_self
      · exact (ih h).imp_right (List.mem_cons_of_mem _)

omit [LT α] [DecidableLT α] in
theorem setEntry_spec (e : Entry α) {data : List (Entry α)} (h : (data.map Entry.item).Nodup) :
    ((setEntry e data).map Entry.item).Nodup ∧ data.length ≤ (setEntry e data).length := by
  induction data with
  | nil => exact ⟨by simp [setEntry], Nat.zero_le _⟩
  | cons e' data ih =>
    obtain ⟨hnot, hnodup⟩ := List.nodup_cons.mp h
    obtain ⟨hnodup', hlength⟩ := ih hnodup
    rw [setEntry]
    split
    next heq => exact ⟨by rwa [List.map_cons, ← heq], le_rfl⟩
    next hne =>
      refine ⟨List.nodup_cons.mpr ⟨fun hmem => ?_, hnodup'⟩, Nat.succ_le_succ hlength⟩
      exact (mem_map_setEntry hmem).elim hne hnot

theorem Sound.merge (h : s.Sound) (other : LimitedSet α) :
    (s.merge other).Sound ∧ s.data.length ≤ (s.merge other).data.length := by
  have hfold : ∀ (entries data : List (Entry α)), (data.map Entry.item).Nodup →
      ((entries.foldl (fun data e => setEntry e data) data).map Entry.item).Nodup ∧
        data.length ≤ (entries.foldl (fun data e => setEntry e data) data).length := by
    intro entries
    induction entries with
    | nil => exact fun data hdata => ⟨hdata, le_rfl⟩
    | cons e entries ih =>
      intro data hdata
      obtain ⟨hset, hlength⟩ := setEntry_spec e hdata
      obtain ⟨hnodup, hlength'⟩ := ih _ hset
      exact ⟨hnodup, hlength.trans hlength'⟩
  obtain ⟨hnodup, hlength⟩ := hfold other.data s.data h.nodup
  exact ⟨Sound.refreshHeap hnodup, hlength⟩

theorem Sound.updateSet?_kept (h : s.Sound) (other : LimitedSet α) (now : ℚ) :
    ∃ t, s.updateSet? other now = some t ∧ s.Kept t := by
  rw [updateSet?]
  split
  · exact ⟨s, rfl, Kept.refl h⟩
  · obtain ⟨hsound, hlength⟩ := h.merge other
    refine ⟨_, hsound.purge?_eq_some now, hsound.purge now, (hsound.purge_spec now).2.1,
      fun hne _ => length_purge_le hsound now hne, ?_⟩
    have : min s.limits.minlen (s.merge other).data.length ≤ _ := hsound.min_le_length_purge now
    omega

theorem Sound.updateDict?_kept (h : s.Sound) (entries : List (α × Option ℚ × ℚ)) :
    ∃ t, s.updateDict? entries = some t ∧ s.Kept t := by
  induction entries generalizing s with
  | nil => exact ⟨s, rfl, Kept.refl h⟩
  | cons entry entries ih =>
    obtain ⟨item, _ | inserted, now⟩ := entry
    · exact ⟨s, rfl, Kept.refl h⟩
    · obtain ⟨u, hu, hkept⟩ := h.add?_kept item inserted now
      obtain ⟨t, ht, hkept'⟩ := ih hkept.sound
      refine ⟨t, ?_, hkept.trans hkept'⟩
      rw [updateDict?, hu]
      exact ht

theorem Sound.update_kept (h : s.Sound) (items : List (α × ℚ × ℚ)) :
    ∃ t, items.foldlM (fun s item => s.add? item.1 item.2.1 item.2.2) s = some t ∧ s.Kept t := by
  induction items generalizing s with
  | nil => exact ⟨s, rfl, Kept.refl h⟩
  | cons item items ih =>
    obtain ⟨u, hu, hkept⟩ := h.add?_kept item.1 item.2.1 item.2.2
    obtain ⟨t, ht, hkept'⟩ := ih hkept.sound
    refine ⟨t, ?_, hkept.trans hkept'⟩
    rw [List.foldlM_cons, hu]
    exact ht

/-- An operation that only expires items keeps what has to be kept. -/
theorem Sound.call?_kept (h : s.Sound) {c : Call α} (hc : c.takes = false) :
    ∃ t, s.call? c = some t ∧ s.Kept t := by
  cases c with
  | add item inserted now => exact h.add?_kept item inserted now
  | purge now => exact ⟨_, h.purge?_eq_some now, h.kept_purge now⟩
  | updateSet other now => exact h.updateSet?_kept other now
  | updateDict entries => exact h.updateDict?_kept entries
  | update items => exact h.update_kept items
  | _ => cases hc

/-- An operation that takes items out makes the set no longer. -/
theorem Sound.call?_taken (h : s.Sound) {c : Call α} (hc : c.takes = true) :
    ∃ t, s.call? c = some t ∧ t.Sound ∧ t.limits = s.limits ∧ t.data.length ≤ s.data.length := by
  cases c with
  | discard item =>
    refine ⟨_, rfl, h.discard item, h.limits_step (.discard item), ?_⟩
    have hdata : (s.discard item).data = (s.remove item).data := maybeRefreshHeap_data _
    rw [hdata]
    exact List.length_filter_le _ _
  | pop => exact ⟨_, rfl, h.pop, h.limits_pop, h.pop_sublist.length_le⟩
  | clear => exact ⟨_, rfl, sound_empty s.limits s.seq, rfl, Nat.zero_le _⟩
  | _ => cases hc

/-- A state that a set can be in. -/
structure Reachable (limits : Limits) (s : LimitedSet α) : Prop where
  sound : s.Sound
  limits_eq : s.limits = limits
  bounded : limits.maxlen ≠ 0 → s.data.length ≤ limits.maxlen

theorem Reachable.call? {limits : Limits} (h : s.Reachable limits) (c : Call α) :
    ∃ t, s.call? c = some t ∧ t.Reachable limits := by
  obtain ⟨hsound, rfl, hbounded⟩ := h
  cases hc : c.takes with
  | false =>
    obtain ⟨t, ht, hkept⟩ := hsound.call?_kept hc
    exact ⟨t, ht, hkept.sound, hkept.limits, fun hne => hkept.bounded hne (hbounded hne)⟩
  | true =>
    obtain ⟨t, ht, hsound', hlimits, hlength⟩ := hsound.call?_taken hc
    exact ⟨t, ht, hsound', hlimits, fun hne => hlength.trans (hbounded hne)⟩

theorem run?_reachable (limits : Limits) (calls : List (Call α)) :
    ∃ s, run? limits calls = some s ∧ s.Reachable limits := by
  induction calls using List.reverseRecOn with
  | nil => exact ⟨_, rfl, sound_empty limits 0, rfl, fun _ => Nat.zero_le _⟩
  | append_singleton calls c ih =>
    obtain ⟨s, hs, hreachable⟩ := ih
    obtain ⟨t, ht, hreachable'⟩ := hreachable.call? c
    refine ⟨t, ?_, hreachable'⟩
    rw [run?, List.foldlM_append, ← run?, hs]
    simpa using ht

/-- What `heappop` keeps of a heap. -/
structure PopRule (I : Array (Entry α) → Prop) : Prop where
  heappop : ∀ {heap e rest}, I heap → Heapq.heappop Entry.lt heap = some (e, rest) → I rest

section PopRule

variable {I : Array (Entry α) → Prop}

theorem PopRule.popFrom (hI : PopRule I) (h : I s.heap) (n : ℕ) :
    I (popFrom n s).2.heap := by
  induction n generalizing s with
  | zero => exact h
  | succ n ih =>
    rw [LimitedSet.popFrom]
    split
    next => exact h
    next hpop =>
      have hrest := hI.heappop h hpop
      dsimp only
      split
      · exact hrest
      · exact ih hrest

theorem PopRule.trim (hI : PopRule I) (h : I s.heap) : I s.trim.heap := by
  have hfrom : ∀ (n : ℕ) {s : LimitedSet α}, I s.heap → I (trimFrom n s).heap := by
    intro n
    induction n with
    | zero => exact fun h => h
    | succ n ih =>
      intro s h
      rw [trimFrom]
      split
      · exact ih (hI.popFrom h _)
      · exact h
  rw [LimitedSet.trim]
  split
  · exact h
  · exact hfrom _ h

/-- **A `purge` keeps of the heap what `heappop` keeps.** -/
theorem PopRule.purge? (hI : PopRule I) (h : I s.heap) {now : ℚ}
    (ht : s.purge? now = some t) : I t.heap := by
  have hfrom : ∀ (n : ℕ) {s t : LimitedSet α}, I s.heap → expireFrom? now n s = some t →
      I t.heap := by
    intro n
    induction n with
    | zero =>
      rintro s t h ht
      obtain rfl := Option.some_inj.mp ht
      exact h
    | succ n ih =>
      intro s t h ht
      rw [expireFrom?] at ht
      split at ht
      · split at ht
        · cases ht
        · split at ht
          · obtain rfl := Option.some_inj.mp ht
            exact h
          · exact ih (hI.popFrom h _) ht
      · obtain rfl := Option.some_inj.mp ht
        exact h
  rw [LimitedSet.purge?] at ht
  split at ht
  · obtain rfl := Option.some_inj.mp ht
    exact hI.trim h
  · exact hfrom _ (hI.trim h) ht

end PopRule

/-- What the functions of `heapq` keep of a heap. -/
structure HeapRule (I : Array (Entry α) → Prop) : Prop where
  empty : I #[]
  heapify : ∀ entries, I (Heapq.heapify Entry.lt entries)
  heappush : ∀ {heap} e, I heap → I (Heapq.heappush Entry.lt heap e)
  heappop : ∀ {heap e rest}, I heap → Heapq.heappop Entry.lt heap = some (e, rest) → I rest

section HeapRule

variable {I : Array (Entry α) → Prop}

omit [DecidableEq α] in
theorem HeapRule.popRule (hI : HeapRule I) : PopRule I := ⟨hI.heappop⟩

omit [DecidableEq α] in
theorem HeapRule.maybeRefreshHeap (hI : HeapRule I) (h : I s.heap) :
    I s.maybeRefreshHeap.heap := by
  rw [LimitedSet.maybeRefreshHeap]
  split
  · exact hI.heapify _
  · exact h

theorem HeapRule.add? (hI : HeapRule I) (h : I s.heap) {item : α} {inserted now : ℚ}
    (ht : s.add? item inserted now = some t) : I t.heap := by
  have henter : I (s.enter item inserted).heap := by
    rw [LimitedSet.enter]
    split
    · exact hI.heappush _ (hI.maybeRefreshHeap (s := s.remove item) h)
    · exact hI.heappush _ h
  rw [LimitedSet.add?] at ht
  split at ht
  · exact hI.popRule.purge? henter ht
  · obtain rfl := Option.some_inj.mp ht
    exact henter

theorem HeapRule.call? (hI : HeapRule I) (h : I s.heap) {c : Call α}
    (ht : s.call? c = some t) : I t.heap := by
  cases c with
  | add item inserted now => exact hI.add? h ht
  | discard item =>
    obtain rfl := Option.some_inj.mp ht
    exact hI.maybeRefreshHeap (s := s.remove item) h
  | pop =>
    obtain rfl := Option.some_inj.mp ht
    exact hI.popRule.popFrom h _
  | purge now => exact hI.popRule.purge? h ht
  | clear =>
    obtain rfl := Option.some_inj.mp ht
    exact hI.empty
  | updateSet other now =>
    rw [LimitedSet.call?, updateSet?] at ht
    split at ht
    · obtain rfl := Option.some_inj.mp ht
      exact h
    · exact hI.popRule.purge? (s := s.merge other) (hI.heapify _) ht
  | updateDict entries =>
    rw [LimitedSet.call?] at ht
    induction entries generalizing s with
    | nil =>
      obtain rfl := Option.some_inj.mp ht
      exact h
    | cons entry entries ih =>
      obtain ⟨item, _ | inserted, now⟩ := entry
      · obtain rfl := Option.some_inj.mp ht
        exact h
      · obtain ⟨u, hu, ht⟩ := Option.bind_eq_some_iff.mp ht
        exact ih (hI.add? h hu) ht
  | update items =>
    rw [LimitedSet.call?] at ht
    induction items generalizing s with
    | nil =>
      obtain rfl := Option.some_inj.mp ht
      exact h
    | cons item items ih =>
      rw [List.foldlM_cons] at ht
      obtain ⟨u, hu, ht⟩ := Option.bind_eq_some_iff.mp ht
      exact ih (hI.add? h hu) ht

theorem HeapRule.run? (hI : HeapRule I) {limits : Limits} {calls : List (Call α)}
    (h : run? limits calls = some s) : I s.heap := by
  have hrun := Transition.Run.of_foldlM h
  exact hrun.invariant (P := fun _ => True) (I := fun s => I s.heap)
    (fun hs _ ht => hI.call? hs ht) hI.empty fun _ _ => trivial

end HeapRule

section Comparable

variable {β : Type} [LinearOrder β]

/-- An entry as the tuple it is. -/
def tuple (e : Entry β) : ℚ ×ₗ ℕ ×ₗ β := toLex (e.inserted, toLex (e.seq, e.item))

/-- **Entries are compared as tuples.** -/
theorem lt_iff_tuple_lt (e e' : Entry β) : e.lt e' = true ↔ tuple e < tuple e' := by
  rw [Entry.lt, decide_eq_true_iff, Entry.key, Entry.key, tuple, tuple, Prod.Lex.toLex_lt_toLex,
    Prod.Lex.toLex_lt_toLex, Prod.Lex.toLex_lt_toLex, toLex_inj, Prod.mk.injEq]
  tauto

theorem heapRule_tuple : HeapRule (Heapq.Heap (α := Entry β) tuple) := by
  have hlt : ∀ e e' : Entry β, e.lt e' = true → tuple e ≤ tuple e' := fun e e' h =>
    ((lt_iff_tuple_lt e e').mp h).le
  have hge : ∀ e e' : Entry β, e.lt e' = false → tuple e' ≤ tuple e := fun e e' h =>
    not_lt.mp fun hlt => by simp [(lt_iff_tuple_lt e e').mpr hlt] at h
  exact ⟨fun _ _ hp => absurd hp (Nat.not_lt_zero _), Heapq.heapify_heap hlt hge,
    fun e h => Heapq.heappush_heap hlt hge h e, fun h hpop => Heapq.heappop_heap hlt hge h hpop⟩

/-- **Whatever is done with a set, its heap is a heap with the entries of all items, so that
`purge` finds an entry in it and `pop` an item; there are no more than `maxlen` items, and
expiry leaves `minlen` of them.** -/
theorem run_never_raises (limits : Limits) (calls : List (Call β)) :
    ∃ s, run? limits calls = some s ∧
      s.items.Nodup ∧ (∀ e ∈ s.data, e ∈ s.heap.toList) ∧ Heapq.Heap tuple s.heap ∧
      (limits.maxlen ≠ 0 → s.data.length ≤ limits.maxlen) ∧
      (s.data ≠ [] → s.heap[0]?.isSome = true ∧ ∃ item ∈ s.items, s.pop.1 = some item) ∧
      ∀ c : Call β, ∃ t, s.call? c = some t ∧
        (c.takes = false → min limits.minlen s.data.length ≤ t.data.length) := by
  obtain ⟨s, hs, hsound, hlimits, hbounded⟩ := run?_reachable limits calls
  refine ⟨s, hs, hsound.nodup, hsound.mem_heap, heapRule_tuple.run? hs, hbounded,
    fun hne => ⟨?_, ?_⟩, fun c => ?_⟩
  · rw [Array.getElem?_eq_getElem (heap_pos hsound hne)]
    rfl
  · obtain ⟨e, skipped, hpops⟩ := hsound.exists_pops hne
    exact ⟨e.item, hpops.mem, hpops.item⟩
  · cases hc : c.takes with
    | false =>
      obtain ⟨t, ht, hkept⟩ := hsound.call?_kept hc
      exact ⟨t, ht, fun _ => hlimits ▸ hkept.floor⟩
    | true =>
      obtain ⟨t, ht, -⟩ := hsound.call?_taken hc
      exact ⟨t, ht, fun h => by cases h⟩

end Comparable

end LimitedSet
end Celery
