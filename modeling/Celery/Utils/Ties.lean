/-
# `celery/utils/collections.py`: when the heap of a `LimitedSet` compares items

The comment at `_seq` (lines 543-545) says that the sequence numbers keep the heap from ever
comparing the items.  They do for the items that `add` numbers.  `update` takes the entries of
another `LimitedSet` as they are, with the numbers of that set (`merged_ties`), and `add` goes on
with its own numbers afterwards.

`untied_iff_fresh` has for a whole run when no two entries of different items are alike, in any
heap that comes about and in what `__iter__` (678-680) sorts.
-/

import Celery.Utils.Purging

namespace Celery
namespace LimitedSet

variable {α : Type} {s t : LimitedSet α}

/-- Entries of different items differ in the time or in the sequence number. -/
def Apart (entries : List (Entry α)) : Prop :=
  ∀ e ∈ entries, ∀ e' ∈ entries, e.item ≠ e'.item → e.key ≠ e'.key

theorem apart_nil : Apart ([] : List (Entry α)) := fun _ he => absurd he List.not_mem_nil

/-- Neither a `heapq` function nor `__iter__` compares items. -/
structure Untied (s : LimitedSet α) : Prop where
  heap : Apart s.heap.toList
  data : Apart s.data

variable [LT α] [DecidableLT α] [DecidableEq α]

/-- The set that `add` puts the new entry in. -/
def prepared (s : LimitedSet α) (item : α) : LimitedSet α :=
  if item ∈ s.items then s.discard item else s

/-- No entry of another item is like the one that `add` is to make. -/
def FreshAdd (s : LimitedSet α) (item : α) (inserted : ℚ) : Prop :=
  ∀ e ∈ (s.prepared item).heap.toList, e.item ≠ item → e.key ≠ toLex (inserted, s.seq)

/-- Something holds at every `add` that an `update` makes. -/
def AllAdds (P : LimitedSet α → α → ℚ → Prop) :
    LimitedSet α → List (α × Option ℚ × ℚ) → Prop
  | s, (item, some inserted, now) :: entries =>
    P s item inserted ∧ ∀ t, s.add? item inserted now = some t → AllAdds P t entries
  | _, _ => True

/-- An item with its time, as an entry of a dict. -/
def asEntry (item : α × ℚ × ℚ) : α × Option ℚ × ℚ := (item.1, some item.2.1, item.2.2)

/-- **The condition on an operation:** the entries that it brings differ from those that are
there. -/
def Call.Fresh (s : LimitedSet α) : Call α → Prop
  | .add item inserted _ => s.FreshAdd item inserted
  | .updateSet other _ => other.data ≠ [] → Apart other.data ∧
      ∀ e ∈ s.data, e.item ∉ other.items → ∀ e' ∈ other.data, e.key ≠ e'.key
  | .updateDict entries => AllAdds FreshAdd s entries
  | .update items => AllAdds FreshAdd s (items.map asEntry)
  | _ => True

/-- The heap after the new entry has been pushed is without ties. -/
def UntiedAdd (s : LimitedSet α) (item : α) (inserted : ℚ) : Prop :=
  Apart (s.enter item inserted).heap.toList

/-- The heaps that come about within an operation, before a `purge`, are without ties. -/
def Call.Untied (s : LimitedSet α) : Call α → Prop
  | .add item inserted _ => s.UntiedAdd item inserted
  | .updateSet other _ => other.data ≠ [] → Apart (s.merge other).heap.toList
  | .updateDict entries => AllAdds UntiedAdd s entries
  | .update items => AllAdds UntiedAdd s (items.map asEntry)
  | _ => True

/-- The condition on all operations of a run. -/
def FreshRun : LimitedSet α → List (Call α) → Prop
  | _, [] => True
  | s, c :: calls => c.Fresh s ∧ ∀ t, s.call? c = some t → FreshRun t calls

/-- No state of a run has ties, nor does any heap within its operations. -/
def UntiedRun : LimitedSet α → List (Call α) → Prop
  | s, [] => s.Untied
  | s, c :: calls => s.Untied ∧ c.Untied s ∧ ∀ t, s.call? c = some t → UntiedRun t calls

/-! ## What an operation keeps -/

omit [LT α] [DecidableLT α] [DecidableEq α] in
theorem Apart.subset {entries entries' : List (Entry α)} (h : Apart entries)
    (hsub : ∀ e ∈ entries', e ∈ entries) : Apart entries' :=
  fun e he e' he' => h e (hsub e he) e' (hsub e' he')

omit [LT α] [DecidableLT α] [DecidableEq α] in
theorem apart_of_perm {entries entries' : List (Entry α)} (h : entries.Perm entries') :
    Apart entries ↔ Apart entries' :=
  ⟨fun hapart => hapart.subset fun _ => h.mem_iff.mpr,
    fun hapart => hapart.subset fun _ => h.mem_iff.mp⟩

omit [LT α] [DecidableLT α] [DecidableEq α] in
theorem apart_append_singleton_iff {entries : List (Entry α)} {e : Entry α} :
    Apart (entries ++ [e]) ↔
      Apart entries ∧ ∀ e' ∈ entries, e'.item ≠ e.item → e'.key ≠ e.key := by
  constructor
  · intro h
    refine ⟨h.subset fun _ => List.mem_append_left _, fun e' he' => ?_⟩
    exact h e' (List.mem_append_left _ he') e (List.mem_append_right _ (List.mem_singleton_self e))
  · rintro ⟨h, hnew⟩ e₁ he₁ e₂ he₂ hitem
    rcases List.mem_append.mp he₁ with he₁ | he₁ <;> rcases List.mem_append.mp he₂ with he₂ | he₂
    · exact h e₁ he₁ e₂ he₂ hitem
    · rw [List.mem_singleton.mp he₂] at hitem ⊢
      exact hnew e₁ he₁ hitem
    · rw [List.mem_singleton.mp he₁] at hitem ⊢
      exact (hnew e₂ he₂ hitem.symm).symm
    · rw [List.mem_singleton.mp he₁, List.mem_singleton.mp he₂] at hitem
      exact absurd rfl hitem

omit [LT α] [DecidableLT α] [DecidableEq α] in
theorem Sound.untied (h : s.Sound) (hheap : Apart s.heap.toList) : s.Untied :=
  ⟨hheap, hheap.subset h.mem_heap⟩

omit [DecidableEq α] in
theorem popRule_apart : PopRule fun heap : Array (Entry α) => Apart heap.toList where
  heappop := by
    intro heap e rest h hpop
    have hsize : 0 < heap.size := by
      by_contra hsize
      rw [Heapq.heappop, dif_neg hsize] at hpop
      cases hpop
    obtain ⟨rest', hpop', hperm⟩ := @Heapq.heappop_eq _ Entry.lt heap hsize
    obtain ⟨rfl, rfl⟩ : e = heap[0] ∧ rest = rest' := by
      simpa using hpop.symm.trans hpop'
    exact h.subset fun e he => hperm.mem_iff.mpr (List.mem_cons_of_mem _ he)

omit [DecidableEq α] in
theorem apart_refreshHeap (h : Apart s.data) : Apart s.refreshHeap.heap.toList := by
  refine (apart_of_perm (Heapq.heapify_perm Entry.lt s.data.toArray).toList).mpr ?_
  rwa [List.toList_toArray]

theorem apart_discard (h : s.Untied) (item : α) : Apart (s.discard item).heap.toList := by
  rw [discard, maybeRefreshHeap]
  split
  · exact apart_refreshHeap (h.data.subset fun e he => List.mem_of_mem_filter he)
  · exact h.heap

theorem apart_prepared (h : s.Untied) (item : α) : Apart (s.prepared item).heap.toList := by
  rw [prepared]
  split
  · exact apart_discard h item
  · exact h.heap

theorem seq_prepared (s : LimitedSet α) (item : α) : (s.prepared item).seq = s.seq := by
  rw [prepared]
  split
  · rw [discard, maybeRefreshHeap]
    split
    · rfl
    · rfl
  · rfl

/-- **An `add`** makes a tie exactly if there is an entry like the new one. -/
theorem untiedAdd_iff (h : s.Untied) (item : α) (inserted : ℚ) :
    s.UntiedAdd item inserted ↔ s.FreshAdd item inserted := by
  have hperm := (Heapq.heappush_perm Entry.lt (s.prepared item).heap
    ⟨inserted, (s.prepared item).seq, item⟩).toList
  rw [Array.toList_push] at hperm
  refine (apart_of_perm hperm).trans (apart_append_singleton_iff.trans ?_)
  rw [and_iff_right (apart_prepared h item), seq_prepared]
  rfl

omit [LT α] [DecidableLT α] in
theorem mem_setEntry_iff {e e' : Entry α} {data : List (Entry α)}
    (h : (data.map Entry.item).Nodup) :
    e' ∈ setEntry e data ↔ e' = e ∨ e' ∈ data ∧ e'.item ≠ e.item := by
  induction data with
  | nil => simp [setEntry]
  | cons e₀ data ih =>
    obtain ⟨hnot, hnodup⟩ := List.nodup_cons.mp h
    have hother : ∀ e' ∈ data, e'.item ≠ e₀.item := fun e' he' heq =>
      hnot (heq ▸ List.mem_map_of_mem he')
    rw [setEntry]
    split
    next heq =>
      rw [List.mem_cons, List.mem_cons]
      constructor
      · rintro (rfl | he')
        · exact .inl rfl
        · exact .inr ⟨.inr he', heq ▸ hother e' he'⟩
      · rintro (rfl | ⟨rfl | he', hne⟩)
        · exact .inl rfl
        · exact absurd heq hne
        · exact .inr he'
    next hne =>
      rw [List.mem_cons, List.mem_cons, ih hnodup]
      constructor
      · rintro (rfl | rfl | ⟨he', hne'⟩)
        · exact .inr ⟨.inl rfl, hne⟩
        · exact .inl rfl
        · exact .inr ⟨.inr he', hne'⟩
      · rintro (rfl | ⟨rfl | he', hne'⟩)
        · exact .inr (.inl rfl)
        · exact .inl rfl
        · exact .inr (.inr ⟨he', hne'⟩)

omit [LT α] [DecidableLT α] in
theorem mem_foldl_setEntry_iff {e : Entry α} {entries data : List (Entry α)}
    (hentries : (entries.map Entry.item).Nodup) (hdata : (data.map Entry.item).Nodup) :
    e ∈ entries.foldl (fun data e => setEntry e data) data ↔
      e ∈ entries ∨ e ∈ data ∧ e.item ∉ entries.map Entry.item := by
  induction entries generalizing data with
  | nil => simp
  | cons e₀ entries ih =>
    obtain ⟨hnot, hnodup⟩ := List.nodup_cons.mp hentries
    rw [List.foldl_cons, ih hnodup (setEntry_spec e₀ hdata).1, mem_setEntry_iff hdata,
      List.mem_cons, List.map_cons, List.mem_cons, not_or]
    constructor
    · rintro (he | ⟨rfl | ⟨he, hne⟩, hout⟩)
      · exact .inl (.inr he)
      · exact .inl (.inl rfl)
      · exact .inr ⟨he, hne, hout⟩
    · rintro ((rfl | he) | ⟨he, hne, hout⟩)
      · exact .inr ⟨.inl rfl, hnot⟩
      · exact .inl he
      · exact .inr ⟨.inr ⟨he, hne⟩, hout⟩

/-- **An `update` from a `LimitedSet`** makes a tie exactly if there is one in the other set, or
between the two. -/
theorem apart_merge_iff (h : s.Sound) (huntied : s.Untied) {other : LimitedSet α}
    (hother : other.items.Nodup) :
    Apart (s.merge other).heap.toList ↔ Apart other.data ∧
      ∀ e ∈ s.data, e.item ∉ other.items → ∀ e' ∈ other.data, e.key ≠ e'.key := by
  have hperm := (Heapq.heapify_perm Entry.lt (s.merge other).data.toArray).toList
  rw [List.toList_toArray] at hperm
  refine (apart_of_perm hperm).trans ?_
  have hmem : ∀ e, e ∈ (s.merge other).data ↔
      e ∈ other.data ∨ e ∈ s.data ∧ e.item ∉ other.items := fun e =>
    mem_foldl_setEntry_iff hother h.nodup
  constructor
  · intro hapart
    refine ⟨hapart.subset fun e he => (hmem e).mpr (.inl he), fun e he hout e' he' => ?_⟩
    refine hapart e ((hmem e).mpr (.inr ⟨he, hout⟩)) e' ((hmem e').mpr (.inl he')) fun heq => ?_
    exact hout (heq ▸ List.mem_map_of_mem he')
  · rintro ⟨hown, hbetween⟩ e he e' he' hne
    rcases (hmem e).mp he with he | ⟨he, hout⟩ <;> rcases (hmem e').mp he' with he' | ⟨he', hout'⟩
    · exact hown e he e' he' hne
    · exact (hbetween e' he' hout' e he).symm
    · exact hbetween e he hout e' he'
    · exact huntied.data e he e' he' hne

/-- An `add` without ties leaves a set without ties. -/
theorem untied_add? (h : s.Sound) {item : α} {inserted now : ℚ} (hadd : s.UntiedAdd item inserted)
    (ht : s.add? item inserted now = some t) : t.Sound ∧ t.Untied := by
  obtain ⟨t', ht', hkept⟩ := h.add?_kept item inserted now
  obtain rfl := Option.some_inj.mp (ht.symm.trans ht')
  refine ⟨hkept.sound, hkept.sound.untied ?_⟩
  rw [add?] at ht
  split at ht
  · exact popRule_apart.purge? hadd ht
  · rw [← Option.some_inj.mp ht]
    exact hadd

/-- What an `update` adds makes a tie exactly where an `add` does. -/
theorem allAdds_untiedAdd_iff (h : s.Sound) (huntied : s.Untied)
    (entries : List (α × Option ℚ × ℚ)) :
    AllAdds UntiedAdd s entries ↔ AllAdds FreshAdd s entries := by
  induction entries generalizing s with
  | nil => exact Iff.rfl
  | cons entry entries ih =>
    obtain ⟨item, _ | inserted, now⟩ := entry
    · exact Iff.rfl
    · rw [AllAdds, AllAdds, ← untiedAdd_iff huntied item inserted]
      refine and_congr_right fun hadd => forall₂_congr fun t ht => ?_
      obtain ⟨hsound, huntied'⟩ := untied_add? h hadd ht
      exact ih hsound huntied'

theorem untied_updateDict? (h : s.Sound) (huntied : s.Untied)
    {entries : List (α × Option ℚ × ℚ)} (hadds : AllAdds UntiedAdd s entries)
    (ht : s.updateDict? entries = some t) : t.Sound ∧ t.Untied := by
  induction entries generalizing s with
  | nil =>
    obtain rfl := Option.some_inj.mp ht
    exact ⟨h, huntied⟩
  | cons entry entries ih =>
    obtain ⟨item, _ | inserted, now⟩ := entry
    · obtain rfl := Option.some_inj.mp ht
      exact ⟨h, huntied⟩
    · obtain ⟨u, hu, ht⟩ := Option.bind_eq_some_iff.mp ht
      obtain ⟨hsound, huntied'⟩ := untied_add? h hadds.1 hu
      exact ih hsound huntied' (hadds.2 u hu) ht

/-- An `update` from other items is one from a dict of them. -/
theorem foldlM_add?_eq (items : List (α × ℚ × ℚ)) (s : LimitedSet α) :
    items.foldlM (fun s item => s.add? item.1 item.2.1 item.2.2) s =
      s.updateDict? (items.map asEntry) := by
  induction items generalizing s with
  | nil => rfl
  | cons item items ih =>
    rw [List.foldlM_cons, List.map_cons]
    exact congrArg _ (funext fun s => ih s)

/-- The sets that a run is updated from are sets. -/
def Call.Proper : Call α → Prop
  | .updateSet other _ => other.items.Nodup
  | _ => True

theorem Call.untied_iff (h : s.Sound) (huntied : s.Untied) (c : Call α) (hc : c.Proper) :
    c.Untied s ↔ c.Fresh s := by
  cases c with
  | add item inserted now => exact untiedAdd_iff huntied item inserted
  | updateSet other now => exact forall_congr' fun _ => apart_merge_iff h huntied hc
  | updateDict entries => exact allAdds_untiedAdd_iff h huntied entries
  | update items => exact allAdds_untiedAdd_iff h huntied (items.map asEntry)
  | _ => exact Iff.rfl

/-- **An operation without ties leaves a set without ties.** -/
theorem Call.untied_call? (h : s.Sound) (huntied : s.Untied) {c : Call α} (hc : c.Untied s)
    (ht : s.call? c = some t) : t.Sound ∧ t.Untied := by
  cases c with
  | add item inserted now => exact untied_add? h hc ht
  | discard item =>
    obtain rfl := Option.some_inj.mp ht
    exact ⟨h.discard item, (h.discard item).untied (apart_discard huntied item)⟩
  | pop =>
    obtain rfl := Option.some_inj.mp ht
    exact ⟨h.pop, h.pop.untied (popRule_apart.popFrom huntied.heap _)⟩
  | purge now =>
    have hsound := h.purge now
    rw [call?, h.purge?_eq_some now] at ht
    obtain rfl := Option.some_inj.mp ht
    exact ⟨hsound, hsound.untied (popRule_apart.purge? huntied.heap (h.purge?_eq_some now))⟩
  | clear =>
    obtain rfl := Option.some_inj.mp ht
    have hsound := sound_empty (α := α) s.limits s.seq
    exact ⟨hsound, hsound.untied apart_nil⟩
  | updateSet other now =>
    rw [call?, updateSet?] at ht
    split at ht
    next =>
      obtain rfl := Option.some_inj.mp ht
      exact ⟨h, huntied⟩
    next hne =>
      obtain ⟨hmerge, -⟩ := h.merge other
      rw [hmerge.purge?_eq_some now] at ht
      obtain rfl := Option.some_inj.mp ht
      have hsound := hmerge.purge now
      exact ⟨hsound, hsound.untied (popRule_apart.purge? (hc hne) (hmerge.purge?_eq_some now))⟩
  | updateDict entries => exact untied_updateDict? h huntied hc ht
  | update items =>
    rw [call?, foldlM_add?_eq] at ht
    exact untied_updateDict? h huntied hc ht

theorem Sound.untiedRun_iff (h : s.Sound) (huntied : s.Untied) (calls : List (Call α))
    (hproper : ∀ c ∈ calls, c.Proper) : UntiedRun s calls ↔ FreshRun s calls := by
  induction calls generalizing s with
  | nil => exact iff_of_true huntied trivial
  | cons c calls ih =>
    obtain ⟨hc, hcalls⟩ := List.forall_mem_cons.mp hproper
    rw [UntiedRun, FreshRun, and_iff_right huntied, ← c.untied_iff h huntied hc]
    refine and_congr_right fun hcall => forall₂_congr fun t ht => ?_
    obtain ⟨hsound, huntied'⟩ := Call.untied_call? h huntied hcall ht
    exact ih hsound huntied' hcalls

/-- **When no items are compared**, in any state of a run and in any heap within its operations:
exactly if every operation brings entries that differ from those that are there. -/
theorem untied_iff_fresh (limits : Limits) (calls : List (Call α))
    (hproper : ∀ c ∈ calls, c.Proper) :
    UntiedRun (new limits) calls ↔ FreshRun (new limits) calls :=
  (sound_empty limits 0).untiedRun_iff ⟨apart_nil, apart_nil⟩ calls hproper

instance (s : LimitedSet α) (item : α) (inserted : ℚ) : Decidable (s.FreshAdd item inserted) :=
  inferInstanceAs (Decidable (∀ e ∈ (s.prepared item).heap.toList, e.item ≠ item →
    e.key ≠ toLex (inserted, s.seq)))

instance decidableAllAdds (P : LimitedSet α → α → ℚ → Prop) [∀ s item i, Decidable (P s item i)] :
    ∀ (s : LimitedSet α) (entries : List (α × Option ℚ × ℚ)), Decidable (AllAdds P s entries)
  | _, [] => .isTrue trivial
  | _, (_, none, _) :: _ => .isTrue trivial
  | s, (item, some inserted, now) :: entries =>
    have : DecidablePred fun t => AllAdds P t entries := fun t => decidableAllAdds P t entries
    inferInstanceAs (Decidable (P s item inserted ∧
      ∀ t ∈ s.add? item inserted now, AllAdds P t entries))

instance (s : LimitedSet α) : ∀ c : Call α, Decidable (c.Fresh s)
  | .add item inserted _ => inferInstanceAs (Decidable (s.FreshAdd item inserted))
  | .updateSet other _ => inferInstanceAs (Decidable (other.data ≠ [] →
      (∀ e ∈ other.data, ∀ e' ∈ other.data, e.item ≠ e'.item → e.key ≠ e'.key) ∧
        ∀ e ∈ s.data, e.item ∉ other.items → ∀ e' ∈ other.data, e.key ≠ e'.key))
  | .updateDict entries => inferInstanceAs (Decidable (AllAdds FreshAdd s entries))
  | .update items => inferInstanceAs (Decidable (AllAdds FreshAdd s (items.map asEntry)))
  | .discard _ => inferInstanceAs (Decidable True)
  | .pop => inferInstanceAs (Decidable True)
  | .purge _ => inferInstanceAs (Decidable True)
  | .clear => inferInstanceAs (Decidable True)

instance decidableFreshRun : ∀ (s : LimitedSet α) (calls : List (Call α)),
    Decidable (FreshRun s calls)
  | _, [] => .isTrue trivial
  | s, c :: calls =>
    have : DecidablePred fun t => FreshRun t calls := fun t => decidableFreshRun t calls
    inferInstanceAs (Decidable (c.Fresh s ∧ ∀ t ∈ s.call? c, FreshRun t calls))

/-- No limits. -/
def noLimits : Limits := ⟨0, 0, 0, Nat.le_refl 0⟩

/-- A set with two items, that were added at the times `1` and `3`. -/
def addedTwo (item other : ℕ) : LimitedSet ℕ := ((new noLimits).push item 1).push other 3

/-- Items are added to a set, another set is merged into it, and then a dict. -/
def addedFresh : List (Call ℕ) :=
  [.add 3 2 2, .add 4 4 4, .updateSet (addedTwo 7 8) 4, .discard 7,
    .updateDict [(5, some 5, 5), (3, some 6, 6)]]

theorem addedFresh_untied : UntiedRun (new noLimits) addedFresh := by
  have hproper : ∀ c ∈ addedFresh, c.Proper := by
    simp [addedFresh, Call.Proper, addedTwo, push, new, items]
  exact (untied_iff_fresh noLimits addedFresh hproper).mpr (by decide +kernel)

/-- A set with one item, that was added at the time `1`. -/
def addedOne (item : ℕ) : LimitedSet ℕ := (new noLimits).push item 1

/-- The first item of either set has the number `0`: with the same time, the entries are alike. -/
theorem merged_ties :
    ¬ UntiedRun (new noLimits) [.add 3 1 1, .updateSet (addedOne 7) 1] := by
  intro h
  have hadd : (new noLimits).add? 3 1 1 = some (addedOne 3) := rfl
  have htie : Apart ((addedOne 3).merge (addedOne 7)).heap.toList :=
    (h.2.2 (addedOne 3) hadd).2.1 (List.cons_ne_nil _ _)
  have hdata : Apart ((addedOne 3).merge (addedOne 7)).data :=
    (apart_of_perm (Heapq.heapify_perm Entry.lt _).toList).mp htie
  exact hdata ⟨1, 0, 3⟩ (.head _) ⟨1, 0, 7⟩ (.tail _ (.head _)) (by decide) rfl

end LimitedSet
end Celery
