/-
# `celery/utils/collections.py`: what a `LimitedSet` evicts

An item that has been added again has two entries in the heap, until the heap is refreshed, and
`pop` (lines 639-648) evicts it by the older one, as if it had been there all the time
(`addedAgain_not_evicts`).  The entry of an item that is gone makes `purge` (618-637) look for
something to expire, and it takes the next item, expired or not.  Where no such entry is in the
way, the oldest item is evicted, and none that has not expired (`evicts_oldest`).

An update from other items is the `add`s it makes.
-/

import Celery.Utils.Purging
import Mathlib.Tactic.NormNum

namespace Celery
namespace LimitedSet

variable {α : Type} [LT α] [DecidableLT α] [DecidableEq α] {s t : LimitedSet α}

/-! ## What is evicted -/

omit [LT α] [DecidableLT α] [DecidableEq α] in
/-- An item has one entry in the dict. -/
theorem Sound.entry_unique (h : s.Sound) {e e' : Entry α} (he : e ∈ s.data) (he' : e' ∈ s.data)
    (hitem : e.item = e'.item) : e = e' :=
  List.inj_on_of_nodup_map h.nodup he he' hitem

/-- A `pop` returns the item with the least entry, and takes this item out. -/
def PopsOldest (s : LimitedSet α) : Prop :=
  (s.data = [] → s.pop.1 = none) ∧
    (s.data ≠ [] → ∃ e ∈ s.data, (∀ e' ∈ s.data, e.key ≤ e'.key) ∧ s.pop.1 = some e.item ∧
      s.pop.2.data = s.data.filter fun e' => e'.item ≠ e.item)

/-- What a `purge` takes out for `maxlen` are the oldest items, and what it takes out then has
expired. -/
def PurgesOldest (s : LimitedSet α) (now : ℚ) : Prop :=
  (∀ e ∈ s.data, e ∉ s.trim.data → ∀ e' ∈ s.trim.data, e.key ≤ e'.key) ∧
    ∀ e ∈ s.trim.data, e ∉ (s.purge now).data → e.inserted + s.limits.expires ≤ now

/-- An `add` makes a `purge` of what it has made of the set. -/
def Full (s : LimitedSet α) : Prop := s.limits.maxlen ≠ 0 ∧ s.limits.maxlen ≤ s.data.length

/-- What an operation evicts are the oldest items, and none too early. -/
def Evicts (s : LimitedSet α) : SetAction α → Prop
  | .add item inserted now =>
    (s.enter item inserted).Full → (s.enter item inserted).PurgesOldest now
  | .pop => s.PopsOldest
  | .purge now => s.PurgesOldest now
  | _ => True

/-- An entry that an item was given before it was added again comes after one that is
current. -/
def OldestFirst (s : LimitedSet α) : Prop :=
  ∀ e ∈ s.heap.toList, e ∉ s.data → e.item ∈ s.items → ∃ e₀ ∈ s.data, e₀.key < e.key

/-- No entry that has expired is left behind in the heap. -/
def NoneBehind (s : LimitedSet α) (now : ℚ) : Prop :=
  s.limits.expires = 0 ∨
    ∀ e ∈ s.heap.toList, e.inserted + s.limits.expires ≤ now → e ∈ s.data

/-- No entry that is not current is in the way of a `purge`. -/
def PurgeClear (s : LimitedSet α) (now : ℚ) : Prop :=
  (s.limits.maxlen ≠ 0 → s.limits.maxlen < s.data.length → s.OldestFirst) ∧ s.NoneBehind now

/-- No entry that is not current is in the way of an operation. -/
def Clear (s : LimitedSet α) : SetAction α → Prop
  | .add item inserted now =>
    (s.enter item inserted).Full → (s.enter item inserted).PurgeClear now
  | .pop => s.OldestFirst
  | .purge now => s.PurgeClear now
  | _ => True

omit [LT α] [DecidableLT α] in
/-- The entry that a `pop` takes is the oldest item's own. -/
theorem OldestFirst.pops_current (hfirst : s.OldestFirst) (h : s.Sound) {e : Entry α}
    {skipped : List (Entry α)} {r : Option α × LimitedSet α} (hpops : s.Pops e skipped r) :
    e ∈ s.data ∧ ∀ e' ∈ s.data, e.key ≤ e'.key := by
  have hleast : ∀ e' ∈ s.data, e.key ≤ e'.key := fun e' he' =>
    hpops.least e' (h.mem_heap e' he') (mem_items.mpr ⟨e', he', rfl⟩)
  have hheap : e ∈ s.heap.toList := hpops.perm.mem_iff.mpr (by simp)
  refine ⟨?_, hleast⟩
  by_contra hstale
  obtain ⟨e₀, he₀, hlt⟩ := hfirst e hheap hstale hpops.mem
  exact absurd (hleast e₀ he₀) (not_le.mpr hlt)

theorem fst_popFrom_of_nil (h : s.data = []) (n : ℕ) : (popFrom n s).1 = none := by
  induction n generalizing s with
  | zero => rfl
  | succ n ih =>
    rw [popFrom]
    split
    · rfl
    · dsimp only
      rw [if_neg]
      · exact ih h
      · simp [items, h]

/-- **A `pop` takes the oldest item** where no older entry of an item is in the way. -/
theorem OldestFirst.popsOldest (hfirst : s.OldestFirst) (h : s.Sound) : s.PopsOldest := by
  refine ⟨fun hnil => fst_popFrom_of_nil hnil _, fun hne => ?_⟩
  obtain ⟨e, skipped, hpops⟩ := h.exists_pops hne
  obtain ⟨he, hleast⟩ := hfirst.pops_current h hpops
  exact ⟨e, he, hleast, hpops.item, hpops.data⟩

/-- What is left behind in the heap stays as it is when a current entry is popped. -/
theorem NoneBehind.pop {now : ℚ} (hbehind : s.NoneBehind now) (h : s.Sound)
    (hnodup : s.heap.toList.Nodup) {e : Entry α} {skipped : List (Entry α)}
    (hpops : s.Pops e skipped s.pop) (he : e ∈ s.data) : s.pop.2.NoneBehind now := by
  rw [NoneBehind, hpops.limits]
  refine hbehind.imp_right fun hall e' he' hdead => ?_
  have hheap : e' ∈ s.heap.toList :=
    hpops.perm.mem_iff.mpr (List.mem_append_right _ (List.mem_cons_of_mem _ he'))
  have hdata := hall e' hheap hdead
  rw [hpops.data]
  refine List.mem_filter.mpr ⟨hdata, ?_⟩
  -- the popped entry was in the heap once
  have hrest := (hpops.perm.nodup_iff.mp hnodup).of_append_right
  have hne : e'.item ≠ e.item := by
    intro hitem
    obtain rfl := h.entry_unique hdata he hitem
    exact (List.nodup_cons.mp hrest).1 he'
  simpa using hne

theorem nodup_heap_pop (hnodup : s.heap.toList.Nodup) {e : Entry α} {skipped : List (Entry α)}
    (hpops : s.Pops e skipped s.pop) : s.pop.2.heap.toList.Nodup :=
  (List.nodup_cons.mp (hpops.perm.nodup_iff.mp hnodup).of_append_right).2

theorem expires_of_not_mem_expireFrom {now : ℚ} (n : ℕ) (h : s.Sound)
    (hnodup : s.heap.toList.Nodup) (hexpires : s.limits.expires ≠ 0) (hbehind : s.NoneBehind now)
    {e : Entry α} (he : e ∈ s.data) (hgone : e ∉ (expireFrom now n s).data) :
    e.inserted + s.limits.expires ≤ now := by
  induction n generalizing s with
  | zero => exact absurd he hgone
  | succ n ih =>
    rw [expireFrom] at hgone
    split at hgone
    next hlong =>
      have hne : s.data ≠ [] := List.ne_nil_of_mem he
      have hpos := heap_pos h hne
      rw [Array.getElem?_eq_getElem hpos] at hgone
      dsimp only at hgone
      split at hgone
      next => exact absurd he hgone
      next hdead =>
        have hall := hbehind.resolve_left hexpires
        have hmem : s.heap[0] ∈ s.heap.toList := Array.mem_toList_iff.mpr (Array.getElem_mem hpos)
        have hfirst : s.heap[0] ∈ s.data := hall _ hmem (not_lt.mp hdead)
        obtain ⟨e₁, skipped, hpops⟩ := h.exists_pops hne
        have hheap : e₁ ∈ s.heap.toList := hpops.perm.mem_iff.mpr (by simp)
        have hle : e₁.inserted ≤ s.heap[0].inserted :=
          Prod.Lex.monotone_fst _ _ (hpops.least _ hmem (mem_items.mpr ⟨_, hfirst, rfl⟩))
        have hdead₁ : e₁.inserted + s.limits.expires ≤ now :=
          (add_le_add_left hle _).trans (not_lt.mp hdead)
        have he₁ : e₁ ∈ s.data := hall _ hheap hdead₁
        by_cases hitem : e.item = e₁.item
        · rwa [h.entry_unique he he₁ hitem]
        · have hstays : e ∈ s.pop.2.data := by
            rw [hpops.data]
            exact List.mem_filter.mpr ⟨he, by simpa using hitem⟩
          have hrest := ih h.pop (nodup_heap_pop hnodup hpops) (by rwa [hpops.limits])
            (hbehind.pop h hnodup hpops he₁) hstays hgone
          rwa [hpops.limits] at hrest
    next => exact absurd he hgone

theorem trim_eq (h : s.Sound) (hle : s.limits.maxlen ≠ 0 → s.data.length ≤ s.limits.maxlen + 1) :
    s.trim = if s.limits.maxlen ≠ 0 ∧ s.limits.maxlen < s.data.length then s.pop.2 else s := by
  rw [trim]
  split
  next hzero => rw [if_neg fun hlong => hlong.1 hzero]
  next hne =>
    split
    next hlong =>
      obtain ⟨n, hn⟩ : ∃ n, s.data.length = n + 1 := ⟨s.data.length - 1, by omega⟩
      rw [hn, trimFrom, if_pos hlong.2]
      refine trimFrom_of_le n ?_
      rw [h.length_pop, h.limits_pop]
      have := hle hne
      omega
    next hshort => exact trimFrom_of_le _ (Nat.le_of_not_lt fun hlt => hshort ⟨hne, hlt⟩)

/-- **A `purge` takes out the oldest items, and none too early**, where no entry that is not
current is in the way. -/
theorem PurgeClear.purgesOldest {now : ℚ} (hclear : s.PurgeClear now) (h : s.Sound)
    (hnodup : s.heap.toList.Nodup)
    (hle : s.limits.maxlen ≠ 0 → s.data.length ≤ s.limits.maxlen + 1) : s.PurgesOldest now := by
  obtain ⟨hfirst, hbehind⟩ := hclear
  have htrim := trim_eq h hle
  rw [PurgesOldest, LimitedSet.purge, ← trim]
  split at htrim
  next hlong =>
    have hne : s.data ≠ [] := fun hnil => by simp [hnil] at hlong
    obtain ⟨e₀, skipped, hpops⟩ := h.exists_pops hne
    obtain ⟨he₀, hleast⟩ := (hfirst hlong.1 hlong.2).pops_current h hpops
    rw [htrim, hpops.limits]
    have hsub := h.pop_sublist.subset
    constructor
    · intro e he hgone e' he'
      have hitem : e.item = e₀.item := by
        by_contra hne
        rw [hpops.data] at hgone
        exact hgone (List.mem_filter.mpr ⟨he, by simpa using hne⟩)
      rw [h.entry_unique he he₀ hitem]
      exact hleast e' (hsub he')
    · intro e he hgone
      split at hgone
      next => exact absurd he hgone
      next hexpires =>
        have hrest := expires_of_not_mem_expireFrom _ h.pop (nodup_heap_pop hnodup hpops)
          (by rwa [hpops.limits]) (hbehind.pop h hnodup hpops he₀) he hgone
        rwa [hpops.limits] at hrest
  next =>
    rw [htrim]
    refine ⟨fun e he hgone => absurd he hgone, fun e he hgone => ?_⟩
    split at hgone
    next => exact absurd he hgone
    next hexpires => exact expires_of_not_mem_expireFrom _ h hnodup hexpires hbehind he hgone

/-! ### The entries in the heap -/

/-- The heap has no entry twice, and its sequence numbers have been given out. -/
structure Numbered (s : LimitedSet α) : Prop where
  nodup : s.heap.toList.Nodup
  seq_lt : ∀ e ∈ s.heap.toList, e.seq < s.seq

omit [LT α] [DecidableLT α] [DecidableEq α] in
theorem Numbered.of_subperm (h : s.Numbered) (hsub : t.heap.toList.Subperm s.heap.toList)
    (hseq : t.seq = s.seq) : t.Numbered := by
  refine ⟨?_, fun e he => hseq ▸ h.seq_lt e (hsub.subset he)⟩
  obtain ⟨entries, hperm, hsublist⟩ := hsub
  exact hperm.nodup_iff.mp (h.nodup.sublist hsublist)

theorem popFrom_subperm (n : ℕ) (s : LimitedSet α) :
    (popFrom n s).2.heap.toList.Subperm s.heap.toList ∧ (popFrom n s).2.seq = s.seq := by
  induction n generalizing s with
  | zero => exact ⟨List.Subperm.refl _, rfl⟩
  | succ n ih =>
    by_cases hsize : 0 < s.heap.size
    · obtain ⟨rest, hpop, hperm⟩ := @Heapq.heappop_eq _ Entry.lt s.heap hsize
      have hsub : rest.toList.Subperm s.heap.toList :=
        ((List.sublist_cons_self _ _).subperm).trans hperm.symm.subperm
      rw [popFrom, hpop]
      dsimp only
      split
      · exact ⟨hsub, rfl⟩
      · obtain ⟨hrest, hseq⟩ := ih { s with heap := rest }
        exact ⟨hrest.trans hsub, hseq⟩
    · rw [popFrom, Heapq.heappop, dif_neg hsize]
      exact ⟨List.Subperm.refl _, rfl⟩

theorem Numbered.pop (h : s.Numbered) : s.pop.2.Numbered :=
  h.of_subperm (popFrom_subperm _ s).1 (popFrom_subperm _ s).2

theorem Numbered.purge (h : s.Numbered) (now : ℚ) : (s.purge now).Numbered := by
  have htrim : ∀ (n : ℕ) {s : LimitedSet α}, s.Numbered → (trimFrom n s).Numbered := by
    intro n
    induction n with
    | zero => exact fun h => h
    | succ n ih =>
      intro s h
      rw [trimFrom]
      split
      · exact ih h.pop
      · exact h
  have hexpire : ∀ (n : ℕ) {s : LimitedSet α}, s.Numbered → (expireFrom now n s).Numbered := by
    intro n
    induction n with
    | zero => exact fun h => h
    | succ n ih =>
      intro s h
      rw [expireFrom]
      split
      · split
        · exact h
        · split
          · exact h
          · exact ih h.pop
      · exact h
  have hfirst : s.trim.Numbered := by
    rw [trim]
    split
    · exact h
    · exact htrim _ h
  rw [LimitedSet.purge, ← trim]
  split
  · exact hfirst
  · exact hexpire _ hfirst

theorem Numbered.discard (h : s.Numbered) (hsound : s.Sound) (item : α) :
    (s.discard item).Numbered := by
  have hremove : (s.remove item).Numbered := ⟨h.nodup, h.seq_lt⟩
  rw [LimitedSet.discard, maybeRefreshHeap]
  split
  next =>
    have hperm := (Heapq.heapify_perm Entry.lt (s.remove item).data.toArray).toList
    have hdata : (s.remove item).data.Nodup :=
      (List.Nodup.of_map _ hsound.nodup).sublist List.filter_sublist
    refine hremove.of_subperm (hperm.subperm.trans (List.subperm_of_subset hdata ?_)) rfl
    exact fun e he => hsound.mem_heap e (List.mem_of_mem_filter he)
  next => exact hremove

omit [DecidableEq α] in
theorem Numbered.push (h : s.Numbered) (item : α) (inserted : ℚ) :
    (s.push item inserted).Numbered := by
  have hperm := (Heapq.heappush_perm Entry.lt s.heap ⟨inserted, s.seq, item⟩).toList
  rw [Array.toList_push] at hperm
  constructor
  · refine hperm.nodup_iff.mpr (h.nodup.append (List.nodup_singleton _) ?_)
    exact List.disjoint_singleton.mpr fun he => absurd (h.seq_lt _ he) (lt_irrefl s.seq)
  · intro e he
    rcases List.mem_append.mp (hperm.mem_iff.mp he) with he | he
    · exact Nat.lt_succ_of_lt (h.seq_lt e he)
    · rw [List.mem_singleton.mp he]
      exact Nat.lt_succ_self s.seq

theorem Numbered.enter (h : s.Numbered) (hsound : s.Sound) (item : α) (inserted : ℚ) :
    (s.enter item inserted).Numbered := by
  rw [LimitedSet.enter]
  split
  · exact (h.discard hsound item).push item inserted
  · exact h.push item inserted

theorem Numbered.step (h : s.Numbered) (hsound : s.Sound) (a : SetAction α) :
    (s.step a).Numbered := by
  cases a with
  | add item inserted now =>
    rw [LimitedSet.step, LimitedSet.add, ← LimitedSet.enter]
    split
    · exact (h.enter hsound item inserted).purge now
    · exact h.enter hsound item inserted
  | discard item => exact h.discard hsound item
  | pop => exact h.pop
  | purge now => exact h.purge now
  | clear => exact ⟨List.nodup_nil, fun _ he => absurd he List.not_mem_nil⟩

/-! ### Runs -/

omit [LT α] [DecidableLT α] [DecidableEq α] in
/-- The action as one of all that can be done. -/
def toCall : SetAction α → Call α
  | .add item inserted now => .add item inserted now
  | .discard item => .discard item
  | .pop => .pop
  | .purge now => .purge now
  | .clear => .clear

theorem Sound.call?_toCall (h : s.Sound) (a : SetAction α) :
    s.call? (toCall a) = some (s.step a) := by
  cases a with
  | add item inserted now =>
    rw [toCall, LimitedSet.call?, add?, LimitedSet.step, LimitedSet.add, ← LimitedSet.enter]
    split
    · exact (h.enter item inserted).1.purge?_eq_some now
    · rfl
  | purge now => exact h.purge?_eq_some now
  | _ => rfl

theorem after_reachable (limits : Limits) (as : List (SetAction α)) :
    (after limits as).Reachable limits ∧ (after limits as).Numbered := by
  induction as using List.reverseRecOn with
  | nil =>
    exact ⟨⟨sound_empty limits 0, rfl, fun _ => Nat.zero_le _⟩,
      List.nodup_nil, fun _ he => absurd he List.not_mem_nil⟩
  | append_singleton as a ih =>
    obtain ⟨hreachable, hnumbered⟩ := ih
    obtain ⟨t, ht, hreachable'⟩ := hreachable.call? (toCall a)
    rw [hreachable.sound.call?_toCall] at ht
    obtain rfl := Option.some_inj.mp ht
    rw [after, List.foldl_concat]
    exact ⟨hreachable', hnumbered.step hreachable.sound a⟩

theorem length_enter_le (s : LimitedSet α) (item : α) (inserted : ℚ) :
    (s.enter item inserted).data.length ≤ s.data.length + 1 := by
  rw [LimitedSet.enter]
  split
  next =>
    have hdata : (s.discard item).data = (s.remove item).data := maybeRefreshHeap_data _
    rw [LimitedSet.push, List.length_append, hdata]
    exact Nat.succ_le_succ (List.length_filter_le _ _)
  next => exact List.length_append.le

/-- **Where no entry that is not current is in the way, what is evicted are the oldest items,
and none too early.** -/
theorem evicts_oldest (limits : Limits) (as : List (SetAction α))
    (hclear : ∀ as₁ a as₂, as = as₁ ++ a :: as₂ → (after limits as₁).Clear a) :
    ∀ as₁ a as₂, as = as₁ ++ a :: as₂ → (after limits as₁).Evicts a := by
  intro as₁ a as₂ heq
  have hclear := hclear as₁ a as₂ heq
  obtain ⟨⟨hsound, hlimits, hbounded⟩, hnumbered⟩ := after_reachable limits as₁
  generalize after limits as₁ = s at *
  subst hlimits
  cases a with
  | add item inserted now =>
    intro hfull
    obtain ⟨hsound', hlimits', -⟩ := hsound.enter item inserted
    refine (hclear hfull).purgesOldest hsound' (hnumbered.enter hsound item inserted).nodup ?_
    rw [hlimits']
    have := length_enter_le s item inserted
    exact fun hne => this.trans (Nat.succ_le_succ (hbounded hne))
  | pop => exact OldestFirst.popsOldest hclear hsound
  | purge now =>
    exact PurgeClear.purgesOldest hclear hsound hnumbered.nodup fun hne =>
      (hbounded hne).trans (Nat.le_succ _)
  | discard item => trivial
  | clear => trivial

instance (s : LimitedSet α) : Decidable s.OldestFirst :=
  inferInstanceAs (Decidable (∀ e ∈ s.heap.toList, e ∉ s.data → e.item ∈ s.items →
    ∃ e₀ ∈ s.data, e₀.key < e.key))

instance (s : LimitedSet α) (now : ℚ) : Decidable (s.PurgeClear now) :=
  inferInstanceAs (Decidable ((s.limits.maxlen ≠ 0 → s.limits.maxlen < s.data.length →
    s.OldestFirst) ∧ (s.limits.expires = 0 ∨
      ∀ e ∈ s.heap.toList, e.inserted + s.limits.expires ≤ now → e ∈ s.data)))

instance (s : LimitedSet α) : ∀ a : SetAction α, Decidable (s.Clear a)
  | .add item inserted now =>
    inferInstanceAs (Decidable ((s.enter item inserted).limits.maxlen ≠ 0 ∧
      (s.enter item inserted).limits.maxlen ≤ (s.enter item inserted).data.length →
        (s.enter item inserted).PurgeClear now))
  | .pop => inferInstanceAs (Decidable s.OldestFirst)
  | .purge now => inferInstanceAs (Decidable (s.PurgeClear now))
  | .discard _ => inferInstanceAs (Decidable True)
  | .clear => inferInstanceAs (Decidable True)

/-- Whether nothing is in the way of the operations, from `s` on. -/
def clearFrom (s : LimitedSet α) : List (SetAction α) → Bool
  | [] => true
  | a :: as => decide (s.Clear a) && (s.step a).clearFrom as

theorem clear_of_clearFrom {s : LimitedSet α} {as₁ as₂ : List (SetAction α)} {a : SetAction α}
    (h : s.clearFrom (as₁ ++ a :: as₂) = true) : (as₁.foldl step s).Clear a := by
  induction as₁ generalizing s with
  | nil =>
    rw [List.nil_append, clearFrom, Bool.and_eq_true] at h
    exact of_decide_eq_true h.1
  | cons b as₁ ih =>
    rw [List.cons_append, clearFrom, Bool.and_eq_true] at h
    exact ih h.2

/-- Three items at most, for ten seconds. -/
def threeItems : Limits := ⟨3, 10, 0, Nat.zero_le 3⟩

/-- Items come in, not in the order of their times, and one goes; then the oldest one is popped, and
what has expired is purged. -/
def comeAndGo : List (SetAction ℕ) :=
  [.add 10 2 2, .add 11 1 2, .add 12 3 3, .add 13 4 4, .discard 12, .add 14 6 6, .pop,
    .add 15 7 7, .purge 16]

/-- What is evicted are the items of the times 1, 2, 4 and 6. -/
theorem evicts_oldest_comeAndGo :
    (after threeItems comeAndGo).items = [15] ∧
      ∀ as₁ a as₂, comeAndGo = as₁ ++ a :: as₂ → (after threeItems as₁).Evicts a := by
  have hclear : (new threeItems).clearFrom comeAndGo = true := by decide +kernel
  refine ⟨by decide +kernel, evicts_oldest threeItems comeAndGo fun as₁ a as₂ heq => ?_⟩
  rw [heq] at hclear
  exact clear_of_clearFrom hclear

/-! ### An item that was added again -/

/-- No limits. -/
def unlimited : Limits := ⟨0, 0, 0, le_rfl⟩

/-- Eight items, one after the other. -/
def eightItems : List (ℕ × ℚ) := (List.range 8).map fun n => (n, (n : ℚ))

/-- Eight items, and the first of them again. -/
def addedAgain : List (SetAction ℕ) :=
  eightItems.map (fun entry => .add entry.1 entry.2 8) ++ [.add 0 8 8]

/-- The first item is evicted by the entry it had first, though it is the newest now. -/
theorem addedAgain_not_evicts : ¬ (after unlimited addedAgain).Evicts .pop := by
  have hnew : (new unlimited : LimitedSet ℕ).Sound := sound_empty unlimited 0
  have hnodup : ((new unlimited : LimitedSet ℕ).items ++ eightItems.map Prod.fst).Nodup := by
    decide
  obtain ⟨hsound, htight, hlimits, hdict⟩ :=
    asDict_updateDict hnew (List.Perm.refl []) 8 hnodup (Or.inl rfl)
  have hafter : (after unlimited addedAgain : LimitedSet ℕ) =
      ((new unlimited).updateDict eightItems 8).add 0 8 8 := by
    rw [after, addedAgain, List.foldl_append, updateDict, List.foldl_map]
    rfl
  rw [hafter]
  generalize (new unlimited : LimitedSet ℕ).updateDict eightItems 8 = s at *
  have hitems : s.items = List.range 8 := by
    rw [← map_fst_asDict, hdict]
    rfl
  have hlength : s.data.length = 8 := by
    rw [← length_asDict, hdict]
    rfl
  have hmem : 0 ∈ s.items := by
    rw [hitems]
    decide
  -- eight entries for seven items are not yet too many
  have hdiscard : s.discard 0 = s.remove 0 := by
    have hremove := length_remove hsound.nodup hmem
    have hheap : s.heap.size = 8 := by
      rw [← hlength, ← htight.length_eq, Array.length_toList]
    rw [discard, maybeRefreshHeap, if_neg]
    show ¬ 115 * max (s.remove 0).data.length 1 ≤ 100 * s.heap.size
    omega
  have hadd : s.add 0 8 8 = (s.remove 0).push 0 8 := by
    rw [add, if_pos hmem, hdiscard, if_neg]
    exact fun hfull => hfull.1 (congrArg Limits.maxlen hlimits)
  have hsound' : ((s.remove 0).push 0 8).Sound := hadd ▸ hsound.add 0 8 8
  have hentry : ∀ entry ∈ eightItems, ∃ e ∈ s.data, (e.item, e.inserted) = entry := by
    intro entry hentry
    have hmem : entry ∈ s.asDict := by
      rw [hdict]
      exact List.mem_append_right _ hentry
    exact List.mem_map.mp hmem
  have htimes : ∀ e ∈ s.data, e.inserted = e.item := by
    intro e he
    have hmem : (e.item, e.inserted) ∈ s.asDict := List.mem_map.mpr ⟨e, he, rfl⟩
    rw [hdict] at hmem
    obtain ⟨n, -, hn⟩ := List.mem_map.mp ((List.mem_append.mp hmem).resolve_left List.not_mem_nil)
    rw [← (Prod.mk.inj hn).1, ← (Prod.mk.inj hn).2]
  have hheap : ∀ e, e ∈ ((s.remove 0).push 0 8).heap.toList ↔ e ∈ s.data ∨ e = ⟨8, s.seq, 0⟩ := by
    intro e
    have hperm := (Heapq.heappush_perm Entry.lt s.heap ⟨8, s.seq, 0⟩).toList
    rw [Array.toList_push] at hperm
    refine hperm.mem_iff.trans ?_
    rw [List.mem_append, List.mem_singleton, htight.mem_iff]
  obtain ⟨old, hold, hold'⟩ := hentry (0, 0) (by decide)
  obtain ⟨one, hone, hone'⟩ := hentry (1, 1) (by decide)
  rw [hadd]
  intro hevicts
  obtain ⟨e, he, hleast, hitem, -⟩ := hevicts.2 (by simp [push])
  obtain ⟨e', skipped, hpops⟩ := hsound'.exists_pops (by simp [push])
  -- the entry that goes is no newer than the first one of the first item
  have hle : e'.inserted ≤ 0 := by
    rw [← (Prod.mk.inj hold').2]
    refine Prod.Lex.monotone_fst _ _ (hpops.least old ((hheap old).mpr (Or.inl hold)) ?_)
    rw [(Prod.mk.inj hold').1, items_push]
    exact List.mem_append_right _ (List.mem_singleton_self 0)
  have hzero : e'.item = 0 := by
    rcases (hheap e').mp (hpops.perm.mem_iff.mpr (by simp)) with hdata | rfl
    · rw [htimes e' hdata] at hle
      exact Nat.le_zero.mp (by exact_mod_cast hle)
    · rfl
  have hsame : e.item = 0 := by
    rw [← hzero, ← Option.some_inj, ← hitem, hpops.item]
  -- but the first item has the newest entry now
  rcases List.mem_append.mp he with hdata | hnewest
  · exact absurd hsame (by simpa using (List.mem_filter.mp hdata).2)
  · rw [List.mem_singleton.mp hnewest] at hleast
    have hone_mem : one ∈ ((s.remove 0).push 0 8).data :=
      List.mem_append_left _ (List.mem_filter.mpr ⟨hone, by simp [(Prod.mk.inj hone').1]⟩)
    have hlast : (8 : ℚ) ≤ one.inserted := Prod.Lex.monotone_fst _ _ (hleast one hone_mem)
    rw [(Prod.mk.inj hone').2] at hlast
    norm_num at hlast

end LimitedSet
end Celery
