/-
# `celery/worker/state.py`: revoked ids over a restart

With `--statedb` a worker saves `revoked` when it stops, and merges what was saved when it
starts: `Persistent._sync_with` (lines 337-346), `_merge_with` and what it calls (lines
332-335, 351-376), and `merge_revoked` (lines 116-138).

`revoked` is a `LimitedSet`, which is pickled with the times of its items.  `merge_revoked`
takes only the ids, since the times are those of another clock.  But unpickling has added
them with their old times before that, and where the set is as large as may be, it has
purged them by the new clock.  So all ids survive a restart exactly if there were less than
`REVOKES_MAX`, or none of them has expired by the clock at the time of loading
(`revoked_survive_iff`).

The file, its compression and the logical clock that is saved with it are left out.
-/

import Celery.Utils.LimitedSet
import Mathlib.Algebra.Order.Ring.Rat
import Mathlib.Tactic.NormNum

namespace Celery
namespace Persistent

variable {α : Type}

/-! ## Saving and loading -/

/-- The limits of `revoked`, from `REVOKES_MAX` and `REVOKE_EXPIRES`. -/
def revokedLimits (revokesMax : ℕ) (revokeExpires : NNRat) : Limits :=
  ⟨revokesMax, revokeExpires, 0, Nat.zero_le revokesMax⟩

/-- What is in the state db of the revoked tasks: a pickled set, and the ids that versions
before the third have left there. -/
structure Db (α : Type) where
  zrevoked : Option (Pickled α)
  revoked : Option (List α)

variable [LT α] [DecidableLT α] [DecidableEq α]

/-- `merge_revoked`. -/
def mergeRevoked (taskIds : List α) (revoked : LimitedSet α) (now : ℚ) : LimitedSet α :=
  if taskIds = [] then revoked else revoked.update taskIds now

/-- `_sync_with`: `revoked` after its `purge`, and the state db. -/
def syncWith (revoked : LimitedSet α) (d : Db α) (now : ℚ) : LimitedSet α × Db α :=
  let revoked := revoked.purge now
  (revoked, { d with zrevoked := some revoked.reduce })

/-- `_merge_with`. -/
def mergeWith (revoked : LimitedSet α) (d : Db α) (now : ℚ) : LimitedSet α × Db α :=
  let (revoked, d) :=
    match d.zrevoked, d.revoked with
    | some zrevoked, _ => (mergeRevoked (zrevoked.load now).iter revoked now, d)
    | none, some saved => (mergeRevoked saved revoked now, { d with revoked := none })
    | none, none => (revoked, d)
  (revoked.purge now, d)

/-- A worker stops at `savedAt`, and its successor starts at `loadedAt`, by its clock. -/
def restart (revoked : LimitedSet α) (d : Db α) (savedAt loadedAt : ℚ) : LimitedSet α :=
  (mergeWith (LimitedSet.new revoked.limits) (syncWith revoked d savedAt).2 loadedAt).1

/-! ## What survives -/

section Survive

variable {s : LimitedSet α} {now : ℚ}

omit [DecidableEq α] in
theorem iter_perm (s : LimitedSet α) : s.iter.Perm s.items :=
  (List.mergeSort_perm s.data _).map Entry.item

omit [LT α] [DecidableLT α] [DecidableEq α] in
/-- The times of the entries are those of the dict. -/
theorem forall_inserted_iff (p : ℚ → Prop) :
    (∀ e ∈ s.data, p e.inserted) ↔ ∀ entry ∈ s.asDict, p entry.2 := by
  rw [LimitedSet.asDict, List.forall_mem_map]

/-- **Ids that are merged into a new set stay in it**, if they are not too many. -/
theorem items_mergeRevoked (limits : Limits) {ids : List α} (hnodup : ids.Nodup)
    (hle : limits.maxlen ≠ 0 → ids.length ≤ limits.maxlen) (now : ℚ) :
    ((mergeRevoked ids (LimitedSet.new limits) now).purge now).items = ids := by
  have hupdate : mergeRevoked ids (LimitedSet.new limits) now =
      (LimitedSet.new limits).updateDict (ids.map fun id => (id, now)) now := by
    rw [mergeRevoked, LimitedSet.updateDict, List.foldl_map]
    split
    next hnil => rw [hnil, List.foldl_nil]
    next => rfl
  have hfst : (ids.map fun id => (id, now)).map Prod.fst = ids := by
    rw [List.map_map]
    exact List.map_id ids
  obtain ⟨t, -, htight, hlimits, hdict, heq⟩ :=
    @LimitedSet.updateDict_new α _ _ _ limits (ids.map fun id => (id, now))
      (hfst.symm ▸ hnodup) (by rwa [List.length_map]) now
  have hlength : t.data.length = ids.length := by
    rw [← t.length_asDict, hdict, List.length_map]
  have hlive : t.purge now = t := by
    refine LimitedSet.purge_of_live htight ?_ ?_
    · rwa [hlimits, hlength]
    · rw [hlimits]
      refine (eq_or_ne limits.expires 0).imp_right fun hne e he => ?_
      revert e
      rw [forall_inserted_iff (fun time => now < time + limits.expires), hdict,
        List.forall_mem_map]
      have hpos : (0 : ℚ) < limits.expires :=
        lt_of_le_of_ne limits.expires.2 fun heq => hne (NNRat.ext heq.symm)
      exact fun _ _ => lt_add_of_pos_right now hpos
  rw [hupdate, heq, hlive, ite_self, hlive, ← t.map_fst_asDict, hdict, hfst]

/-- What has been saved, and how unpickling adds it. -/
theorem exists_load (h : s.Sound) (hle : s.limits.maxlen ≠ 0 → s.data.length ≤ s.limits.maxlen)
    (now : ℚ) :
    ∃ t : LimitedSet α, t.Sound ∧ t.Tight ∧ t.limits = s.limits ∧ t.asDict = s.asDict ∧
      s.reduce.load now =
        if s.limits.maxlen ≠ 0 ∧ s.data.length = s.limits.maxlen then t.purge now else t := by
  have hnodup : (s.asDict.map Prod.fst).Nodup := s.map_fst_asDict.symm ▸ h.nodup
  obtain ⟨t, ht⟩ := LimitedSet.updateDict_new s.limits hnodup
    (by rwa [s.length_asDict]) now
  rw [s.length_asDict] at ht
  exact ⟨t, ht⟩

/-- After a restart the set has the ids that unpickling has left. -/
theorem mem_restart_iff (h : s.Sound) (d : Db α) (savedAt loadedAt : ℚ) (id : α) :
    id ∈ (restart s d savedAt loadedAt).items ↔
      id ∈ ((s.purge savedAt).reduce.load loadedAt).items := by
  have hsaved := h.purge savedAt
  have hlimits : (s.purge savedAt).limits = s.limits := (h.purge_spec savedAt).2.1
  have hle := fun hne => LimitedSet.length_purge_le h savedAt hne
  obtain ⟨t, htsound, -, htlimits, hdict, hload⟩ := exists_load hsaved (hlimits.symm ▸ hle) loadedAt
  have hlength : t.data.length = (s.purge savedAt).data.length := by
    rw [← t.length_asDict, hdict, LimitedSet.length_asDict]
  have hloaded : ((s.purge savedAt).reduce.load loadedAt).Sound ∧
      (s.limits.maxlen ≠ 0 →
        ((s.purge savedAt).reduce.load loadedAt).data.length ≤ s.limits.maxlen) := by
    rw [hload]
    split
    · refine ⟨htsound.purge loadedAt, fun hne => ?_⟩
      exact ((htsound.purge_spec loadedAt).2.2.1.length_le.trans hlength.le).trans (hle hne)
    · exact ⟨htsound, fun hne => hlength.trans_le (hle hne)⟩
  have hperm := iter_perm ((s.purge savedAt).reduce.load loadedAt)
  have hitems := items_mergeRevoked s.limits (hperm.nodup_iff.mpr hloaded.1.nodup) (fun hne => by
    rw [hperm.length_eq, LimitedSet.items, List.length_map]
    exact hloaded.2 hne) loadedAt
  rw [← hperm.mem_iff, ← hitems]
  rfl

/-- **When revoked ids survive a restart.**  Whatever has been done with `revoked`, all ids
that are saved are there after the restart if and only if there are less than `REVOKES_MAX`
of them, or none has expired by the clock when they are loaded.  (If `REVOKES_MAX` is 0 there
is no limit, and if `REVOKE_EXPIRES` is 0, nothing expires.) -/
theorem revoked_survive_iff (revokesMax : ℕ) (revokeExpires : NNRat)
    (as : List (SetAction α)) (d : Db α) (savedAt loadedAt : ℚ) :
    (∀ id ∈ ((LimitedSet.after (revokedLimits revokesMax revokeExpires) as).purge savedAt).items,
        id ∈ (restart (LimitedSet.after (revokedLimits revokesMax revokeExpires) as) d savedAt
          loadedAt).items) ↔
      revokesMax = 0 ∨
        ((LimitedSet.after (revokedLimits revokesMax revokeExpires) as).purge
          savedAt).items.length < revokesMax ∨
        revokeExpires = 0 ∨
        ∀ e ∈ ((LimitedSet.after (revokedLimits revokesMax revokeExpires) as).purge savedAt).data,
          loadedAt < e.inserted + revokeExpires := by
  have hsound := LimitedSet.sound_after (revokedLimits revokesMax revokeExpires) as
  have hafter := LimitedSet.limits_after (revokedLimits revokesMax revokeExpires) as
  generalize LimitedSet.after (revokedLimits revokesMax revokeExpires) as = s at *
  obtain ⟨hsaved, hlimits, -, hle⟩ := hsound.purge_spec savedAt
  rw [hafter] at hlimits hle
  simp only [mem_restart_iff hsound]
  generalize s.purge savedAt = saved at *
  obtain ⟨t, htsound, htight, htlimits, hdict, hload⟩ :=
    exists_load hsaved (hlimits.symm ▸ hle) loadedAt
  have hmax : (revokedLimits revokesMax revokeExpires).maxlen = revokesMax := rfl
  rw [hlimits] at htlimits hload
  rw [hmax] at hload hle
  have hlength : t.data.length = saved.data.length := by
    rw [← t.length_asDict, hdict, saved.length_asDict]
  have hitems : saved.items = t.items := by
    rw [← saved.map_fst_asDict, ← t.map_fst_asDict, hdict]
  have htle : t.limits.maxlen ≠ 0 → t.data.length ≤ t.limits.maxlen := by
    rwa [htlimits, hlength, hmax]
  have hcount : saved.items.length = saved.data.length := List.length_map _
  have hlive : (∀ e ∈ saved.data, loadedAt < e.inserted + revokeExpires) ↔
      ∀ e ∈ t.data, loadedAt < e.inserted + revokeExpires := by
    rw [forall_inserted_iff fun time => loadedAt < time + revokeExpires,
      forall_inserted_iff fun time => loadedAt < time + revokeExpires, hdict]
  rw [hitems, hload, hlive, ← hitems, hcount, hitems]
  by_cases hfull : revokesMax ≠ 0 ∧ saved.data.length = revokesMax
  · have hminlen : t.limits.minlen < t.data.length := by
      rw [htlimits, hlength, hfull.2]
      exact Nat.pos_of_ne_zero hfull.1
    have hpurge := LimitedSet.forall_mem_purge_iff htsound htight htle hminlen loadedAt
    rw [htlimits] at hpurge
    rw [if_pos hfull, hpurge, or_iff_right hfull.1, or_iff_right hfull.2.not_lt]
    rfl
  · rw [if_neg hfull]
    refine iff_of_true (fun id hid => hid) ?_
    by_cases hzero : revokesMax = 0
    · exact Or.inl hzero
    · exact Or.inr (Or.inl (lt_of_le_of_ne (hle hzero) fun heq => hfull ⟨hzero, heq⟩))

/-- A set of one, with one entry in its heap. -/
def single (limits : Limits) (item : α) (inserted : ℚ) : LimitedSet α :=
  ⟨limits, [⟨inserted, 0, item⟩], #[⟨inserted, 0, item⟩], 1⟩

/-- The first of one item at most. -/
theorem add_new (revokeExpires : NNRat) (item : α) (inserted now : ℚ) :
    (LimitedSet.new (revokedLimits 1 revokeExpires)).add item inserted now =
      (single (revokedLimits 1 revokeExpires) item inserted).purge now := by
  rw [LimitedSet.add_of_not_mem List.not_mem_nil, if_pos ⟨Nat.one_ne_zero, le_rfl⟩,
    LimitedSet.push, LimitedSet.new, Heapq.heappush_empty]
  rfl

/-- One id is revoked, where no more than one may be. -/
def oneRevoked : List (SetAction String) := [.add "id" 5 5]

/-- **A full set forgets what has expired by the new clock**: the id is there when the set is
saved at 6, and gone when it is loaded at 20000. -/
theorem oneRevoked_lost :
    "id" ∈ ((LimitedSet.after (revokedLimits 1 10800) oneRevoked).purge 6).items ∧
      "id" ∉ (restart (LimitedSet.after (revokedLimits 1 10800) oneRevoked) ⟨none, none⟩ 6
        20000).items := by
  have hlive : ∀ now : ℚ, now < 10805 → (single (revokedLimits 1 10800) "id" 5).purge now =
      single (revokedLimits 1 10800) "id" 5 := by
    intro now hnow
    refine LimitedSet.purge_of_live (List.Perm.refl _) (fun _ => le_rfl) (Or.inr fun e he => ?_)
    obtain rfl := List.mem_singleton.mp he
    have hsum : (5 : ℚ) + (10800 : NNRat) = 10805 := by norm_num
    exact hnow.trans_eq hsum.symm
  have hset : LimitedSet.after (revokedLimits 1 10800) oneRevoked =
      single (revokedLimits 1 10800) "id" 5 :=
    (add_new 10800 "id" 5 5).trans (hlive 5 (by norm_num))
  have hsound := LimitedSet.sound_after (revokedLimits 1 10800) oneRevoked
  have hload : ((LimitedSet.after (revokedLimits 1 10800) oneRevoked).purge 6).reduce.load 20000 =
      (single (revokedLimits 1 10800) "id" 5).purge 20000 := by
    rw [hset, hlive 6 (by norm_num)]
    exact add_new 10800 "id" 5 20000
  refine ⟨?_, ?_⟩
  · rw [hset, hlive 6 (by norm_num)]
    exact List.mem_singleton_self _
  · rw [mem_restart_iff hsound, hload]
    rw [hset] at hsound
    obtain ⟨id, hid, hlost⟩ := LimitedSet.exists_not_mem_purge hsound (List.Perm.refl _)
      (fun _ => le_rfl) Nat.one_pos (by simp [single, revokedLimits]) (List.mem_singleton_self _)
      (show (5 : ℚ) + (10800 : NNRat) ≤ 20000 by norm_num)
    obtain rfl : id = "id" := List.mem_singleton.mp hid
    exact hlost

end Survive

end Persistent
end Celery
