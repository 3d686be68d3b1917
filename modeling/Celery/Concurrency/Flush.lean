/-
# `celery/concurrency/asynpool.py`: the pool when the consumer reconnects

`flush` (lines 999-1105) first discards the jobs that are not accepted, and only then ends the
writes that were begun, so that for a while jobs are written that are in no cache.  But a write
reads neither the cache nor the buffer, and the jobs could as well be discarded behind it
(`progress_discardUnaccepted`).  So `Sound` is kept up to there by `Sound.progress`
(`Sound.flushWriters`), and then by discarding jobs of which none is being written or was broken
off (`Sound.endFlush`): those that are left were accepted, and the processes that have them stay
busy.
-/

import Celery.Concurrency.Writes

namespace Celery
namespace AsynPool
namespace Pool

variable {J P : Type} {e : Env J P} [DecidableEq J] {s t u : Pool J P} {todo : J → Prop} {fd : ℕ}
  {job : J} {buffer : List J}

/-! ## Jobs that are discarded -/

/-- Jobs can be discarded behind a job that is put back. -/
theorem putBack_discardUnaccepted (hnodup : s.cache.Nodup) (job : J) (buffer : List J) :
    ∃ buffer', (s.discardUnaccepted buffer).putBack job =
      (s.putBack job).discardUnaccepted buffer' := by
  rw [Pool.putBack, Pool.putBack]
  by_cases hterminated : s.terminated job = true
  · rw [if_pos hterminated, if_pos (show (s.discardUnaccepted buffer).terminated job = true from
      hterminated)]
    refine ⟨buffer, ?_⟩
    have hcache : (s.cache.filter s.accepted).erase job =
        (s.cache.erase job).filter (Function.update s.accepted job true) := by
      rw [(hnodup.filter _).erase_eq_filter, hnodup.erase_eq_filter, List.filter_filter,
        List.filter_filter]
      refine List.filter_congr fun j _ => ?_
      by_cases heq : j = job
      · simp [heq]
      · simp [heq, Bool.and_comm]
    simp only [discardUnaccepted, hcache]
  · rw [if_neg hterminated, if_neg (show ¬ (s.discardUnaccepted buffer).terminated job = true from
      hterminated)]
    split_ifs <;> exact ⟨_, rfl⟩

/-- A write does not read the cache or the buffer. -/
theorem progress_discardUnaccepted (hnodup : s.cache.Nodup) (fd : ℕ) (p : Progress J P)
    (buffer : List J) :
    ∃ buffer', (s.discardUnaccepted buffer).progress fd p =
      (s.progress fd p).discardUnaccepted buffer' := by
  rw [Pool.progress, Pool.progress]
  cases p.status with
  | yielded => exact ⟨buffer, rfl⟩
  | returned => exact ⟨buffer, rfl⟩
  | raised err => exact ⟨buffer, rfl⟩
  | notRecovering => exact putBack_discardUnaccepted (s := s.giveUp fd p.bytes) hnodup _ buffer

/-- What a write leaves as it is. -/
structure Apart (s t : Pool J P) : Prop where
  pool : t.pool = s.pool
  exited : t.exited = s.exited
  dead : t.dead = s.dead

theorem progress_apart (fd : ℕ) (p : Progress J P) : Apart s (s.progress fd p) := by
  rw [Pool.progress]
  cases p.status with
  | notRecovering =>
    dsimp only
    rw [Pool.putBack]
    split
    · exact ⟨rfl, rfl, rfl⟩
    · split <;> exact ⟨rfl, rfl, rfl⟩
  | _ => exact ⟨rfl, rfl, rfl⟩

omit [DecidableEq J] in
theorem Apart.trans (h : Apart s t) (h' : Apart t u) : Apart s u :=
  ⟨h'.pool.trans h.pool, h'.exited.trans h.exited, h'.dead.trans h.dead⟩

/-- **The writes that were begun are gone on with.**  The jobs could as well be discarded behind
them. -/
theorem Sound.flushWriters {writes : List (ℕ × List Send)} (h : s.Sound e todo)
    (hflush : (s.discardUnaccepted buffer).flushWriters e writes = some t) :
    ∃ u buffer', u.Sound e todo ∧ Apart s u ∧ t = u.discardUnaccepted buffer' := by
  induction writes generalizing s buffer with
  | nil =>
    rw [Pool.flushWriters] at hflush
    split at hflush
    · exact ⟨s, buffer, h, ⟨rfl, rfl, rfl⟩, (Option.some.inj hflush).symm⟩
    · cases hflush
  | cons write writes ih =>
    obtain ⟨fd, sends⟩ := write
    obtain ⟨w, hw, hflush⟩ := Option.bind_eq_some_iff.mp hflush
    obtain ⟨p, hp, hflush⟩ := Option.bind_eq_some_iff.mp hflush
    have hsound : (s.progress fd p).Sound e todo := h.progress hw hp
    have hapart : Apart s (s.progress fd p) := progress_apart fd p
    obtain ⟨buffer', heq⟩ := progress_discardUnaccepted h.cache fd p buffer
    have hend : some ((s.discardUnaccepted buffer).progress fd p) = some t →
        ∃ u buffer', u.Sound e todo ∧ Apart s u ∧ t = u.discardUnaccepted buffer' :=
      fun ht => ⟨_, buffer', hsound, hapart, (Option.some.inj ht).symm.trans heq⟩
    have hrest : ((s.discardUnaccepted buffer).progress fd p).flushWriters e writes = some t →
        ∃ u buffer', u.Sound e todo ∧ Apart s u ∧ t = u.discardUnaccepted buffer' := fun ht => by
      obtain ⟨u, buffer'', hu, hapart', ht⟩ := ih hsound (heq ▸ ht)
      exact ⟨u, buffer'', hu, hapart.trans hapart', ht⟩
    dsimp only at hflush
    split at hflush
    · split at hflush
      · exact hend hflush
      · cases hflush
    · split at hflush
      · exact hend hflush
      · exact hrest hflush
    · exact hrest hflush

/-! ## What is left -/

/-- The jobs of processes that did not exit stay where they are, if no write is broken off. -/
theorem Sound.endFlush (h : s.Sound e fun _ => False)
    (hexited : ∀ p ∈ s.pool, s.exited p = false)
    (htorn : ∀ p ∈ s.pool, ((s.discardUnaccepted buffer).endFlush e).torn (e.inqW p) = []) :
    ((s.discardUnaccepted buffer).endFlush e).Sound e fun _ => False := by
  have hidle : ∀ fd, s.writers fd = none ∧ s.torn fd = [] := fun fd => by
    by_contra hnot
    have hload : s.load fd ≠ [] := fun hnil => by
      rw [load, Inqueue.load, List.append_eq_nil_iff, List.append_eq_nil_iff] at hnil
      have hwriter : (s.writers fd).toList = [] := List.map_eq_nil_iff.mp hnil.1.2
      exact hnot ⟨Option.toList_eq_nil_iff.mp hwriter, hnil.2⟩
    obtain ⟨j, hj⟩ := List.exists_mem_of_ne_nil _ hload
    obtain ⟨p, hp⟩ := Option.ne_none_iff_exists'.mp ((h.inqueues fd).load j hj).2.2.1
    obtain ⟨rfl, hpool, -⟩ := (h.inqueues fd).owner p hp
    have hnil : (if e.inqW p ∈ s.activeWrites then
        s.torn (e.inqW p) ++ (s.writers (e.inqW p)).toList.map Writing.job
      else s.torn (e.inqW p)) = [] := htorn p hpool
    by_cases hactive : e.inqW p ∈ s.activeWrites
    · rw [if_pos hactive, List.append_eq_nil_iff, List.map_eq_nil_iff,
        Option.toList_eq_nil_iff] at hnil
      exact hnot ⟨hnil.2, hnil.1⟩
    · rw [if_neg hactive] at hnil
      exact hnot ⟨h.writers_eq_none hactive, hnil⟩
  have hcache : ∀ j, j ∈ s.cache.filter s.accepted ↔ j ∈ s.cache ∧ s.accepted j = true := fun j =>
    List.mem_filter
  have hload : ∀ fd, s.load fd = (s.written fd).filter (· ∈ s.cache) := fun fd => by
    rw [load, Inqueue.load]
    simp [inqueue, hidle fd]
  have hload' : ∀ fd, ((s.discardUnaccepted buffer).endFlush e).load fd =
      (s.written fd).filter (· ∈ s.cache.filter s.accepted) := fun fd => by
    rw [load, Inqueue.load]
    simp [inqueue, Pool.endFlush, discardUnaccepted, removeWriters, hidle fd]
  have hsubset : ∀ fd, (((s.discardUnaccepted buffer).endFlush e).load fd).Sublist (s.load fd) :=
    fun fd => by
      rw [hload, hload']
      refine List.monotone_filter_right _ fun j hj => ?_
      exact decide_eq_true ((hcache j).mp (of_decide_eq_true hj)).1
  have haccepted : ∀ fd, ∀ j ∈ ((s.discardUnaccepted buffer).endFlush e).load fd,
      j ∈ s.cache.filter s.accepted := fun fd j hj => by
    rw [hload'] at hj
    exact of_decide_eq_true (List.mem_filter.mp hj).2
  refine
    { h with
      outbound := List.nodup_nil
      queued := fun j hj => absurd hj List.not_mem_nil
      buffered := fun j hj => absurd hj List.not_mem_nil
      cache := h.cache.filter _
      sent := fun j hj => h.sent j ((hcache j).mp hj).1
      assigned := fun j hj => h.assigned j ((hcache j).mp hj).1
      inqueues := fun fd => ?_
      placed := fun j hj hacc => ?_ }
  · have hgood := h.inqueues fd
    refine ⟨hgood.owner, fun w hw => ?_, fun j hj => ?_, hgood.nodup.sublist (hsubset fd),
      fun hfair hne => ?_, fun hfair => (hsubset fd).length_le.trans (hgood.single hfair),
      hgood.front, hgood.sent, fun hgivenUp hbehind => ?_⟩
    · simp [inqueue, Pool.endFlush, discardUnaccepted, removeWriters, hidle fd] at hw
    · obtain ⟨-, -, howner, hto⟩ := hgood.load j ((hsubset fd).subset hj)
      exact ⟨haccepted fd j hj, List.not_mem_nil, howner, hto⟩
    · obtain ⟨j, hj⟩ := List.exists_mem_of_ne_nil _ hne
      have hj' := (hsubset fd).subset hj
      obtain ⟨-, -, hsome, hto⟩ := hgood.load j hj'
      obtain ⟨p, hp⟩ := Option.ne_none_iff_exists'.mp hsome
      obtain ⟨rfl, hpool, -⟩ := hgood.owner p hp
      have hbusy : e.inqW p ∈ s.busyWorkers :=
        of_decide_eq_true (hgood.busy hfair (List.ne_nil_of_mem hj'))
      have hstill : e.inqW p ∈ (s.discardUnaccepted buffer).stillBusy e := by
        refine List.mem_filterMap.mpr ⟨j, List.mem_filter.mpr ⟨haccepted _ j hj, ?_⟩, ?_⟩
        · exact ((hcache j).mp (haccepted _ j hj)).2
        · rw [show (s.discardUnaccepted buffer).writeTo j = some p from hto.trans hp]
          simp [discardUnaccepted, hexited p hpool]
      exact decide_eq_true (Finset.mem_filter.mpr ⟨hbusy, hstill⟩)
    · obtain ⟨hwriter, htorn⟩ := hidle fd
      have hframed := hgood.framed hgivenUp hbehind
      refine .of_eq (b := []) (hframed.idle hwriter htorn ▸ hframed.pipe) (cut_nil (by decide))
        (fun w hw => ?_) fun _ _ => rfl
      simp [inqueue, Pool.endFlush, discardUnaccepted, removeWriters, hidle fd] at hw
  · have hacc' := ((hcache j).mp hj).2
    exact absurd (hacc'.symm.trans hacc) (by decide)

variable [DecidableEq P]

/-- No process exited, and the jobs of those that are dead were accepted. -/
theorem Sound.joinExitedWorkers_discardUnaccepted (h : s.Sound e todo)
    (hexited : ∀ p ∈ s.pool, s.exited p = false) :
    (s.discardUnaccepted buffer).joinExitedWorkers e = s.discardUnaccepted buffer := by
  have hjob : ∀ j ∈ s.cache.filter s.accepted,
      (s.discardUnaccepted buffer).onJobProcessDown e j = s.discardUnaccepted buffer :=
    fun j hj => by
      obtain ⟨hcache, haccepted⟩ := List.mem_filter.mp hj
      have hscheduled : (s.discardUnaccepted buffer).scheduledFor j = s.writeTo j :=
        congrFun h.scheduled j
      rw [onJobProcessDown, hscheduled]
      dsimp only [discardUnaccepted]
      cases hproc : (s.writeTo j).filter s.exited with
      | none => rfl
      | some proc =>
        obtain ⟨hto, hgone⟩ := Option.filter_eq_some_iff.mp hproc
        have hnot : proc ∉ s.pool := fun hpool => by
          rw [hexited proc hpool] at hgone
          cases hgone
        have hdead : s.dead proc = true := (h.assigned j hcache proc hto).resolve_left hnot
        dsimp only
        rw [onPartialRead, if_pos haccepted]
        dsimp only
        rw [if_pos hdead]
  have hjobs : ∀ jobs ⊆ s.cache.filter s.accepted,
      jobs.foldl (onJobProcessDown e) (s.discardUnaccepted buffer) = s.discardUnaccepted buffer :=
    fun jobs => by
      induction jobs with
      | nil => exact fun _ => rfl
      | cons j jobs ih =>
        intro hsubset
        rw [List.foldl_cons, hjob j (hsubset (.head _))]
        exact ih fun _ hj => hsubset (.tail _ hj)
  have hswept : (s.discardUnaccepted buffer).cache.foldl (onJobProcessDown e)
      (s.discardUnaccepted buffer) = s.discardUnaccepted buffer := hjobs _ (List.Subset.refl _)
  have hnone : (s.discardUnaccepted buffer).pool.filter (s.discardUnaccepted buffer).exited = [] :=
    List.filter_eq_nil_iff.mpr fun p hp => Bool.eq_false_iff.mp (hexited p hp)
  have hall : (s.discardUnaccepted buffer).pool.filter
      (fun proc => !(s.discardUnaccepted buffer).exited proc) = (s.discardUnaccepted buffer).pool :=
    List.filter_eq_self.mpr fun p hp => congrArg not (hexited p hp)
  rw [joinExitedWorkers, hswept, hnone, List.foldl_nil, hall]

/-- **The pool is flushed.** -/
theorem Sound.flush {writes : List (ℕ × List Send)} (h : s.Sound e fun _ => False)
    (hexited : ∀ p ∈ s.pool, s.exited p = false) (hflush : s.flush e writes = some t)
    (htorn : ∀ p ∈ t.pool, t.torn (e.inqW p) = []) :
    t.Sound e (fun _ => False) ∧ t.pool = s.pool ∧ t.dead = s.dead := by
  rw [Pool.flush, h.joinExitedWorkers_discardUnaccepted hexited] at hflush
  obtain ⟨v, hv, rfl⟩ := Option.map_eq_some_iff.mp hflush
  obtain ⟨u, buffer, hsound, hapart, rfl⟩ := h.flushWriters hv
  have hexited' : ∀ p ∈ u.pool, u.exited p = false := by
    rw [hapart.pool, hapart.exited]
    exact hexited
  exact ⟨hsound.endFlush hexited' htorn, hapart.pool, hapart.dead⟩

end Pool
end AsynPool
end Celery
