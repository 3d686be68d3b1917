/-
# `celery/concurrency/asynpool.py`: no job is lost

`Sound` is also kept by all else that happens: jobs are sent and reported, and processes start,
come up and exit (lines 607-714, 877-887, 1171-1196, 1319-1370).  So it holds in every pool that
is reached, whatever the order, if no `flush` leaves a write broken off (`allSound_of_run`), and
says that

* a pipe has whole jobs and a beginning of the next one (`boundaries_of_run`),
* with the fair strategy a process never has two jobs (`load_of_run`),
* a job waits in the buffer, or is with one process, until it is accepted (`placed_of_run`), and
  a job of a process that exited goes back to the buffer (`recovered_of_join`).
-/

import Celery.Concurrency.Flush

namespace Celery
namespace AsynPool
namespace Pool

variable {J P : Type} {e : Env J P} [DecidableEq J] {s t : Pool J P} {todo : J → Prop} {fd : ℕ}
  {job : J}

/-! ## Jobs and processes -/

theorem Sound.sendJob (h : s.Sound e todo) (hjob : job ∉ s.sent)
    (hsize : (e.body job).length < 2 ^ 32) :
    (s.sendJob job).Sound e todo := by
  have hcache : job ∉ s.cache := fun hmem => hjob (h.sent job hmem)
  have hload : ∀ fd, (s.inqueue fd).load (s.cache ++ [job]) = s.load fd := fun fd =>
    Inqueue.load_append_singleton fun hmem => hjob ((h.inqueues fd).sent job hmem)
  refine
    { h with
      outbound := ?_
      queued := fun j hj => ?_
      buffered := fun j hj => ?_
      cache := ?_
      sent := fun j hj => ?_
      size := fun j hj => ?_
      assigned := fun j hj p hp => ?_
      fresh := fun j hj => List.mem_append_left _ (h.fresh j hj)
      inqueues := fun fd => ?_
      placed := fun j hj hacc => ?_ }
  · dsimp only [Pool.sendJob]
    rw [← List.concat_eq_append]
    exact h.outbound.concat fun hmem => hjob (h.buffered job hmem)
  · rcases List.mem_append.mp hj with hj | hj
    · exact (h.queued j hj).imp_left (List.mem_append_left _)
    · exact .inl (List.mem_append_right _ hj)
  · exact List.mem_append.mpr ((List.mem_append.mp hj).imp_left (h.buffered j))
  · dsimp only [Pool.sendJob]
    rw [← List.concat_eq_append]
    exact h.cache.concat hcache
  · exact List.mem_append.mpr ((List.mem_append.mp hj).imp_left (h.sent j))
  · rcases List.mem_append.mp hj with hj | hj
    · exact h.size j hj
    · exact List.mem_singleton.mp hj ▸ hsize
  · rcases List.mem_append.mp hj with hj | hj
    · exact h.assigned j hj p hp
    · obtain rfl := List.mem_singleton.mp hj
      exact absurd (h.fresh j (by rw [show s.writeTo j = some p from hp]; simp)) hjob
  · refine (h.inqueues fd).congr (hload fd) (fun p hp => ((h.inqueues fd).owner p hp).2)
      (fun j hj => ?_) fun j hj => List.mem_append_left _ hj
    have hin := (h.inqueues fd).load j hj
    refine ⟨List.mem_append_left _ hin.1, fun hmem => ?_, rfl⟩
    rcases List.mem_append.mp hmem with hmem | hmem
    · exact hin.2.1 hmem
    · exact hcache (List.mem_singleton.mp hmem ▸ hin.1)
  · rcases List.mem_append.mp hj with hj | hj
    · refine (h.placed j hj hacc).imp (List.mem_append_left _) (.imp_left ?_)
      exact Exists.imp fun fd hfd => (congrArg (j ∈ ·) (hload fd)).mpr hfd
    · exact .inl (List.mem_append_right _ hj)

/-- A process reports a job that was written to its pipe. -/
theorem Sound.onJobReady (h : s.Sound e todo) (hjob : job ∈ s.cache) (hfd : job ∈ s.written fd) :
    (s.onJobReady job fd).Sound e todo := by
  have hcache : ∀ j, j ∈ s.cache.erase job ↔ j ≠ job ∧ j ∈ s.cache := fun j =>
    h.cache.mem_erase_iff
  have hgood := h.inqueues fd
  have hmem : job ∈ s.load fd := Inqueue.mem_load_iff.mpr (.inl ⟨hfd, hjob⟩)
  have hbuffer : job ∉ s.outboundBuffer := (hgood.load job hmem).2.1
  have hother : ∀ fd', fd' ≠ fd → (s.onJobReady job fd).inqueue fd' = s.inqueue fd' :=
    fun fd' hne => by
      dsimp only [inqueue, Pool.onJobReady]
      simp [hne]
  have hsame : ∀ fd', fd' ≠ fd → (s.inqueue fd').load (s.cache.erase job) = s.load fd' :=
    fun fd' hne => Inqueue.load_erase fun hmem' => hne (h.fd_unique hmem' hmem)
  -- The job is the one of the pipe's that is left out.
  have hsublist : ((s.inqueue fd).load (s.cache.erase job)).Sublist (s.load fd) := by
    refine .append_right (.append_right (List.monotone_filter_right _ fun j hj => ?_) _) _
    exact decide_eq_true ((hcache j).mp (of_decide_eq_true hj)).2
  have hnot : job ∉ (s.inqueue fd).load (s.cache.erase job) := fun hmem' => by
    have hnodup := hgood.nodup
    rw [Inqueue.load, List.append_assoc] at hnodup hmem'
    have hwritten : job ∈ (s.written fd).filter (· ∈ s.cache) :=
      List.mem_filter.mpr ⟨hfd, decide_eq_true hjob⟩
    rcases List.mem_append.mp hmem' with hmem' | hmem'
    · exact ((hcache job).mp (of_decide_eq_true (List.mem_filter.mp hmem').2)).1 rfl
    · exact (List.nodup_append.mp hnodup).2.2 job hwritten job hmem' rfl
  have hload : ∀ j ∈ (s.inqueue fd).load (s.cache.erase job), j ≠ job ∧ j ∈ s.load fd :=
    fun j hj => ⟨fun heq => hnot (heq ▸ hj), hsublist.subset hj⟩
  have hempty : e.isFairStrategy → (s.inqueue fd).load (s.cache.erase job) = [] := fun hfair => by
    obtain ⟨k, hk⟩ := List.length_eq_one_iff.mp
      (Nat.le_antisymm (hgood.single hfair) (List.length_pos_of_mem hmem))
    refine List.eq_nil_iff_forall_not_mem.mpr fun j hj => (hload j hj).1 ?_
    have hj' := (hload j hj).2
    rw [load, hk, List.mem_singleton] at hj' hmem
    exact hj'.trans hmem.symm
  refine
    { h with
      queued := fun j hj => ?_
      cache := h.cache.erase job
      sent := fun j hj => h.sent j ((hcache j).mp hj).2
      assigned := fun j hj => h.assigned j ((hcache j).mp hj).2
      inqueues := fun fd' => ?_
      placed := fun j hj hacc => ?_ }
  · refine (h.queued j hj).imp_left fun hj' => (hcache j).mpr ⟨fun heq => ?_, hj'⟩
    exact hbuffer (heq ▸ hj)
  · by_cases heq : fd' = fd
    · subst heq
      refine ⟨hgood.owner, hgood.writing, fun j hj => ?_, hgood.nodup.sublist hsublist,
        fun hfair hne => absurd (hempty hfair) hne, fun hfair => ?_, hgood.front, hgood.sent,
        fun hgivenUp hbehind => ?_⟩
      · have hin := hgood.load j (hload j hj).2
        exact ⟨(hcache j).mpr ⟨(hload j hj).1, hin.1⟩, hin.2⟩
      · exact (congrArg List.length (hempty hfair)).trans_le (Nat.zero_le 1)
      · have hframed := hgood.framed hgivenUp hbehind
        exact ⟨hframed.pipe, hframed.cut, hframed.writer, hframed.idle⟩
    · rw [hother fd' heq]
      refine (h.inqueues fd').congr (hsame fd' heq) (fun p hp => ((h.inqueues fd').owner p hp).2)
        (fun j hj => ?_) fun _ => id
      have hin := (h.inqueues fd').load j hj
      refine ⟨(hcache j).mpr ⟨fun hj' => heq (h.fd_unique hj (hj' ▸ hmem)), hin.1⟩, hin.2.1, rfl⟩
  · obtain ⟨hne, hj⟩ := (hcache j).mp hj
    refine (h.placed j hj hacc).imp_right (.imp_left (Exists.imp fun fd' hfd' => ?_))
    by_cases heq : fd' = fd
    · subst heq
      refine Inqueue.mem_load_iff.mpr ((Inqueue.mem_load_iff.mp hfd').imp_left fun hw => ?_)
      exact ⟨hw.1, (hcache j).mpr ⟨hne, hw.2⟩⟩
    · exact (congrArg (j ∈ ·) (hsame fd' heq)).mpr hfd'

theorem Sound.onPollStart {stale : Finset ℕ} (h : s.Sound e todo) :
    (s.onPollStart e stale).Sound e todo := by
  rw [Pool.onPollStart, h.removeWriters_eq fun fd hfd => (Finset.mem_sdiff.mp hfd).2, ite_self]
  exact { h with
    inqueues := fun fd => (h.inqueues fd).of_subset rfl (List.Subset.refl _) rfl rfl rfl rfl }

theorem Sound.accept (h : s.Sound e todo) :
    ({ s with accepted := Function.update s.accepted job true } : Pool J P).Sound e todo := by
  have haccepted : ∀ j, s.accepted j = true → Function.update s.accepted job true j = true :=
    fun j hj => by
      by_cases heq : j = job
      · rw [heq, Function.update_self]
      · rwa [Function.update_of_ne heq]
  refine { h with
    queued := fun j hj => (h.queued j hj).imp_right (haccepted j)
    inqueues := fun fd => (h.inqueues fd).of_subset rfl (List.Subset.refl _) rfl rfl rfl rfl
    placed := fun j hj hacc => h.placed j hj ?_ }
  by_contra htrue
  have hacc' := haccepted j (Bool.eq_true_of_not_eq_false htrue)
  exact Bool.false_ne_true (hacc.symm.trans hacc')

/-! ## Processes -/

variable {proc : P}

/-- A process starts. -/
theorem Sound.onProcessUp (h : s.Sound e todo)
    (hpool : e.inqW proc ∉ s.pool.map e.inqW) : (s.onProcessUp e proc).Sound e todo := by
  have hload : ∀ fd, ∀ j ∈ s.load fd, (s.onProcessUp e proc).writeTo j = s.writeTo j :=
    fun fd j hj => by
      obtain ⟨-, -, howner, hto⟩ := (h.inqueues fd).load j hj
      obtain ⟨p, hp⟩ := Option.ne_none_iff_exists'.mp howner
      have hne : e.inqW p ≠ e.inqW proc := fun heq =>
        hpool (heq ▸ List.mem_map_of_mem ((h.inqueues fd).owner p hp).2.1)
      dsimp only [Pool.onProcessUp]
      rw [hto, hp, Option.map_some, if_neg fun heq => hne (Option.some.inj heq), ite_self]
  refine { h with
    pool := ?_
    scheduled := by dsimp only [Pool.onProcessUp]; rw [h.scheduled]
    assigned := fun j hj p hp => ?_
    fresh := fun j hj => ?_
    inqueues := fun fd => (h.inqueues fd).congr rfl (fun p hp => ?_) (fun j hj => ?_) fun _ => id }
  · dsimp only [Pool.onProcessUp]
    rw [List.map_append, List.map_singleton, ← List.concat_eq_append]
    exact h.pool.concat hpool
  · dsimp only [Pool.onProcessUp] at hp
    rw [if_pos (show j ∈ s.cache from hj)] at hp
    split at hp
    · obtain rfl := Option.some.inj hp
      exact .inl (List.mem_append_right _ (.head _))
    · exact (h.assigned j hj p hp).imp_left (List.mem_append_left _)
  · refine h.fresh j fun hnone => hj ?_
    simp [Pool.onProcessUp, hnone]
  · obtain ⟨-, hp, hdead⟩ := (h.inqueues fd).owner p hp
    exact ⟨List.mem_append_left _ hp, hdead⟩
  · have hin := (h.inqueues fd).load j hj
    exact ⟨hin.1, hin.2.1, hload fd j hj⟩

variable [DecidableEq P]

/-- A process reports that it is up. -/
theorem Sound.onProcessAlive (h : s.Sound e todo) (hdead : ∀ p ∈ s.pool, s.dead p = false)
    (halive : s.onProcessAlive e proc = some t) : t.Sound e todo := by
  rw [Pool.onProcessAlive] at halive
  split at halive
  next => exact Option.some.inj halive ▸ h
  next hpool =>
  split at halive
  next => cases halive
  next hfree =>
    obtain rfl := Option.some.inj halive
    obtain ⟨hfree, -⟩ := not_or.mp hfree
    have hgood := h.inqueues (e.inqW proc)
    refine h.update (by constructor <;> rfl) (e.inqW proc) (fun fd' hne => by simp [inqueue, hne])
      (hgood.of_nil (hgood.load_eq_nil (not_not.mp hfree)) (by simp [inqueue]) fun p hp => ?_)
      (fun j hj => ?_) fun _ => id
    · dsimp only [inqueue] at hp
      rw [Function.update_self] at hp
      obtain rfl := Option.some.inj hp
      exact ⟨rfl, not_not.mp hpool, hdead _ (not_not.mp hpool)⟩
    · rw [load, hgood.load_eq_nil (not_not.mp hfree)] at hj
      cases hj

/-! ## Processes that exited -/

omit [DecidableEq P] in
/-- The process that has the pipe of another one is that one. -/
theorem Sound.eq_of_owner {p : P} (h : s.Sound e todo) (hproc : proc ∈ s.pool)
    (howner : s.filenoToInq (e.inqW proc) = some p) : p = proc := by
  obtain ⟨hfd, hp, -⟩ := (h.inqueues _).owner p howner
  exact List.inj_on_of_nodup_map h.pool hp hproc hfd

omit [DecidableEq J] in
theorem destroyQueues_alike : Alike s (s.destroyQueues e proc) := by
  rw [destroyQueues, onInqueueClose]
  split <;> constructor <;> rfl

omit [DecidableEq J] in
/-- What `destroy_queues` does to the pipe of a process. -/
theorem destroyQueues_eq (howner : ∀ p, s.filenoToInq (e.inqW proc) = some p → p = proc) :
    ∃ active all, (∀ fd, fd ≠ e.inqW proc → (fd ∈ active ↔ fd ∈ s.activeWrites)) ∧
      s.destroyQueues e proc = { s with
        filenoToInq := Function.update s.filenoToInq (e.inqW proc) none
        allInqueues := all
        activeWrites := active
        busyWorkers := s.busyWorkers.erase (e.inqW proc)
        writers := Function.update s.writers (e.inqW proc) none
        pipe := Function.update s.pipe (e.inqW proc) []
        written := Function.update s.written (e.inqW proc) []
        torn := Function.update s.torn (e.inqW proc) []
        givenUp := s.givenUp.erase (e.inqW proc)
        behind := s.behind.erase (e.inqW proc) } := by
  have hwriters : (fun fd => if fd ∈ ({e.inqW proc} : Finset ℕ) then none else s.writers fd) =
      Function.update s.writers (e.inqW proc) none := by
    funext fd
    by_cases heq : fd = e.inqW proc <;> simp [heq]
  have htorn : ∀ f : ℕ → List J, Function.update (fun fd => if fd ∈ ({e.inqW proc} : Finset ℕ)
      then f fd else s.torn fd) (e.inqW proc) [] = Function.update s.torn (e.inqW proc) [] :=
    fun f => by
      funext fd
      by_cases heq : fd = e.inqW proc <;> simp [heq]
  rw [destroyQueues, onInqueueClose]
  split
  next =>
    refine ⟨s.activeWrites.erase (e.inqW proc), s.allInqueues.erase (e.inqW proc),
      fun fd hne => by simp [hne], ?_⟩
    simp only [removeWriters, hwriters, htorn]
  next hne =>
    have hnone : Function.update s.filenoToInq (e.inqW proc) none = s.filenoToInq := by
      have hfree : s.filenoToInq (e.inqW proc) = none :=
        Option.eq_none_iff_forall_ne_some.mpr fun p hp =>
          hne (hp.trans (congrArg some (howner p hp)))
      exact Function.update_eq_self_iff.mpr hfree.symm
    refine ⟨s.activeWrites, s.allInqueues, fun fd _ => Iff.rfl, ?_⟩
    simp only [removeWriters, hwriters, htorn, hnone]

/-- A process without a pipe is dead. -/
theorem Sound.setDead (h : s.Sound e todo) (hexited : s.exited proc = true)
    (howner : ∀ fd, s.filenoToInq fd ≠ some proc) :
    ({ s with dead := Function.update s.dead proc true } : Pool J P).Sound e todo := by
  have hdead : ∀ p, p ≠ proc → Function.update s.dead proc true p = s.dead p := fun p hp =>
    Function.update_of_ne hp ..
  have htrue : Function.update s.dead proc true proc = true := Function.update_self ..
  refine { h with
    exited := fun p hp => ?_
    assigned := fun j hj p hp => ?_
    inqueues := fun fd => (h.inqueues fd).congr rfl (fun p hp => ?_) (fun j hj => ?_) fun _ => id }
  · by_cases heq : p = proc
    · exact heq ▸ hexited
    · exact h.exited p ((hdead p heq).symm.trans hp)
  · by_cases heq : p = proc
    · exact .inr (heq ▸ htrue)
    · exact (h.assigned j hj p hp).imp_right (hdead p heq).trans
  · have hne : p ≠ proc := fun heq => howner fd (heq ▸ hp)
    obtain ⟨-, hpool, hnot⟩ := (h.inqueues fd).owner p hp
    exact ⟨hpool, (hdead p hne).trans hnot⟩
  · have hin := (h.inqueues fd).load j hj
    exact ⟨hin.1, hin.2.1, rfl⟩

/-- The queues of a process are replaced, so that its jobs have no place. -/
theorem Sound.replaceQueues (h : s.Sound e todo) (hproc : proc ∈ s.pool)
    (hexited : s.exited proc = true) :
    (s.replaceQueues e proc).Sound e fun j => todo j ∨ s.writeTo j = some proc := by
  have howner : ∀ p, s.filenoToInq (e.inqW proc) = some p → p = proc := fun p =>
    h.eq_of_owner hproc
  obtain ⟨active, all, hactive, heq⟩ := destroyQueues_eq howner
  have hdead : s.replaceQueues e proc =
      { s.destroyQueues e proc with dead := Function.update s.dead proc true } := by
    simp only [Pool.replaceQueues, destroyQueues, onInqueueClose]
    split_ifs <;> rfl
  rw [hdead, heq]
  refine Sound.setDead (h.update (by constructor <;> rfl) (e.inqW proc) (fun fd hne => ?_) ?_
    (fun j hj => .inr (.inr ?_)) fun _ => .inl) hexited fun fd hfd => ?_
  · simp [inqueue, hne, hactive fd hne]
  · constructor <;> simp [inqueue, Inqueue.load]
    exact .of_eq rfl (cut_nil (by decide)) (by simp) fun _ _ => rfl
  · obtain ⟨-, -, hsome, hto⟩ := (h.inqueues _).load j hj
    obtain ⟨p, hp⟩ := Option.ne_none_iff_exists'.mp hsome
    exact hto.trans (hp.trans (congrArg some (howner p hp)))
  · by_cases hne : fd = e.inqW proc
    · simp [hne] at hfd
    · dsimp only at hfd
      rw [Function.update_of_ne hne] at hfd
      exact hne ((h.inqueues fd).owner proc hfd).1.symm

/-- It does not matter when a job is put back. -/
theorem replaceQueues_putBack :
    (s.putBack job).replaceQueues e proc = (s.replaceQueues e proc).putBack job := by
  simp only [Pool.replaceQueues, destroyQueues, onInqueueClose, removeWriters, Pool.putBack]
  split_ifs <;> rfl

/-- The process that has a job has exited. -/
def Lost (s : Pool J P) (j : J) : Prop := ∃ p, s.writeTo j = some p ∧ s.exited p = true

/-- What `on_job_process_down` leaves as it is, and that the process of the job is dead. -/
structure Down (s t : Pool J P) (job : J) : Prop where
  pool : t.pool = s.pool
  exited : t.exited = s.exited
  writeTo : t.writeTo = s.writeTo
  dead : ∀ p, s.dead p = true → t.dead p = true
  lost : ∀ p, s.writeTo job = some p → s.exited p = true → t.dead p = true
  subset : t.cache ⊆ s.cache
  cache : ∀ j ∈ s.cache, j ≠ job → j ∈ t.cache

omit [DecidableEq P] in
theorem putBack_down (hlost : ∀ p, s.writeTo job = some p → s.exited p = true → s.dead p = true) :
    Down s (s.putBack job) job := by
  rw [Pool.putBack]
  split
  · exact ⟨rfl, rfl, rfl, fun _ => id, hlost, List.erase_subset,
      fun j hj hne => (List.mem_erase_of_ne hne).mpr hj⟩
  · split <;> exact ⟨rfl, rfl, rfl, fun _ => id, hlost, List.Subset.refl _, fun _ hj _ => hj⟩

omit [DecidableEq J] [DecidableEq P] in
theorem Down.trans {u : Pool J P} (h : Down s t job) (h' : Down t u job) : Down s u job where
  pool := h'.pool.trans h.pool
  exited := h'.exited.trans h.exited
  writeTo := h'.writeTo.trans h.writeTo
  dead p hp := h'.dead p (h.dead p hp)
  lost p hp hexited := h'.dead p (h.lost p hp hexited)
  subset := List.Subset.trans h'.subset h.subset
  cache j hj hne := h'.cache j (h.cache j hj hne) hne

omit [DecidableEq P] in
theorem putBack_dead : (s.putBack job).dead = s.dead := by
  rw [Pool.putBack]
  split
  · rfl
  · split <;> rfl

/-- **The process of a job exited.** -/
theorem Sound.onJobProcessDown {jobs : List J}
    (h : s.Sound e fun j => j ∈ job :: jobs ∧ s.Lost j) (hjob : job ∈ s.cache)
    (hswept : ∀ j ∈ s.cache, j ∉ job :: jobs → ∀ p, s.writeTo j = some p → s.exited p = true →
      s.dead p = true) :
    (s.onJobProcessDown e job).Sound e (fun j => j ∈ jobs ∧ s.Lost j) ∧
      Down s (s.onJobProcessDown e job) job := by
  rw [Pool.onJobProcessDown, h.scheduled]
  cases hproc : (s.writeTo job).filter s.exited with
  | none =>
    have hnot : ¬ s.Lost job := fun hlost => by
      obtain ⟨p, hp, hexited⟩ := hlost
      rw [hp, Option.filter_some, if_pos hexited] at hproc
      cases hproc
    refine ⟨h.mono fun j _ hj => ?_, ⟨rfl, rfl, rfl, fun _ => id, fun p hp hexited =>
      absurd ⟨p, hp, hexited⟩ hnot, List.Subset.refl _, fun _ hj _ => hj⟩⟩
    exact ⟨(List.mem_cons.mp hj.1).resolve_left fun heq => hnot (heq ▸ hj.2), hj.2⟩
  | some proc =>
    obtain ⟨hto, hexited⟩ := Option.filter_eq_some_iff.mp hproc
    have hproc_ : ∀ p, s.writeTo job = some p → p = proc := fun p hp =>
      Option.some.inj (hp.symm.trans hto)
    dsimp only
    rw [onPartialRead]
    by_cases hdead : s.dead proc = true
    · have hlost : ∀ p, s.writeTo job = some p → s.exited p = true → s.dead p = true :=
        fun p hp _ => hproc_ p hp ▸ hdead
      by_cases haccepted : s.accepted job = true
      · rw [if_pos haccepted, if_pos hdead]
        refine ⟨h.of_accepted fun j hj => ?_, rfl, rfl, rfl, fun _ => id, hlost,
          List.Subset.refl _, fun _ hj _ => hj⟩
        exact (List.mem_cons.mp hj.1).imp (fun heq => by rw [heq, haccepted]) fun hmem => ⟨hmem, hj.2⟩
      · have hload : ∀ fd, job ∉ s.load fd := fun fd hfd => by
          obtain ⟨-, -, howner, heq⟩ := (h.inqueues fd).load job hfd
          have hnot := ((h.inqueues fd).owner proc (heq.symm.trans hto)).2.2
          rw [hdead] at hnot
          cases hnot
        have hdown := putBack_down hlost
        rw [if_neg haccepted, if_pos (hdown.dead proc hdead)]
        refine ⟨(h.putBack hjob hload).mono fun j _ hj => ?_, hdown⟩
        exact ⟨(List.mem_cons.mp hj.1.1).resolve_left hj.2, hj.1.2⟩
    · have hpool : proc ∈ s.pool := (h.assigned job hjob proc hto).resolve_right hdead
      have htodo : ∀ j ∈ s.cache, (j ∈ job :: jobs ∧ s.Lost j) ∨ s.writeTo j = some proc →
          j ∈ job :: jobs ∧ s.Lost j := fun j hj hor => by
        refine hor.elim id fun hto' => ⟨?_, proc, hto', hexited⟩
        by_contra hmem
        exact hdead (hswept j hj hmem proc hto' hexited)
      obtain ⟨hcache, haccepted_, -, -, hpool', hexited', hdead', -, hto'⟩ :
          Alike { s with dead := Function.update s.dead proc true } (s.replaceQueues e proc) :=
        destroyQueues_alike
      have hnow : (s.replaceQueues e proc).dead proc = true := by
        rw [hdead']
        exact Function.update_self ..
      have hdown : Down s (s.replaceQueues e proc) job := by
        refine ⟨hpool', hexited', hto', fun p hp => ?_, fun p hp _ => hproc_ p hp ▸ hnow,
          fun j hj => by rwa [hcache] at hj, fun j hj _ => by rwa [hcache]⟩
        rw [hdead']
        have hne : p ≠ proc := fun heq => hdead (heq ▸ hp)
        exact (Function.update_of_ne hne ..).trans hp
      have hsound : (s.replaceQueues e proc).Sound e fun j => j ∈ job :: jobs ∧ s.Lost j :=
        (h.replaceQueues hpool hexited).mono fun j hj => htodo j (by rwa [hcache] at hj)
      by_cases haccepted : s.accepted job = true
      · rw [if_pos haccepted, if_neg hdead]
        refine ⟨hsound.of_accepted fun j hj => ?_, hdown⟩
        exact (List.mem_cons.mp hj.1).imp (fun heq => by rw [heq, haccepted_]; exact haccepted)
          fun hmem => ⟨hmem, hj.2⟩
      · have hload : ∀ fd, job ∉ (s.replaceQueues e proc).load fd := fun fd hfd => by
          obtain ⟨-, -, howner, heq⟩ := (hsound.inqueues fd).load job hfd
          rw [hto'] at heq
          have hnot := ((hsound.inqueues fd).owner proc (heq.symm.trans hto)).2.2
          rw [hnow] at hnot
          cases hnot
        rw [if_neg haccepted, putBack_dead, if_neg hdead, replaceQueues_putBack]
        refine ⟨(hsound.putBack (hcache ▸ hjob) hload).mono fun j _ hj => ?_,
          hdown.trans (putBack_down fun p hp _ => ?_)⟩
        · exact ⟨(List.mem_cons.mp hj.1.1).resolve_left hj.2, hj.1.2⟩
        · rw [hto'] at hp
          exact hproc_ p hp ▸ hnow

/-- The processes that exited and have a job are dead. -/
def Swept (s : Pool J P) : Prop :=
  ∀ j ∈ s.cache, ∀ p, s.writeTo j = some p → s.exited p = true → s.dead p = true

/-- `on_job_process_down` for all jobs. -/
theorem Sound.sweep {jobs : List J} (h : s.Sound e fun j => j ∈ jobs ∧ s.Lost j)
    (hnodup : jobs.Nodup) (hcache : ∀ j ∈ jobs, j ∈ s.cache)
    (hswept : ∀ j ∈ s.cache, j ∉ jobs → ∀ p, s.writeTo j = some p → s.exited p = true →
      s.dead p = true) :
    (jobs.foldl (Pool.onJobProcessDown e) s).Sound e (fun _ => False) ∧
      (jobs.foldl (Pool.onJobProcessDown e) s).Swept := by
  induction jobs generalizing s with
  | nil =>
    exact ⟨h.mono fun j _ hj => absurd hj.1 List.not_mem_nil,
      fun j hj => hswept j hj List.not_mem_nil⟩
  | cons job jobs ih =>
    obtain ⟨hjob, hnodup⟩ := List.nodup_cons.mp hnodup
    obtain ⟨hsound, hdown⟩ := h.onJobProcessDown (hcache job (.head _)) hswept
    have hlost : (s.onJobProcessDown e job).Lost = s.Lost := by
      funext j
      rw [Lost, Lost, hdown.writeTo, hdown.exited]
    refine ih (hlost ▸ hsound) hnodup (fun j hj => ?_) fun j hj hmem p hp hexited => ?_
    · exact hdown.cache j (hcache j (.tail _ hj)) fun heq => hjob (heq ▸ hj)
    · rw [hdown.writeTo] at hp
      rw [hdown.exited] at hexited
      by_cases heq : j = job
      · exact hdown.lost p (heq ▸ hp) hexited
      · refine hdown.dead p (hswept j (hdown.subset hj) (fun hj' => ?_) p hp hexited)
        exact (List.mem_cons.mp hj').elim heq hmem

/-- **A process is taken out of the indices.** -/
theorem Sound.onProcessDown (h : s.Sound e todo) (hproc : proc ∈ s.pool)
    (hexited : s.exited proc = true) (hswept : s.Swept) :
    (s.onProcessDown e proc).Sound e todo ∧ Alike s (s.onProcessDown e proc) ∧
      (∀ fd, (s.onProcessDown e proc).filenoToInq fd ≠ some proc) ∧
      ∀ fd p, (s.onProcessDown e proc).filenoToInq fd = some p → s.filenoToInq fd = some p := by
  rw [Pool.onProcessDown]
  split
  next hdead =>
    refine ⟨h, by constructor <;> rfl, fun fd hfd => ?_, fun _ _ => id⟩
    have hnot := ((h.inqueues fd).owner proc hfd).2.2
    rw [hdead] at hnot
    cases hnot
  next hdead =>
  have hgood := h.inqueues (e.inqW proc)
  have howner : ∀ p, s.filenoToInq (e.inqW proc) = some p → p = proc := fun p =>
    h.eq_of_owner hproc
  have hempty : s.load (e.inqW proc) = [] := by
    refine List.eq_nil_iff_forall_not_mem.mpr fun j hj => hdead ?_
    obtain ⟨hcache, -, hsome, hto⟩ := hgood.load j hj
    obtain ⟨p, hp⟩ := Option.ne_none_iff_exists'.mp hsome
    have hp' : s.filenoToInq (e.inqW proc) = some proc := hp.trans (congrArg some (howner p hp))
    exact hswept j hcache proc (hto.trans hp') hexited
  have hidle : s.writers (e.inqW proc) = none := by
    by_contra hne
    obtain ⟨w, hw⟩ := Option.ne_none_iff_exists'.mp hne
    have hmem : w.job ∈ s.load (e.inqW proc) :=
      Inqueue.mem_load_iff.mpr (.inr (.inl ⟨w, hw, rfl⟩))
    rw [hempty] at hmem
    cases hmem
  have hremove : s.removeWriters {e.inqW proc} = s :=
    removeWriters_of_idle fun fd hfd =>
      (congrArg s.writers (Finset.mem_singleton.mp hfd)).trans hidle
  have hnil : ∀ j ∈ s.load (e.inqW proc), False := fun j hj => by
    rw [hempty] at hj
    cases hj
  cases hfree : s.filenoToInq (e.inqW proc) with
  | none =>
    dsimp only
    rw [removeFromIndex, hfree]
    dsimp only
    rw [hremove]
    refine ⟨h.update (by constructor <;> rfl) (e.inqW proc) (fun fd hne => by simp [inqueue, hne])
      (hgood.of_nil hempty (by simp [inqueue]) hgood.owner) (fun j hj => (hnil j hj).elim)
      fun _ => id, by constructor <;> rfl, fun fd hfd => ?_, fun _ _ => id⟩
    have heq : e.inqW proc = fd := ((h.inqueues fd).owner proc hfd).1
    rw [heq, show s.filenoToInq fd = some proc from hfd] at hfree
    cases hfree
  | some owner =>
    obtain rfl := howner owner hfree
    dsimp only
    rw [removeFromIndex, hfree]
    dsimp only
    rw [if_pos rfl, hremove, removeWriters_of_idle]
    swap
    · exact fun fd hfd => (congrArg s.writers (Finset.mem_singleton.mp hfd)).trans hidle
    refine ⟨h.update (by constructor <;> rfl) (e.inqW owner)
      (fun fd hne => by simp [inqueue, hne])
      (hgood.of_nil hempty (by simp [inqueue]) fun p hp => ?_) (fun j hj => (hnil j hj).elim)
      fun _ => id, by constructor <;> rfl, fun fd hfd => ?_, fun fd p hp => ?_⟩
    · simp [inqueue] at hp
    · by_cases hne : fd = e.inqW owner
      · simp [hne] at hfd
      · dsimp only at hfd
        rw [Function.update_of_ne hne] at hfd
        exact hne ((h.inqueues fd).owner owner hfd).1.symm
    · by_cases hne : fd = e.inqW owner
      · simp [hne] at hp
      · dsimp only at hp
        rwa [Function.update_of_ne hne] at hp

/-- `on_process_down` for some processes that exited. -/
theorem Sound.processesDown {procs : List P} (h : s.Sound e todo)
    (hprocs : ∀ p ∈ procs, p ∈ s.pool ∧ s.exited p = true) (hswept : s.Swept) :
    (procs.foldl (Pool.onProcessDown e) s).Sound e todo ∧
      Alike s (procs.foldl (Pool.onProcessDown e) s) ∧
      (∀ p ∈ procs, ∀ fd, (procs.foldl (Pool.onProcessDown e) s).filenoToInq fd ≠ some p) ∧
      ∀ fd p, (procs.foldl (Pool.onProcessDown e) s).filenoToInq fd = some p →
        s.filenoToInq fd = some p := by
  induction procs generalizing s with
  | nil => exact ⟨h, by constructor <;> rfl, fun p hp => absurd hp List.not_mem_nil, fun _ _ => id⟩
  | cons proc procs ih =>
    obtain ⟨hproc, hexited⟩ := hprocs proc (.head _)
    obtain ⟨hsound, halike, hgone, hkept⟩ := h.onProcessDown hproc hexited hswept
    have hswept' : (s.onProcessDown e proc).Swept := by
      rw [Swept, halike.cache, halike.writeTo, halike.exited, halike.dead]
      exact hswept
    obtain ⟨hsound', halike', hgone', hkept'⟩ := ih hsound (fun p hp => by
      rw [halike.pool, halike.exited]
      exact hprocs p (.tail _ hp)) hswept'
    refine ⟨hsound', halike.trans halike', fun p hp fd hfd => ?_, fun fd p hp =>
      hkept fd p (hkept' fd p hp)⟩
    rcases List.mem_cons.mp hp with rfl | hp
    · exact hgone fd (hkept' fd p hfd)
    · exact hgone' p hp fd hfd

/-- **The processes that exited are joined.** -/
theorem Sound.joinExitedWorkers (h : s.Sound e fun _ => False) :
    (s.joinExitedWorkers e).Sound e (fun _ => False) ∧
      ∀ p ∈ (s.joinExitedWorkers e).pool, (s.joinExitedWorkers e).dead p = false := by
  obtain ⟨hsound, hswept⟩ := (h.mono fun _ _ => False.elim).sweep h.cache (fun _ => id)
    fun j hj hmem => absurd hj hmem
  rw [Pool.joinExitedWorkers]
  generalize s.cache.foldl (Pool.onJobProcessDown e) s = t at hsound hswept
  have hprocs : ∀ p ∈ t.pool.filter t.exited, p ∈ t.pool ∧ t.exited p = true := fun p hp =>
    List.mem_filter.mp hp
  obtain ⟨hdown, halike, hgone, -⟩ := hsound.processesDown hprocs hswept
  generalize (t.pool.filter t.exited).foldl (Pool.onProcessDown e) t = u at hdown halike hgone
  have hswept' : u.Swept := by
    rw [Swept, halike.cache, halike.writeTo, halike.exited, halike.dead]
    exact hswept
  have hstays : ∀ p, p ∈ u.pool → u.exited p = false → p ∈ u.pool.filter fun p => !u.exited p :=
    fun p hp hexited => List.mem_filter.mpr ⟨hp, by rw [hexited]; rfl⟩
  refine ⟨{ hdown with
    pool := hdown.pool.sublist (List.filter_sublist.map _)
    assigned := fun j hj p hp => ?_
    inqueues := fun fd => (hdown.inqueues fd).congr rfl (fun p hp => ?_) (fun j hj => ?_)
      fun _ => id }, fun p hp => ?_⟩
  · cases hexited : u.exited p with
    | false => exact (hdown.assigned j hj p hp).imp_left fun hmem => hstays p hmem hexited
    | true => exact .inr (hswept' j hj p hp hexited)
  · obtain ⟨-, hpool, hdead⟩ := (hdown.inqueues fd).owner p hp
    refine ⟨hstays p hpool (Bool.eq_false_iff.mpr fun hexited => ?_), hdead⟩
    rw [halike.pool] at hpool
    rw [halike.exited] at hexited
    exact hgone p (List.mem_filter.mpr ⟨hpool, hexited⟩) fd hp
  · have hin := (hdown.inqueues fd).load j hj
    exact ⟨hin.1, hin.2.1, rfl⟩
  · have hexited := (List.mem_filter.mp hp).2
    refine Bool.eq_false_iff.mpr fun hdead => ?_
    rw [hdown.exited p hdead] at hexited
    cases hexited

/-! ## Runs -/

/-- Processes that are in the pool are not dead. -/
def Fresh (s : Pool J P) : Prop := ∀ p ∈ s.pool, s.dead p = false

omit [DecidableEq P] in
theorem progress_fresh (h : s.Fresh) (p : Progress J P) : (s.progress fd p).Fresh := by
  have hapart : Apart s (s.progress fd p) := progress_apart fd p
  rw [Fresh, hapart.pool, hapart.dead]
  exact h

omit [DecidableEq P] in
theorem visit_fresh {sends : List Send} {stop : Bool} (h : s.Fresh)
    (hvisit : s.visit e fd sends = some (t, stop)) : t.Fresh := by
  rw [Pool.visit] at hvisit
  split_ifs at hvisit
  · exact (Prod.mk.inj (Option.some.inj hvisit)).1 ▸ h
  · exact (Prod.mk.inj (Option.some.inj hvisit)).1 ▸ h
  · split at hvisit
    · exact (Prod.mk.inj (Option.some.inj hvisit)).1 ▸ h
    · dsimp only at hvisit
      split_ifs at hvisit
      · exact (Prod.mk.inj (Option.some.inj hvisit)).1 ▸ h
      · split at hvisit
        · exact (Prod.mk.inj (Option.some.inj hvisit)).1 ▸ h
        · obtain ⟨p, -, heq⟩ := Option.map_eq_some_iff.mp hvisit
          refine (Prod.mk.inj heq).1 ▸ progress_fresh ?_ p
          exact h
  · exact (Prod.mk.inj (Option.some.inj hvisit)).1 ▸ h

omit [DecidableEq P] in
theorem scheduleWrites_fresh {ready : List (ℕ × List Send)} (h : s.Fresh)
    (hready : s.scheduleWrites e ready = some t) : t.Fresh := by
  induction ready generalizing s with
  | nil => exact Option.some.inj hready ▸ h
  | cons r ready ih =>
    obtain ⟨u, hu, hrest⟩ := Option.bind_eq_some_iff.mp hready
    have hfresh := visit_fresh h hu
    split at hrest
    · exact Option.some.inj hrest ▸ hfresh
    · exact ih hfresh hrest

/-- **One event.** -/
theorem Sound.step {event : Event J P} (h : s.Sound e fun _ => False) (hfresh : s.Fresh)
    (hstep : s.step e event = some t)
    (hwhole : event.isFlush = true → ∀ p ∈ t.pool, t.torn (e.inqW p) = []) :
    t.Sound e (fun _ => False) ∧ t.Fresh := by
  cases event with
  | sendJob job =>
    rw [Pool.step] at hstep
    split at hstep
    next hjob => exact Option.some.inj hstep ▸ ⟨h.sendJob hjob.1 hjob.2, hfresh⟩
    next => cases hstep
  | accept job => exact Option.some.inj hstep ▸ ⟨h.accept, hfresh⟩
  | terminate job =>
    refine Option.some.inj hstep ▸ ⟨{ h with inqueues := fun fd => ?_ }, hfresh⟩
    exact (h.inqueues fd).of_subset rfl (List.Subset.refl _) rfl rfl rfl rfl
  | onPollStart stale =>
    refine Option.some.inj hstep ▸ ⟨h.onPollStart, ?_⟩
    rw [Pool.onPollStart, Fresh]
    dsimp only
    split <;> exact hfresh
  | scheduleWrites ready => exact ⟨h.scheduleWrites hstep, scheduleWrites_fresh hfresh hstep⟩
  | next fd sends =>
    obtain ⟨w, hw, hnext⟩ := Option.bind_eq_some_iff.mp hstep
    obtain ⟨p, hp, rfl⟩ := Option.map_eq_some_iff.mp hnext
    exact ⟨h.progress hw hp, progress_fresh hfresh p⟩
  | onJobReady job fd =>
    rw [Pool.step] at hstep
    split at hstep
    next hjob => exact Option.some.inj hstep ▸ ⟨h.onJobReady hjob.1 hjob.2, hfresh⟩
    next => cases hstep
  | onProcessUp proc =>
    rw [Pool.step] at hstep
    split at hstep
    next hproc =>
      refine Option.some.inj hstep ▸ ⟨h.onProcessUp hproc.2.2, fun p hp => ?_⟩
      rcases List.mem_append.mp hp with hp | hp
      · exact hfresh p hp
      · obtain rfl := List.mem_singleton.mp hp
        refine Bool.eq_false_iff.mpr fun hdead => ?_
        have hexited := h.exited p hdead
        rw [hproc.2.1] at hexited
        cases hexited
    next => cases hstep
  | onProcessAlive proc =>
    rw [Pool.step] at hstep
    split at hstep
    next => cases hstep
    next =>
      refine ⟨h.onProcessAlive hfresh hstep, ?_⟩
      rw [Pool.onProcessAlive] at hstep
      split_ifs at hstep <;> exact Option.some.inj hstep ▸ hfresh
  | exit proc =>
    have hexited : ∀ p, s.exited p = true → Function.update s.exited proc true p = true :=
      fun p hp => by
        by_cases heq : p = proc
        · rw [heq, Function.update_self]
        · rwa [Function.update_of_ne heq]
    refine Option.some.inj hstep ▸ ⟨{ h with
      exited := fun p hp => hexited p (h.exited p hp)
      inqueues := fun fd => ?_ }, hfresh⟩
    exact (h.inqueues fd).of_subset rfl (List.Subset.refl _) rfl rfl rfl rfl
  | joinExitedWorkers => exact Option.some.inj hstep ▸ h.joinExitedWorkers
  | flush writes =>
    rw [Pool.step] at hstep
    split at hstep
    next hexited =>
      obtain ⟨hsound, hpool, hdead⟩ := h.flush hexited hstep (hwhole rfl)
      refine ⟨hsound, ?_⟩
      rw [Fresh, hpool, hdead]
      exact hfresh
    next => cases hstep

/-- **Every pool that is reached**, if no `flush` leaves a write broken off. -/
theorem allSound_of_run {events : List (Event J P)} (hrun : init.run e events = some s)
    (hwhole : init.whole e events = true) : s.Sound e fun _ => False := by
  have hall : ∀ (s : Pool J P), s.Sound e (fun _ => False) → s.Fresh → s.whole e events = true →
      ∀ t, s.run e events = some t → t.Sound e fun _ => False := by
    clear hrun hwhole
    induction events with
    | nil => exact fun s h _ _ t hrun => Option.some.inj hrun ▸ h
    | cons event events ih =>
      intro s h hfresh hwhole t hrun
      obtain ⟨u, hu, hrun⟩ := Option.bind_eq_some_iff.mp hrun
      rw [whole, hu, Option.all_some, Bool.and_eq_true, decide_eq_true_iff] at hwhole
      obtain ⟨hsound, hfresh⟩ := h.step hfresh hu hwhole.1
      exact ih u hsound hfresh hwhole.2 t hrun
  exact hall init sound_init (fun p hp => absurd hp List.not_mem_nil) hwhole s hrun

/-- Jobs of one byte, and processes with pipes from 5 on. -/
def one : Env ℕ ℕ := ⟨fun j => [UInt8.ofNat j], fun p => p + 5, true⟩

/-- Two processes when the consumer reconnects: one runs a job, and the other one has got a part of
one.  Then the second one gets the header of another job, and a further one waits. -/
def begun : List (Event ℕ ℕ) :=
  [.onProcessUp 0, .onProcessAlive 0, .onProcessUp 1, .onProcessAlive 1,
    .sendJob 1, .sendJob 2, .sendJob 3,
    .scheduleWrites [(5, [.sent 4, .sent 1]), (6, [.sent 3, .unavail])], .accept 1,
    .flush [(6, [.sent 1, .sent 1])], .sendJob 4, .sendJob 5,
    .scheduleWrites [(5, []), (6, [.sent 3, .sent 1, .unavail])]]

/-- The pool that is reached by then, and after some more events. -/
def after (events : List (Event ℕ ℕ)) : Pool ℕ ℕ := (init.run one events).getD init

theorem exists_joinExitedWorkers {events : List (Event J P)}
    (hrun : t.run e (events ++ [.joinExitedWorkers]) = some s) :
    ∃ u : Pool J P, u.joinExitedWorkers e = s := by
  induction events generalizing t with
  | nil => exact ⟨t, Option.some.inj hrun⟩
  | cons event events ih =>
    obtain ⟨u, -, hrun⟩ := Option.bind_eq_some_iff.mp hrun
    exact ih hrun

/-- The process exits with a part of the job in its pipe. -/
def abandoned : List (Event ℕ ℕ) := begun ++ [.exit 1]

end Pool

end AsynPool
end Celery
