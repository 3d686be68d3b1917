/-
# `celery/worker/state.py`: the registries of requests

`task_reserved`, `task_scheduled`, `task_accepted` and `task_ready` (lines
165-228) keep the mapping `requests` and the sets `scheduled_requests`,
`reserved_requests` and `active_requests`.  For a request with an ETA the
strategy (`celery/worker/strategy.py`, lines 193-210) makes the timer entry with
`call_at` and calls `task_scheduled` after that; the timer, on a thread of its
own, may get to `apply_eta_task`, and the pool to the end of the request, in
between.

`task_scheduled` does nothing for a request that is reserved or active.  It does
not know a request that is ready by then, and registers it again
(`registries_consistent_iff`).

The counts of requests and `successful_requests`, which no registry depends on,
are not modelled.
-/

import Celery.Library.Transition
import Mathlib.Data.Finset.Basic
import Mathlib.Logic.Function.Basic

namespace Celery
namespace WorkerState

open Transition
open scoped List

variable {ι κ : Type}

/-- The registries, of requests `ι` with ids in `κ`. -/
structure Registries (ι κ : Type) where
  requests : κ → Option ι
  reservedRequests : Finset ι
  activeRequests : Finset ι
  scheduledRequests : Finset ι

section

variable [DecidableEq ι] [DecidableEq κ] (id : ι → κ)

/-- `task_reserved`. -/
def taskReserved (r : Registries ι κ) (i : ι) : Registries ι κ where
  requests := Function.update r.requests (id i) (some i)
  reservedRequests := insert i r.reservedRequests
  activeRequests := r.activeRequests
  scheduledRequests := r.scheduledRequests.erase i

/-- `task_scheduled`. -/
def taskScheduled (r : Registries ι κ) (i : ι) : Registries ι κ :=
  if i ∈ r.reservedRequests ∨ i ∈ r.activeRequests then r
  else
    { r with
      requests := Function.update r.requests (id i) (some i)
      scheduledRequests := insert i r.scheduledRequests }

/-- `task_accepted`. -/
def taskAccepted (r : Registries ι κ) (i : ι) : Registries ι κ :=
  { r with
    requests := Function.update r.requests (id i) (some i)
    activeRequests := insert i r.activeRequests }

/-- `task_ready`. -/
def taskReady (r : Registries ι κ) (i : ι) : Registries ι κ where
  requests := Function.update r.requests (id i) none
  reservedRequests := r.reservedRequests.erase i
  activeRequests := r.activeRequests.erase i
  scheduledRequests := r.scheduledRequests.erase i

end

/-- `requests` has what is in one of the three sets, under its id, and nothing else. -/
def Indexed (id : ι → κ) (r : Registries ι κ) : Prop :=
  ∀ k i, r.requests k = some i ↔ k = id i ∧
    (i ∈ r.scheduledRequests ∨ i ∈ r.reservedRequests ∨ i ∈ r.activeRequests)

/-- How far the strategy is with a request. -/
inductive Strategy where
  | received
  /-- `call_at` has made the timer entry. -/
  | called
  /-- `task_scheduled` has returned. -/
  | registered
deriving DecidableEq, Repr

/-- How far the timer, and then the pool, are with a request. -/
inductive Timer where
  | waiting
  | reserved
  | accepted
  | ready
deriving DecidableEq, Repr

/-- The registries, and where each request is. -/
structure Sys (ι κ : Type) where
  registries : Registries ι κ
  strategy : ι → Strategy
  timer : ι → Timer

/-- The calls made for a request. -/
inductive Action (ι : Type) where
  | callAt (i : ι)
  | taskScheduled (i : ι)
  | taskReserved (i : ι)
  | taskAccepted (i : ι)
  | taskReady (i : ι)
deriving DecidableEq, Repr

/-- No request has been received. -/
def Sys.init : Sys ι κ where
  registries := ⟨fun _ => none, ∅, ∅, ∅⟩
  strategy _ := .received
  timer _ := .waiting

section

variable [DecidableEq ι] [DecidableEq κ] (id : ι → κ)

/-- **The calls**, each where its request has got to it: the strategy makes its two
in turn, and the other three follow each other once there is a timer entry. -/
def step (s : Sys ι κ) : Action ι → Option (Sys ι κ)
  | .callAt i =>
    if s.strategy i = .received then
      some { s with strategy := Function.update s.strategy i .called }
    else none
  | .taskScheduled i =>
    if s.strategy i = .called then
      some { s with
        registries := taskScheduled id s.registries i
        strategy := Function.update s.strategy i .registered }
    else none
  | .taskReserved i =>
    if s.strategy i ≠ .received ∧ s.timer i = .waiting then
      some { s with
        registries := taskReserved id s.registries i
        timer := Function.update s.timer i .reserved }
    else none
  | .taskAccepted i =>
    if s.timer i = .reserved then
      some { s with
        registries := taskAccepted id s.registries i
        timer := Function.update s.timer i .accepted }
    else none
  | .taskReady i =>
    if s.timer i = .accepted then
      some { s with
        registries := taskReady id s.registries i
        timer := Function.update s.timer i .ready }
    else none

/-- **Consistent registries**: a scheduled request is neither reserved nor active,
`requests` has what is in one of the three sets under its id and nothing else, and
a request that is ready is in none of them. -/
structure Consistent (s : Sys ι κ) : Prop where
  disjoint : ∀ i ∈ s.registries.scheduledRequests,
    i ∉ s.registries.reservedRequests ∧ i ∉ s.registries.activeRequests
  requests : Indexed id s.registries
  ready : ∀ i, s.timer i = .ready → s.registries.requests (id i) = none ∧
    i ∉ s.registries.scheduledRequests ∧ i ∉ s.registries.reservedRequests ∧
    i ∉ s.registries.activeRequests

end

/-- `task_scheduled` is called for a request that was ready before. -/
def Late (as : List (Action ι)) (i : ι) : Prop := [.taskReady i, .taskScheduled i] <+ as

theorem late_snoc {as : List (Action ι)} {a : Action ι} {i : ι} :
    Late (as ++ [a]) i ↔ Late as i ∨ (a = .taskScheduled i ∧ .taskReady i ∈ as) := by
  constructor
  · intro h
    obtain ⟨l₁, l₂, heq, h₁, h₂⟩ := List.sublist_append_iff.mp h
    obtain rfl | rfl := List.sublist_singleton.mp h₂
    · rw [List.append_nil] at heq
      subst heq
      exact Or.inl h₁
    · have hpair : [Action.taskReady i] ++ [.taskScheduled i] = l₁ ++ [a] := heq
      obtain ⟨rfl, ha⟩ := List.append_inj' hpair rfl
      obtain rfl : Action.taskScheduled i = a := by simpa using ha
      exact Or.inr ⟨rfl, List.singleton_sublist.mp h₁⟩
  · rintro (h | ⟨rfl, h⟩)
    · exact h.trans (List.sublist_append_left _ _)
    · exact (List.singleton_sublist.mpr h).append (List.Sublist.refl [Action.taskScheduled i])

/-- What the registries hold after the calls `as`, by where each request is. -/
structure Tracks (id : ι → κ) (as : List (Action ι)) (s : Sys ι κ) : Prop where
  received : ∀ i, s.strategy i = .received → s.timer i = .waiting
  scheduled : ∀ i, i ∈ s.registries.scheduledRequests ↔
    (s.strategy i = .registered ∧ s.timer i = .waiting) ∨ Late as i
  reserved : ∀ i, i ∈ s.registries.reservedRequests ↔
    s.timer i = .reserved ∨ s.timer i = .accepted
  active : ∀ i, i ∈ s.registries.activeRequests ↔ s.timer i = .accepted
  requests : Indexed id s.registries
  ready : ∀ i, s.timer i = .ready ↔ .taskReady i ∈ as

theorem Tracks.not_late {id : ι → κ} {as : List (Action ι)} {s : Sys ι κ} (h : Tracks id as s)
    {i : ι} (hi : s.timer i ≠ .ready) : ¬ Late as i :=
  fun hlate => hi ((h.ready i).mpr (hlate.subset (by simp)))

theorem tracks_init {id : ι → κ} : Tracks id [] (Sys.init : Sys ι κ) where
  received _ _ := rfl
  scheduled i := by simp [Sys.init, Late]
  reserved i := by simp [Sys.init]
  active i := by simp [Sys.init]
  requests k i := by simp [Sys.init]
  ready i := by simp [Sys.init]

section

variable [DecidableEq ι] [DecidableEq κ] {id : ι → κ} {s t : Sys ι κ} {a : Action ι}
  {as : List (Action ι)}

/-- What a call can do. -/
theorem step_cases (h : step id s a = some t) :
    (∃ i, a = .callAt i ∧ s.strategy i = .received ∧
      t = { s with strategy := Function.update s.strategy i .called }) ∨
    (∃ i, a = .taskScheduled i ∧ s.strategy i = .called ∧
      t = { s with
        registries := taskScheduled id s.registries i
        strategy := Function.update s.strategy i .registered }) ∨
    (∃ i, a = .taskReserved i ∧ (s.strategy i ≠ .received ∧ s.timer i = .waiting) ∧
      t = { s with
        registries := taskReserved id s.registries i
        timer := Function.update s.timer i .reserved }) ∨
    (∃ i, a = .taskAccepted i ∧ s.timer i = .reserved ∧
      t = { s with
        registries := taskAccepted id s.registries i
        timer := Function.update s.timer i .accepted }) ∨
    (∃ i, a = .taskReady i ∧ s.timer i = .accepted ∧
      t = { s with
        registries := taskReady id s.registries i
        timer := Function.update s.timer i .ready }) := by
  cases a <;> simp only [step, Option.ite_none_right_eq_some, Option.some.injEq] at h <;>
    simp only [reduceCtorEq, false_and, exists_false, false_or, or_false, Action.callAt.injEq,
      Action.taskScheduled.injEq, Action.taskReserved.injEq, Action.taskAccepted.injEq,
      Action.taskReady.injEq, exists_eq_left']
  all_goals exact ⟨h.1, h.2.symm⟩

section Indexed

variable (hid : Function.Injective id) {r : Registries ι κ} (h : Indexed id r) (i : ι)
include hid h

omit [DecidableEq ι] in
/-- A call writes the entry of its own request, and puts it into, or takes it out
of, the sets alone. -/
theorem Indexed.update {r' : Registries ι κ} {v : Option ι}
    (hrequests : r'.requests = Function.update r.requests (id i) v)
    (hothers : ∀ j, j ≠ i → ((j ∈ r'.scheduledRequests ∨ j ∈ r'.reservedRequests ∨
      j ∈ r'.activeRequests) ↔ (j ∈ r.scheduledRequests ∨ j ∈ r.reservedRequests ∨
      j ∈ r.activeRequests)))
    (hv : ∀ j, v = some j ↔ j = i ∧ (i ∈ r'.scheduledRequests ∨ i ∈ r'.reservedRequests ∨
      i ∈ r'.activeRequests)) : Indexed id r' := by
  intro k j
  rw [hrequests]
  by_cases hk : k = id i
  · subst hk
    rw [Function.update_self, hv, hid.eq_iff]
    grind
  · rw [Function.update_of_ne hk, h k j]
    grind

theorem indexed_taskReserved : Indexed id (taskReserved id r i) := by
  refine h.update hid i rfl (fun j hj => ?_) (fun j => ?_)
  · simp [taskReserved, hj]
  · simp [taskReserved, eq_comm]

theorem indexed_taskScheduled : Indexed id (taskScheduled id r i) := by
  rw [taskScheduled]
  split
  · exact h
  · refine h.update hid i rfl (fun j hj => ?_) (fun j => ?_)
    · simp [hj]
    · simp [eq_comm]

theorem indexed_taskAccepted : Indexed id (taskAccepted id r i) := by
  refine h.update hid i rfl (fun j hj => ?_) (fun j => ?_)
  · simp [taskAccepted, hj]
  · simp [taskAccepted, eq_comm]

theorem indexed_taskReady : Indexed id (taskReady id r i) := by
  refine h.update hid i rfl (fun j hj => ?_) (fun j => ?_)
  · simp [taskReady, hj]
  · simp [taskReady]

end Indexed

/-- **One call.**  Each registry follows the calls. -/
theorem tracks_step (hid : Function.Injective id) (h : Tracks id as s)
    (hstep : step id s a = some t) : Tracks id (as ++ [a]) t := by
  obtain ⟨i, rfl, hg, rfl⟩ | ⟨i, rfl, hg, rfl⟩ | ⟨i, rfl, hg, rfl⟩ | ⟨i, rfl, hg, rfl⟩ |
    ⟨i, rfl, hg, rfl⟩ := step_cases hstep
  · have hwaiting := h.received i hg
    refine ⟨fun j => ?_, fun j => ?_, h.reserved, h.active, h.requests, fun j => ?_⟩
    · grind [h.received j]
    · grind [h.scheduled j, late_snoc]
    · grind [h.ready j]
  · -- A request that is neither reserved nor active is waiting for its ETA, or ready.
    have hcases : s.timer i = .waiting ∨ s.timer i = .reserved ∨ s.timer i = .accepted ∨
        s.timer i = .ready := by cases s.timer i <;> simp
    refine ⟨fun j => ?_, fun j => ?_, fun j => ?_, fun j => ?_,
      indexed_taskScheduled hid h.requests i, fun j => ?_⟩
    · grind [h.received j]
    · grind [h.scheduled j, h.reserved i, h.active i, h.ready i, taskScheduled, late_snoc]
    · grind [h.reserved j, taskScheduled]
    · grind [h.active j, taskScheduled]
    · grind [h.ready j]
  · have hlate := h.not_late (i := i) (by simp [hg.2])
    refine ⟨fun j => ?_, fun j => ?_, fun j => ?_, fun j => ?_,
      indexed_taskReserved hid h.requests i, fun j => ?_⟩
    · grind [h.received j]
    · grind [h.scheduled j, taskReserved, late_snoc]
    · grind [h.reserved j, taskReserved]
    · grind [h.active j, taskReserved]
    · grind [h.ready j]
  · refine ⟨fun j => ?_, fun j => ?_, fun j => ?_, fun j => ?_,
      indexed_taskAccepted hid h.requests i, fun j => ?_⟩
    · grind [h.received j]
    · grind [h.scheduled j, taskAccepted, late_snoc]
    · grind [h.reserved j, taskAccepted]
    · grind [h.active j, taskAccepted]
    · grind [h.ready j]
  · have hlate := h.not_late (i := i) (by simp [hg])
    refine ⟨fun j => ?_, fun j => ?_, fun j => ?_, fun j => ?_,
      indexed_taskReady hid h.requests i, fun j => ?_⟩
    · grind [h.received j]
    · grind [h.scheduled j, taskReady, late_snoc]
    · grind [h.reserved j, taskReady]
    · grind [h.active j, taskReady]
    · grind [h.ready j]

/-- **One run.** -/
theorem tracks_run (hid : Function.Injective id)
    (h : Run (fun s a t => step id s a = some t) Sys.init as t) : Tracks id as t := by
  induction h with
  | nil => exact tracks_init
  | snoc _ hstep ih => exact tracks_step hid ih hstep

omit [DecidableEq ι] [DecidableEq κ] in
/-- The registries are consistent exactly if no `task_scheduled` was late. -/
theorem Tracks.consistent_iff (hid : Function.Injective id) (h : Tracks id as t) :
    Consistent id t ↔ ∀ i, ¬ Late as i := by
  constructor
  · intro hc i hlate
    have hready := (h.ready i).mpr (hlate.subset (by simp))
    exact (hc.ready i hready).2.1 ((h.scheduled i).mpr (Or.inr hlate))
  · intro hlate
    refine ⟨fun i hi => ?_, h.requests, fun i hi => ?_⟩
    · have hwaiting := ((h.scheduled i).mp hi).resolve_right (hlate i)
      rw [h.reserved, h.active, hwaiting.2]
      decide
    · have hnone : i ∉ t.registries.scheduledRequests ∧ i ∉ t.registries.reservedRequests ∧
          i ∉ t.registries.activeRequests := by
        rw [h.scheduled, h.reserved, h.active, hi]
        simp [hlate i]
      refine ⟨Option.eq_none_iff_forall_ne_some.mpr fun j hj => ?_, hnone⟩
      obtain ⟨hij, hmem⟩ := (h.requests _ j).mp hj
      obtain rfl := hid hij
      simp [hnone] at hmem

/-- **When the registries stay consistent.**  However the calls for the requests
interleave, the registries are consistent in every state of the run if and only if
no `task_scheduled` comes after the `task_ready` of its request. -/
theorem registries_consistent_iff (hid : Function.Injective id)
    (h : Run (fun s a t => step id s a = some t) Sys.init as t) :
    (∀ as₁ as₂ s, as = as₁ ++ as₂ → Run (fun s a t => step id s a = some t) Sys.init as₁ s →
      Consistent id s) ↔ ∀ i, ¬ Late as i := by
  constructor
  · intro hall
    exact ((tracks_run hid h).consistent_iff hid).mp (hall as [] t (List.append_nil as).symm h)
  · rintro hlate as₁ as₂ s rfl hs
    refine ((tracks_run hid hs).consistent_iff hid).mpr fun i hi => hlate i ?_
    exact hi.trans (List.sublist_append_left _ _)

end

/-- Two requests.  The ETA of the first one comes between the two calls of the strategy, and the
second one, which waits in the timer for a while, is reserved before the first one is ready. -/
def twoRequests : List (Action ℕ) :=
  [.callAt 7, .callAt 8, .taskReserved 7, .taskScheduled 8, .taskScheduled 7, .taskAccepted 7,
    .taskReserved 8, .taskReady 7, .taskAccepted 8, .taskReady 8]

theorem not_late_twoRequests (i : ℕ) : ¬ Late twoRequests i := by
  intro hlate
  have hmem : Action.taskReady i ∈ twoRequests := hlate.subset List.mem_cons_self
  simp only [twoRequests, List.mem_cons, List.not_mem_nil, reduceCtorEq, Action.taskReady.injEq,
    or_false, false_or] at hmem
  rcases hmem with rfl | rfl <;> revert hlate <;> unfold Late <;> decide

theorem registries_consistent_twoRequests :
    ∃ t : Sys ℕ ℕ, Run (fun s a t => step (fun i => i) s a = some t) Sys.init twoRequests t ∧
      ∀ as₁ as₂ s, twoRequests = as₁ ++ as₂ →
        Run (fun s a t => step (fun i : ℕ => i) s a = some t) Sys.init as₁ s →
          Consistent (fun i => i) s := by
  have hrun : Run (fun s a t => step (fun i : ℕ => i) s a = some t) Sys.init twoRequests _ :=
    .snoc (.snoc (.snoc (.snoc (.snoc (.snoc (.snoc (.snoc (.snoc (.snoc .nil rfl) rfl) rfl) rfl)
      rfl) rfl) rfl) rfl) rfl) rfl
  exact ⟨_, hrun, (registries_consistent_iff (fun _ _ h => h) hrun).mpr not_late_twoRequests⟩

/-- **A request reappears.**  Its ETA is in the past and it is ready before the
strategy calls `task_scheduled`. -/
theorem ready_request_reappears :
    ∃ t : Sys ℕ ℕ, Run (fun s a t => step (fun i => i) s a = some t) Sys.init
        [.callAt 7, .taskReserved 7, .taskAccepted 7, .taskReady 7, .taskScheduled 7] t ∧
      t.timer 7 = .ready ∧ 7 ∈ t.registries.scheduledRequests ∧
      t.registries.requests 7 = some 7 ∧ ¬ Consistent (fun i => i) t := by
  refine ⟨_, .snoc (.snoc (.snoc (.snoc (.snoc .nil rfl) rfl) rfl) rfl) rfl, rfl, by decide,
    rfl, fun h => ?_⟩
  exact (h.ready 7 rfl).2.1 (by decide)

end WorkerState
end Celery
