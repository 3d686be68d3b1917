/-
# `celery/worker/consumer/consumer.py`: rate limits, ETAs and a lost connection

A request with an ETA waits for its timer entry, and one of a rate limited task
waits in the token bucket of the task: `_limit_task`, `_limit_post_eta` and
`_schedule_bucket_request` (lines 331-365), and the branches of the strategy that
lead there (`celery/worker/strategy.py`, lines 187-216).  `on_close` (lines
531-570) runs when the connection is lost: it clears the buckets in
`task_buckets`, and cancels the timer entries of `scheduled_requests`.

The `rate_limit` command (`celery/worker/control.py`, lines 273-306) ends in
`reset_rate_limits`, which puts new buckets into `task_buckets`.  The timers, and
the timer entries of requests with an ETA, keep the old ones, and `on_close` does
not see these.  So no request of a closed connection is executed later exactly if
the buckets that have been replaced are empty at `on_close`
(`noneLater_onClose_iff`).

Prefetch counts, the order of timers and the remaining side effects of the
strategy have no part in this and are not modelled.
-/

import Celery.Worker.State
import Mathlib.Data.Finset.Basic
import Mathlib.Data.List.Nodup

namespace Celery
namespace RateLimit

open Transition
open WorkerState (Registries taskReserved taskScheduled taskAccepted taskReady)

/-- A reference to a `TokenBucket`: the task it was made for, and by which call of
`reset_rate_limits`. -/
structure Bucket (τ : Type) where
  name : τ
  generation : ℕ
deriving DecidableEq, Repr

/-- What the timer entry of a request with an ETA calls. -/
inductive EtaCallback (τ : Type) where
  | applyEtaTask
  | limitPostEta (bucket : Bucket τ) (tokens : ℕ)
deriving DecidableEq, Repr

variable {ι κ τ : Type}

/-- The consumer: whether each task has a rate limit, the buckets and what waits in
each of them, the timer entries that are pending, the registries, and which requests
have been received and handed to `on_task_request`. -/
structure Consumer (ι κ τ : Type) where
  limited : τ → Bool
  generation : ℕ
  taskBuckets : τ → Option (Bucket τ)
  contents : Bucket τ → List (ι × ℕ)
  etaTimers : ι → Option (EtaCallback τ)
  bucketTimers : List (Bucket τ)
  registries : Registries ι κ
  received : Finset ι
  handed : Finset ι

/-- The requests that wait in a bucket. -/
def Consumer.waiting (s : Consumer ι κ τ) (b : Bucket τ) : List ι := (s.contents b).map Prod.fst

/-- The loop of `_schedule_bucket_request` over what is in the bucket, with the
answers of `can_consume` in turn; no answer is a no.  What it hands over, and what it
leaves in the bucket. -/
def drain : List Bool → List (ι × ℕ) → List ι × List (ι × ℕ)
  | true :: answers, (request, _) :: rest =>
    let (out, left) := drain answers rest
    (request :: out, left)
  | _, contents => ([], contents)

/-- What can happen. -/
inductive Action (ι τ : Type) where
  /-- A message arrives, with an ETA or without. -/
  | receive (i : ι) (name : τ) (eta : Bool) (answers : List Bool)
  | etaTimer (i : ι) (answers : List Bool)
  | bucketTimer (b : Bucket τ) (answers : List Bool)
  /-- The command `rate_limit`, with a valid limit for a known task. -/
  | rateLimit (name : τ) (limited : Bool)
  | onClose
  | accepted (i : ι)
  | ready (i : ι)
deriving DecidableEq

/-- A timer calls. -/
def Action.isTimer : Action ι τ → Bool
  | .etaTimer .. => true
  | .bucketTimer .. => true
  | _ => false

section

variable [DecidableEq ι] [DecidableEq κ] [DecidableEq τ] (id : ι → κ)

/-- `_limit_move_to_pool`, and what else calls `task_reserved` and then
`on_task_request`. -/
def moveToPool (s : Consumer ι κ τ) (i : ι) : Consumer ι κ τ :=
  { s with registries := taskReserved id s.registries i, handed := insert i s.handed }

/-- `_schedule_bucket_request`. -/
def scheduleBucketRequest (s : Consumer ι κ τ) (b : Bucket τ) (answers : List Bool) :
    Consumer ι κ τ × List ι :=
  let (out, left) := drain answers (s.contents b)
  let s' := { s with
    contents := Function.update s.contents b left
    bucketTimers := if left = [] then s.bucketTimers else s.bucketTimers ++ [b] }
  (out.foldl (moveToPool id) s', out)

/-- `_limit_task`, and `_limit_post_eta` after its `decrement_eventually`. -/
def limitTask (s : Consumer ι κ τ) (i : ι) (b : Bucket τ) (tokens : ℕ) (answers : List Bool) :
    Consumer ι κ τ × List ι :=
  scheduleBucketRequest id
    { s with contents := Function.update s.contents b (s.contents b ++ [(i, tokens)]) } b answers

/-- `reset_rate_limits`. -/
def resetRateLimits (s : Consumer ι κ τ) : Consumer ι κ τ :=
  let g := s.generation + 1
  { s with
    generation := g
    taskBuckets := fun name => if s.limited name then some ⟨name, g⟩ else none
    contents := fun b => if b.generation = g then [] else s.contents b }

/-- `on_close` on the registries: what is not active is dropped. -/
def closeRegistries (r : Registries ι κ) : Registries ι κ where
  requests k :=
    if ∃ i ∈ r.reservedRequests ∪ r.scheduledRequests, i ∉ r.activeRequests ∧ id i = k then none
    else r.requests k
  reservedRequests := r.activeRequests
  activeRequests := r.activeRequests
  scheduledRequests := ∅

/-- `on_close`. -/
def onClose (s : Consumer ι κ τ) : Consumer ι κ τ :=
  { s with
    contents := fun b => if s.taskBuckets b.name = some b then [] else s.contents b
    etaTimers := fun i => if i ∈ s.registries.scheduledRequests then none else s.etaTimers i
    registries := closeRegistries id s.registries }

/-- `task_message_handler`, from where it knows the ETA. -/
def taskMessageHandler (s : Consumer ι κ τ) (i : ι) (name : τ) (eta : Bool)
    (answers : List Bool) : Consumer ι κ τ × List ι :=
  match eta, s.taskBuckets name with
  | true, some b =>
    ({ s with
      etaTimers := Function.update s.etaTimers i (some (.limitPostEta b 1))
      registries := taskScheduled id s.registries i }, [])
  | true, none =>
    ({ s with
      etaTimers := Function.update s.etaTimers i (some .applyEtaTask)
      registries := taskScheduled id s.registries i }, [])
  | false, some b => limitTask id s i b 1 answers
  | false, none => (moveToPool id s i, [i])

/-- A timer entry of a request with an ETA fires. -/
def etaCalls (s : Consumer ι κ τ) (i : ι) (answers : List Bool) :
    EtaCallback τ → Consumer ι κ τ × List ι
  | .applyEtaTask => (moveToPool id s i, [i])
  | .limitPostEta b tokens => limitTask id s i b tokens answers

/-- **One step**, and the requests it hands to `on_task_request`.  A request is
received once; the pool accepts what it was handed, and is ready with what it has
accepted. -/
def step (s : Consumer ι κ τ) : Action ι τ → Option (Consumer ι κ τ × List ι)
  | .receive i name eta answers =>
    if i ∈ s.received then none
    else
      some (taskMessageHandler id { s with received := insert i s.received } i name eta answers)
  | .etaTimer i answers =>
    match s.etaTimers i with
    | none => none
    | some callback =>
      some (etaCalls id { s with etaTimers := Function.update s.etaTimers i none } i answers
        callback)
  | .bucketTimer b answers =>
    if b ∈ s.bucketTimers then
      some (scheduleBucketRequest id { s with bucketTimers := s.bucketTimers.erase b } b answers)
    else none
  | .rateLimit name limited =>
    some (resetRateLimits { s with limited := Function.update s.limited name limited }, [])
  | .onClose => some (onClose id s, [])
  | .accepted i =>
    if i ∈ s.handed then some ({ s with registries := taskAccepted id s.registries i }, [])
    else none
  | .ready i =>
    if i ∈ s.registries.activeRequests then
      some ({ s with registries := taskReady id s.registries i }, [])
    else none

end

/-- A consumer that has just started, with a bucket for every rate limited task. -/
def Consumer.init (limited : τ → Bool) : Consumer ι κ τ where
  limited := limited
  generation := 0
  taskBuckets name := if limited name then some ⟨name, 0⟩ else none
  contents _ := []
  etaTimers _ := none
  bucketTimers := []
  registries := ⟨fun _ => none, ∅, ∅, ∅⟩
  received := ∅
  handed := ∅

/-! ## Where requests wait -/

theorem drain_spec (answers : List Bool) (contents : List (ι × ℕ)) :
    contents.map Prod.fst = (drain answers contents).1 ++ (drain answers contents).2.map Prod.fst := by
  fun_induction drain answers contents with
  | case1 answers request tokens rest out left heq ih =>
    rw [heq] at ih
    rw [List.map_cons, ih, List.cons_append]
  | case2 => rfl

/-- What handing over the requests `out` does. -/
structure Moved (s t : Consumer ι κ τ) (out : List ι) : Prop where
  contents : t.contents = s.contents
  etaTimers : t.etaTimers = s.etaTimers
  bucketTimers : t.bucketTimers = s.bucketTimers
  received : t.received = s.received
  active : t.registries.activeRequests = s.registries.activeRequests
  handed : ∀ i, i ∈ t.handed ↔ i ∈ s.handed ∨ i ∈ out
  reserved : ∀ i, i ∈ t.registries.reservedRequests ↔
    i ∈ s.registries.reservedRequests ∨ i ∈ out
  scheduled : ∀ i, i ∈ t.registries.scheduledRequests ↔
    i ∈ s.registries.scheduledRequests ∧ i ∉ out

/-- A request that was received, and waits neither for its timer entry nor in a
bucket. -/
structure Idle (s : Consumer ι κ τ) (i : ι) : Prop where
  received : i ∈ s.received
  eta : s.etaTimers i = none
  bucket : ∀ b, i ∉ s.waiting b

/-- **Where requests wait.**  A request whose timer entry is pending is registered as
scheduled and waits nowhere else; one that waits in a bucket waits there once, in no
other one, and has not been handed over. -/
structure Waits (s : Consumer ι κ τ) : Prop where
  eta : ∀ i, s.etaTimers i ≠ none → i ∈ s.received ∧ i ∉ s.handed ∧
    i ∈ s.registries.scheduledRequests ∧ ∀ b, i ∉ s.waiting b
  bucket : ∀ b i, i ∈ s.waiting b → i ∈ s.received ∧ i ∉ s.handed
  nodup : ∀ b, (s.waiting b).Nodup
  one : ∀ b b' i, i ∈ s.waiting b → i ∈ s.waiting b' → b = b'
  active : ∀ i ∈ s.registries.activeRequests, i ∈ s.handed
  reserved : ∀ i ∈ s.registries.reservedRequests, i ∈ s.handed
  handed : ∀ i ∈ s.handed, i ∈ s.received

/-- Every bucket in which a request waits, but for the buckets of `P`, has a timer. -/
def Armed (P : Bucket τ → Prop) (s : Consumer ι κ τ) : Prop :=
  ∀ b, ¬ P b → s.waiting b ≠ [] → b ∈ s.bucketTimers

theorem waits_init (limited : τ → Bool) : Waits (Consumer.init limited : Consumer ι κ τ) := by
  constructor <;> simp [Consumer.init, Consumer.waiting]

/-- Who waits in a bucket has no timer entry. -/
theorem Waits.eta_eq_none {s : Consumer ι κ τ} (h : Waits s) {b : Bucket τ} {i : ι}
    (hi : i ∈ s.waiting b) : s.etaTimers i = none := by
  by_contra hne
  exact (h.eta i hne).2.2.2 b hi

/-! ## What the operations keep -/

section

variable {s t : Consumer ι κ τ} {i : ι} {out : List ι}

/-- Requests that wait nowhere may be handed over. -/
theorem Waits.moved (h : Waits s) (hm : Moved s t out) (hout : ∀ i ∈ out, Idle s i) : Waits t := by
  have hwaiting : ∀ b, t.waiting b = s.waiting b := fun b => by
    rw [Consumer.waiting, hm.contents, Consumer.waiting]
  refine ⟨fun i hi => ?_, fun b i hi => ?_, fun b => ?_, fun b b' i hi hi' => ?_, fun i hi => ?_,
    fun i hi => ?_, fun i hi => ?_⟩
  · rw [hm.etaTimers] at hi
    obtain ⟨hrec, hhand, hsch, hbuckets⟩ := h.eta i hi
    have hnot : i ∉ out := fun hmem => hi (hout i hmem).eta
    refine ⟨hm.received ▸ hrec, ?_, (hm.scheduled i).mpr ⟨hsch, hnot⟩, fun b => ?_⟩
    · rw [hm.handed]
      exact not_or.mpr ⟨hhand, hnot⟩
    · rw [hwaiting]
      exact hbuckets b
  · rw [hwaiting] at hi
    have hnot : i ∉ out := fun hmem => (hout i hmem).bucket b hi
    rw [hm.received, hm.handed]
    exact ⟨(h.bucket b i hi).1, not_or.mpr ⟨(h.bucket b i hi).2, hnot⟩⟩
  · rw [hwaiting]
    exact h.nodup b
  · rw [hwaiting] at hi hi'
    exact h.one b b' i hi hi'
  · rw [hm.active] at hi
    exact (hm.handed i).mpr (Or.inl (h.active i hi))
  · exact (hm.handed i).mpr (((hm.reserved i).mp hi).imp_left (h.reserved i))
  · rw [hm.received]
    exact ((hm.handed i).mp hi).elim (h.handed i) fun hmem => (hout i hmem).received

theorem Idle.moved (h : Idle s i) (hm : Moved s t out) : Idle t i := by
  refine ⟨hm.received ▸ h.received, hm.etaTimers ▸ h.eta, fun b => ?_⟩
  rw [Consumer.waiting, hm.contents]
  exact h.bucket b

theorem waiting_resetRateLimits (s : Consumer ι κ τ) (b : Bucket τ) :
    (resetRateLimits s).waiting b = if b.generation = s.generation + 1 then [] else s.waiting b := by
  rw [Consumer.waiting, resetRateLimits]
  dsimp only
  split <;> rfl

/-- Buckets may be emptied, where the registries and the timer entries stay. -/
theorem Waits.clear (h : Waits s) (hwaiting : ∀ b, t.waiting b = [] ∨ t.waiting b = s.waiting b)
    (heta : ∀ i, t.etaTimers i ≠ none → s.etaTimers i ≠ none ∧
      t.registries.scheduledRequests = s.registries.scheduledRequests)
    (hrec : t.received = s.received) (hhand : t.handed = s.handed)
    (hactive : ∀ i ∈ t.registries.activeRequests, i ∈ s.handed)
    (hres : ∀ i ∈ t.registries.reservedRequests, i ∈ s.handed) : Waits t := by
  have hsub : ∀ b i, i ∈ t.waiting b → i ∈ s.waiting b := by
    intro b i hi
    obtain hnil | hsame := hwaiting b
    · rw [hnil] at hi
      cases hi
    · rwa [hsame] at hi
  refine ⟨fun i hi => ?_, fun b i hi => ?_, fun b => ?_,
    fun b b' i hi hi' => h.one b b' i (hsub b i hi) (hsub b' i hi'), hhand ▸ hactive, hhand ▸ hres,
    fun i hi => ?_⟩
  · obtain ⟨hi', hsch⟩ := heta i hi
    obtain ⟨h₁, h₂, h₃, h₄⟩ := h.eta i hi'
    exact ⟨hrec ▸ h₁, hhand ▸ h₂, hsch ▸ h₃, fun b hb => h₄ b (hsub b i hb)⟩
  · rw [hrec, hhand]
    exact h.bucket b i (hsub b i hi)
  · obtain hnil | hsame := hwaiting b
    · rw [hnil]
      exact List.nodup_nil
    · rw [hsame]
      exact h.nodup b
  · rw [hrec]
    exact h.handed i (hhand ▸ hi)

section Buckets

variable [DecidableEq τ] {b : Bucket τ}

theorem waiting_update (s : Consumer ι κ τ) (b b' : Bucket τ) (c : List (ι × ℕ))
    (timers : List (Bucket τ)) :
    Consumer.waiting { s with contents := Function.update s.contents b c, bucketTimers := timers } b'
      = if b' = b then c.map Prod.fst else s.waiting b' := by
  change (Function.update s.contents b c b').map Prod.fst = _
  rw [Function.update_apply]
  split <;> rfl

/-- A bucket may lose requests. -/
theorem Waits.shrink (h : Waits s) {out left : List ι} {c : List (ι × ℕ)}
    (hsplit : s.waiting b = out ++ left) (hc : c.map Prod.fst = left) (timers : List (Bucket τ)) :
    Waits { s with contents := Function.update s.contents b c, bucketTimers := timers } ∧
      ∀ i ∈ out, Idle { s with
        contents := Function.update s.contents b c
        bucketTimers := timers } i := by
  have hsub : ∀ b' i, i ∈ Consumer.waiting { s with
      contents := Function.update s.contents b c, bucketTimers := timers } b' →
      i ∈ s.waiting b' := by
    intro b' i hi
    rw [waiting_update] at hi
    split at hi
    next heq =>
      rw [heq, hsplit]
      exact List.mem_append_right _ (hc ▸ hi)
    next => exact hi
  refine ⟨⟨fun i hi => ?_, fun b' i hi => h.bucket b' i (hsub b' i hi), fun b' => ?_,
    fun b₁ b₂ i h₁ h₂ => h.one b₁ b₂ i (hsub b₁ i h₁) (hsub b₂ i h₂), h.active, h.reserved,
    h.handed⟩, fun i hi => ?_⟩
  · obtain ⟨hrec, hhand, hsch, hbuckets⟩ := h.eta i hi
    exact ⟨hrec, hhand, hsch, fun b' hmem => hbuckets b' (hsub b' i hmem)⟩
  · rw [waiting_update]
    split
    · rw [hc]
      exact (List.nodup_append.mp (hsplit ▸ h.nodup b)).2.1
    · exact h.nodup b'
  · have hb : i ∈ s.waiting b := hsplit ▸ List.mem_append_left _ hi
    refine ⟨(h.bucket b i hb).1, h.eta_eq_none hb, fun b' hmem => ?_⟩
    have heq : b' = b := h.one b' b i (hsub b' i hmem) hb
    rw [waiting_update, if_pos heq, hc] at hmem
    have hnodup := h.nodup b
    rw [hsplit] at hnodup
    exact List.disjoint_of_nodup_append hnodup hi hmem

end Buckets

variable [DecidableEq ι] [DecidableEq κ] [DecidableEq τ] {id : ι → κ} {b : Bucket τ}

omit [DecidableEq τ] in
theorem moved_foldl (out : List ι) (s : Consumer ι κ τ) :
    Moved s (out.foldl (moveToPool id) s) out := by
  induction out generalizing s with
  | nil => exact ⟨rfl, rfl, rfl, rfl, rfl, by simp, by simp, by simp⟩
  | cons i out ih =>
    obtain ⟨hc, he, hb, hr, ha, hh, hres, hsch⟩ := ih (moveToPool id s i)
    refine ⟨hc, he, hb, hr, ha, fun j => ?_, fun j => ?_, fun j => ?_⟩
    · rw [List.foldl_cons, hh]
      simp [moveToPool, or_left_comm, or_assoc]
    · rw [List.foldl_cons, hres]
      simp [moveToPool, taskReserved, or_left_comm, or_assoc]
    · rw [List.foldl_cons, hsch]
      simp [moveToPool, taskReserved, and_assoc, and_left_comm]

/-- What `_schedule_bucket_request` keeps. -/
theorem waits_scheduleBucketRequest (h : Waits s) (b : Bucket τ) (answers : List Bool) :
    Waits (scheduleBucketRequest id s b answers).1 := by
  have hsplit := drain_spec answers (s.contents b)
  obtain ⟨hwaits, hidle⟩ := h.shrink hsplit rfl
    (if (drain answers (s.contents b)).2 = [] then s.bucketTimers else s.bucketTimers ++ [b])
  exact hwaits.moved (moved_foldl _ _) hidle

theorem idle_scheduleBucketRequest (h : Idle s i) (b : Bucket τ) (answers : List Bool) :
    Idle (scheduleBucketRequest id s b answers).1 i ∧
      i ∉ (scheduleBucketRequest id s b answers).2 := by
  have hsplit : s.waiting b = _ := drain_spec answers (s.contents b)
  have hb := h.bucket b
  rw [hsplit, List.mem_append, not_or] at hb
  have hleft : Idle { s with
      contents := Function.update s.contents b (drain answers (s.contents b)).2
      bucketTimers := if (drain answers (s.contents b)).2 = [] then s.bucketTimers
        else s.bucketTimers ++ [b] } i := by
    refine ⟨h.received, h.eta, fun b' => ?_⟩
    rw [waiting_update]
    split
    · exact hb.2
    · exact h.bucket b'
  exact ⟨hleft.moved (moved_foldl _ _), hb.1⟩

/-- Afterwards its bucket is empty or has a timer. -/
theorem armed_scheduleBucketRequest (h : Armed (· = b) s) (answers : List Bool) :
    Armed (fun _ => False) (scheduleBucketRequest id s b answers).1 := by
  intro b' _ hne
  have hm : Moved _ (scheduleBucketRequest id s b answers).1 _ :=
    moved_foldl (drain answers (s.contents b)).1 _
  have hwaiting : (scheduleBucketRequest id s b answers).1.waiting b' =
      if b' = b then (drain answers (s.contents b)).2.map Prod.fst else s.waiting b' := by
    rw [Consumer.waiting, hm.contents]
    exact waiting_update s b b' _ []
  rw [hwaiting] at hne
  rw [hm.bucketTimers]
  dsimp only
  by_cases hb : b' = b
  · rw [if_pos hb] at hne
    rw [if_neg fun hnil => hne (by rw [hnil]; rfl), hb]
    exact List.mem_append_right _ (List.mem_singleton_self b)
  · rw [if_neg hb] at hne
    have hmem := h b' hb hne
    split
    · exact hmem
    · exact List.mem_append_left _ hmem

omit [DecidableEq ι] [DecidableEq κ] in
theorem waiting_add (s : Consumer ι κ τ) (i : ι) (b b' : Bucket τ) (tokens : ℕ) :
    Consumer.waiting { s with
      contents := Function.update s.contents b (s.contents b ++ [(i, tokens)]) } b' =
      if b' = b then s.waiting b ++ [i] else s.waiting b' := by
  refine (waiting_update s b b' _ s.bucketTimers).trans ?_
  rw [List.map_append]
  rfl

omit [DecidableEq ι] [DecidableEq κ] in
/-- A request that waits nowhere may be put into a bucket. -/
theorem Waits.add (h : Waits s) (hi : Idle s i) (hhand : i ∉ s.handed) (b : Bucket τ)
    (tokens : ℕ) :
    Waits { s with contents := Function.update s.contents b (s.contents b ++ [(i, tokens)]) } := by
  have hmem : ∀ b' j, j ∈ Consumer.waiting { s with
      contents := Function.update s.contents b (s.contents b ++ [(i, tokens)]) } b' →
      j ∈ s.waiting b' ∨ (b' = b ∧ j = i) := by
    intro b' j hj
    rw [waiting_add] at hj
    split at hj
    next hb =>
      rw [List.mem_append, List.mem_singleton] at hj
      exact hj.imp (hb ▸ ·) fun hji => ⟨hb, hji⟩
    next => exact Or.inl hj
  refine ⟨fun j hj => ?_, fun b' j hj => ?_, fun b' => ?_, fun b₁ b₂ j h₁ h₂ => ?_, h.active,
    h.reserved, h.handed⟩
  · obtain ⟨hrec, hnot, hsch, hbuckets⟩ := h.eta j hj
    refine ⟨hrec, hnot, hsch, fun b' hmem' => ?_⟩
    obtain hold | ⟨-, rfl⟩ := hmem b' j hmem'
    · exact hbuckets b' hold
    · exact hj hi.eta
  · obtain hold | ⟨-, rfl⟩ := hmem b' j hj
    · exact h.bucket b' j hold
    · exact ⟨hi.received, hhand⟩
  · rw [waiting_add]
    split
    · exact (h.nodup b).append (List.nodup_singleton i) (by simpa using hi.bucket b)
    · exact h.nodup b'
  · obtain hold₁ | ⟨rfl, rfl⟩ := hmem b₁ j h₁
    · obtain hold₂ | ⟨-, rfl⟩ := hmem b₂ j h₂
      · exact h.one b₁ b₂ j hold₁ hold₂
      · exact absurd hold₁ (hi.bucket b₁)
    · obtain hold₂ | ⟨rfl, -⟩ := hmem b₂ j h₂
      · exact absurd hold₂ (hi.bucket b₂)
      · rfl

theorem waits_limitTask (h : Waits s) (hi : Idle s i) (hhand : i ∉ s.handed) (b : Bucket τ)
    (tokens : ℕ) (answers : List Bool) : Waits (limitTask id s i b tokens answers).1 :=
  waits_scheduleBucketRequest (h.add hi hhand b tokens) b answers

theorem armed_limitTask (h : Armed (fun _ => False) s) (b : Bucket τ) (tokens : ℕ)
    (answers : List Bool) : Armed (fun _ => False) (limitTask id s i b tokens answers).1 := by
  have hadded : Armed (· = b) { s with
      contents := Function.update s.contents b (s.contents b ++ [(i, tokens)]) } := by
    intro b' hb' hne
    rw [waiting_add, if_neg hb'] at hne
    exact h b' not_false hne
  exact armed_scheduleBucketRequest hadded answers

/-- Another request than the one that is put there. -/
theorem idle_limitTask {j : ι} (h : Idle s j) (hij : j ≠ i) (b : Bucket τ) (tokens : ℕ)
    (answers : List Bool) :
    Idle (limitTask id s i b tokens answers).1 j ∧ j ∉ (limitTask id s i b tokens answers).2 := by
  have hadded : Idle { s with
      contents := Function.update s.contents b (s.contents b ++ [(i, tokens)]) } j := by
    refine ⟨h.received, h.eta, fun b' => ?_⟩
    rw [waiting_add]
    split
    · rw [List.mem_append, List.mem_singleton, not_or]
      exact ⟨h.bucket b, hij⟩
    · exact h.bucket b'
  exact idle_scheduleBucketRequest hadded b answers

/-! ## Steps and runs -/

omit [DecidableEq τ] in
/-- Moving one request to the pool. -/
theorem moved_moveToPool (s : Consumer ι κ τ) (i : ι) : Moved s (moveToPool id s i) [i] :=
  moved_foldl [i] s

theorem waits_taskMessageHandler (h : Waits s) (hi : Idle s i) (hhand : i ∉ s.handed) (name : τ)
    (eta : Bool) (answers : List Bool) :
    Waits (taskMessageHandler id s i name eta answers).1 := by
  -- A request that was just received is neither reserved nor active.
  have hscheduled : ∀ callback, Waits { s with
      etaTimers := Function.update s.etaTimers i (some callback)
      registries := taskScheduled id s.registries i } := by
    intro callback
    have hnew : ¬ (i ∈ s.registries.reservedRequests ∨ i ∈ s.registries.activeRequests) :=
      not_or.mpr ⟨fun hr => hhand (h.reserved i hr), fun ha => hhand (h.active i ha)⟩
    rw [taskScheduled, if_neg hnew]
    refine ⟨fun j hj => ?_, h.bucket, h.nodup, h.one, h.active, h.reserved, h.handed⟩
    by_cases hji : j = i
    · subst hji
      exact ⟨hi.received, hhand, Finset.mem_insert_self _ _, hi.bucket⟩
    · dsimp only at hj
      rw [Function.update_of_ne hji] at hj
      obtain ⟨hrec, hnot, hsch, hbuckets⟩ := h.eta j hj
      exact ⟨hrec, hnot, Finset.mem_insert_of_mem hsch, hbuckets⟩
  unfold taskMessageHandler
  split
  · exact hscheduled _
  · exact hscheduled _
  · exact waits_limitTask h hi hhand _ 1 answers
  · refine h.moved (moved_moveToPool s i) fun j hj => ?_
    rwa [List.mem_singleton.mp hj]

theorem armed_taskMessageHandler (h : Armed (fun _ => False) s) (i : ι) (name : τ) (eta : Bool)
    (answers : List Bool) :
    Armed (fun _ => False) (taskMessageHandler id s i name eta answers).1 := by
  unfold taskMessageHandler
  split
  · exact h
  · exact h
  · exact armed_limitTask h _ 1 answers
  · exact h

theorem idle_taskMessageHandler {j : ι} (h : Idle s j) (hji : j ≠ i) (name : τ) (eta : Bool)
    (answers : List Bool) :
    Idle (taskMessageHandler id s i name eta answers).1 j ∧
      j ∉ (taskMessageHandler id s i name eta answers).2 := by
  have hscheduled : ∀ callback, Idle { s with
      etaTimers := Function.update s.etaTimers i (some callback)
      registries := taskScheduled id s.registries i } j := by
    intro callback
    refine ⟨h.received, ?_, h.bucket⟩
    exact (Function.update_of_ne hji _ _).trans h.eta
  unfold taskMessageHandler
  split
  · exact ⟨hscheduled _, List.not_mem_nil⟩
  · exact ⟨hscheduled _, List.not_mem_nil⟩
  · exact idle_limitTask h hji _ 1 answers
  · exact ⟨h.moved (moved_moveToPool s i), fun hj => hji (List.mem_singleton.mp hj)⟩

/-- After `on_close` no timer entry of a request with an ETA is pending. -/
theorem etaTimers_onClose (h : Waits s) (i : ι) : (onClose id s).etaTimers i = none := by
  rw [onClose]
  dsimp only
  split
  · rfl
  next hnot =>
    by_contra hne
    exact hnot (h.eta i hne).2.2.1

theorem waiting_onClose (s : Consumer ι κ τ) (b : Bucket τ) :
    (onClose id s).waiting b = if s.taskBuckets b.name = some b then [] else s.waiting b := by
  rw [Consumer.waiting, onClose]
  dsimp only
  split <;> rfl

theorem waits_receive (h : Waits s) (hnew : i ∉ s.received) (name : τ) (eta : Bool)
    (answers : List Bool) :
    Waits (taskMessageHandler id { s with received := insert i s.received } i name eta
      answers).1 := by
  have hidle : Idle { s with received := insert i s.received } i := by
    refine ⟨Finset.mem_insert_self _ _, ?_, fun b hb => hnew (h.bucket b i hb).1⟩
    by_contra hne
    exact hnew (h.eta i hne).1
  refine waits_taskMessageHandler ?_ hidle (fun hi => hnew (h.handed i hi)) name eta answers
  refine ⟨fun j hj => ?_, fun b j hj => ?_, h.nodup, h.one, h.active, h.reserved,
    fun j hj => Finset.mem_insert_of_mem (h.handed j hj)⟩
  · obtain ⟨hrec, hrest⟩ := h.eta j hj
    exact ⟨Finset.mem_insert_of_mem hrec, hrest⟩
  · obtain ⟨hrec, hrest⟩ := h.bucket b j hj
    exact ⟨Finset.mem_insert_of_mem hrec, hrest⟩

theorem waits_etaCalls (h : Waits s) {callback : EtaCallback τ}
    (hi : s.etaTimers i = some callback) (answers : List Bool) :
    Waits (etaCalls id { s with etaTimers := Function.update s.etaTimers i none } i answers
      callback).1 := by
  obtain ⟨hrec, hhand, hsch, hbuckets⟩ := h.eta i (by simp [hi])
  have hidle : Idle { s with etaTimers := Function.update s.etaTimers i none } i :=
    ⟨hrec, Function.update_self .., hbuckets⟩
  have hwaits : Waits { s with etaTimers := Function.update s.etaTimers i none } := by
    refine ⟨fun j hj => ?_, h.bucket, h.nodup, h.one, h.active, h.reserved, h.handed⟩
    dsimp only at hj
    by_cases hji : j = i
    · rw [hji, Function.update_self] at hj
      exact absurd rfl hj
    · rw [Function.update_of_ne hji] at hj
      exact h.eta j hj
  cases callback with
  | applyEtaTask =>
    refine hwaits.moved (moved_moveToPool _ i) fun j hj => ?_
    rwa [List.mem_singleton.mp hj]
  | limitPostEta b tokens => exact waits_limitTask hwaits hidle hhand b tokens answers

theorem armed_etaCalls (h : Armed (fun _ => False) s) (i : ι) (answers : List Bool)
    (callback : EtaCallback τ) : Armed (fun _ => False) (etaCalls id s i answers callback).1 := by
  cases callback with
  | applyEtaTask => exact h
  | limitPostEta b tokens => exact armed_limitTask h b tokens answers

theorem idle_etaCalls {j : ι} (h : Idle s j) (hji : j ≠ i) (answers : List Bool)
    (callback : EtaCallback τ) :
    Idle (etaCalls id s i answers callback).1 j ∧ j ∉ (etaCalls id s i answers callback).2 := by
  cases callback with
  | applyEtaTask =>
    exact ⟨h.moved (moved_moveToPool s i), fun hj => hji (List.mem_singleton.mp hj)⟩
  | limitPostEta b tokens => exact idle_limitTask h hji b tokens answers

theorem waits_step {a : Action ι τ} (h : Waits s) (hstep : step id s a = some (t, out)) :
    Waits t := by
  cases a with
  | receive i name eta answers =>
    simp only [step, Option.ite_none_left_eq_some, Option.some.injEq] at hstep
    obtain ⟨hnew, heq⟩ := hstep
    have hwaits : Waits (taskMessageHandler id _ i name eta answers).1 :=
      waits_receive h hnew name eta answers
    rwa [heq] at hwaits
  | etaTimer i answers =>
    rw [step] at hstep
    split at hstep
    next => cases hstep
    next callback hi =>
      have hwaits : Waits (etaCalls id _ i answers callback).1 := waits_etaCalls h hi answers
      rwa [Option.some_inj.mp hstep] at hwaits
  | bucketTimer b answers =>
    simp only [step, Option.ite_none_right_eq_some, Option.some.injEq] at hstep
    have hwaits : Waits (scheduleBucketRequest id { s with
        bucketTimers := s.bucketTimers.erase b } b answers).1 := by
      refine waits_scheduleBucketRequest ?_ b answers
      exact ⟨h.eta, h.bucket, h.nodup, h.one, h.active, h.reserved, h.handed⟩
    rwa [hstep.2] at hwaits
  | rateLimit name limited =>
    cases hstep
    refine h.clear (fun b => ?_) (fun i hi => ⟨hi, rfl⟩) rfl rfl h.active h.reserved
    rw [waiting_resetRateLimits]
    split
    · exact Or.inl rfl
    · exact Or.inr rfl
  | onClose =>
    cases hstep
    refine h.clear (fun b => ?_) (fun i hi => ?_) rfl rfl h.active h.active
    · rw [waiting_onClose]
      split
      · exact Or.inl rfl
      · exact Or.inr rfl
    · exact absurd (etaTimers_onClose h i) hi
  | accepted i =>
    simp only [step, Option.ite_none_right_eq_some, Option.some.injEq, Prod.mk.injEq] at hstep
    obtain ⟨hi, rfl, -⟩ := hstep
    refine ⟨h.eta, h.bucket, h.nodup, h.one, fun j hj => ?_, h.reserved, h.handed⟩
    obtain rfl | hj := Finset.mem_insert.mp hj
    · exact hi
    · exact h.active j hj
  | ready i =>
    simp only [step, Option.ite_none_right_eq_some, Option.some.injEq, Prod.mk.injEq] at hstep
    obtain ⟨hi, rfl, -⟩ := hstep
    refine ⟨fun j hj => ?_, h.bucket, h.nodup, h.one, fun j hj => ?_, fun j hj => ?_, h.handed⟩
    · obtain ⟨hrec, hhand, hsch, hbuckets⟩ := h.eta j hj
      have hji : j ≠ i := fun heq => hhand (heq ▸ h.active i hi)
      exact ⟨hrec, hhand, Finset.mem_erase.mpr ⟨hji, hsch⟩, hbuckets⟩
    · exact h.active j (Finset.mem_of_mem_erase hj)
    · exact h.reserved j (Finset.mem_of_mem_erase hj)

theorem armed_step {a : Action ι τ} (h : Armed (fun _ => False) s)
    (hstep : step id s a = some (t, out)) : Armed (fun _ => False) t := by
  cases a with
  | receive i name eta answers =>
    simp only [step, Option.ite_none_left_eq_some, Option.some.injEq] at hstep
    have hreceived : Armed (fun _ => False) { s with received := insert i s.received } := h
    have harmed : Armed (fun _ => False) (taskMessageHandler id _ i name eta answers).1 :=
      armed_taskMessageHandler hreceived i name eta answers
    rwa [hstep.2] at harmed
  | etaTimer i answers =>
    rw [step] at hstep
    split at hstep
    next => cases hstep
    next callback hi =>
      have hfired : Armed (fun _ => False) { s with
        etaTimers := Function.update s.etaTimers i none } := h
      have harmed : Armed (fun _ => False) (etaCalls id _ i answers callback).1 :=
        armed_etaCalls hfired i answers callback
      rwa [Option.some_inj.mp hstep] at harmed
  | bucketTimer b answers =>
    simp only [step, Option.ite_none_right_eq_some, Option.some.injEq] at hstep
    have hfired : Armed (· = b) { s with bucketTimers := s.bucketTimers.erase b } :=
      fun b' hb' hne => (List.mem_erase_of_ne hb').mpr (h b' not_false hne)
    have harmed : Armed (fun _ => False) (scheduleBucketRequest id _ b answers).1 :=
      armed_scheduleBucketRequest hfired answers
    rwa [hstep.2] at harmed
  | rateLimit name limited =>
    cases hstep
    intro b hb hne
    rw [waiting_resetRateLimits] at hne
    exact h b hb fun hnil => hne (by split; exacts [rfl, hnil])
  | onClose =>
    cases hstep
    intro b hb hne
    rw [waiting_onClose] at hne
    exact h b hb fun hnil => hne (by split; exacts [rfl, hnil])
  | accepted i =>
    simp only [step, Option.ite_none_right_eq_some, Option.some.injEq, Prod.mk.injEq] at hstep
    obtain ⟨-, rfl, -⟩ := hstep
    exact h
  | ready i =>
    simp only [step, Option.ite_none_right_eq_some, Option.some.injEq, Prod.mk.injEq] at hstep
    obtain ⟨-, rfl, -⟩ := hstep
    exact h

/-- A request that waits nowhere stays so, and is not handed over. -/
theorem idle_step {a : Action ι τ} (h : Idle s i) (hstep : step id s a = some (t, out)) :
    Idle t i ∧ i ∉ out := by
  cases a with
  | receive j name eta answers =>
    simp only [step, Option.ite_none_left_eq_some, Option.some.injEq] at hstep
    have hji : i ≠ j := fun heq => hstep.1 (heq ▸ h.received)
    have hidle : Idle { s with received := insert j s.received } i :=
      ⟨Finset.mem_insert_of_mem h.received, h.eta, h.bucket⟩
    have hkept : Idle (taskMessageHandler id _ j name eta answers).1 i ∧
        i ∉ (taskMessageHandler id _ j name eta answers).2 :=
      idle_taskMessageHandler hidle hji name eta answers
    rwa [hstep.2] at hkept
  | etaTimer j answers =>
    rw [step] at hstep
    split at hstep
    next => cases hstep
    next callback hj =>
      have hji : i ≠ j := by
        rintro rfl
        rw [h.eta] at hj
        cases hj
      have hidle : Idle { s with etaTimers := Function.update s.etaTimers j none } i :=
        ⟨h.received, (Function.update_of_ne hji _ _).trans h.eta, h.bucket⟩
      have hkept : Idle (etaCalls id _ j answers callback).1 i ∧
          i ∉ (etaCalls id _ j answers callback).2 := idle_etaCalls hidle hji answers callback
      rwa [Option.some_inj.mp hstep] at hkept
  | bucketTimer b answers =>
    simp only [step, Option.ite_none_right_eq_some, Option.some.injEq] at hstep
    have hidle : Idle { s with bucketTimers := s.bucketTimers.erase b } i :=
      ⟨h.received, h.eta, h.bucket⟩
    have hkept : Idle (scheduleBucketRequest id _ b answers).1 i ∧
        i ∉ (scheduleBucketRequest id _ b answers).2 :=
      idle_scheduleBucketRequest hidle b answers
    rwa [hstep.2] at hkept
  | rateLimit name limited =>
    cases hstep
    refine ⟨⟨h.received, h.eta, fun b hb => ?_⟩, List.not_mem_nil⟩
    rw [waiting_resetRateLimits] at hb
    split at hb
    · cases hb
    · exact h.bucket b hb
  | onClose =>
    cases hstep
    refine ⟨⟨h.received, ?_, fun b hb => ?_⟩, List.not_mem_nil⟩
    · rw [onClose]
      dsimp only
      split
      · rfl
      · exact h.eta
    · rw [waiting_onClose] at hb
      split at hb
      · cases hb
      · exact h.bucket b hb
  | accepted j =>
    simp only [step, Option.ite_none_right_eq_some, Option.some.injEq, Prod.mk.injEq] at hstep
    obtain ⟨-, rfl, rfl⟩ := hstep
    exact ⟨⟨h.received, h.eta, h.bucket⟩, List.not_mem_nil⟩
  | ready j =>
    simp only [step, Option.ite_none_right_eq_some, Option.some.injEq, Prod.mk.injEq] at hstep
    obtain ⟨-, rfl, rfl⟩ := hstep
    exact ⟨⟨h.received, h.eta, h.bucket⟩, List.not_mem_nil⟩

/-- The actions `as` take `s` to `t`. -/
def Reaches (id : ι → κ) (s : Consumer ι κ τ) (as : List (Action ι τ)) (t : Consumer ι κ τ) :
    Prop :=
  Run (fun s a t => ∃ out, step id s a = some (t, out)) s as t

/-- **No request of a closed connection is executed later**: no timer, at any time
after `on_close` in the state `s`, hands over a request that `s` had received, unless
it was active. -/
def NoneLater (id : ι → κ) (s : Consumer ι κ τ) : Prop :=
  ∀ as t a u out, Reaches id (onClose id s) as t → a.isTimer = true →
    step id t a = some (u, out) → ∀ i ∈ out, i ∈ s.received → i ∈ s.registries.activeRequests

theorem waits_run {limited : τ → Bool} {as : List (Action ι τ)}
    (h : Reaches id (Consumer.init limited) as s) : Waits s ∧ Armed (fun _ => False) s := by
  refine Run.invariant (P := fun _ => True) (I := fun s => Waits s ∧ Armed (fun _ => False) s)
    (fun hs _ hstep => ?_) h
    ⟨waits_init limited, fun b _ hne => absurd rfl hne⟩ fun _ _ => trivial
  obtain ⟨out, hstep⟩ := hstep
  exact ⟨waits_step hs.1 hstep, armed_step hs.2 hstep⟩

theorem idle_run {as : List (Action ι τ)} (h : Idle s i) (hrun : Reaches id s as t) : Idle t i := by
  refine Run.invariant (P := fun _ => True) (I := fun s => Idle s i) (fun hs _ hstep => ?_) hrun h
    fun _ _ => trivial
  obtain ⟨out, hstep⟩ := hstep
  exact (idle_step hs hstep).1

/-- **When no request of a closed connection is executed later.**  Whatever came
before the connection was lost, and whatever comes after, no timer hands over a
request of the closed connection if and only if no request waits, when `on_close`
runs, in a bucket that `reset_rate_limits` has replaced. -/
theorem noneLater_onClose_iff {limited : τ → Bool} {as : List (Action ι τ)}
    (h : Reaches id (Consumer.init limited) as s) :
    NoneLater id s ↔ ∀ b, s.taskBuckets b.name ≠ some b → s.contents b = [] := by
  obtain ⟨hwaits, harmed⟩ := waits_run h
  constructor
  · intro hnone b hb
    by_contra hne
    obtain ⟨⟨i, tokens⟩, rest, hcons⟩ := List.exists_cons_of_ne_nil hne
    have hi : i ∈ s.waiting b := by
      rw [Consumer.waiting, hcons]
      exact List.mem_cons_self
    have hbucket : (onClose id s).contents b = (i, tokens) :: rest := (if_neg hb).trans hcons
    have htimer : b ∈ (onClose id s).bucketTimers :=
      harmed b not_false (List.ne_nil_of_mem hi)
    have hfires : step id (onClose id s) (.bucketTimer b [true]) = some _ := if_pos htimer
    have hout : i ∈ (scheduleBucketRequest id { onClose id s with
        bucketTimers := (onClose id s).bucketTimers.erase b } b [true]).2 := by
      simp only [scheduleBucketRequest, hbucket, drain]
      exact List.mem_cons_self
    obtain ⟨hrec, hhand⟩ := hwaits.bucket b i hi
    exact hhand (hwaits.active i (hnone [] _ _ _ _ .nil rfl hfires i hout hrec))
  · intro hempty as' t a u out hrun htimer hstep i hi hrec
    have hidle : Idle (onClose id s) i := by
      refine ⟨hrec, etaTimers_onClose hwaits i, fun b => ?_⟩
      rw [waiting_onClose]
      split
      · exact List.not_mem_nil
      next hb =>
        rw [Consumer.waiting, hempty b hb]
        exact List.not_mem_nil
    exact absurd hi (idle_step (idle_run hidle hrun) hstep).2

end

/-- The tasks of the examples below are rate limited; requests are their own ids. -/
abbrev Limited := Consumer ℕ ℕ String

/-- A request waits in the current bucket of its task when the connection is lost. -/
theorem noneLater_onClose_current :
    ∃ s : Limited, Reaches (fun i => i) (Consumer.init fun _ => true)
        [.receive 1 "add" false []] s ∧
      (NoneLater (fun i => i) s ↔ ∀ b, s.taskBuckets b.name ≠ some b → s.contents b = []) := by
  have hrun : Reaches (fun i => i) (Consumer.init fun _ => true : Limited)
      [.receive 1 "add" false []] _ := .snoc .nil ⟨_, rfl⟩
  exact ⟨_, hrun, noneLater_onClose_iff hrun⟩

/-- **A request of a closed connection is executed later.**  It waits in the bucket of
its task when the rate limit is changed, and is still there when the connection is
lost and its timer fires. -/
theorem executed_after_onClose :
    ∃ s : Limited, Reaches (fun i => i) (Consumer.init fun _ => true)
        [.receive 1 "add" false [], .rateLimit "add" true] s ∧
      ¬ NoneLater (fun i => i) s := by
  refine ⟨_, .snoc (.snoc .nil ⟨_, rfl⟩) ⟨_, rfl⟩, fun h => ?_⟩
  have hactive := h [] _ (.bucketTimer ⟨"add", 0⟩ [true]) _ _ .nil rfl rfl 1 (by decide) (by decide)
  exact absurd hactive (by decide)

end RateLimit
end Celery
