/-
# `celery/worker/consumer/consumer.py`: the token bucket of a task as a queue

`_limit_move_to_pool`, `_schedule_bucket_request`, `_limit_task` and `_limit_post_eta` (lines
331-365), for one bucket and any interleaving with its timers and with new tokens.

The loop of `_schedule_bucket_request` ends with an empty bucket, or with the request that it
could not serve at the head again and a new timer (`fifo_scheduleBucketRequest`).  So the
bucket is a queue in all runs, and is never left without a timer (`fifo_of_run`).  A timer that
finds tokens enough serves all of it (`Fifo.handed_fire`).

Which buckets a connection loss and the command `rate_limit` leave behind is the subject of
`Celery.Worker.RateLimit`.
-/

import Celery.Library.Transition
import Mathlib.Algebra.Order.Field.Rat

namespace Celery
namespace Limit

variable {ι : Type}

/-- A `TokenBucket`: a deque of requests with the tokens that they cost, and its own tokens. -/
structure TokenBucket (ι : Type) where
  contents : List (ι × ℚ)
  tokens : ℚ

/-- An entry that `call_after` has put into the timer, for `_schedule_bucket_request`. -/
structure Timer where
  hold : ℚ
  priority : ℕ

/-- What the consumer calls. -/
inductive Call (ι : Type) where
  | decrementEventually
  | taskReserved (request : ι)
  | onTaskRequest (request : ι)

/-- The consumer, as far as one bucket is concerned, with the calls that it has made. -/
structure Consumer (ι : Type) where
  bucket : TokenBucket ι
  timers : List Timer := []
  limitOrder : ℕ := 0
  calls : List (Call ι) := []

namespace TokenBucket

/-- `add`. -/
def add (b : TokenBucket ι) (item : ι × ℚ) : TokenBucket ι :=
  { b with contents := b.contents ++ [item] }

/-- Tokens have come in since the last look. -/
def refill (b : TokenBucket ι) (gained : ℚ) : TokenBucket ι := { b with tokens := b.tokens + gained }

/-- `can_consume` is true. -/
def canConsume (b : TokenBucket ι) (tokens : ℚ) : Bool := tokens ≤ b.tokens

/-- What `can_consume` takes when it is true. -/
def consume (b : TokenBucket ι) (tokens : ℚ) : TokenBucket ι :=
  { b with tokens := b.tokens - tokens }

/-- `expected_time`. -/
def expectedTime (b : TokenBucket ι) (fillRate tokens : ℚ) : ℚ :=
  (max tokens b.tokens - b.tokens) / fillRate

end TokenBucket

namespace Consumer

/-- `_limit_move_to_pool`. -/
def limitMoveToPool (s : Consumer ι) (request : ι) : Consumer ι :=
  { s with calls := s.calls ++ [.taskReserved request, .onTaskRequest request] }

/-- A request that cannot be served goes back to the head, and a timer is set. -/
def requeue (fillRate : ℚ) (s : Consumer ι) (item : ι × ℚ) : Consumer ι :=
  let pri := (s.limitOrder + 1) % 10
  { s with
    bucket := { s.bucket with contents := item :: s.bucket.contents }
    limitOrder := pri
    timers := s.timers ++ [⟨s.bucket.expectedTime fillRate item.2, pri⟩] }

/-- `_schedule_bucket_request`; `gains` are the tokens that have come in at each of its calls of
`can_consume`, and no more after these. -/
def scheduleBucketRequest (fillRate : ℚ) (gains : List ℚ) (s : Consumer ι) : Consumer ι :=
  match _hcontents : s.bucket.contents with
  | [] => s
  | (request, tokens) :: rest =>
    let bucket := { s.bucket with contents := rest }.refill (gains.headD 0)
    if bucket.canConsume tokens then
      scheduleBucketRequest fillRate gains.tail
        (limitMoveToPool { s with bucket := bucket.consume tokens } request)
    else requeue fillRate { s with bucket := bucket } (request, tokens)
termination_by s.bucket.contents.length
decreasing_by
  rw [_hcontents]
  exact Nat.lt_succ_self rest.length

/-- `_limit_task`. -/
def limitTask (fillRate : ℚ) (gains : List ℚ) (s : Consumer ι) (request : ι) (tokens : ℚ) :
    Consumer ι :=
  scheduleBucketRequest fillRate gains { s with bucket := s.bucket.add (request, tokens) }

/-- `_limit_post_eta`. -/
def limitPostEta (fillRate : ℚ) (gains : List ℚ) (s : Consumer ι) (request : ι) (tokens : ℚ) :
    Consumer ι :=
  limitTask fillRate gains { s with calls := s.calls ++ [.decrementEventually] } request tokens

/-- A timer fires: its entry is gone, and `_schedule_bucket_request` is called. -/
def fire (fillRate : ℚ) (gains : List ℚ) (s : Consumer ι) (i : ℕ) : Consumer ι :=
  scheduleBucketRequest fillRate gains { s with timers := s.timers.eraseIdx i }

/-- The requests that have been handed to `on_task_request`, in order. -/
def handed (s : Consumer ι) : List ι :=
  s.calls.filterMap fun
    | .onTaskRequest request => some request
    | _ => none

/-- The requests that wait in the bucket, in order. -/
def waiting (s : Consumer ι) : List ι := s.bucket.contents.map Prod.fst

end Consumer

/-- What can happen to the bucket. -/
inductive Action (ι : Type) where
  | limitTask (request : ι) (tokens : ℚ) (gains : List ℚ)
  | limitPostEta (request : ι) (tokens : ℚ) (gains : List ℚ)
  | fire (i : ℕ) (gains : List ℚ)
  | refill (gained : ℚ)

/-- The request that an action adds. -/
def Action.added : Action ι → List ι
  | limitTask request .. => [request]
  | limitPostEta request .. => [request]
  | _ => []

open Consumer in
/-- One operation; only a pending timer can fire. -/
inductive Step (fillRate : ℚ) : Consumer ι → Action ι → Consumer ι → Prop where
  | limitTask {s : Consumer ι} (request : ι) (tokens : ℚ) (gains : List ℚ) :
    Step fillRate s (.limitTask request tokens gains) (s.limitTask fillRate gains request tokens)
  | limitPostEta {s : Consumer ι} (request : ι) (tokens : ℚ) (gains : List ℚ) :
    Step fillRate s (.limitPostEta request tokens gains)
      (s.limitPostEta fillRate gains request tokens)
  | fire {s : Consumer ι} {i : ℕ} (gains : List ℚ) (pending : i < s.timers.length) :
    Step fillRate s (.fire i gains) (s.fire fillRate gains i)
  | refill {s : Consumer ι} (gained : ℚ) :
    Step fillRate s (.refill gained) { s with bucket := s.bucket.refill gained }

/-- **The bucket as a queue:** what has been added, in this order, has been handed over or
waits. -/
structure Fifo (added : List ι) (s : Consumer ι) : Prop where
  order : s.handed ++ s.waiting = added
  scheduled : s.bucket.contents ≠ [] → s.timers ≠ []

variable {fillRate : ℚ} {added : List ι} {s t : Consumer ι}

namespace Consumer

/-! ## The loop -/

theorem handed_limitMoveToPool (s : Consumer ι) (request : ι) :
    (s.limitMoveToPool request).handed = s.handed ++ [request] :=
  List.filterMap_append

/-- A request that is served moves from the head of what waits to the end of what is handed
over. -/
theorem order_limitMoveToPool {bucket : TokenBucket ι} {request : ι} {tokens : ℚ}
    {rest : List (ι × ℚ)} (hcontents : s.bucket.contents = (request, tokens) :: rest)
    (hbucket : bucket.contents = rest) :
    (limitMoveToPool { s with bucket := bucket } request).handed ++
      (limitMoveToPool { s with bucket := bucket } request).waiting = s.handed ++ s.waiting := by
  have hwaiting : s.waiting = request :: rest.map Prod.fst := by
    rw [waiting, hcontents, List.map_cons]
  have hrest : (limitMoveToPool { s with bucket := bucket } request).waiting =
      rest.map Prod.fst := congrArg (List.map Prod.fst) hbucket
  rw [handed_limitMoveToPool, hrest, hwaiting, List.append_assoc]
  rfl

/-- **`_schedule_bucket_request`** keeps the order, and leaves a timer where it leaves a
request. -/
theorem fifo_scheduleBucketRequest (fillRate : ℚ) (gains : List ℚ) (s : Consumer ι) :
    Fifo (s.handed ++ s.waiting) (scheduleBucketRequest fillRate gains s) := by
  fun_induction scheduleBucketRequest fillRate gains s with
  | case1 gains s hcontents => exact ⟨rfl, fun hne => absurd hcontents hne⟩
  | case2 gains s request tokens rest hcontents bucket hconsume ih =>
    rwa [order_limitMoveToPool hcontents rfl] at ih
  | case3 gains s request tokens rest hcontents bucket hconsume =>
    refine ⟨?_, fun _ => List.append_ne_nil_of_right_ne_nil _ (List.cons_ne_nil _ _)⟩
    have hwaiting : s.waiting = request :: rest.map Prod.fst := by
      rw [waiting, hcontents, List.map_cons]
    rw [hwaiting]
    rfl

/-- What adding a request makes of a queue. -/
theorem order_add (h : s.handed ++ s.waiting = added) (request : ι) (tokens : ℚ) :
    s.handed ++ waiting { s with bucket := s.bucket.add (request, tokens) } =
      added ++ [request] := by
  rw [waiting, TokenBucket.add, List.map_append, ← List.append_assoc, ← h]
  rfl

/-- **`_limit_task`** adds a request at the end of the queue. -/
theorem fifo_limitTask (h : s.handed ++ s.waiting = added) (gains : List ℚ) (request : ι)
    (tokens : ℚ) : Fifo (added ++ [request]) (s.limitTask fillRate gains request tokens) := by
  rw [← order_add h request tokens]
  exact fifo_scheduleBucketRequest fillRate gains
    { s with bucket := s.bucket.add (request, tokens) }

theorem handed_decrementEventually (s : Consumer ι) :
    handed { s with calls := s.calls ++ [.decrementEventually] } = s.handed :=
  List.filterMap_append.trans (List.append_nil _)

/-- **`_limit_post_eta`** adds a request at the end of the queue. -/
theorem fifo_limitPostEta (h : s.handed ++ s.waiting = added) (gains : List ℚ) (request : ι)
    (tokens : ℚ) : Fifo (added ++ [request]) (s.limitPostEta fillRate gains request tokens) := by
  refine fifo_limitTask ?_ gains request tokens
  rw [handed_decrementEventually]
  exact h

end Consumer

open Consumer

/-! ## Runs -/

/-- Every operation keeps the queue, with the request that it adds. -/
theorem Fifo.step {a : Action ι} (h : Fifo added s) (hstep : Step fillRate s a t) :
    Fifo (added ++ a.added) t := by
  cases hstep with
  | limitTask request tokens gains => exact fifo_limitTask h.order gains request tokens
  | limitPostEta request tokens gains => exact fifo_limitPostEta h.order gains request tokens
  | @fire i gains pending =>
    rw [Action.added, List.append_nil, ← h.order]
    · exact fifo_scheduleBucketRequest fillRate gains { s with timers := s.timers.eraseIdx i }
    · nofun
    · nofun
  | refill gained =>
    rw [Action.added, List.append_nil]
    · exact ⟨h.order, h.scheduled⟩
    · nofun
    · nofun

/-! ## Serving -/

/-- How many requests find tokens enough in turn, where these are the tokens that they cost. -/
def affordable : ℚ → List ℚ → List ℚ → ℕ
  | _, _, [] => 0
  | available, gains, tokens :: costs =>
    if tokens ≤ available + gains.headD 0 then
      affordable (available + gains.headD 0 - tokens) gains.tail costs + 1
    else 0

/-- With so many tokens all of the requests find enough. -/
theorem exists_affordable (costs : List ℚ) :
    ∃ enough, ∀ available ≥ enough, affordable available [] costs = costs.length := by
  induction costs with
  | nil => exact ⟨0, fun _ _ => rfl⟩
  | cons tokens costs ih =>
    obtain ⟨enough, henough⟩ := ih
    refine ⟨max tokens (enough + tokens), fun available h => ?_⟩
    have htokens : tokens ≤ available := (le_max_left _ _).trans h
    have hrest : available - tokens ≥ enough := le_sub_iff_add_le.mpr ((le_max_right _ _).trans h)
    rw [affordable, List.headD_nil, add_zero, if_pos htokens, List.tail_nil, henough _ hrest,
      List.length_cons]

/-- **`_schedule_bucket_request` serves** the requests that find tokens enough, and no other. -/
theorem handed_scheduleBucketRequest (fillRate : ℚ) (gains : List ℚ) (s : Consumer ι) :
    (scheduleBucketRequest fillRate gains s).handed =
      s.handed ++ s.waiting.take
        (affordable s.bucket.tokens gains (s.bucket.contents.map Prod.snd)) := by
  fun_induction scheduleBucketRequest fillRate gains s with
  | case1 gains s hcontents =>
    rw [waiting, hcontents, List.map_nil, List.map_nil, List.take_nil, List.append_nil]
  | case2 gains s request tokens rest hcontents bucket hconsume ih =>
    have hwaiting : s.waiting = request :: rest.map Prod.fst := by
      rw [waiting, hcontents, List.map_cons]
    have hpaid : tokens ≤ s.bucket.tokens + gains.headD 0 := of_decide_eq_true hconsume
    rw [ih, handed_limitMoveToPool, hwaiting, hcontents, List.map_cons, affordable, if_pos hpaid,
      List.take_succ_cons, List.append_assoc]
    rfl
  | case3 gains s request tokens rest hcontents bucket hconsume =>
    have hunpaid : ¬ tokens ≤ s.bucket.tokens + gains.headD 0 :=
      fun h => hconsume (decide_eq_true h)
    rw [hcontents, List.map_cons, affordable, if_neg hunpaid, List.take_zero, List.append_nil]
    rfl

/-- The requests that an action finds in the bucket, with the one that it adds. -/
def Action.offered (s : Consumer ι) : Action ι → List (ι × ℚ)
  | limitTask request tokens _ => s.bucket.contents ++ [(request, tokens)]
  | limitPostEta request tokens _ => s.bucket.contents ++ [(request, tokens)]
  | fire .. => s.bucket.contents
  | refill _ => []

/-- The tokens that come in while an action looks at the bucket. -/
def Action.gains : Action ι → List ℚ
  | limitTask _ _ gains => gains
  | limitPostEta _ _ gains => gains
  | fire _ gains => gains
  | refill _ => []

/-- **What one operation hands over:** of the requests that are there, those that find tokens
enough. -/
theorem Step.handed_eq {a : Action ι} (hstep : Step fillRate s a t) :
    t.handed = s.handed ++ ((a.offered s).map Prod.fst).take
      (affordable s.bucket.tokens a.gains ((a.offered s).map Prod.snd)) := by
  cases hstep with
  | limitTask request tokens gains => exact handed_scheduleBucketRequest fillRate gains _
  | limitPostEta request tokens gains =>
    have hhanded := handed_scheduleBucketRequest fillRate gains
      { s with
        bucket := s.bucket.add (request, tokens)
        calls := s.calls ++ [.decrementEventually] }
    refine hhanded.trans (congrArg (· ++ _) ?_)
    exact handed_decrementEventually s
  | fire gains pending => exact handed_scheduleBucketRequest fillRate gains _
  | refill gained => exact (List.append_nil _).symm

/-- A timer of a queue that finds tokens enough for all leaves nothing to hand over. -/
theorem Fifo.handed_fire (h : Fifo added s) (gains : List ℚ) (i : ℕ)
    (hgains : affordable s.bucket.tokens gains (s.bucket.contents.map Prod.snd) =
      s.bucket.contents.length) : (s.fire fillRate gains i).handed = added := by
  have hhanded := handed_scheduleBucketRequest fillRate gains
    { s with timers := s.timers.eraseIdx i }
  refine hhanded.trans ?_
  show s.handed ++ s.waiting.take
    (affordable s.bucket.tokens gains (s.bucket.contents.map Prod.snd)) = added
  rw [hgains, ← h.order, List.take_of_length_le]
  rw [waiting, List.length_map]

/-- **The bucket is a queue in every run.**  The requests that have been handed over and those
that wait are, in this order, those that have been added, and while any wait a timer is pending.
Every operation hands over those that find tokens enough, so that with enough tokens any timer
hands over all that has been added. -/
theorem fifo_of_run (fillRate tokens : ℚ) {actions : List (Action ι)}
    (hrun : Transition.Run (Step fillRate) { bucket := ⟨[], tokens⟩ } actions s) :
    Fifo (actions.flatMap Action.added) s ∧
      (∀ a t, Step fillRate s a t →
        t.handed = s.handed ++ ((a.offered s).map Prod.fst).take
          (affordable s.bucket.tokens a.gains ((a.offered s).map Prod.snd))) ∧
      ∃ enough, ∀ gained ≥ enough, ∀ i,
        (fire fillRate [] { s with bucket := s.bucket.refill gained } i).handed =
          actions.flatMap Action.added := by
  have hfifo : Fifo (actions.flatMap Action.added) s := by
    induction hrun with
    | nil => exact ⟨rfl, fun hne => absurd rfl hne⟩
    | snoc _ hstep ih =>
      rw [List.flatMap_append, List.flatMap_singleton]
      exact ih.step hstep
  refine ⟨hfifo, fun _ _ hstep => hstep.handed_eq, ?_⟩
  obtain ⟨enough, henough⟩ := exists_affordable (s.bucket.contents.map Prod.snd)
  refine ⟨enough - s.bucket.tokens, fun gained h i => ?_⟩
  have hrefill : Fifo (actions.flatMap Action.added)
      { s with bucket := s.bucket.refill gained } := ⟨hfifo.order, hfifo.scheduled⟩
  refine hrefill.handed_fire [] i ?_
  have hgained : s.bucket.tokens + gained ≥ enough := by
    rw [add_comm]
    exact sub_le_iff_le_add.mp h
  rw [← List.length_map]
  exact henough _ hgained

/-- Of three requests the first finds a token. -/
def twoWait : Consumer String :=
  limitTask 1 [] (limitPostEta 1 [] (limitTask 1 [] { bucket := ⟨[], 1⟩ } "a" 1) "b" 1) "c" 1

theorem twoWait_fifo :
    Fifo ["a", "b", "c"] twoWait ∧ ∃ enough, ∀ gained ≥ enough, ∀ i,
      (fire 1 [] { twoWait with bucket := twoWait.bucket.refill gained } i).handed =
        ["a", "b", "c"] := by
  have hrun : Transition.Run (Step 1) { bucket := ⟨[], 1⟩ }
      [.limitTask "a" 1 [], .limitPostEta "b" 1 [], .limitTask "c" 1 []] twoWait :=
    ((Transition.Run.single (.limitTask "a" 1 [])).snoc (.limitPostEta "b" 1 [])).snoc
      (.limitTask "c" 1 [])
  obtain ⟨hfifo, -, henough⟩ := fifo_of_run 1 1 hrun
  exact ⟨hfifo, henough⟩

end Limit
end Celery
