/-
# Runs of pool callbacks on one request

What the pool may do to one `Request`, as a transition system over the request
and what the pool has delivered so far, and how often the request then ends up
in the result backend.

The pool reports the result of a job once, by `on_success` or by `on_failure`,
accepts and soft-times-out as it likes, and delivers a hard time-out in two
callbacks, `on_timeout(soft=False)` and `on_failure(TimeLimitExceeded)`, in
either order (`PoolStep`).

`on_timeout` marks the request as failed and then settles its message like
`on_failure` does, which marks it too or has put the message back into the
queue.  So a request is marked at most once, and never when its message has
been requeued, in the runs whose hard time-outs all fall into a cold shutdown,
where `on_timeout` marks nothing; and every other complete hard time-out breaks
one of the two (`deliver_atMostOneMark`).
-/

import Celery.Library.Transition
import Celery.Worker.Request

namespace Celery
namespace Worker

open Transition

variable {V : Type}

namespace Request

/-- How often the request has been marked as failed. -/
def marks (r : Request V) : ℕ := r.calls.countP Call.isMarkAsFailure

/-- The message was rejected with `requeue=True`. -/
def requeued (r : Request V) : Bool := r.calls.any Call.isRequeue

/-! ### What each operation adds -/

/-- From `r` to `s` the request is marked as failed `m` times, `q` says whether
its message is requeued, the task stays the same and nothing asks for the job to
be terminated. -/
structure Adds (m : ℕ) (q : Bool) (r s : Request V) : Prop where
  task : s.task = r.task
  terminateOnAck : r.terminateOnAck = false → s.terminateOnAck = false
  marks : s.marks = r.marks + m
  requeued : s.requeued = (r.requeued || q)

namespace Adds

variable {r s t : Request V} {m n : ℕ} {q p : Bool}

theorem refl (r : Request V) : Adds 0 false r r := ⟨rfl, fun h => h, rfl, by simp⟩

theorem trans (h : Adds m q r s) (h' : Adds n p s t) : Adds (m + n) (q || p) r t where
  task := h'.task.trans h.task
  terminateOnAck := h'.terminateOnAck ∘ h.terminateOnAck
  marks := by rw [h'.marks, h.marks, Nat.add_assoc]
  requeued := by rw [h'.requeued, h.requeued, Bool.or_assoc]

/-- A step that adds nothing, before or after, changes nothing. -/
theorem before (h : Adds 0 false r s) (h' : Adds m q s t) : Adds m q r t := by
  have := h.trans h'
  rwa [Nat.zero_add, Bool.false_or] at this

theorem after (h : Adds m q r s) (h' : Adds 0 false s t) : Adds m q r t := by
  have := h.trans h'
  rwa [Nat.add_zero, Bool.or_false] at this

theorem ite {b : Prop} [Decidable b] (h : b → Adds m q r s) (h' : ¬ b → Adds m q r t) :
    Adds m q r (if b then s else t) := by
  split_ifs with hb
  · exact h hb
  · exact h' hb

end Adds

theorem adds_emit (c : Call V) (r : Request V) :
    Adds (if c.isMarkAsFailure then 1 else 0) c.isRequeue r (r.emit c) where
  task := rfl
  terminateOnAck h := h
  marks := by simp [marks, emit, List.countP_cons]
  requeued := by simp [requeued, emit]

/-- A call that neither marks nor requeues. -/
theorem adds_call (c : Call V) (r : Request V) (hm : c.isMarkAsFailure = false)
    (hq : c.isRequeue = false) : Adds 0 false r (r.emit c) := by
  have h := adds_emit c r
  rwa [hm, hq] at h

theorem adds_sendEvent (type : String) (r : Request V) : Adds 0 false r (r.sendEvent type) :=
  .ite (fun _ => adds_call _ r rfl rfl) fun _ => .refl r

theorem adds_acknowledge (r : Request V) : Adds 0 false r r.acknowledge := by
  refine .ite (fun _ => .refl r) fun _ => ?_
  have h := adds_call .onAck r rfl rfl
  exact ⟨h.task, h.terminateOnAck, h.marks, h.requeued⟩

theorem adds_reject (requeue : Bool) (r : Request V) :
    Adds 0 (requeue && !r.acknowledged) r (r.reject requeue) := by
  unfold reject
  split_ifs with hack
  · rw [hack, Bool.not_true, Bool.and_false]
    exact .refl r
  · have h := adds_emit (.onReject requeue) r
    have hack' : Adds 0 (requeue && !r.acknowledged) r
        { r.emit (.onReject requeue) with acknowledged := true } := by
      refine ⟨rfl, fun h => h, h.marks, h.requeued.trans ?_⟩
      cases requeue <;> simp [Call.isRequeue, hack]
    exact hack'.after (adds_sendEvent _ _)

theorem adds_markAsFailure (exc : Exc V) (r : Request V) : Adds 1 false r (r.markAsFailure exc) :=
  adds_emit (.markAsFailure _) r

theorem adds_announceRevoked (reason : String) (terminated expired : Bool) (r : Request V) :
    Adds 0 false r (r.announceRevoked reason terminated expired) := by
  unfold announceRevoked
  have hmark : Adds 0 false r
      (((r.emit (.taskReady false)).sendEvent "task-revoked").markAsRevoked reason) :=
    (adds_call _ r rfl rfl).before
      ((adds_sendEvent _ _).before (adds_call (.markAsRevoked _) _ rfl rfl))
  generalize ((r.emit (.taskReady false)).sendEvent "task-revoked").markAsRevoked reason = s
    at hmark
  have hack : Adds 0 false s { s.acknowledge with alreadyRevoked := true } := by
    have h := adds_acknowledge s
    exact ⟨h.task, h.terminateOnAck, h.marks, h.requeued⟩
  exact hmark.before (hack.before (adds_call (.sendRevoked terminated expired) _ rfl rfl))

/-- `terminate` of a request that was to be terminated. -/
theorem adds_terminate {r : Request V} (hterm : r.terminateOnAck = true) :
    Adds 0 false r r.terminate := by
  unfold terminate
  have hstop : Adds 0 false r
      (if r.timeStart then (r.emit .terminateJob).announceRevoked "terminated" true false
      else { r with terminateOnAck := true }) := by
    refine .ite (fun _ => ?_) fun _ => ⟨rfl, fun h => ?_, rfl, by simp [requeued]⟩
    · exact (adds_call .terminateJob r rfl rfl).before (adds_announceRevoked _ _ _ _)
    · rw [hterm] at h
      cases h
  exact hstop.before (.ite (fun _ => adds_call .terminateResult _ rfl rfl) fun _ => .refl _)

theorem adds_onAccepted (r : Request V) : Adds 0 false r r.onAccepted := by
  unfold onAccepted
  have haccepted : Adds 0 false r (({ r with timeStart := true }).emit .taskAccepted) := by
    have h := adds_call .taskAccepted { r with timeStart := true } rfl rfl
    exact ⟨h.task, h.terminateOnAck, h.marks, h.requeued⟩
  generalize Request.emit .taskAccepted { r with timeStart := true } = s at haccepted
  have hack : Adds 0 false s (if !s.task.acksLate then s.acknowledge else s) :=
    .ite (fun _ => adds_acknowledge s) fun _ => .refl s
  exact haccepted.before (hack.before ((adds_sendEvent _ _).before
    (.ite (fun hterm => adds_terminate hterm) fun _ => .refl _)))

/-- Whether a hard time-out puts the message back into the queue. -/
def requeuesTimeout (r : Request V) : Bool := r.task.acksLate && !r.task.acksOnTimeout

theorem Adds.requeuesTimeout_eq {m : ℕ} {q : Bool} {r s : Request V}
    (h : Adds m q r s) : s.requeuesTimeout = r.requeuesTimeout := by
  rw [requeuesTimeout, h.task, requeuesTimeout]

theorem adds_settleTimeout (r : Request V) :
    Adds 0 (r.requeuesTimeout && !r.acknowledged) r r.settleTimeout := by
  unfold settleTimeout requeuesTimeout
  cases r.task.acksLate
  · exact .refl r
  · cases r.task.acksOnTimeout
    · exact adds_reject true r
    · exact adds_acknowledge r

theorem adds_timeoutHooks (env : Env) (exc : Exc V) (r : Request V) :
    Adds 0 false r (r.timeoutHooks env exc).1 := by
  unfold timeoutHooks
  have hfail := adds_call (.onFailure exc) r rfl rfl
  generalize r.emit (.onFailure exc) = s at hfail
  have hret : Adds 0 false s
      (if s.task.customAfterReturn then s.emit (.afterReturn .failure exc) else s) :=
    .ite (fun _ => adds_call _ s rfl rfl) fun _ => .refl s
  dsimp only
  generalize (if s.task.customAfterReturn then s.emit (.afterReturn .failure exc) else s) = u
    at hret ⊢
  split_ifs
  · exact hfail
  · exact hfail.before hret
  · exact hfail.before
      (hret.before ((adds_call (.sendTaskFailure exc) u rfl rfl).before (adds_sendEvent _ _)))

/-- **A hard time-out in a cold shutdown** marks nothing. -/
theorem adds_onTimeout_shutdown {env : Env} (henv : env.shouldTerminate = true) (r : Request V) :
    Adds 0 (r.requeuesTimeout && !r.acknowledged) r (r.onTimeout env false) := by
  have hrun : r.onTimeout env false = (r.emit (.taskReady false)).settleTimeout := by
    simp [onTimeout, henv]
  rw [hrun]
  exact (adds_call (.taskReady false) r rfl rfl).before
    (adds_settleTimeout (r.emit (.taskReady false)))

@[simp] theorem sendEvent_acknowledged (type : String) (r : Request V) :
    (r.sendEvent type).acknowledged = r.acknowledged := by
  unfold sendEvent
  split_ifs <;> rfl

theorem timeoutHooks_acknowledged (env : Env) (exc : Exc V) (r : Request V) :
    (r.timeoutHooks env exc).1.acknowledged = r.acknowledged := by
  unfold timeoutHooks
  dsimp only
  split_ifs <;> simp [emit]

/-- **Any other hard time-out** marks the request, and settles its message unless
a hook raises. -/
theorem onTimeout_open {env : Env} (henv : env.shouldTerminate = false) (r : Request V) :
    ∃ s, Adds 1 false r s ∧ s.acknowledged = r.acknowledged ∧
      (r.onTimeout env false = s ∨ r.onTimeout env false = s.settleTimeout) := by
  have hmark := (adds_call (.taskReady false) r rfl rfl).before
    (adds_markAsFailure .timeLimitExceeded _)
  have hack : ((r.emit (.taskReady false)).markAsFailure .timeLimitExceeded).acknowledged
      = r.acknowledged := rfl
  generalize hs : (r.emit (.taskReady false)).markAsFailure .timeLimitExceeded = s at hmark hack
  refine ⟨(s.timeoutHooks env .timeLimitExceeded).1, hmark.after (adds_timeoutHooks _ _ s),
    (timeoutHooks_acknowledged _ _ s).trans hack, ?_⟩
  rw [onTimeout, if_neg Bool.false_ne_true, henv]
  simp only [Bool.false_eq_true, if_false, hs]
  rcases s.timeoutHooks env .timeLimitExceeded with ⟨u, _ | _⟩
  · exact Or.inr rfl
  · exact Or.inl rfl

theorem adds_onTimeout {env : Env} (henv : env.shouldTerminate = false) (r : Request V) :
    ∃ q, Adds 1 q r (r.onTimeout env false) := by
  obtain ⟨s, hs, -, hrun | hrun⟩ := onTimeout_open henv r
  · exact ⟨_, hrun ▸ hs⟩
  · exact ⟨_, hrun ▸ hs.trans (adds_settleTimeout s)⟩

theorem adds_settleFailure (exc : Exc V) (r : Request V) :
    Adds 0 (r.requeues exc && !r.acknowledged) r (r.settleFailure exc) := by
  unfold settleFailure
  split_ifs with hlate hreq hflag
  · rw [hreq]
    exact adds_reject true r
  · rw [Bool.eq_false_iff.2 hreq]
    exact adds_acknowledge r
  · rw [Bool.eq_false_iff.2 hreq]
    exact adds_reject false r
  · rw [requeues, Bool.eq_false_iff.2 hlate]
    exact .refl r

/-- Whether `on_failure` marks the request. -/
def marksFailure (env : Env) (exc : Exc V) (returnOk : Bool) (r : Request V) : Bool :=
  !r.requeues exc && (isWorkerLost exc || !(returnOk || env.shouldTerminate))

theorem adds_failed (env : Env) (exc : Exc V) (returnOk : Bool) (r : Request V) :
    Adds (if r.marksFailure env exc returnOk then 1 else 0) (r.requeues exc && !r.acknowledged) r
      (r.failed env exc returnOk) := by
  have hsettle := adds_settleFailure exc r
  have hmark : Adds (if r.marksFailure env exc returnOk then 1 else 0) false (r.settleFailure exc)
      (if r.marksFailure env exc returnOk then
        ((r.settleFailure exc).markAsFailure exc).emit (.sendTaskFailure exc)
      else r.settleFailure exc) := by
    split_ifs
    · exact (adds_markAsFailure exc _).after (adds_call _ _ rfl rfl)
    · exact .refl _
  have hall := hsettle.trans hmark
  rw [Nat.zero_add, Bool.or_false] at hall
  unfold failed
  exact .ite (fun _ => hall.after (adds_sendEvent _ _)) fun _ => hall

/-- **What `on_failure` can do**: mark nothing, or mark once and requeue
nothing, and the latter not for a time-out that requeues. -/
theorem onFailure_cases (env : Env) (excInfo : Exc V) (returnOk : Bool) (r : Request V) :
    (∃ q, Adds 0 q r (r.onFailure env excInfo returnOk)) ∨
      Adds 1 false r (r.onFailure env excInfo returnOk) ∧
        (isTimeout (unwrap excInfo) = true → r.requeuesTimeout = false) := by
  have hready := adds_call (.taskReady false) r rfl rfl
  have hfailed : ∀ exc : Exc V,
      (∃ q, Adds 0 q r ((r.emit (.taskReady false)).failed env exc returnOk)) ∨
      Adds 1 false r ((r.emit (.taskReady false)).failed env exc returnOk) ∧
        (isTimeout exc = true → r.requeuesTimeout = false) := by
    intro exc
    have h := hready.before (adds_failed env exc returnOk _)
    by_cases hm : (r.emit (.taskReady false)).marksFailure env exc returnOk = true
    · rw [if_pos hm] at h
      rw [marksFailure, Bool.and_eq_true, Bool.not_eq_true'] at hm
      refine Or.inr ⟨by rwa [hm.1] at h, ?_⟩
      intro htime
      cases exc with
      | timeLimitExceeded =>
        simpa [requeues, isWorkerLost, isTimeout, ackFlag, requeuesTimeout, emit] using hm.1
      | _ => cases htime
    · rw [if_neg hm] at h
      exact Or.inl ⟨_, h⟩
  unfold onFailure
  cases unwrap excInfo with
  | terminated msg =>
    refine Or.inl ⟨false, hready.before (.ite (fun _ => ?_) fun _ => .refl _)⟩
    exact adds_announceRevoked _ _ _ _
  | systemExit code =>
    dsimp only
    split_ifs
    · exact Or.inl ⟨false, hready⟩
    · exact (hfailed _).imp_right fun h => ⟨h.1, nofun⟩
  | keyboardInterrupt =>
    dsimp only
    split_ifs
    · exact Or.inl ⟨false, hready⟩
    · exact (hfailed _).imp_right fun h => ⟨h.1, nofun⟩
  | memoryError => exact Or.inl ⟨false, hready⟩
  | reject requeue =>
    cases requeue with
    | true => exact Or.inl ⟨_, hready.before (adds_reject true _)⟩
    | false =>
      refine Or.inr ⟨?_, nofun⟩
      exact hready.before (((adds_markAsFailure _ _).after
        ((adds_call (.sendTaskFailure _) _ rfl rfl).before (adds_sendEvent _ _))).after
        (adds_reject false _))
  | ignore => exact Or.inl ⟨false, hready.before (adds_acknowledge _)⟩
  | retry =>
    refine Or.inl ⟨false, hready.before (.before (.ite (fun _ => ?_) fun _ => .refl _)
      (adds_sendEvent _ _))⟩
    exact adds_acknowledge _
  | _ => exact hfailed _

/-- A hard time-out's `on_failure` in full. -/
theorem adds_onFailure_timeout (env : Env) {excInfo : Exc V}
    (hexc : isTimeout (unwrap excInfo) = true) (returnOk : Bool) (r : Request V) :
    Adds (if !r.requeuesTimeout && !(returnOk || env.shouldTerminate) then 1 else 0)
      (r.requeuesTimeout && !r.acknowledged) r (r.onFailure env excInfo returnOk) := by
  have h := (adds_call (.taskReady false) r rfl rfl).before
    (adds_failed env .timeLimitExceeded returnOk (r.emit (.taskReady false)))
  have hreq : (r.emit (.taskReady false)).requeues .timeLimitExceeded = r.requeuesTimeout := by
    simp [requeues, isWorkerLost, isTimeout, ackFlag, requeuesTimeout, emit]
  rw [marksFailure, hreq] at h
  unfold onFailure
  cases hunwrap : unwrap excInfo with
  | timeLimitExceeded => exact h
  | _ => rw [hunwrap] at hexc; cases hexc

end Request

/-! ### Runs -/

/-- The callbacks of `execute_using_pool`. -/
inductive Callback (V : Type) where
  | onAccepted
  | onTimeout (soft : Bool)
  | onSuccess (failed : Option (Exc V))
  | onFailure (excInfo : Exc V)

namespace Callback

/-- A callback with the result of the job. -/
def isResult : Callback V → Bool
  | onSuccess _ => true
  | onFailure _ => true
  | _ => false

/-- `on_failure(TimeLimitExceeded)`, the result of a job that was killed. -/
def isTimeLimitExceeded : Callback V → Bool
  | onFailure e => Request.isTimeout (unwrap e)
  | _ => false

end Callback

/-- The request after a callback. -/
def Request.deliver (env : Env) : Callback V → Request V → Request V
  | .onAccepted, r => r.onAccepted
  | .onTimeout soft, r => r.onTimeout env soft
  | .onSuccess failed, r => r.onSuccess env failed
  | .onFailure e, r => r.onFailure env e false

/-- What the pool has delivered for a job. -/
structure Pool (V : Type) where
  result : Option (Callback V) := none
  timedOut : Bool := false

/-- **What the pool may deliver next**: one result and one hard time-out, and
with a hard time-out no result but `TimeLimitExceeded`. -/
inductive PoolStep : Pool V → Callback V → Pool V → Prop where
  | accepted (p : Pool V) : PoolStep p .onAccepted p
  | softTimeout (p : Pool V) : PoolStep p (.onTimeout true) p
  | hardTimeout (p : Pool V) : p.timedOut = false →
      (∀ c, p.result = some c → c.isTimeLimitExceeded) →
      PoolStep p (.onTimeout false) { p with timedOut := true }
  | result (p : Pool V) (c : Callback V) : c.isResult → p.result = none →
      (p.timedOut = true → c.isTimeLimitExceeded) → PoolStep p c { p with result := some c }

/-- One delivery to a request, in a world of its own. -/
inductive Step : Request V × Pool V → Env × Callback V → Request V × Pool V → Prop where
  | deliver {r : Request V} {p p' : Pool V} {env : Env} {c : Callback V} :
      PoolStep p c p' → Step (r, p) (env, c) (r.deliver env c, p')

/-- At most one terminal record, and none for a requeued message. -/
def Request.AtMostOneMark (r : Request V) : Prop :=
  r.marks ≤ 1 ∧ (r.requeued = true → r.marks = 0)

/-- A hard time-out outside a cold shutdown. -/
def isOpenTimeout : Env × Callback V → Bool
  | (env, .onTimeout false) => !env.shouldTerminate
  | _ => false

/-- The `on_failure` of a hard time-out, outside a cold shutdown. -/
def isOpenTimeLimitExceeded (d : Env × Callback V) : Bool :=
  d.2.isTimeLimitExceeded && !d.1.shouldTerminate

open Request

/-- **What the result of a job can do** to its request. -/
theorem deliver_result_cases (env : Env) {c : Callback V} (hc : c.isResult) (r : Request V) :
    (∃ q, Adds 0 q r (r.deliver env c)) ∨
      Adds 1 false r (r.deliver env c) ∧ (c.isTimeLimitExceeded → r.requeuesTimeout = false) := by
  cases c with
  | onAccepted => cases hc
  | onTimeout soft => cases hc
  | onFailure e => exact onFailure_cases env e false r
  | onSuccess failed =>
    have hcall := onFailure_cases env (V := V)
    unfold deliver onSuccess
    cases failed with
    | none =>
      refine Or.inl ⟨false, (adds_call (.taskReady true) r rfl rfl).before (.before
        (.ite (fun _ => ?_) fun _ => .refl _) (adds_sendEvent _ _))⟩
      exact adds_acknowledge _
    | some exc =>
      have hfail := (hcall exc true r).imp_right fun h =>
        (⟨h.1, nofun⟩ : _ ∧ (false = true → r.requeuesTimeout = false))
      dsimp only
      cases unwrap exc with
      | systemExit code => exact Or.inl ⟨false, .refl r⟩
      | keyboardInterrupt => exact Or.inl ⟨false, .refl r⟩
      | _ => exact hfail

/-- The invariant: a marked request has its one result, which was no time-out
that requeues, and a requeued message comes from the result or from a time-out
that requeues. -/
def Invariant (r : Request V) (p : Pool V) : Prop :=
  r.marks = 0 ∧ (r.requeued = true → p.result.isSome = true ∨
      p.timedOut = true ∧ r.requeuesTimeout = true) ∨
    r.marks = 1 ∧ r.requeued = false ∧
      ∃ c, p.result = some c ∧ (c.isTimeLimitExceeded → r.requeuesTimeout = false)

namespace Invariant

variable {r r' : Request V} {p p' : Pool V} {env : Env} {c : Callback V}

theorem atMostOneMark (h : Invariant r p) : r.AtMostOneMark := by
  rcases h with ⟨hm, -⟩ | ⟨hm, hq, -⟩
  · exact ⟨by omega, fun _ => hm⟩
  · refine ⟨by omega, fun h => ?_⟩
    rw [hq] at h
    cases h

/-- Nothing marked, nothing requeued. -/
theorem of_adds (h : Invariant r p) (hadds : Adds 0 false r r') : Invariant r' p := by
  have hm := hadds.marks
  have hq := hadds.requeued
  rw [Bool.or_false] at hq
  unfold Invariant at h ⊢
  rwa [hm, hq, hadds.requeuesTimeout_eq]

theorem hardTimeout (h : Invariant r p) (hout : p.timedOut = false)
    (hres : ∀ c, p.result = some c → c.isTimeLimitExceeded)
    (hadds : Adds 0 (r.requeuesTimeout && !r.acknowledged) r r') :
    Invariant r' { p with timedOut := true } := by
  rcases h with ⟨hm, hq⟩ | ⟨hm, hq, c, hc, hR⟩
  · refine Or.inl ⟨hadds.marks.trans hm, fun hreq => ?_⟩
    rw [hadds.requeued, Bool.or_eq_true, Bool.and_eq_true] at hreq
    rcases hreq with hreq | hreq
    · exact (hq hreq).imp_right fun h => by rw [hout] at h; cases h.1
    · exact Or.inr ⟨rfl, hadds.requeuesTimeout_eq.trans hreq.1⟩
  · -- the result of a job that is now timed out was the time-out's
    have hfalse := hR (hres c hc)
    refine Or.inr ⟨hadds.marks.trans hm, ?_, c, hc,
      fun _ => hadds.requeuesTimeout_eq.trans hfalse⟩
    rw [hadds.requeued, hq, hfalse]
    rfl

theorem result (h : Invariant r p) (hnone : p.result = none) (hc : c.isResult)
    (htime : p.timedOut = true → c.isTimeLimitExceeded) :
    Invariant (r.deliver env c) { p with result := some c } := by
  rcases h with ⟨hm, hq⟩ | ⟨-, -, c', hc', -⟩
  · rcases deliver_result_cases env hc r with ⟨q, hadds⟩ | ⟨hadds, hR⟩
    · exact Or.inl ⟨hadds.marks.trans hm, fun _ => Or.inl rfl⟩
    · refine Or.inr ⟨by rw [hadds.marks, hm], ?_, c, rfl, fun hc =>
        hadds.requeuesTimeout_eq.trans (hR hc)⟩
      rw [hadds.requeued, Bool.or_false, Bool.eq_false_iff]
      intro hreq
      rcases hq hreq with hsome | ⟨hout, hlate⟩
      · rw [hnone] at hsome
        cases hsome
      · rw [hR (htime hout)] at hlate
        cases hlate
  · rw [hnone] at hc'
    cases hc'

theorem step {s t : Request V × Pool V} {d : Env × Callback V} (h : Invariant s.1 s.2)
    (hd : isOpenTimeout d = false) (hstep : Step s d t) : Invariant t.1 t.2 := by
  cases hstep with
  | deliver hpool =>
    cases hpool with
    | accepted => exact h.of_adds (adds_onAccepted _)
    | softTimeout => exact h.of_adds (.refl _)
    | hardTimeout hout hres =>
      refine h.hardTimeout hout hres (adds_onTimeout_shutdown ?_ _)
      simpa [isOpenTimeout] using hd
    | result _ hc hnone htime => exact h.result hnone hc htime

end Invariant

/-! ### A hard time-out breaks it -/

theorem deliver_adds (env : Env) (c : Callback V) (r : Request V) :
    ∃ m q, Adds m q r (r.deliver env c) := by
  cases c with
  | onAccepted => exact ⟨_, _, adds_onAccepted r⟩
  | onTimeout soft =>
    cases soft with
    | true => exact ⟨_, _, .refl r⟩
    | false =>
      cases henv : env.shouldTerminate with
      | true => exact ⟨_, _, adds_onTimeout_shutdown henv r⟩
      | false =>
        exact ⟨_, adds_onTimeout henv r⟩
  | onSuccess failed =>
    rcases deliver_result_cases env (c := .onSuccess failed) rfl r with ⟨q, h⟩ | ⟨h, -⟩
    · exact ⟨_, _, h⟩
    · exact ⟨_, _, h⟩
  | onFailure e =>
    rcases deliver_result_cases env (c := .onFailure e) rfl r with ⟨q, h⟩ | ⟨h, -⟩
    · exact ⟨_, _, h⟩
    · exact ⟨_, _, h⟩

/-- A hard time-out marks the request, and so does its `on_failure` unless that
requeues the message. -/
theorem deliver_marks_ge (env : Env) (c : Callback V) (r : Request V) :
    r.marks + (if isOpenTimeout (env, c) then 1 else 0) +
      (if isOpenTimeLimitExceeded (env, c) && !r.requeuesTimeout then 1 else 0) ≤
      (r.deliver env c).marks := by
  have hmono : r.marks ≤ (r.deliver env c).marks := by
    obtain ⟨m, q, h⟩ := deliver_adds env c r
    rw [h.marks]
    omega
  by_cases hopen : isOpenTimeout (env, c) = true
  · have hc : c = .onTimeout false ∧ env.shouldTerminate = false := by
      unfold isOpenTimeout at hopen
      split at hopen
      · rename_i heq
        obtain ⟨rfl, rfl⟩ := Prod.mk.inj heq
        exact ⟨rfl, by simpa using hopen⟩
      · cases hopen
    obtain ⟨rfl, henv⟩ := hc
    obtain ⟨q, h⟩ := adds_onTimeout henv r
    rw [if_pos hopen, if_neg (by simp [isOpenTimeLimitExceeded, Callback.isTimeLimitExceeded])]
    exact h.marks.ge
  · rw [if_neg hopen]
    split_ifs with htime
    · rw [isOpenTimeLimitExceeded, Bool.and_eq_true, Bool.and_eq_true] at htime
      obtain ⟨⟨hc, henv⟩, hreq⟩ := htime
      cases c with
      | onFailure e =>
        have h := adds_onFailure_timeout env hc false r
        rw [hreq, Bool.false_or, henv, Bool.and_self, if_pos rfl] at h
        exact h.marks.ge
      | _ => cases hc
    · exact hmono

/-- The marks of a run, of a task that is not requeued on a time-out. -/
theorem run_marks_ge {s t : Request V × Pool V} {ds : List (Env × Callback V)}
    (hrun : Run Step s ds t) :
    t.1.task = s.1.task ∧ s.1.marks + ds.countP isOpenTimeout +
      (if s.1.requeuesTimeout then 0 else ds.countP isOpenTimeLimitExceeded) ≤ t.1.marks := by
  induction hrun with
  | nil => exact ⟨rfl, by simp⟩
  | snoc _ hlast ih =>
    cases hlast with
    | @deliver r _ _ env c _ =>
      obtain ⟨htask, hmarks⟩ := ih
      change r.task = s.1.task at htask
      obtain ⟨m, q, hadds⟩ := deliver_adds env c r
      refine ⟨hadds.task.trans htask, ?_⟩
      have hstep := deliver_marks_ge env c r
      have hR : r.requeuesTimeout = s.1.requeuesTimeout := by
        simp only [requeuesTimeout, htask]
      rw [hR] at hstep
      simp only [List.countP_append, List.countP_singleton]
      cases hs : s.1.requeuesTimeout <;> simp [hs] at hstep hmarks ⊢ <;> omega

/-- The message is still with the worker, or back in the queue. -/
def Request.Held (r : Request V) : Prop := r.acknowledged = false ∨ r.requeued = true

theorem Request.Held.requeued_of_adds {r s : Request V} {m : ℕ} (h : r.Held)
    (hR : r.requeuesTimeout = true)
    (hadds : Adds m (r.requeuesTimeout && !r.acknowledged) r s) : s.requeued = true := by
  rw [hadds.requeued, hR]
  rcases h with h | h <;> simp [h]

/-- A task that is requeued on a time-out does not lose its message to one, even
where a hook raises before it is settled. -/
theorem Request.Held.onTimeout {r : Request V} (h : r.Held) (hR : r.requeuesTimeout = true)
    (env : Env) : (r.onTimeout env false).Held := by
  cases henv : env.shouldTerminate with
  | true => exact Or.inr (h.requeued_of_adds hR (adds_onTimeout_shutdown henv r))
  | false =>
    obtain ⟨s, hs, hack, hrun⟩ := onTimeout_open henv r
    have hheld : s.Held := by
      refine h.imp hack.trans fun hreq => ?_
      rw [hs.requeued, hreq]
      rfl
    rcases hrun with hrun | hrun
    · rw [hrun]
      exact hheld
    · rw [hrun]
      exact Or.inr (hheld.requeued_of_adds (hs.requeuesTimeout_eq.trans hR)
        (adds_settleTimeout s))

theorem Request.Held.onAccepted {r : Request V} (h : r.Held) (hlate : r.task.acksLate = true)
    (hterm : r.terminateOnAck = false) : r.onAccepted.Held := by
  have hadds := adds_onAccepted r
  rw [Held, hadds.requeued, Bool.or_false]
  refine h.imp_left fun hack => ?_
  have hrun : r.onAccepted
      = (({ r with timeStart := true }).emit .taskAccepted).sendEvent "task-started" := by
    have hlate' : (({ r with timeStart := true }).emit .taskAccepted).task.acksLate = true := hlate
    unfold Request.onAccepted
    dsimp only
    rw [hlate', Bool.not_true, if_neg Bool.false_ne_true, if_neg]
    exact Bool.eq_false_iff.1 ((adds_sendEvent _ _).terminateOnAck hterm)
  rw [hrun, sendEvent_acknowledged]
  exact hack

/-- While the only result there can be is the time-out's, a task that is requeued
on a time-out has its message held, and back in the queue once there is that
result. -/
def TimeoutInvariant (r : Request V) (p : Pool V) : Prop :=
  r.terminateOnAck = false ∧ r.requeuesTimeout = true ∧
    ((∀ c, p.result = some c → c.isTimeLimitExceeded = true) →
      r.Held ∧ (p.result.isSome = true → r.requeued = true))

theorem TimeoutInvariant.step {s t : Request V × Pool V} {d : Env × Callback V}
    (h : TimeoutInvariant s.1 s.2) (hstep : Step s d t) : TimeoutInvariant t.1 t.2 := by
  cases hstep with
  | @deliver r p p' env c hpool =>
    obtain ⟨hterm, hR, hheld⟩ := h
    obtain ⟨m, q, hadds⟩ := deliver_adds env c r
    refine ⟨hadds.terminateOnAck hterm, hadds.requeuesTimeout_eq.trans hR, ?_⟩
    have hmono : r.requeued = true → (r.deliver env c).requeued = true := by
      intro hreq
      rw [hadds.requeued, hreq]
      rfl
    cases hpool with
    | accepted =>
      intro hres
      obtain ⟨hr, hq⟩ := hheld hres
      refine ⟨hr.onAccepted ?_ hterm, hmono ∘ hq⟩
      rw [requeuesTimeout, Bool.and_eq_true] at hR
      exact hR.1
    | softTimeout => exact hheld
    | hardTimeout hout hres =>
      intro _
      obtain ⟨hr, hq⟩ := hheld hres
      exact ⟨hr.onTimeout hR env, hmono ∘ hq⟩
    | result _ hc hnone htime =>
      intro hres
      obtain ⟨hr, -⟩ := hheld fun c' hc' => by rw [hnone] at hc'; cases hc'
      have hreq : (r.deliver env c).requeued = true := by
        cases c with
        | onFailure e => exact hr.requeued_of_adds hR (adds_onFailure_timeout _ (hres _ rfl) false r)
        | _ => cases hres _ rfl
      exact ⟨Or.inr hreq, fun _ => hreq⟩

/-- A result, once delivered, stays the result. -/
theorem run_result {s t : Request V × Pool V} {ds : List (Env × Callback V)}
    (hrun : Run Step s ds t) :
    ∀ d ∈ ds, d.2.isResult = true → t.2.result = some d.2 := by
  induction hrun with
  | nil => simp
  | snoc _ hlast ih =>
    cases hlast with
    | @deliver r p p' env c hpool =>
      intro d hd hc
      rw [List.mem_append, List.mem_singleton] at hd
      cases hpool with
      | accepted =>
        rcases hd with hd | rfl
        · exact ih d hd hc
        · cases hc
      | softTimeout =>
        rcases hd with hd | rfl
        · exact ih d hd hc
        · cases hc
      | hardTimeout =>
        rcases hd with hd | rfl
        · exact ih d hd hc
        · cases hc
      | result _ hres hnone =>
        rcases hd with hd | rfl
        · have := ih d hd hc
          rw [hnone] at this
          cases this
        · rfl

/-- **A complete hard time-out outside a cold shutdown** marks the request twice,
or marks it and requeues its message. -/
theorem not_atMostOneMark_of_timeout {r : Request V} {t : Request V × Pool V}
    {ds : List (Env × Callback V)} (hrun : Run Step (r, {}) ds t)
    (hack : r.acknowledged = false) (hterm : r.terminateOnAck = false)
    {d e : Env × Callback V} (hd : d ∈ ds) (hopen : isOpenTimeout d = true)
    (he : e ∈ ds) (htime : isOpenTimeLimitExceeded e = true) : ¬ t.1.AtMostOneMark := by
  intro hsafe
  have hone : 0 < ds.countP isOpenTimeout := List.countP_pos_iff.2 ⟨d, hd, hopen⟩
  have hmarks := (run_marks_ge hrun).2
  cases hR : r.requeuesTimeout with
  | false =>
    have htwo : 0 < ds.countP isOpenTimeLimitExceeded := List.countP_pos_iff.2 ⟨e, he, htime⟩
    simp only [hR, Bool.false_eq_true, if_false] at hmarks
    have := hsafe.1
    omega
  | true =>
    have hinv : TimeoutInvariant t.1 t.2 :=
      hrun.invariant (P := fun _ => True) (I := fun s => TimeoutInvariant s.1 s.2)
        (fun h _ hstep => h.step hstep)
        ⟨hterm, hR, fun _ => ⟨Or.inl hack, nofun⟩⟩ fun _ _ => trivial
    rw [isOpenTimeLimitExceeded, Bool.and_eq_true] at htime
    have hres : e.2.isResult = true := by
      cases hc : e.2 with
      | onFailure exc => rfl
      | _ => rw [hc] at htime; cases htime.1
    have hresult := run_result hrun e he hres
    have hreq : t.1.requeued = true := by
      refine (hinv.2.2 fun c hc => ?_).2 ?_
      · rw [hresult] at hc
        cases hc
        exact htime.1
      · rw [hresult]
        rfl
    have := hsafe.2 hreq
    omega

/-- **At most one terminal record per request, and none for a requeued one, as
long as no hard time-out is delivered outside a cold shutdown.**  The runs are
those of the pool on a request that has not been marked or requeued yet.  A hard
time-out that is delivered, to a request whose message is still open and that
nobody has asked to terminate, breaks it once both its callbacks are there. -/
theorem deliver_atMostOneMark (r : Request V) (hm : r.marks = 0) (hq : r.requeued = false) :
    (∀ ds t, Run Step (r, {}) ds t → (∀ d ∈ ds, isOpenTimeout d = false) →
      t.1.AtMostOneMark) ∧
    (∀ ds t, Run Step (r, {}) ds t → r.acknowledged = false → r.terminateOnAck = false →
      (∃ d ∈ ds, isOpenTimeout d = true) → (∃ d ∈ ds, isOpenTimeLimitExceeded d = true) →
      ¬ t.1.AtMostOneMark) := by
  constructor
  · intro ds t hrun hds
    refine (hrun.invariant (I := fun s => Invariant s.1 s.2)
      (fun h hd hstep => h.step hd hstep) ?_ hds).atMostOneMark
    refine Or.inl ⟨hm, fun hreq => ?_⟩
    rw [hq] at hreq
    cases hreq
  · rintro ds t hrun hack hterm ⟨d, hd, hopen⟩ ⟨e, he, htime⟩
    exact not_atMostOneMark_of_timeout hrun hack hterm hd hopen he htime

/-- A request of a task with the default settings. -/
def earlyRequest : Request Unit where
  id := 1
  task := {}
  context := {}

/-- A request of a task that is put back into the queue on a time-out. -/
def lateRequest : Request Unit where
  id := 1
  task := { acksLate := true, acksOnTimeout := false }
  context := {}

/-- A run of the pool: accept the job, then report that it raised. -/
theorem run_raised : Run Step (lateRequest, {})
    [({}, .onAccepted), ({}, .onFailure (.other ()))]
    (((lateRequest.deliver {} .onAccepted).deliver {} (.onFailure (.other ()))),
      { result := some (.onFailure (.other ())) }) :=
  (Run.single (.deliver (.accepted _))).snoc (.deliver (.result {} _ rfl rfl nofun))

theorem deliver_atMostOneMark_lateRequest :
    ((lateRequest.deliver {} .onAccepted).deliver {} (.onFailure (.other ()))).AtMostOneMark :=
  (deliver_atMostOneMark lateRequest rfl rfl).1 _ _ run_raised (by decide)

/-- A hard time-out marks a request with the default settings twice.  Where a
time-out puts the message back into the queue, the task that will run again is
marked as failed. -/
theorem hardTimeout_not_atMostOneMark :
    (∃ t, Run Step (earlyRequest, {})
      [({}, .onTimeout false), ({}, .onFailure .timeLimitExceeded)] t ∧ t.1.marks = 2) ∧
    (∃ t, Run Step (lateRequest, {})
      [({}, .onTimeout false), ({}, .onFailure .timeLimitExceeded)] t ∧
      t.1.marks = 1 ∧ t.1.requeued = true) := by
  have hrun : ∀ r : Request Unit, Run Step (r, {})
      [({}, .onTimeout false), ({}, .onFailure .timeLimitExceeded)]
      ((r.deliver {} (.onTimeout false)).deliver {} (.onFailure .timeLimitExceeded),
        { result := some (.onFailure .timeLimitExceeded), timedOut := true }) := fun r =>
    (Run.single (.deliver (.hardTimeout _ rfl nofun))).snoc
      (.deliver (.result _ _ rfl rfl fun _ => rfl))
  exact ⟨⟨_, hrun _, rfl⟩, _, hrun _, rfl, rfl⟩

end Worker
end Celery
