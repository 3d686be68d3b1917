/-
# `celery/worker/request.py`: a request and its pool callbacks

`Request` is the state of one task request in the worker and the list of calls
it has made out of itself: acknowledgements and rejections of its message,
states marked in the result backend, hooks, signals and events.  Each method of
the source that can be called on it is a function here: `acknowledge`, `reject`,
`revoked` and the callbacks the pool makes, `on_accepted`, `on_timeout`,
`on_success` and `on_failure` (lines 388-789).

`env` is what a callback finds in the world: whether the worker is in a cold
shutdown, and whether the user's hooks raise.
-/

import Celery.Backends.Base
import Celery.Utils.Time

namespace Celery
namespace Worker

open Canvas

/-- The value of a stamped header: one stamp, or a list of them. -/
inductive StampValue where
  | one (stamp : String)
  | many (stamps : List String)
deriving DecidableEq, Repr

/-- `maybe_list`. -/
def StampValue.maybeList : StampValue → List String
  | one s => [s]
  | many ss => ss

/-- The attributes of a task that a request reads. -/
structure TaskConf where
  acksLate : Bool := false
  acksOnFailure : Bool := true
  acksOnTimeout : Bool := true
  rejectOnWorkerLost : Bool := false
  storeErrorsEvenIfIgnored : Bool := false
  sendEvents : Bool := true
  /-- `task_has_custom(task, 'after_return')`. -/
  customAfterReturn : Bool := false
deriving DecidableEq, Repr

/-- What a request calls out of itself. -/
inductive Call (V : Type) where
  | taskReady (successful : Bool)
  | taskAccepted
  | onAck
  | onReject (requeue : Bool)
  | sendEvent (type : String)
  | markAsFailure (calls : List (Backend.Call V))
  | markAsRevoked (calls : List (Backend.Call V))
  | onFailure (exc : Exc V)
  | afterReturn (state : State) (exc : Exc V)
  | sendTaskFailure (exc : Exc V)
  | sendRevoked (terminated expired : Bool)
  | terminateJob
  | terminateResult

/-- `backend.mark_as_failure(...)`. -/
def Call.isMarkAsFailure {V : Type} : Call V → Bool
  | markAsFailure _ => true
  | _ => false

/-- `on_reject(..., requeue=True)`. -/
def Call.isRequeue {V : Type} : Call V → Bool
  | onReject true => true
  | _ => false

/-- What a callback finds in the world. -/
structure Env where
  /-- `state.should_terminate`: a cold shutdown is under way. -/
  shouldTerminate : Bool := false
  onFailureRaises : Bool := false
  afterReturnRaises : Bool := false
  /-- billiard's `human_status`. -/
  humanStatus : ℤ → String := fun _ => ""

/-- A request for task execution. -/
structure Request (V : Type) where
  id : TaskId
  task : TaskConf
  /-- `_context`: the headers of the message with its `embed`. -/
  context : Context V
  ignoreResult : Bool := false
  /-- The eventer is there and enabled. -/
  eventsEnabled : Bool := true
  eta : Option Datetime := none
  expires : Option Datetime := none
  utc : Bool := true
  /-- `stamped_headers`, each with its entry of `stamps`. -/
  stamps : List (String × StampValue) := []
  acknowledged : Bool := false
  alreadyRevoked : Bool := false
  alreadyCancelled : Bool := false
  /-- `_terminate_on_ack`: `terminate` was called before the pool accepted. -/
  terminateOnAck : Bool := false
  /-- `_apply_result` refers to a live pool result. -/
  applyResult : Bool := false
  /-- `time_start` is set. -/
  timeStart : Bool := false
  calls : List (Call V) := []

/-- `self.exc` of an `ExceptionWithTraceback`, and any other exception itself. -/
def unwrap {V : Type} : Exc V → Exc V
  | .exceptionWithTraceback e => e
  | e => e

namespace Request

variable {V : Type}

/-- The request after a call out of it. -/
def emit (c : Call V) (r : Request V) : Request V := { r with calls := r.calls ++ [c] }

/-- The header loop of `revoked`: the first stamped header that has revoked
stamps decides. -/
def revokedByHeader (revokedStamps : List (String × StampValue)) :
    List (String × StampValue) → Bool
  | [] => false
  | (stamp, value) :: rest =>
    match revokedStamps.lookup stamp with
    | none => revokedByHeader revokedStamps rest
    | some header =>
      match value with
      | .many values => values.any (· ∈ header.maybeList)
      | .one v => v ∈ header.maybeList || value == header

/-- `store_errors`. -/
def storeErrors (r : Request V) : Bool := !r.ignoreResult || r.task.storeErrorsEvenIfIgnored

/-- `send_event`. -/
def sendEvent (type : String) (r : Request V) : Request V :=
  if r.eventsEnabled && r.task.sendEvents then r.emit (.sendEvent type) else r

/-- `acknowledge`. -/
def acknowledge (r : Request V) : Request V :=
  if r.acknowledged then r else { r.emit .onAck with acknowledged := true }

/-- `reject`. -/
def reject (requeue : Bool) (r : Request V) : Request V :=
  if r.acknowledged then r
  else ({ r.emit (.onReject requeue) with acknowledged := true }).sendEvent "task-rejected"

/-- `self.task.backend.mark_as_failure(self.id, exc, request=self._context,
store_result=self.store_errors)`. -/
def markAsFailure (exc : Exc V) (r : Request V) : Request V :=
  r.emit (.markAsFailure (Backend.markAsFailure r.id (.exc exc) (some r.context) r.storeErrors))

/-- `self.task.backend.mark_as_revoked(self.id, reason, request=self._context,
store_result=self.store_errors)`. -/
def markAsRevoked (reason : String) (r : Request V) : Request V :=
  r.emit (.markAsRevoked (Backend.markAsRevoked r.id reason (some r.context) r.storeErrors))

/-- `_announce_revoked`. -/
def announceRevoked (reason : String) (terminated expired : Bool) (r : Request V) : Request V :=
  let r := ((r.emit (.taskReady false)).sendEvent "task-revoked").markAsRevoked reason
  ({ r.acknowledge with alreadyRevoked := true }).emit (.sendRevoked terminated expired)

/-- `maybe_expire`: whether the request has expired by `now`. -/
def maybeExpire (now : Datetime) (r : Request V) : Bool :=
  r.expires.any fun t => t < now

/-- `revoked`, against the worker's revoked ids and stamps: whether the task is
to be skipped, the ids with this one added if it has expired, and the request,
announced as revoked if it is. -/
def revoked (now : Datetime) (revokedTasks : List TaskId)
    (revokedStamps : List (String × StampValue)) (r : Request V) :
    Bool × List TaskId × Request V :=
  if r.alreadyRevoked then (true, revokedTasks, r)
  else
    let expired := r.maybeExpire now
    let revokedTasks := if expired then r.id :: revokedTasks else revokedTasks
    let revokedById := r.id ∈ revokedTasks
    let revokedByHeader := !revokedById && Request.revokedByHeader revokedStamps r.stamps
    if expired || revokedById || revokedByHeader then
      (true, revokedTasks,
        r.announceRevoked (if expired then "expired" else "revoked") false expired)
    else (false, revokedTasks, r)

/-- `terminate`. -/
def terminate (r : Request V) : Request V :=
  let r :=
    if r.timeStart then (r.emit .terminateJob).announceRevoked "terminated" true false
    else { r with terminateOnAck := true }
  if r.applyResult then r.emit .terminateResult else r

/-- `on_accepted`. -/
def onAccepted (r : Request V) : Request V :=
  let r := ({ r with timeStart := true }).emit .taskAccepted
  let r := if !r.task.acksLate then r.acknowledge else r
  let r := r.sendEvent "task-started"
  if r.terminateOnAck then r.terminate else r

/-- The end of a hard time-out: with `acks_late` the message is acknowledged, or
put back into the queue. -/
def settleTimeout (r : Request V) : Request V :=
  if r.task.acksLate then
    if r.task.acksOnTimeout then r.acknowledge else r.reject true
  else r

/-- The failure hooks that `on_timeout` invokes, and whether one of them raised
out of it. -/
def timeoutHooks (env : Env) (exc : Exc V) (r : Request V) : Request V × Bool :=
  let r := r.emit (.onFailure exc)
  if env.onFailureRaises then (r, true)
  else
    let r := if r.task.customAfterReturn then r.emit (.afterReturn .failure exc) else r
    if r.task.customAfterReturn && env.afterReturnRaises then (r, true)
    else ((r.emit (.sendTaskFailure exc)).sendEvent "task-failed", false)

/-- `on_timeout`. -/
def onTimeout (env : Env) (soft : Bool) (r : Request V) : Request V :=
  if soft then r
  else
    let r := r.emit (.taskReady false)
    if env.shouldTerminate then r.settleTimeout
    else
      let exc := .timeLimitExceeded
      let r := r.markAsFailure exc
      match r.timeoutHooks env exc with
      | (r, true) => r
      | (r, false) => r.settleTimeout

/-- `on_retry`. -/
def onRetry (r : Request V) : Request V :=
  (if r.task.acksLate then r.acknowledge else r).sendEvent "task-retried"

/-- `_worker_lost_info`. -/
def workerLostInfo (env : Env) (exc : Exc V) : Exc V :=
  let status := match exc with
    | .systemExit .none => env.humanStatus 0
    | .systemExit (.int code) => env.humanStatus code
    | .systemExit .object => env.humanStatus 1
    | _ => "KeyboardInterrupt"
  .workerLostError s!"Worker exited prematurely: {status}."

/-- `isinstance(exc, WorkerLostError)`. -/
def isWorkerLost : Exc V → Bool
  | .workerLostError _ => true
  | _ => false

/-- `isinstance(exc, TimeLimitExceeded)`. -/
def isTimeout : Exc V → Bool
  | .timeLimitExceeded => true
  | _ => false

/-- `ack_flag` of `on_failure`. -/
def ackFlag (r : Request V) (exc : Exc V) : Bool :=
  if isTimeout exc then r.task.acksOnTimeout else r.task.acksOnFailure

/-- `requeue` of `on_failure`: the message goes back into the queue. -/
def requeues (r : Request V) (exc : Exc V) : Bool :=
  r.task.acksLate &&
    (r.task.rejectOnWorkerLost && isWorkerLost exc || isTimeout exc && !r.ackFlag exc)

/-- The acknowledgement of a failed task (`acks_late`). -/
def settleFailure (exc : Exc V) (r : Request V) : Request V :=
  if r.task.acksLate then
    if r.requeues exc then r.reject true
    else if r.ackFlag exc then r.acknowledge
    else r.reject false
  else r

/-- The second half of `on_failure`: an exception that is no request of the task
to the worker. -/
def failed (env : Env) (exc : Exc V) (returnOk : Bool) (r : Request V) : Request V :=
  let requeue := r.requeues exc
  let r := r.settleFailure exc
  let returnOk := returnOk || env.shouldTerminate
  let r :=
    if !requeue && (isWorkerLost exc || !returnOk) then
      (r.markAsFailure exc).emit (.sendTaskFailure exc)
    else r
  if !requeue && !env.shouldTerminate then r.sendEvent "task-failed" else r

/-- A task that rejects its message without requeueing will never run again. -/
def rejected (exc : Exc V) (r : Request V) : Request V :=
  (((r.markAsFailure exc).emit (.sendTaskFailure exc)).sendEvent "task-failed").reject false

/-- `on_failure`.  A `MemoryError` is raised out of it. -/
def onFailure (env : Env) (excInfo : Exc V) (returnOk : Bool) (r : Request V) : Request V :=
  let r := r.emit (.taskReady false)
  match unwrap excInfo with
  | .terminated _ =>
    if !r.alreadyCancelled && !r.alreadyRevoked then r.announceRevoked "terminated" true false
    else r
  | .systemExit code =>
    if r.alreadyCancelled || r.alreadyRevoked then r
    else r.failed env (workerLostInfo env (.systemExit code)) returnOk
  | .keyboardInterrupt =>
    if r.alreadyCancelled || r.alreadyRevoked then r
    else r.failed env (workerLostInfo env .keyboardInterrupt) returnOk
  | .memoryError => r
  | .reject requeue => if requeue then r.reject true else r.rejected (.reject requeue)
  | .ignore => r.acknowledge
  | .retry => r.onRetry
  | exc => r.failed env exc returnOk

/-- `on_success`: `failed` is the exception of a task that raised.  `SystemExit`
and `KeyboardInterrupt` are raised out of it. -/
def onSuccess (env : Env) (failed : Option (Exc V)) (r : Request V) : Request V :=
  match failed with
  | some exc =>
    match unwrap exc with
    | .systemExit _ => r
    | .keyboardInterrupt => r
    | _ => r.onFailure env exc true
  | none =>
    let r := r.emit (.taskReady true)
    (if r.task.acksLate then r.acknowledge else r).sendEvent "task-succeeded"

end Request

end Worker
end Celery
