/-
# `celery/app/task.py`: sending a task again

`Task.retry` (lines 768-878), called by a task while a worker executes it, and
the way of its message: `Context.as_execution_options` (lines 168-195) and
`signature_from_request` make the options, `Task.apply_async` (lines 655-717),
`Celery.send_task` (`celery/app/base.py`, lines 940-1140) and `AMQP.as_task_v2`
(`celery/app/amqp.py`, lines 327-419) make the message, and `Request.__init__`
(`celery/worker/request.py`, lines 98-181) and the tracer read it into the
`Context` of the next execution.

The options that say where a message goes (queue, exchange, routing key, priority)
and how it is encoded are left out, as nothing is read back from them.  A stamp is
an option of its own, and has none of their names nor that of a parameter.

Everything the request has is handed over, but on the way the defaults for new
messages fill in what it has not: a request without a parent gets the task that is
being executed for one, which is itself.  The `ignore_result` of a request is not
handed over at all.  `retry_resends_iff` says when nothing changes.
-/

import Celery.Backends.Base
import Mathlib.Data.Rat.Defs

namespace Celery
namespace Retry

open Canvas

variable {V : Type}

/-- `celery.app.task.Context`, the request of a task.  What is missing has the
default of the class, and no stamps are the same as none. -/
structure Context (V : Type) where
  id : TaskId
  args : List V
  kwargs : List (String × V)
  calledDirectly : Bool := false
  isEager : Bool := false
  retries : ℕ := 0
  eta : Option String := none
  expires : Option String := none
  rootId : Option TaskId := none
  parentId : Option TaskId := none
  group : Option TaskId := none
  groupIndex : Option ℕ := none
  shadow : Option String := none
  chord : Option (Sig V) := none
  chain : Option (List (Sig V)) := none
  callbacks : Option (List (Sig V)) := none
  errbacks : Option (List (Sig V)) := none
  timelimit : Option (Option ℕ × Option ℕ) := none
  headers : List (String × V) := []
  replyTo : Option String := none
  ignoreResult : Bool := false
  replacedTaskNesting : ℕ := 0
  origin : Option String := none
  stampedHeaders : List String := []
  stamps : List (String × V) := []

/-- The keyword arguments of `Task.apply_async` and `send_task`.  Those that may be
omitted, and differ from `None` then, are optional twice. -/
structure ExecutionOptions (V : Type) where
  taskId : Option TaskId := none
  rootId : Option TaskId := none
  parentId : Option TaskId := none
  groupId : Option TaskId := none
  groupIndex : Option ℕ := none
  shadow : Option String := none
  chord : Option (Sig V) := none
  chain : Option (List (Sig V)) := none
  link : Option (List (Sig V)) := none
  linkError : Option (List (Sig V)) := none
  expires : Option (Option String) := none
  softTimeLimit : Option (Option ℕ) := none
  timeLimit : Option (Option ℕ) := none
  headers : List (String × V) := []
  retries : ℕ := 0
  replyTo : Option String := none
  replacedTaskNesting : ℕ := 0
  origin : Option String := none
  countdown : Option ℚ := none
  eta : Option String := none
  ignoreResult : Option Bool := none
  stampedHeaders : List String := []
  stamps : List (String × V) := []

/-- A task message of protocol 2: its headers, its properties and its body. -/
structure Message (V : Type) where
  task : String
  id : TaskId
  shadow : Option String
  eta : Option String
  expires : Option String
  group : Option TaskId
  groupIndex : Option ℕ
  retries : ℕ
  timelimit : Option ℕ × Option ℕ
  rootId : Option TaskId
  parentId : Option TaskId
  origin : String
  ignoreResult : Bool
  replacedTaskNesting : ℕ
  stampedHeaders : List String
  stamps : List (String × V)
  headers : List (String × V)
  correlationId : TaskId
  replyTo : String
  args : List V
  kwargs : List (String × V)
  callbacks : Option (List (Sig V))
  errbacks : Option (List (Sig V))
  chain : Option (List (Sig V))
  chord : Option (Sig V)

/-- The attributes of a task that decide what becomes of a retry.
`acceptsArguments` is the check of `__header__`, where `typing` asks for one. -/
structure TaskType (V : Type) where
  name : String
  maxRetries : Option ℤ
  defaultRetryDelay : ℚ
  ignoreResult : Bool
  timeLimit : Option ℕ
  softTimeLimit : Option ℕ
  expires : Option String
  acceptsArguments : List V → List (String × V) → Bool
  shadowName : List V → List (String × V) → ExecutionOptions V → Option String

/-- The app, in a worker, where `task_always_eager` is off: `etaIn` is the time a
countdown ends at, and `publishes` whether the broker takes a message. -/
structure App (V : Type) where
  threadOid : String
  threadOid_ne : threadOid ≠ ""
  anonNodename : String
  etaIn : ℚ → String
  publishes : Message V → Bool

/-- `s or default`: an empty string counts as none. -/
def strOr (s default : Option String) : Option String :=
  if s = none ∨ s = some "" then default else s

/-- `X_DEATH_HEADERS`. -/
def xDeathHeaders : List String :=
  ["x-death", "x-first-death-exchange", "x-first-death-queue", "x-first-death-reason",
    "x-last-death-exchange", "x-last-death-queue", "x-last-death-reason"]

namespace Context

/-- `timelimit or (None, None)`. -/
def timeLimits (r : Context V) : Option ℕ × Option ℕ := r.timelimit.getD (none, none)

/-- `_filter_x_death_headers`. -/
def filterXDeathHeaders (headers : List (String × V)) : List (String × V) :=
  headers.filter fun h => h.1 ∉ xDeathHeaders

/-- `as_execution_options`. -/
def asExecutionOptions (r : Context V) : ExecutionOptions V where
  taskId := some r.id
  rootId := r.rootId
  parentId := r.parentId
  groupId := r.group
  groupIndex := r.groupIndex
  shadow := r.shadow
  chord := r.chord
  chain := r.chain
  link := r.callbacks
  linkError := r.errbacks
  expires := some r.expires
  softTimeLimit := some r.timeLimits.2
  timeLimit := some r.timeLimits.1
  headers := filterXDeathHeaders r.headers
  retries := r.retries
  replyTo := r.replyTo
  replacedTaskNesting := r.replacedTaskNesting
  origin := r.origin
  stampedHeaders := r.stampedHeaders
  stamps := r.stamps

/-- A stamp for every stamped header: what `as_task_v2` sends. -/
def WellStamped (r : Context V) : Prop :=
  r.stamps.map Prod.fst = r.stampedHeaders ∧ r.stampedHeaders.Nodup

end Context

/-- What the sending of a message raises. -/
inductive SendError where
  | valueError (message : String)
  | typeError
  | keyError (header : String)
  | operationalError
deriving DecidableEq, Repr

/-- `INT_MIN`. -/
def intMin : ℚ := -2147483648

/-- `{header: options[header] for header in stamped_headers}`. -/
def lookupStamps (stamps : List (String × V)) : List String → Except SendError (List (String × V))
  | [] => .ok []
  | header :: headers =>
    match stamps.lookup header, lookupStamps stamps headers with
    | some v, .ok l => .ok ((header, v) :: l)
    | none, _ => .error (.keyError header)
    | _, .error e => .error e

/-- `AMQP.as_task_v2`. -/
def asTaskV2 (app : App V) (name : String) (args : List V) (kwargs : List (String × V))
    (taskId : TaskId) (timeLimit softTimeLimit : Option ℕ) (expires : Option String)
    (rootId parentId : Option TaskId) (replyTo : Option String) (ignoreResult : Bool)
    (o : ExecutionOptions V) : Except SendError (Message V) := do
  let eta ← match o.countdown with
    | none => pure o.eta
    | some countdown =>
      if countdown = 0 then pure o.eta
      else if countdown < intMin then throw (.valueError "countdown is out of range")
      else pure (some (app.etaIn countdown))
  let stamps ← lookupStamps o.stamps o.stampedHeaders
  pure {
    task := name, id := taskId, shadow := o.shadow, eta := eta, expires := expires,
    group := o.groupId, groupIndex := o.groupIndex, retries := o.retries,
    timelimit := (timeLimit, softTimeLimit), rootId := rootId.or (some taskId),
    parentId := parentId, origin := (strOr o.origin (some app.anonNodename)).getD "",
    ignoreResult := ignoreResult, replacedTaskNesting := o.replacedTaskNesting,
    stampedHeaders := o.stampedHeaders, stamps := stamps, headers := o.headers,
    correlationId := taskId, replyTo := replyTo.getD "", args := args, kwargs := kwargs,
    callbacks := o.link, errbacks := o.linkError, chain := o.chain, chord := o.chord }

/-- `Celery.send_task`, called by `Task.apply_async`; `parent` is the request of the
`current_worker_task`, and `uuid` a new id. -/
def sendTask (app : App V) (parent : Option (Context V)) (uuid : TaskId) (name : String)
    (args : List V) (kwargs : List (String × V)) (o : ExecutionOptions V) :
    Except SendError (Message V) := do
  let taskId := o.taskId.getD uuid
  let rootId := o.rootId.or (parent.bind fun p => p.rootId.or (some p.id))
  let parentId := o.parentId.or (parent.map Context.id)
  let m ← asTaskV2 app name args kwargs taskId (o.timeLimit.getD none) (o.softTimeLimit.getD none)
    (o.expires.getD none) rootId parentId (strOr o.replyTo (some app.threadOid))
    (o.ignoreResult.getD false) o
  if app.publishes m then pure m else throw .operationalError

namespace TaskType

/-- `Task.apply_async`. -/
def applyAsync (task : TaskType V) (app : App V) (parent : Option (Context V)) (uuid : TaskId)
    (args : List V) (kwargs : List (String × V)) (o : ExecutionOptions V) :
    Except SendError (Message V) :=
  match task.softTimeLimit, task.timeLimit with
  | some soft, some hard =>
    if soft ≠ 0 ∧ hard ≠ 0 ∧ hard < soft then
      .error (.valueError "soft_time_limit must be less than or equal to time_limit")
    else send
  | _, _ => send
where
  /-- The rest of it, once the time limits of the task are found to be in order. -/
  send : Except SendError (Message V) :=
    if task.acceptsArguments args kwargs then
      sendTask app parent uuid task.name args kwargs
        { o with
          shadow := strOr o.shadow (task.shadowName args kwargs o)
          expires := o.expires.or (some task.expires)
          timeLimit := o.timeLimit.or (some task.timeLimit)
          softTimeLimit := o.softTimeLimit.or (some task.softTimeLimit)
          ignoreResult := o.ignoreResult.or (some task.ignoreResult) }
    else .error .typeError

end TaskType

/-- The worker reads a message: `Request.__init__`, and the `Context` of the tracer. -/
def Message.context (m : Message V) : Context V where
  id := m.id
  args := m.args
  kwargs := m.kwargs
  retries := m.retries
  eta := m.eta
  expires := m.expires
  rootId := m.rootId
  parentId := m.parentId
  group := m.group
  groupIndex := m.groupIndex
  shadow := m.shadow
  chord := m.chord
  chain := m.chain
  callbacks := m.callbacks
  errbacks := m.errbacks
  timelimit := some m.timelimit
  headers := m.headers
  replyTo := some m.replyTo
  ignoreResult := m.ignoreResult
  replacedTaskNesting := m.replacedTaskNesting
  origin := some m.origin
  stampedHeaders := m.stampedHeaders
  stamps := m.stamps

/-- The arguments of `Task.retry`. -/
structure Call (V : Type) where
  args : Option (List V) := none
  kwargs : Option (List (String × V)) := none
  exc : Option (Exc V) := none
  throw : Bool := true
  eta : Option String := none
  countdown : Option ℚ := none
  maxRetries : Option ℤ := none

/-- What a call of `Task.retry` leaves: the attribute `override_max_retries` of the
task, the message that was sent, and what was raised, or that the `Retry` was
returned. -/
structure Retried (V : Type) where
  override : Option ℤ
  sent : Option (Message V) := none
  result : Except (Exc V) Unit

namespace TaskType

/-- `signature_from_request`, as far as the options go. -/
def optionsFromRequest (r : Context V) (countdown : Option ℚ) (eta : Option String) (retries : ℕ) :
    ExecutionOptions V :=
  { r.asExecutionOptions with countdown := countdown, eta := eta, retries := retries }

/-- `max_retries is not None and retries > max_retries`. -/
def exceeds (retries : ℕ) (maxRetries : Option ℤ) : Bool :=
  maxRetries.any fun limit => decide (limit < (retries : ℤ))

/-- **`Task.retry`**, of the task that is executing `r`. -/
def retry (task : TaskType V) (app : App V) (uuid : TaskId) (r : Context V) (call : Call V)
    (override : Option ℤ) : Retried V :=
  let retries := r.retries + 1
  let override := call.maxRetries.or override
  let maxRetries := call.maxRetries.or task.maxRetries
  let countdown :=
    if strOr call.eta none = none ∧ call.countdown = none then some task.defaultRetryDelay
    else call.countdown
  if r.calledDirectly then { override, result := .error (call.exc.getD .retry) }
  else if exceeds retries maxRetries then
    { override, result := .error (call.exc.getD .maxRetriesExceededError) }
  else
    let raised := if call.throw then .error .retry else .ok ()
    if r.isEager then { override, result := raised }
    else match task.applyAsync app (some r) uuid (call.args.getD r.args) (call.kwargs.getD r.kwargs)
        (optionsFromRequest r countdown call.eta retries) with
      | .error _ => { override, result := .error (.reject false) }
      | .ok m => { override, sent := some m, result := raised }

end TaskType

/-! ### What comes back -/

/-- **The same task again**: `r'` agrees with `r` but for `retries`, which is one
more, and `eta`. -/
structure SameTask (r r' : Context V) : Prop where
  id : r'.id = r.id
  args : r'.args = r.args
  kwargs : r'.kwargs = r.kwargs
  retries : r'.retries = r.retries + 1
  parentId : r'.parentId = r.parentId
  rootId : r'.rootId = r.rootId
  group : r'.group = r.group
  groupIndex : r'.groupIndex = r.groupIndex
  chord : r'.chord = r.chord
  chain : r'.chain = r.chain
  callbacks : r'.callbacks = r.callbacks
  errbacks : r'.errbacks = r.errbacks
  shadow : r'.shadow = r.shadow
  replyTo : r'.replyTo = r.replyTo
  timeLimits : r'.timeLimits = r.timeLimits
  expires : r'.expires = r.expires
  ignoreResult : r'.ignoreResult = r.ignoreResult
  replacedTaskNesting : r'.replacedTaskNesting = r.replacedTaskNesting
  stampedHeaders : r'.stampedHeaders = r.stampedHeaders
  stamps : r'.stamps = r.stamps

/-- A retry of `r` gets as far as the broker. -/
structure Sendable (task : TaskType V) (app : App V) (r : Context V) : Prop where
  calledDirectly : r.calledDirectly = false
  isEager : r.isEager = false
  maxRetries : ∀ limit ∈ task.maxRetries, (r.retries + 1 : ℕ) ≤ limit
  defaultRetryDelay : intMin ≤ task.defaultRetryDelay
  limits : ∀ soft ∈ task.softTimeLimit, ∀ hard ∈ task.timeLimit, hard = 0 ∨ soft ≤ hard
  arguments : task.acceptsArguments r.args r.kwargs = true
  publishes : ∀ m, app.publishes m = true

theorem lookup_of_mem {l : List (String × V)} (hnodup : (l.map Prod.fst).Nodup) {k : String} {v : V}
    (h : (k, v) ∈ l) : l.lookup k = some v := by
  induction l with
  | nil => cases h
  | cons p l ih =>
    rw [List.map_cons, List.nodup_cons] at hnodup
    rcases List.mem_cons.mp h with rfl | hmem
    · exact List.lookup_cons_self
    · have hne : (k == p.1) = false := by
        rw [beq_eq_false_iff_ne]
        rintro rfl
        exact hnodup.1 (List.mem_map.mpr ⟨_, hmem, rfl⟩)
      rw [List.lookup_cons, hne]
      exact ih hnodup.2 hmem

/-- Stamps are found again. -/
theorem lookupStamps_eq {stamps l : List (String × V)} (h : ∀ p ∈ l, stamps.lookup p.1 = some p.2) :
    lookupStamps stamps (l.map Prod.fst) = .ok l := by
  induction l with
  | nil => rfl
  | cons p l ih =>
    have hl := ih fun q hq => h q (List.mem_cons_of_mem _ hq)
    rw [List.map_cons, lookupStamps, h p List.mem_cons_self, hl]

theorem lookupStamps_of_wellStamped {r : Context V} (hr : r.WellStamped) :
    lookupStamps r.stamps r.stampedHeaders = .ok r.stamps := by
  obtain ⟨hkeys, hnodup⟩ := hr
  rw [← hkeys] at hnodup ⊢
  exact lookupStamps_eq fun p hp => lookup_of_mem hnodup hp

section

variable (task : TaskType V) (app : App V) (r : Context V)

/-- The message a retry of `r` sends. -/
def resent : Message V where
  task := task.name
  id := r.id
  shadow := strOr r.shadow (task.shadowName r.args r.kwargs
    (TaskType.optionsFromRequest r (some task.defaultRetryDelay) none (r.retries + 1)))
  eta := if task.defaultRetryDelay = 0 then none else some (app.etaIn task.defaultRetryDelay)
  expires := r.expires
  group := r.group
  groupIndex := r.groupIndex
  retries := r.retries + 1
  timelimit := r.timeLimits
  rootId := r.rootId.or (some r.id)
  parentId := r.parentId.or (some r.id)
  origin := (strOr r.origin (some app.anonNodename)).getD ""
  ignoreResult := task.ignoreResult
  replacedTaskNesting := r.replacedTaskNesting
  stampedHeaders := r.stampedHeaders
  stamps := r.stamps
  headers := Context.filterXDeathHeaders r.headers
  correlationId := r.id
  replyTo := (strOr r.replyTo (some app.threadOid)).getD ""
  args := r.args
  kwargs := r.kwargs
  callbacks := r.callbacks
  errbacks := r.errbacks
  chain := r.chain
  chord := r.chord

variable {task app r}

theorem applyAsync_eq (hr : r.WellStamped) (h : Sendable task app r) (uuid : TaskId) :
    task.applyAsync app (some r) uuid r.args r.kwargs
      (TaskType.optionsFromRequest r (some task.defaultRetryDelay) none (r.retries + 1))
      = .ok (resent task app r) := by
  have hdelay : ¬ task.defaultRetryDelay < intMin := Rat.not_lt.mpr h.defaultRetryDelay
  have hroot : r.rootId.getD (r.rootId.getD r.id) = r.rootId.getD r.id := by
    cases r.rootId <;> rfl
  have hsend : TaskType.applyAsync.send task app (some r) uuid r.args r.kwargs
      (TaskType.optionsFromRequest r (some task.defaultRetryDelay) none (r.retries + 1))
      = .ok (resent task app r) := by
    by_cases hzero : task.defaultRetryDelay = 0
    · simp [TaskType.applyAsync.send, TaskType.optionsFromRequest, Context.asExecutionOptions,
        sendTask, asTaskV2, h.arguments, h.publishes, lookupStamps_of_wellStamped hr, hzero, hroot,
        resent, pure, Except.pure, bind, Except.bind]
    · simp [TaskType.applyAsync.send, TaskType.optionsFromRequest, Context.asExecutionOptions,
        sendTask, asTaskV2, h.arguments, h.publishes, lookupStamps_of_wellStamped hr, hzero, hdelay,
        hroot, resent, pure, Except.pure, bind, Except.bind]
  unfold TaskType.applyAsync
  split
  next soft hard hsoft hhard =>
    have hle := h.limits soft hsoft hard hhard
    rw [if_neg (by omega)]
    exact hsend
  next => exact hsend

/-- What a retry of `r` sends, and leaves. -/
theorem retry_eq (hr : r.WellStamped) (h : Sendable task app r) (uuid : TaskId)
    (override : Option ℤ) :
    task.retry app uuid r {} override
      = { override, sent := some (resent task app r), result := .error .retry } := by
  have hlimit : TaskType.exceeds (r.retries + 1) task.maxRetries = false := by
    cases hmax : task.maxRetries with
    | none => rfl
    | some limit =>
      have := h.maxRetries limit hmax
      simp only [TaskType.exceeds, Option.any_some, decide_eq_false_iff_not]
      omega
  simp only [TaskType.retry, Option.none_or, h.calledDirectly, Bool.false_eq_true, if_false, hlimit,
    h.isEager, strOr, true_or, if_true, and_self, Option.getD_none, applyAsync_eq hr h]

end

/-- A string that is there and not empty. -/
def Given (s : Option String) : Prop := s ≠ none ∧ s ≠ some ""

theorem strOr_eq_self_iff (s default : Option String) :
    strOr s default = s ↔ Given s ∨ default = s := by
  unfold strOr Given
  by_cases h : s = none ∨ s = some ""
  · rw [if_pos h, ← not_or, or_iff_right (not_not.mpr h)]
  · rw [if_neg h, ← not_or]
    exact iff_of_true rfl (Or.inl h)

theorem replyTo_resent_iff (app : App V) (r : Context V) :
    some ((strOr r.replyTo (some app.threadOid)).getD "") = r.replyTo ↔ Given r.replyTo := by
  unfold strOr Given
  by_cases h : r.replyTo = none ∨ r.replyTo = some ""
  · rw [if_pos h, ← not_or]
    refine iff_of_false (fun heq => ?_) (not_not.mpr h)
    rcases h with h | h <;> rw [h] at heq
    · cases heq
    · exact app.threadOid_ne (Option.some_inj.mp heq)
  · rw [if_neg h, ← not_or]
    refine iff_of_true ?_ h
    cases hreply : r.replyTo with
    | none => exact absurd (Or.inl hreply) h
    | some s => rfl

theorem or_some_eq_self_iff {o : Option TaskId} {i : TaskId} : o.or (some i) = o ↔ o ≠ none := by
  cases o with
  | none => simp
  | some j => simp

/-- The request lacks nothing that a new message would be given, and ignores its
result exactly if the task does. -/
structure Complete (task : TaskType V) (r : Context V) : Prop where
  parentId : r.parentId ≠ none
  rootId : r.rootId ≠ none
  replyTo : Given r.replyTo
  shadow : Given r.shadow ∨ task.shadowName r.args r.kwargs
    (TaskType.optionsFromRequest r (some task.defaultRetryDelay) none (r.retries + 1)) = r.shadow
  ignoreResult : task.ignoreResult = r.ignoreResult

/-- **When a retry sends the same task again.**  A request that a worker executes
and that may be retried is sent again by `self.retry()`, and what comes back agrees
with it, but for `retries` and `eta`, if and only if it has a parent, a root and a
`reply_to`, has a `shadow` or is of a task whose `shadow_name` gives it the one it
has, and ignores its result exactly if its task does. -/
theorem retry_resends_iff {task : TaskType V} {app : App V} {r : Context V} (hr : r.WellStamped)
    (h : Sendable task app r) (uuid : TaskId) (override : Option ℤ) :
    ∃ m, (task.retry app uuid r {} override).sent = some m ∧
      (SameTask r m.context ↔ Complete task r) := by
  refine ⟨resent task app r, by rw [retry_eq hr h], fun hsame => ?_, fun hcomplete => ?_⟩
  · exact {
      parentId := or_some_eq_self_iff.mp hsame.parentId
      rootId := or_some_eq_self_iff.mp hsame.rootId
      replyTo := (replyTo_resent_iff app r).mp hsame.replyTo
      shadow := (strOr_eq_self_iff _ _).mp hsame.shadow
      ignoreResult := hsame.ignoreResult }
  · exact {
      id := rfl, args := rfl, kwargs := rfl, retries := rfl
      parentId := or_some_eq_self_iff.mpr hcomplete.parentId
      rootId := or_some_eq_self_iff.mpr hcomplete.rootId
      group := rfl, groupIndex := rfl, chord := rfl, chain := rfl, callbacks := rfl, errbacks := rfl
      shadow := (strOr_eq_self_iff _ _).mpr hcomplete.shadow
      replyTo := (replyTo_resent_iff app r).mpr hcomplete.replyTo
      timeLimits := rfl, expires := rfl
      ignoreResult := hcomplete.ignoreResult
      replacedTaskNesting := rfl, stampedHeaders := rfl, stamps := rfl }

/-- A task as it is by default. -/
def defaultTask : TaskType ℕ where
  name := "tasks.add"
  maxRetries := some 3
  defaultRetryDelay := 180
  ignoreResult := false
  timeLimit := none
  softTimeLimit := none
  expires := none
  acceptsArguments _ _ := true
  shadowName _ _ _ := none

/-- A worker. -/
def workerApp : App ℕ where
  threadOid := "oid"
  threadOid_ne := nofun
  anonNodename := "gen1@host"
  etaIn _ := "2026-01-01T00:03:00+00:00"
  publishes _ := true

/-- A request that some client has sent, and that no task has asked for. -/
def clientRequest : Context ℕ where
  id := 7
  args := [2, 2]
  kwargs := []
  rootId := some 7
  timelimit := some (none, none)
  replyTo := some "client"
  origin := some "gen0@client"

/-- A request that another task has sent, as a member of a group with a stamp, and that has been
retried once. -/
def childRequest : Context ℕ where
  id := 7
  args := [2, 2]
  kwargs := [("z", 3)]
  retries := 1
  rootId := some 5
  parentId := some 6
  group := some 9
  groupIndex := some 1
  shadow := some "adder"
  timelimit := some (some 60, none)
  replyTo := some "client"
  origin := some "gen0@client"
  stampedHeaders := ["on"]
  stamps := [("on", 4)]

theorem childRequest_sendable : Sendable defaultTask workerApp childRequest where
  calledDirectly := rfl
  isEager := rfl
  maxRetries := by
    intro limit hlimit
    cases hlimit
    decide
  defaultRetryDelay := by decide
  limits := nofun
  arguments := rfl
  publishes _ := rfl

/-- It comes back the same. -/
theorem retry_resends_child :
    childRequest.WellStamped ∧ ∃ m,
      (defaultTask.retry workerApp 8 childRequest {} none).sent = some m ∧
        SameTask childRequest m.context := by
  have hstamped : childRequest.WellStamped := ⟨rfl, by decide⟩
  have hcomplete : Complete defaultTask childRequest := {
    parentId := by decide
    rootId := by decide
    replyTo := ⟨nofun, by decide⟩
    shadow := .inl ⟨nofun, by decide⟩
    ignoreResult := rfl }
  obtain ⟨m, hm, hiff⟩ := retry_resends_iff hstamped childRequest_sendable 8 none
  exact ⟨hstamped, m, hm, hiff.mpr hcomplete⟩

/-- **A retry makes a task its own parent.** -/
theorem retry_own_parent :
    ∃ m, (defaultTask.retry workerApp 8 clientRequest {} none).sent = some m ∧
      m.context.parentId = some clientRequest.id ∧ ¬ SameTask clientRequest m.context := by
  refine ⟨_, rfl, rfl, fun h => ?_⟩
  exact absurd h.parentId nofun

end Retry
end Celery
