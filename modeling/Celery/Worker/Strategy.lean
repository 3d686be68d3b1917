/-
# `celery/worker/strategy.py`: what becomes of a message

`taskMessageHandler` is the handler the default strategy makes for a task
(lines 132-218): it builds the request, discards it if it is revoked or has
expired, converts its ETA, and then leaves it to the timer, to the task's
rate-limit bucket, or to the pool.  `Handled.dispositions` lists what has become
of the request.

A request whose ETA cannot be converted is rejected, and the handler goes on: it
also limits the request or hands it to the pool.  This is the only way out of
taking exactly one disposition (`taskMessageHandler_disposition_iff`).

The conversions `to_system_tz` and kombu's `to_timestamp` are parameters, as is
the parser of `maybe_iso8601`.
-/

import Celery.Worker.Request

namespace Celery
namespace Worker

open Canvas

/-- An `eta` or `expires` header: a text, or a datetime already. -/
inductive RawTime where
  | iso (text : String)
  | datetime (t : Datetime)

/-- What the handler reads of a message, of any of the three protocols. -/
structure Message (V : Type) where
  id : TaskId
  context : Context V
  eta : Option RawTime := none
  expires : Option RawTime := none
  utc : Bool := true
  ignoreResult : Option Bool := none
  stamps : List (String × StampValue) := []
  /-- The body is of protocol 1, and its `kwargs` have no `items`. -/
  malformedKwargs : Bool := false

/-- The consumer, its task and its application, as the handler finds them. -/
structure Consumer where
  task : TaskConf := {}
  taskIgnoreResult : Bool := false
  eventsEnabled : Bool := true
  rateLimitsEnabled : Bool := true
  /-- The task has a rate limit and so a bucket. -/
  bucket : Bool := false
  callbacks : ℕ := 0
  timezone : TzInfo := TzInfo.utc
  now : Datetime
  revokedTasks : List TaskId := []
  revokedStamps : List (String × StampValue) := []
  /-- `isoparse`; what it cannot read it says in a text. -/
  isoparse : String → Except String Datetime
  toSystemTz : Datetime → Except PyError Datetime
  /-- kombu's `to_timestamp`, in microseconds. -/
  toTimestamp : Datetime → Option TzInfo → Except PyError ℤ

/-- Where the timer takes a request. -/
inductive EtaTarget where
  | limitPostEta
  | applyEtaTask
deriving DecidableEq, Repr

/-- What the handler does beside the request's own calls. -/
inductive Effect where
  | sendTaskReceived
  | sendEvent (type : String)
  | incrementEventually
  | callAt (eta : ℤ) (target : EtaTarget)
  | taskScheduled
  | limitTask
  | taskReserved
  | callback (i : ℕ)
  | handle
deriving DecidableEq, Repr

/-- What can become of a request. -/
inductive Disposition where
  | revoked
  | rejected
  | etaTimer
  | bucket
  | reserved
deriving DecidableEq, Repr

/-- The request after the handler, and what the handler did. -/
structure Handled (V : Type) where
  request : Request V
  revokedTasks : List TaskId
  effects : List Effect

namespace Handled

variable {V : Type}

/-- The disposition that a call of the request is. -/
def ofCall : Call V → Option Disposition
  | .sendRevoked .. => some .revoked
  | .onReject _ => some .rejected
  | _ => none

/-- The disposition that an effect of the handler is. -/
def ofEffect : Effect → Option Disposition
  | .callAt .. => some .etaTimer
  | .limitTask => some .bucket
  | .handle => some .reserved
  | _ => none

/-- What has become of the request. -/
def dispositions (h : Handled V) : List Disposition :=
  h.request.calls.filterMap ofCall ++ h.effects.filterMap ofEffect

end Handled

variable {V : Type}

/-- An `eta` or `expires` header in `Request.__init__`. -/
def readTime (c : Consumer) (name : String) : RawTime → Except PyError Datetime
  | .datetime t => maybeMakeAware t c.timezone true
  | .iso "" => .error .attributeError
  | .iso text =>
    match c.isoparse text with
    | .ok t => maybeMakeAware t c.timezone true
    | .error msg => .error (.invalidTaskError s!"invalid {name} value '{text}': {msg}")

/-- The same for a header that may be missing. -/
def readTime? (c : Consumer) (name : String) : Option RawTime → Except PyError (Option Datetime)
  | none => .ok none
  | some raw => some <$> readTime c name raw

/-- The conversion to protocol 2 and `Request.__init__`. -/
def Request.init (c : Consumer) (m : Message V) : Except PyError (Request V) := do
  if m.malformedKwargs then
    .error (.invalidTaskError "Task keyword arguments must be a mapping")
  else
    let eta ← readTime? c "ETA" m.eta
    let expires ← readTime? c "expires" m.expires
    return { id := m.id, task := c.task, context := m.context
             ignoreResult := m.ignoreResult.getD c.taskIgnoreResult
             eventsEnabled := c.eventsEnabled
             eta := eta, expires := expires, utc := m.utc, stamps := m.stamps }

/-- The conversion of an ETA to a timestamp. -/
def convertEta (c : Consumer) (req : Request V) (eta : Datetime) : Except PyError ℤ :=
  if req.utc then do c.toTimestamp (← c.toSystemTz eta) none
  else c.toTimestamp eta (some c.timezone)

/-- The timestamp of the request's ETA, if it has one.  What cannot be converted
is rejected, and then has none. -/
def etaTimestamp (c : Consumer) (req : Request V) : Except PyError (Option ℤ × Request V) :=
  match req.eta with
  | none => .ok (none, req)
  | some eta =>
    match convertEta c req eta with
    | .ok t => .ok (some t, req)
    | .error .overflowError => .ok (none, req.reject false)
    | .error .valueError => .ok (none, req.reject false)
    | .error e => .error e

/-- The end of the handler: the timer, the bucket or the pool.  The timestamp `0`
is false. -/
def dispatch (c : Consumer) (eta : Option ℤ) : List Effect :=
  let bucket := c.rateLimitsEnabled && c.bucket
  match eta.filter (· ≠ 0) with
  | some t =>
    [.incrementEventually, .callAt t (if bucket then .limitPostEta else .applyEtaTask),
      .taskScheduled]
  | none =>
    if bucket then [.limitTask]
    else .taskReserved :: (List.range c.callbacks).map .callback ++ [.handle]

/-- The handler, from the request it has built. -/
def handleRequest (c : Consumer) (req : Request V) : Except PyError (Handled V) :=
  let (discard, revokedTasks, req) :=
    if req.expires.isSome || req.id ∈ c.revokedTasks then
      req.revoked c.now c.revokedTasks c.revokedStamps
    else (false, c.revokedTasks, req)
  if discard then .ok { request := req, revokedTasks := revokedTasks, effects := [] }
  else do
    let received := Effect.sendTaskReceived ::
      if c.eventsEnabled && c.task.sendEvents then [.sendEvent "task-received"] else []
    let (eta, req) ← etaTimestamp c req
    return { request := req, revokedTasks := revokedTasks, effects := received ++ dispatch c eta }

/-- `task_message_handler`. -/
def taskMessageHandler (c : Consumer) (m : Message V) : Except PyError (Handled V) := do
  handleRequest c (← Request.init c m)

/-! ### Every request takes one disposition -/

/-- The dispositions among the request's own calls. -/
def Request.disposed (r : Request V) : List Disposition := r.calls.filterMap Handled.ofCall

namespace Request

@[simp] theorem disposed_emit (k : Call V) (r : Request V) :
    (r.emit k).disposed = r.disposed ++ (Handled.ofCall k).toList := by
  simp [disposed, emit, List.filterMap_cons]
  cases Handled.ofCall k <;> rfl

@[simp] theorem disposed_sendEvent (type : String) (r : Request V) :
    (r.sendEvent type).disposed = r.disposed := by
  unfold sendEvent
  split_ifs
  · rw [disposed_emit]
    exact List.append_nil _
  · rfl

@[simp] theorem disposed_acknowledge (r : Request V) : r.acknowledge.disposed = r.disposed := by
  unfold acknowledge
  split_ifs
  · rfl
  · exact (disposed_emit .onAck r).trans (List.append_nil _)

theorem disposed_reject {r : Request V} (hack : r.acknowledged = false) (requeue : Bool) :
    (r.reject requeue).disposed = r.disposed ++ [.rejected] := by
  unfold reject
  rw [hack, if_neg Bool.false_ne_true, disposed_sendEvent]
  exact disposed_emit (.onReject requeue) r

theorem disposed_announceRevoked (reason : String) (terminated expired : Bool) (r : Request V) :
    (r.announceRevoked reason terminated expired).disposed = r.disposed ++ [.revoked] := by
  unfold announceRevoked
  dsimp only
  rw [disposed_emit]
  change (acknowledge _).disposed ++ _ = _
  rw [disposed_acknowledge, markAsRevoked, disposed_emit, disposed_sendEvent, disposed_emit]
  simp [Handled.ofCall]

/-- Whether `task_message_handler` discards the request: it is only asked for
when it can expire or its id has been revoked. -/
def discarded (c : Consumer) (req : Request V) : Bool :=
  (req.expires.isSome || req.id ∈ c.revokedTasks) &&
    (req.maybeExpire c.now || req.id ∈ c.revokedTasks ||
      Request.revokedByHeader c.revokedStamps req.stamps)

/-- A request as it comes out of `Request.__init__`. -/
structure Fresh (r : Request V) : Prop where
  acknowledged : r.acknowledged = false
  alreadyRevoked : r.alreadyRevoked = false
  calls : r.calls = []

theorem Fresh.disposed {r : Request V} (h : r.Fresh) : r.disposed = [] := by
  rw [Request.disposed, h.calls]
  rfl

theorem fresh_of_init {c : Consumer} {m : Message V} {req : Request V}
    (h : Request.init c m = .ok req) : req.Fresh := by
  unfold Request.init at h
  split_ifs at h
  cases heta : readTime? c "ETA" m.eta with
  | error e => rw [heta] at h; cases h
  | ok eta =>
    cases hexp : readTime? c "expires" m.expires with
    | error e => rw [heta, hexp] at h; cases h
    | ok expires =>
      rw [heta, hexp] at h
      cases h
      exact ⟨rfl, rfl, rfl⟩

end Request

open Request

theorem revoked_of_discarded {c : Consumer} {req : Request V} (hfresh : req.Fresh)
    (h : (req.maybeExpire c.now || req.id ∈ c.revokedTasks ||
      revokedByHeader c.revokedStamps req.stamps) = true) :
    ∃ tasks reason expired, req.revoked c.now c.revokedTasks c.revokedStamps =
      (true, tasks, req.announceRevoked reason false expired) := by
  unfold Request.revoked
  rw [hfresh.alreadyRevoked, if_neg Bool.false_ne_true]
  dsimp only
  rw [if_pos]
  · exact ⟨_, _, _, rfl⟩
  · cases hexp : req.maybeExpire c.now
    · by_cases hid : req.id ∈ c.revokedTasks
      · simp [hid]
      · simpa [hexp, hid] using h
    · rfl

theorem revoked_of_not_discarded {c : Consumer} {req : Request V} (hfresh : req.Fresh)
    (h : (req.maybeExpire c.now || req.id ∈ c.revokedTasks ||
      revokedByHeader c.revokedStamps req.stamps) = false) :
    req.revoked c.now c.revokedTasks c.revokedStamps = (false, c.revokedTasks, req) := by
  simp only [Bool.or_eq_false_iff, decide_eq_false_iff_not] at h
  obtain ⟨⟨hexp, hid⟩, hheader⟩ := h
  simp [Request.revoked, hfresh.alreadyRevoked, hexp, hid, hheader]

/-- **A discarded request** is announced as revoked, and the handler is done. -/
theorem handleRequest_discarded {c : Consumer} {req : Request V} (hfresh : req.Fresh)
    (hdis : req.discarded c = true) :
    ∃ h, handleRequest c req = .ok h ∧ h.dispositions = [.revoked] := by
  rw [discarded, Bool.and_eq_true] at hdis
  obtain ⟨tasks, reason, expired, hrev⟩ := revoked_of_discarded hfresh hdis.2
  refine ⟨{ request := req.announceRevoked reason false expired, revokedTasks := tasks
            effects := [] }, ?_, ?_⟩
  · unfold handleRequest
    rw [if_pos hdis.1, hrev]
    rfl
  · change disposed _ ++ [] = _
    rw [disposed_announceRevoked, hfresh.disposed]
    rfl

/-- The effects of the handler on a request that it keeps. -/
def keptEffects (c : Consumer) (eta : Option ℤ) : List Effect :=
  (Effect.sendTaskReceived ::
    if c.eventsEnabled && c.task.sendEvents then [.sendEvent "task-received"] else []) ++
    dispatch c eta

theorem handleRequest_kept {c : Consumer} {req : Request V} (hfresh : req.Fresh)
    (hdis : req.discarded c = false) :
    handleRequest c req = (etaTimestamp c req).map fun x =>
      { request := x.2, revokedTasks := c.revokedTasks, effects := keptEffects c x.1 } := by
  have hkeep : (if req.expires.isSome || req.id ∈ c.revokedTasks then
      req.revoked c.now c.revokedTasks c.revokedStamps else (false, c.revokedTasks, req))
      = (false, c.revokedTasks, req) := by
    split_ifs with hask
    · refine revoked_of_not_discarded hfresh ?_
      rwa [discarded, hask, Bool.true_and] at hdis
    · rfl
  unfold handleRequest
  rw [hkeep]
  dsimp only
  rw [if_neg Bool.false_ne_true]
  cases etaTimestamp c req <;> rfl

/-- **The timer, the bucket or the pool** gets the request, and only one. -/
theorem keptEffects_disposition (c : Consumer) (eta : Option ℤ) :
    ∃ d, (keptEffects c eta).filterMap Handled.ofEffect = [d] := by
  have hreceived : (Effect.sendTaskReceived ::
      if c.eventsEnabled && c.task.sendEvents then [.sendEvent "task-received"] else []).filterMap
      Handled.ofEffect = [] := by
    split_ifs <;> rfl
  have hcallbacks : ((List.range c.callbacks).map Effect.callback).filterMap Handled.ofEffect
      = [] := by
    rw [List.filterMap_map, List.filterMap_eq_nil_iff]
    exact fun _ _ => rfl
  rw [keptEffects, List.filterMap_append, hreceived, List.nil_append]
  unfold dispatch
  dsimp only
  cases eta.filter (· ≠ 0) with
  | some t => exact ⟨.etaTimer, by simp [List.filterMap_cons, Handled.ofEffect]⟩
  | none =>
    dsimp only
    split_ifs
    · exact ⟨.bucket, rfl⟩
    · refine ⟨.reserved, ?_⟩
      rw [List.filterMap_append, List.filterMap_cons_none rfl, hcallbacks]
      rfl

/-- The request has no ETA, or one that converts to a timestamp. -/
def Convertible (c : Consumer) (req : Request V) : Prop :=
  ∀ eta, req.eta = some eta → ∃ t, convertEta c req eta = .ok t

/-- **What the conversion can do**: leave the request as it is, reject it, or
raise. -/
theorem etaTimestamp_cases (c : Consumer) (req : Request V) :
    (∃ eta, etaTimestamp c req = .ok (eta, req) ∧ Convertible c req) ∨
      etaTimestamp c req = .ok (none, req.reject false) ∧ ¬ Convertible c req ∨
      (∃ e, etaTimestamp c req = .error e) ∧ ¬ Convertible c req := by
  unfold etaTimestamp
  cases heta : req.eta with
  | none =>
    refine Or.inl ⟨none, rfl, fun eta h => ?_⟩
    rw [heta] at h
    cases h
  | some eta =>
    dsimp only
    cases hconv : convertEta c req eta with
    | ok t =>
      refine Or.inl ⟨some t, rfl, fun eta' h => ?_⟩
      rw [heta] at h
      cases h
      exact ⟨t, hconv⟩
    | error e =>
      have hno : ¬ Convertible c req := by
        intro h
        obtain ⟨t, ht⟩ := h eta heta
        rw [hconv] at ht
        cases ht
      cases e with
      | overflowError => exact Or.inr (Or.inl ⟨rfl, hno⟩)
      | valueError => exact Or.inr (Or.inl ⟨rfl, hno⟩)
      | _ => exact Or.inr (Or.inr ⟨⟨_, rfl⟩, hno⟩)

/-- **Exactly one disposition, unless the ETA cannot be converted.**  Of the
request that the handler builds, exactly one thing becomes iff it is discarded as
revoked, has no ETA, or has one that converts to a timestamp.  A request that is
rejected for its ETA is limited or handed to the pool all the same. -/
theorem taskMessageHandler_disposition_iff (c : Consumer) (m : Message V) {req : Request V}
    (hinit : Request.init c m = .ok req) :
    (∃ h d, taskMessageHandler c m = .ok h ∧ h.dispositions = [d]) ↔
      req.discarded c = true ∨ Convertible c req := by
  have hfresh := fresh_of_init hinit
  have hhandle : taskMessageHandler c m = handleRequest c req := by
    rw [taskMessageHandler, hinit]
    rfl
  rw [hhandle]
  cases hdis : req.discarded c with
  | true =>
    obtain ⟨h, hok, hd⟩ := handleRequest_discarded hfresh hdis
    exact ⟨fun _ => Or.inl rfl, fun _ => ⟨h, _, hok, hd⟩⟩
  | false =>
    rw [handleRequest_kept hfresh hdis]
    rcases etaTimestamp_cases c req with ⟨eta, heta, hconv⟩ | ⟨heta, hconv⟩ | ⟨⟨e, heta⟩, hconv⟩
    · obtain ⟨d, hd⟩ := keptEffects_disposition c eta
      refine ⟨fun _ => Or.inr hconv, fun _ => ?_⟩
      rw [heta]
      refine ⟨_, d, rfl, ?_⟩
      change req.disposed ++ _ = _
      rw [hfresh.disposed, hd, List.nil_append]
    · refine iff_of_false ?_ (by simpa using hconv)
      rintro ⟨h, d, hok, hd⟩
      rw [heta] at hok
      cases hok
      obtain ⟨e, he⟩ := keptEffects_disposition c none
      change (req.reject false).disposed ++ _ = _ at hd
      rw [disposed_reject hfresh.acknowledged, hfresh.disposed, he] at hd
      cases hd
    · refine iff_of_false ?_ (by simpa using hconv)
      rintro ⟨h, d, hok, -⟩
      rw [heta] at hok
      cases hok

/-- A time of day, in UTC. -/
def utcTime (D : Gregorian.Date) (hour minute : ℕ) (hh : hour < 24) (hm : minute < 60) : Datetime :=
  ⟨D, hour, minute, 0, 0, some .utc, hh, hm, Datetime.zero_lt_60, Datetime.zero_lt_1000000⟩

/-- The last half hour that a `datetime` can be in. -/
def lastHalfHour : Datetime :=
  utcTime ((Gregorian.date? 9999 12 31).get rfl) 23 30 (by decide) (by decide)

/-- Noon of the first day of 2030. -/
def noonOf2030 : Datetime :=
  utcTime ((Gregorian.date? 2030 1 1).get rfl) 12 0 Datetime.twelve_lt_24 Datetime.zero_lt_60

/-- A worker on the first day of 2024, one hour east of Greenwich. -/
def easternConsumer : Consumer where
  now := utcTime ((Gregorian.date? 2024 1 1).get rfl) 0 0 Datetime.zero_lt_24 Datetime.zero_lt_60
  isoparse text :=
    if text = "9999-12-31T23:30:00+00:00" then .ok lastHalfHour
    else if text = "2030-01-01T12:00:00+00:00" then .ok noonOf2030
    else .error "not read here"
  toSystemTz t := t.astimezone ⟨3600000000, by decide⟩
  toTimestamp t _ := .ok (max (t.instant - 719163 * 86400000000) 0)

/-- A message with an ETA. -/
def etaMessage (eta : String) : Message Unit where
  id := 1
  context := {}
  eta := some (.iso eta)

theorem taskMessageHandler_disposition_noonOf2030 :
    ∃ h d, taskMessageHandler easternConsumer (etaMessage "2030-01-01T12:00:00+00:00") = .ok h ∧
      h.dispositions = [d] := by
  refine (taskMessageHandler_disposition_iff easternConsumer
    (etaMessage "2030-01-01T12:00:00+00:00") rfl).2 (Or.inr ?_)
  rintro _ ⟨⟩
  exact ⟨_, rfl⟩

/-- An ETA that overflows in the zone of the worker is rejected, and executed. -/
theorem taskMessageHandler_lastHalfHour :
    ∃ h, taskMessageHandler easternConsumer (etaMessage "9999-12-31T23:30:00+00:00") = .ok h ∧
      h.dispositions = [.rejected, .reserved] :=
  ⟨_, rfl, rfl⟩

end Worker
end Celery
