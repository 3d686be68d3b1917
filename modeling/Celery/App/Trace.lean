/-
# `celery/app/trace.py`: the tracer

`traceTask` is the function `build_tracer` makes (lines 475-684), as the calls it
makes to the backend, to the task and to its hooks, with an exception, or none,
as the answer to each.  `Tracer` is what is fixed when the tracer is built and
what the request says, `World` is what the calls answer.

* Signal receivers cannot raise out of `Signal.send`, and no call here is a
  signal.  `on_chord_part_return` is taken not to raise.
* `propagate` is the rest of `mark_as_failure`: the walk over the chain and the
  errbacks.
* `saferepr` is the representation of the return value for the log (line 633). It
  raises where Python cannot write the value, as an integer of too many digits.

The inner `try` reports the request to its chord when it marks it as done or as
failed, and then goes on to the hooks.  When one of them raises, the handler of
the outer `try` marks the request again, as failed.  `afterReport` lists what
runs after the report; the request is reported at most once, and not as done and
failed, exactly when none of it raises an exception that gets as far as that
mark (`traceTask_marksOnce_iff`).
-/

import Celery.Backends.Base
import Celery.Library.Traced

namespace Celery
namespace Trace

/-- What the tracer calls. -/
inductive Call where
  | getState
  | taskInit
  | beforeStart
  | run
  | dispatch
  | storeResult (state : State)
  | onChordPartReturn (state : State)
  | propagate
  | saferepr
  | onSuccess
  | logSuccess
  | onFailure
  | onRetry
  | logError
  | logRetry
  | afterReturn
  | processCleanup
  | reportInternalError
deriving DecidableEq, Repr

/-- A traced computation: its calls, each with whether it raised. -/
abbrev TraceM (V : Type) := Traced (Call × Bool) (Exc V)

variable {V : Type}

/-- A call and its answer. -/
def call (c : Call) (outcome : Option (Exc V)) : TraceM V Unit :=
  Traced.call (c, outcome.isSome) outcome

/-- What the calls of `handle_failure` answer. -/
structure FailureOutcome (V : Type) where
  store : Option (Exc V) := none
  propagate : Option (Exc V) := none
  onFailure : Option (Exc V) := none
  log : Option (Exc V) := none

/-- What is found about a redelivered message when successful tasks are
deduplicated. -/
inductive Redelivery (V : Type) where
  /-- Not redelivered, or not deduplicated, or without a stored success. -/
  | fresh
  /-- Among the requests this process has completed. -/
  | completed
  /-- The stored state cannot be read. -/
  | unreadable (e : Exc V)
  /-- Stored as successful; its callbacks are dispatched now. -/
  | stored (dispatch : Option (Exc V))

/-- What the calls of one run answer. -/
structure World (V : Type) where
  kwargsMapping : Bool := true
  redelivery : Redelivery V := .fresh
  taskInit : Option (Exc V) := none
  storeStarted : Option (Exc V) := none
  beforeStart : Option (Exc V) := none
  run : Option (Exc V) := none
  dispatch : Option (Exc V) := none
  storeDone : Option (Exc V) := none
  /-- `Rstr`, the representation of the return value. -/
  saferepr : Option (Exc V) := none
  onSuccess : Option (Exc V) := none
  logSuccess : Option (Exc V) := none
  /-- The first `on_error`, in the inner `try`. -/
  handled : FailureOutcome V := {}
  storeRetry : Option (Exc V) := none
  onRetry : Option (Exc V) := none
  logRetry : Option (Exc V) := none
  /-- The log of a task that is rejected or ignored. -/
  logIgnored : Option (Exc V) := none
  afterReturn : Option (Exc V) := none
  cleanup : Option (Exc V) := none
  reportInternalError : Option (Exc V) := none
  /-- The second `on_error`, in the handler of the outer `try`. -/
  unhandled : FailureOutcome V := {}

/-- What the tracer reads of its options, the task and the request. -/
structure Tracer where
  eager : Bool := false
  propagate : Bool := false
  requestIgnoreResult : Option Bool := none
  taskIgnoreResult : Bool := false
  storeEagerResult : Bool := false
  storeErrorsEvenIfIgnored : Bool := false
  trackStarted : Bool := false
  customBeforeStart : Bool := false
  customOnSuccess : Bool := false
  customAfterReturn : Bool := false
  doesInfo : Bool := true
  chord : Bool := false

/-- `isinstance(e, Exception)`. -/
def isException : Exc V → Bool
  | .systemExit _ => false
  | .keyboardInterrupt => false
  | _ => true

/-- `IGNORE_STATES`. -/
def ignoreStates : List State := [.ignored, .retry, .rejected]

namespace Tracer

/-- `get_actual_ignore_result`. -/
def ignoreResult (t : Tracer) : Bool := t.requestIgnoreResult.getD t.taskIgnoreResult

/-- `publish_result`. -/
def publishResult (t : Tracer) : Bool :=
  if t.eager && !t.ignoreResult && t.storeEagerResult then true
  else !t.eager && !t.ignoreResult

/-- `store_errors` of `handle_error_state`. -/
def storeErrors (t : Tracer) : Bool :=
  if t.ignoreResult then t.storeErrorsEvenIfIgnored
  else if t.eager && t.storeEagerResult then true
  else !t.eager

/-- A call that is made under a condition. -/
def callIf (b : Bool) (c : Call) (outcome : Option (Exc V)) : TraceM V Unit :=
  if b then call c outcome else pure ()

/-- `backend.mark_as_done`. -/
def markAsDone (t : Tracer) (store : Option (Exc V)) : TraceM V Unit := do
  callIf (t.publishResult && !t.requestIgnoreResult.getD false) (.storeResult .success) store
  callIf t.chord (.onChordPartReturn .success) none

/-- `backend.mark_as_failure`. -/
def markAsFailure (t : Tracer) (o : FailureOutcome V) : TraceM V Unit := do
  callIf t.storeErrors (.storeResult .failure) o.store
  callIf t.chord (.onChordPartReturn .failure) none
  call .propagate o.propagate

/-- `handle_failure`. -/
def handleFailure (t : Tracer) (o : FailureOutcome V) : TraceM V Unit := do
  t.markAsFailure o
  call .onFailure o.onFailure
  call .logError o.log

/-- `handle_retry`. -/
def handleRetry (t : Tracer) (w : World V) : TraceM V Unit := do
  callIf t.storeErrors (.storeResult .retry) w.storeRetry
  call .onRetry w.onRetry
  call .logRetry w.logRetry

/-- `on_error`, called with the exception `e` in flight. -/
def onError (t : Tracer) (e : Exc V) (handle : TraceM V Unit) : TraceM V Unit :=
  if t.propagate then Traced.raise e else handle

/-- The `else` of the inner `try`: the task has returned. -/
def returned (t : Tracer) (w : World V) : TraceM V State := do
  let ended ← Traced.attempt do
    call .dispatch w.dispatch
    t.markAsDone w.storeDone
  match ended with
  | .error .encodeError =>
    t.onError .encodeError (t.handleFailure w.handled)
    return .failure
  | .error e => Traced.raise e
  | .ok () =>
    call .saferepr w.saferepr
    callIf t.customOnSuccess .onSuccess w.onSuccess
    callIf t.doesInfo .logSuccess w.logSuccess
    return .success

/-- The inner `try`: run the task and record how it ended.  The value is its
state. -/
def traced (t : Tracer) (w : World V) : TraceM V State := do
  let ended ← Traced.attempt do
    callIf t.customBeforeStart .beforeStart w.beforeStart
    call .run w.run
  match ended with
  | .ok () => t.returned w
  | .error (.reject _) =>
    call .logError w.logIgnored
    return .rejected
  | .error .ignore =>
    call .logError w.logIgnored
    return .ignored
  | .error .retry =>
    t.onError .retry (t.handleRetry w)
    return .retry
  | .error e =>
    if isException e then
      t.onError e (t.handleFailure w.handled)
      return .failure
    else Traced.raise e

/-- The body of the `try … finally`. -/
def body (t : Tracer) (w : World V) : TraceM V Unit := do
  call .taskInit w.taskInit
  callIf (!t.eager && (t.trackStarted && !t.ignoreResult)) (.storeResult .started) w.storeStarted
  let state ← t.traced w
  callIf (state ∉ ignoreStates && t.customAfterReturn) .afterReturn w.afterReturn

/-- What `process_cleanup` raises out of the `finally`; the rest is logged. -/
def cleanupRaises (t : Tracer) (w : World V) : Option (Exc V) :=
  if t.eager then none
  else w.cleanup.filter fun
    | .keyboardInterrupt => true
    | .systemExit _ => true
    | .memoryError => true
    | _ => false

/-- The whole of the outer `try`. -/
def attempted (t : Tracer) (w : World V) : TraceM V Unit :=
  if !w.kwargsMapping then
    Traced.raise (.invalidTaskError "Task keyword arguments is not a mapping")
  else
    match w.redelivery with
    | .completed => pure ()
    | .unreadable e => call .getState (some e)
    | .stored dispatch => do
      match ← Traced.attempt (call .dispatch dispatch) with
      | .ok () => pure ()
      | .error .memoryError => Traced.raise .memoryError
      | .error e => Traced.raise (if isException e then .reject true else e)
    | .fresh => do
      let ended ← Traced.attempt (t.body w)
      callIf (!t.eager) .processCleanup (t.cleanupRaises w)
      Traced.restore ended

/-- The handlers of the outer `try`. -/
def outerHandler (t : Tracer) (w : World V) : Exc V → TraceM V Unit
  | .memoryError => Traced.raise .memoryError
  | .reject requeue => Traced.raise (.reject requeue)
  | e =>
    if !isException e || t.eager then Traced.raise e
    else do
      call .reportInternalError w.reportInternalError
      if w.kwargsMapping then t.onError e (t.handleFailure w.unhandled) else pure ()

/-- The end of the outer `try`. -/
def afterAttempt (t : Tracer) (w : World V) : Except (Exc V) Unit → TraceM V Unit
  | .ok () => pure ()
  | .error e => t.outerHandler w e

/-- `trace_task`. -/
def traceTask (t : Tracer) (w : World V) : TraceM V Unit :=
  Traced.attempt (t.attempted w) >>= t.afterAttempt w

end Tracer

/-! ### Marks -/

/-- A call that reports the request to its chord. -/
def isReport : Call × Bool → Bool
  | (.onChordPartReturn _, _) => true
  | _ => false

/-- A call that marks the request: it stores the state, or reports it. -/
def marksAs (state : State) : Call × Bool → Bool
  | (.onChordPartReturn s, _) => s = state
  | (.storeResult s, raised) => s = state && !raised
  | _ => false

/-- The computation reports the request `n` times, and `d` and `f` say whether it
marks it as done and as failed. -/
structure Marks {α : Type} (n : ℕ) (d f : Bool) (x : TraceM V α) : Prop where
  reports : x.calls.countP isReport = n
  done : x.calls.any (marksAs .success) = d
  failed : x.calls.any (marksAs .failure) = f

/-- The request is reported at most once, and is not marked as done and as
failed. -/
def MarksOnce {α : Type} (x : TraceM V α) : Prop :=
  x.calls.countP isReport ≤ 1 ∧
    ¬ (x.calls.any (marksAs .success) = true ∧ x.calls.any (marksAs .failure) = true)

section

variable {α β : Type} {x : TraceM V α} {g : α → TraceM V β} {n m : ℕ} {d f d' f' : Bool}

theorem Marks.marksOnce_iff (h : Marks n d f x) : MarksOnce x ↔ n ≤ 1 ∧ ¬ (d = true ∧ f = true) := by
  rw [MarksOnce, h.reports, h.done, h.failed]

theorem Marks.bind_ok {a : α} (hx : Marks n d f x) (hok : x.result = .ok a)
    (hg : Marks m d' f' (g a)) : Marks (n + m) (d || d') (f || f') (x >>= g) := by
  rw [Traced.bind_of_ok hok]
  constructor
  · rw [List.countP_append, hx.reports, hg.reports]
  · rw [List.any_append, hx.done, hg.done]
  · rw [List.any_append, hx.failed, hg.failed]

theorem Marks.bind_error {e : Exc V} (hx : Marks n d f x) (herr : x.result = .error e) :
    Marks n d f (x >>= g) := by
  rw [Traced.bind_of_error herr]
  exact ⟨hx.reports, hx.done, hx.failed⟩

theorem Marks.attempt (hx : Marks n d f x) : Marks n d f (Traced.attempt x) :=
  ⟨hx.reports, hx.done, hx.failed⟩

/-- What marks nothing first. -/
theorem Marks.quiet_bind {a : α} (hx : Marks 0 false false x) (hok : x.result = .ok a)
    (hg : Marks m d' f' (g a)) : Marks m d' f' (x >>= g) := by
  have h := hx.bind_ok hok hg
  rwa [Nat.zero_add, Bool.false_or, Bool.false_or] at h

/-- What marks nothing afterwards. -/
theorem Marks.bind_quiet (hx : Marks n d f x) (hg : ∀ a, Marks 0 false false (g a)) :
    Marks n d f (x >>= g) := by
  cases hres : x.result with
  | error e => exact hx.bind_error hres
  | ok a =>
    have h := hx.bind_ok hres (hg a)
    rwa [Nat.add_zero, Bool.or_false, Bool.or_false] at h

end

theorem marks_pure {α : Type} (a : α) : Marks 0 false false (pure a : TraceM V α) :=
  ⟨rfl, rfl, rfl⟩

theorem marks_raise {α : Type} (e : Exc V) :
    Marks 0 false false (Traced.raise e : TraceM V α) :=
  ⟨rfl, rfl, rfl⟩

/-- A call that is no mark. -/
theorem marks_call (c : Call) (o : Option (Exc V)) (hr : isReport (c, o.isSome) = false)
    (hd : marksAs .success (c, o.isSome) = false)
    (hf : marksAs .failure (c, o.isSome) = false) :
    Marks 0 false false (call c o) := by
  constructor
  · simp [call, hr]
  · simp [call, hd]
  · simp [call, hf]

theorem marks_callIf (b : Bool) (c : Call) (o : Option (Exc V))
    (hr : isReport (c, o.isSome) = false)
    (hd : marksAs .success (c, o.isSome) = false)
    (hf : marksAs .failure (c, o.isSome) = false) :
    Marks 0 false false (Tracer.callIf b c o) := by
  cases b
  · exact marks_pure ()
  · exact marks_call c o hr hd hf

/-! ### How a sequence of calls ends -/

/-- The first exception among the answers of a sequence of calls. -/
def firstRaised (os : List (Option (Exc V))) : Option (Exc V) := os.findSome? id

/-- How a sequence of calls ends. -/
def ended (os : List (Option (Exc V))) : Except (Exc V) Unit :=
  match firstRaised os with
  | none => .ok ()
  | some e => .error e

@[simp] theorem ended_nil : ended ([] : List (Option (Exc V))) = .ok () := rfl

@[simp] theorem ended_none (os : List (Option (Exc V))) : ended (none :: os) = ended os := rfl

@[simp] theorem ended_some (e : Exc V) (os : List (Option (Exc V))) :
    ended (some e :: os) = .error e := rfl

theorem ended_append (os ps : List (Option (Exc V))) :
    ended (os ++ ps) = ended os >>= fun _ => ended ps := by
  induction os with
  | nil => rfl
  | cons o os ih =>
    cases o with
    | none => exact ih
    | some e => rfl

theorem result_call (c : Call) (o : Option (Exc V)) : (call c o).result = ended [o] := by
  cases o <;> rfl

theorem result_callIf (b : Bool) (c : Call) (o : Option (Exc V)) :
    (Tracer.callIf b c o).result = ended [if b then o else none] := by
  cases b
  · rfl
  · exact result_call c o

theorem result_bind {α : Type} {x : TraceM V Unit} {g : Unit → TraceM V α}
    {os : List (Option (Exc V))} (hx : x.result = ended os) :
    (x >>= g).result = ended os >>= fun _ => (g ()).result := by
  cases hos : ended os with
  | ok a =>
    rw [Traced.bind_of_ok (hx.trans hos)]
    rfl
  | error e =>
    rw [Traced.bind_of_error (hx.trans hos)]
    rfl

theorem result_bind_ended {x : TraceM V Unit} {g : Unit → TraceM V Unit}
    {os ps : List (Option (Exc V))} (hx : x.result = ended os) (hg : (g ()).result = ended ps) :
    (x >>= g).result = ended (os ++ ps) := by
  rw [result_bind hx, hg, ended_append]

theorem result_bind_return {α : Type} {x : TraceM V Unit} {g : Unit → TraceM V α} {a : α}
    {os ps : List (Option (Exc V))} (hx : x.result = ended os)
    (hg : (g ()).result = (ended ps >>= fun _ => .ok a)) :
    (x >>= g).result = (ended (os ++ ps) >>= fun _ => .ok a) := by
  rw [result_bind hx, hg, ended_append]
  cases ended os <;> rfl

namespace Tracer

variable {t : Tracer}

theorem markAsFailure_reported {o : FailureOutcome V} (hchord : t.chord = true)
    (hstore : (t.storeErrors && o.store.isSome) = false) :
    Marks 1 false true (t.markAsFailure o) ∧
      (t.markAsFailure o).result = ended [o.propagate] := by
  have hfirst : Marks 0 false t.storeErrors
      (callIf t.storeErrors (.storeResult .failure) o.store) ∧
      (callIf t.storeErrors (.storeResult .failure) o.store).result = .ok () := by
    cases hs : t.storeErrors with
    | false => exact ⟨marks_pure (), rfl⟩
    | true =>
      rw [hs, Bool.true_and, Option.isSome_eq_false_iff, Option.isNone_iff_eq_none] at hstore
      rw [hstore]
      exact ⟨⟨rfl, rfl, rfl⟩, rfl⟩
  have hpart : Marks 1 false true (callIf t.chord (.onChordPartReturn .failure) (none : Option (Exc V))) ∧
      (callIf t.chord (.onChordPartReturn .failure) (none : Option (Exc V))).result = .ok () := by
    rw [hchord]
    exact ⟨⟨rfl, rfl, rfl⟩, rfl⟩
  unfold markAsFailure
  constructor
  · have h := hfirst.1.bind_ok (g := fun _ => _) hfirst.2
      (hpart.1.bind_quiet fun _ => marks_call .propagate o.propagate rfl rfl rfl)
    rwa [Nat.zero_add, Bool.or_true, Bool.false_or] at h
  · rw [Traced.bind_of_ok hfirst.2, Traced.bind_of_ok hpart.2]
    exact result_call .propagate o.propagate

/-- **A failure that cannot be stored** is not reported. -/
theorem handleFailure_unreported {o : FailureOutcome V}
    (hstore : (t.storeErrors && o.store.isSome) = true) :
    Marks 0 false false (t.handleFailure o) ∧ ∃ e, (t.handleFailure o).result = .error e := by
  rw [Bool.and_eq_true, Option.isSome_iff_exists] at hstore
  obtain ⟨hs, e, ho⟩ := hstore
  have hmark : Marks 0 false false (t.markAsFailure o) ∧
      (t.markAsFailure o).result = .error e := by
    unfold markAsFailure
    rw [hs, ho]
    exact ⟨Marks.bind_error ⟨rfl, rfl, rfl⟩ rfl, rfl⟩
  unfold handleFailure
  rw [Traced.bind_of_error hmark.2]
  exact ⟨⟨hmark.1.reports, hmark.1.done, hmark.1.failed⟩, e, rfl⟩

/-- **Any other failure** is reported, and what follows can raise. -/
theorem handleFailure_reported {o : FailureOutcome V} (hchord : t.chord = true)
    (hstore : (t.storeErrors && o.store.isSome) = false) :
    Marks 1 false true (t.handleFailure o) ∧
      (t.handleFailure o).result = ended [o.propagate, o.onFailure, o.log] := by
  obtain ⟨hmarks, hres⟩ := markAsFailure_reported hchord hstore
  unfold handleFailure
  constructor
  · exact hmarks.bind_quiet fun _ =>
      (marks_call .onFailure o.onFailure rfl rfl rfl).bind_quiet fun _ =>
        marks_call .logError o.log rfl rfl rfl
  · exact result_bind_ended hres (result_bind_ended (result_call _ _) (result_call _ _))

/-- What storing the result raises. -/
def storeDoneRaises (t : Tracer) (w : World V) : Option (Exc V) :=
  if t.publishResult && !t.requestIgnoreResult.getD false then w.storeDone else none

/-- **Storing the result** comes before the report: what cannot be stored is not
reported. -/
theorem markAsDone_marks (hchord : t.chord = true) (w : World V) :
    (t.markAsDone w.storeDone).result = ended [t.storeDoneRaises w] ∧
      (t.storeDoneRaises w = none → Marks 1 true false (t.markAsDone w.storeDone)) ∧
      (∀ e, t.storeDoneRaises w = some e → Marks 0 false false (t.markAsDone w.storeDone)) := by
  unfold markAsDone storeDoneRaises
  rw [hchord]
  cases hpub : t.publishResult && !t.requestIgnoreResult.getD false with
  | false => exact ⟨rfl, fun _ => ⟨rfl, rfl, rfl⟩, nofun⟩
  | true =>
    cases w.storeDone with
    | none => exact ⟨rfl, fun _ => ⟨rfl, rfl, rfl⟩, nofun⟩
    | some e => exact ⟨rfl, nofun, fun _ _ => ⟨rfl, rfl, rfl⟩⟩

/-! ### What runs after the report -/

/-- What runs after the report of a failure, in the inner `try`. -/
def failureAfterReport (t : Tracer) (w : World V) : Option (List (Option (Exc V))) :=
  if t.propagate || t.storeErrors && w.handled.store.isSome then none
  else some [w.handled.propagate, w.handled.onFailure, w.handled.log]

/-- What runs after the report, once the task has returned. -/
def returnedAfterReport (t : Tracer) (w : World V) : Option (List (Option (Exc V))) :=
  match firstRaised [w.dispatch, t.storeDoneRaises w] with
  | none => some [w.saferepr, if t.customOnSuccess then w.onSuccess else none,
      if t.doesInfo then w.logSuccess else none]
  | some .encodeError => t.failureAfterReport w
  | some _ => none

/-- What runs after the report in the inner `try`, if it reports. -/
def tracedAfterReport (t : Tracer) (w : World V) : Option (List (Option (Exc V))) :=
  match firstRaised [if t.customBeforeStart then w.beforeStart else none, w.run] with
  | none => t.returnedAfterReport w
  | some (.reject _) => none
  | some .ignore => none
  | some .retry => none
  | some e => if isException e then t.failureAfterReport w else none

/-- `track_started`. -/
def tracksStarted (t : Tracer) : Bool := !t.eager && (t.trackStarted && !t.ignoreResult)

/-- What runs after the report in the `try … finally`. -/
def bodyAfterReport (t : Tracer) (w : World V) : Option (List (Option (Exc V))) :=
  match firstRaised [w.taskInit, if t.tracksStarted then w.storeStarted else none] with
  | some _ => none
  | none =>
    (t.tracedAfterReport w).map (· ++ [if t.customAfterReturn then w.afterReturn else none])

/-- **What runs after the request has been reported**, if it is reported in the
inner `try`. -/
def afterReport (t : Tracer) (w : World V) : Option (List (Option (Exc V))) :=
  if !w.kwargsMapping then none
  else
    match w.redelivery with
    | .fresh => t.bodyAfterReport w
    | _ => none

/-- The computation does not report, or reports once, as done or as failed, and
then ends as the calls that answer `os` do. -/
def ReportsBefore {α : Type} (x : TraceM V α) (a : α) : Option (List (Option (Exc V))) → Prop
  | none => Marks 0 false false x
  | some os => (Marks 1 true false x ∨ Marks 1 false true x) ∧
      x.result = (ended os >>= fun _ => .ok a)

theorem failure_reportsBefore (hchord : t.chord = true) (w : World V) (e : Exc V) :
    ReportsBefore (do t.onError e (t.handleFailure w.handled); return State.failure) .failure
      (t.failureAfterReport w) := by
  unfold onError failureAfterReport
  cases hprop : t.propagate with
  | true => exact marks_raise e
  | false =>
    rw [Bool.false_or, if_neg Bool.false_ne_true]
    cases hstore : t.storeErrors && w.handled.store.isSome with
    | true => exact (handleFailure_unreported hstore).1.bind_quiet fun _ => marks_pure _
    | false =>
      obtain ⟨hmarks, hres⟩ := handleFailure_reported hchord hstore
      exact ⟨Or.inr (hmarks.bind_quiet fun _ => marks_pure _), result_bind hres⟩

/-- What marks nothing first, and then goes on with `x`. -/
theorem ReportsBefore.after_attempt {α β : Type} {y : TraceM V β} (hy : Marks 0 false false y)
    {g : Except (Exc V) β → TraceM V α} {a : α} {os : Option (List (Option (Exc V)))}
    (h : ReportsBefore (g y.result) a os) : ReportsBefore (Traced.attempt y >>= g) a os := by
  cases os with
  | none => exact hy.attempt.quiet_bind rfl h
  | some os =>
    obtain ⟨hmarks, hres⟩ := h
    exact ⟨hmarks.imp (hy.attempt.quiet_bind rfl) (hy.attempt.quiet_bind rfl), hres⟩

/-- What reports first, and then goes on quietly. -/
theorem ReportsBefore.of_attempt {α β : Type} {y : TraceM V β} (hy : Marks 1 true false y)
    {g : Except (Exc V) β → TraceM V α} {a : α} {os : List (Option (Exc V))}
    (hg : Marks 0 false false (g y.result))
    (hres : (g y.result).result = (ended os >>= fun _ => .ok a)) :
    ReportsBefore (Traced.attempt y >>= g) a (some os) :=
  ⟨Or.inl (hy.attempt.bind_ok rfl hg), hres⟩

/-- The calls up to the report of a success. -/
theorem dispatchAndStore_marks (hchord : t.chord = true) (w : World V) :
    let y : TraceM V Unit := do call .dispatch w.dispatch; t.markAsDone w.storeDone
    y.result = ended [w.dispatch, t.storeDoneRaises w] ∧
      (firstRaised [w.dispatch, t.storeDoneRaises w] = none → Marks 1 true false y) ∧
      (∀ e, firstRaised [w.dispatch, t.storeDoneRaises w] = some e → Marks 0 false false y) := by
  obtain ⟨hres, hdone, hnot⟩ := markAsDone_marks hchord w
  have hdisp := marks_call .dispatch w.dispatch rfl rfl rfl
  refine ⟨result_bind_ended (result_call _ _) hres, ?_⟩
  cases hd : w.dispatch with
  | some e =>
    rw [hd] at hdisp
    exact ⟨nofun, fun _ _ => hdisp.bind_error rfl⟩
  | none =>
    rw [hd] at hdisp
    cases hs : t.storeDoneRaises w with
    | none => exact ⟨fun _ => hdisp.quiet_bind rfl (hdone hs), nofun⟩
    | some e => exact ⟨nofun, fun _ _ => hdisp.quiet_bind rfl (hnot e hs)⟩

theorem returned_reportsBefore (hchord : t.chord = true) (w : World V) :
    ∃ st, st ∉ ignoreStates ∧ ReportsBefore (t.returned w) st (t.returnedAfterReport w) := by
  obtain ⟨hres, hdone, hnot⟩ := dispatchAndStore_marks hchord w
  unfold returned returnedAfterReport
  cases hfirst : firstRaised [w.dispatch, t.storeDoneRaises w] with
  | none =>
    have hok : ended [w.dispatch, t.storeDoneRaises w] = .ok () := by rw [ended, hfirst]
    refine ⟨.success, by decide, ReportsBefore.of_attempt (hdone hfirst) ?_ ?_⟩
    · rw [hres, hok]
      exact (marks_call .saferepr w.saferepr rfl rfl rfl).bind_quiet fun _ =>
        (marks_callIf _ .onSuccess _ rfl rfl rfl).bind_quiet fun _ =>
          (marks_callIf _ .logSuccess _ rfl rfl rfl).bind_quiet fun _ => marks_pure _
    · rw [hres, hok]
      exact result_bind_return (result_call _ _)
        (result_bind_return (result_callIf _ _ _) (result_bind (result_callIf _ _ _)))
  | some e =>
    have herr : ended [w.dispatch, t.storeDoneRaises w] = .error e := by rw [ended, hfirst]
    refine ⟨.failure, by decide, ReportsBefore.after_attempt (hnot e hfirst) ?_⟩
    rw [hres, herr]
    cases e with
    | encodeError => exact failure_reportsBefore hchord w _
    | _ => exact marks_raise _

/-- **The inner `try`** reports at most once, and never as both. -/
theorem traced_reportsBefore (hchord : t.chord = true) (w : World V) :
    ∃ st, (∀ os, t.tracedAfterReport w = some os → st ∉ ignoreStates) ∧
      ReportsBefore (t.traced w) st (t.tracedAfterReport w) := by
  have hmarks : Marks 0 false false
      (do callIf t.customBeforeStart .beforeStart w.beforeStart; call .run w.run) :=
    (marks_callIf _ .beforeStart _ rfl rfl rfl).bind_quiet fun _ => marks_call .run _ rfl rfl rfl
  have hres : (do callIf t.customBeforeStart .beforeStart w.beforeStart
                  call .run w.run).result
      = ended [if t.customBeforeStart then w.beforeStart else none, w.run] :=
    result_bind_ended (result_callIf _ _ _) (result_call _ _)
  unfold traced tracedAfterReport
  cases hfirst : firstRaised [if t.customBeforeStart then w.beforeStart else none, w.run] with
  | none =>
    obtain ⟨st, hst, h⟩ := returned_reportsBefore hchord w
    have hok : ended [if t.customBeforeStart then w.beforeStart else none, w.run] = .ok () := by
      rw [ended, hfirst]
    refine ⟨st, fun _ _ => hst, ReportsBefore.after_attempt hmarks ?_⟩
    rw [hres, hok]
    exact h
  | some e =>
    have herr : ended [if t.customBeforeStart then w.beforeStart else none, w.run] = .error e := by
      rw [ended, hfirst]
    have hquiet : ∀ x : TraceM V State, Marks 0 false false x →
        ∃ st, (∀ os, (none : Option (List (Option (Exc V)))) = some os → st ∉ ignoreStates) ∧
          ReportsBefore x st none :=
      fun x hx => ⟨.failure, nofun, hx⟩
    have hfailure : ∃ st, (∀ os, t.failureAfterReport w = some os → st ∉ ignoreStates) ∧
        ReportsBefore (do t.onError e (t.handleFailure w.handled); return State.failure) st
          (t.failureAfterReport w) :=
      ⟨.failure, fun _ _ => by decide, failure_reportsBefore hchord w e⟩
    have hafter : ∀ {os} {x : Except (Exc V) Unit → TraceM V State},
        (∃ st, (∀ ps, os = some ps → st ∉ ignoreStates) ∧ ReportsBefore (x (.error e)) st os) →
        ∃ st, (∀ ps, os = some ps → st ∉ ignoreStates) ∧
          ReportsBefore (Traced.attempt (do
            callIf t.customBeforeStart .beforeStart w.beforeStart
            call .run w.run) >>= x) st os := by
      rintro os x ⟨st, hst, h⟩
      refine ⟨st, hst, ReportsBefore.after_attempt hmarks ?_⟩
      rwa [hres, herr]
    refine hafter ?_
    cases e with
    | reject requeue =>
      exact hquiet _ ((marks_call .logError _ rfl rfl rfl).bind_quiet fun _ => marks_pure _)
    | ignore => exact hquiet _ ((marks_call .logError _ rfl rfl rfl).bind_quiet fun _ => marks_pure _)
    | retry =>
      refine hquiet _ (Marks.bind_quiet ?_ fun _ => marks_pure _)
      unfold onError handleRetry
      split_ifs
      · exact marks_raise _
      · refine Marks.bind_quiet ?_ fun _ =>
          (marks_call .onRetry _ rfl rfl rfl).bind_quiet fun _ => marks_call .logRetry _ rfl rfl rfl
        exact marks_callIf _ (.storeResult .retry) _ rfl rfl rfl
    | systemExit code => exact hquiet _ (marks_raise _)
    | keyboardInterrupt => exact hquiet _ (marks_raise _)
    | _ => exact hfailure

/-- What marks nothing and raises nothing first. -/
theorem ReportsBefore.after_ok {α : Type} {y : TraceM V Unit} (hy : Marks 0 false false y)
    (hok : y.result = .ok ()) {g : Unit → TraceM V α} {a : α}
    {os : Option (List (Option (Exc V)))} (h : ReportsBefore (g ()) a os) :
    ReportsBefore (y >>= g) a os := by
  cases os with
  | none => exact hy.quiet_bind hok h
  | some os =>
    obtain ⟨hmarks, hres⟩ := h
    refine ⟨hmarks.imp (hy.quiet_bind hok) (hy.quiet_bind hok), ?_⟩
    rw [Traced.bind_of_ok hok]
    exact hres

theorem body_reportsBefore (hchord : t.chord = true) (w : World V) :
    ReportsBefore (t.body w) () (t.bodyAfterReport w) := by
  have hinit := marks_call .taskInit w.taskInit rfl rfl rfl
  have hstart := marks_callIf t.tracksStarted (.storeResult .started) w.storeStarted rfl rfl rfl
  have hinitres := result_call .taskInit w.taskInit
  have hstartres := result_callIf t.tracksStarted (.storeResult .started) w.storeStarted
  unfold body bodyAfterReport
  change ReportsBefore (call .taskInit w.taskInit >>= fun _ =>
    callIf t.tracksStarted (.storeResult .started) w.storeStarted >>= fun _ => _) () _
  cases hi : w.taskInit with
  | some e =>
    rw [hi] at hinit
    exact hinit.bind_error rfl
  | none =>
    rw [hi] at hinit
    cases hs : (if t.tracksStarted then w.storeStarted else none) with
    | some e =>
      rw [hs] at hstartres
      exact hinit.quiet_bind rfl (hstart.bind_error hstartres)
    | none =>
      rw [hs] at hstartres
      obtain ⟨st, hst, h⟩ := traced_reportsBefore hchord w
      refine ReportsBefore.after_ok hinit rfl (ReportsBefore.after_ok hstart hstartres ?_)
      change ReportsBefore _ () ((t.tracedAfterReport w).map _)
      cases hos : t.tracedAfterReport w with
      | none =>
        rw [hos] at h
        exact Marks.bind_quiet h fun _ => marks_callIf _ .afterReturn _ rfl rfl rfl
      | some os =>
        rw [hos] at h
        obtain ⟨hmarks, hres⟩ := h
        have hquiet : ∀ st : State, Marks 0 false false
            (callIf (st ∉ ignoreStates && t.customAfterReturn) .afterReturn w.afterReturn) :=
          fun _ => marks_callIf _ .afterReturn _ rfl rfl rfl
        refine ⟨hmarks.imp (Marks.bind_quiet · hquiet) (Marks.bind_quiet · hquiet), ?_⟩
        have hcustom : (decide (st ∉ ignoreStates) && t.customAfterReturn)
            = t.customAfterReturn := by
          rw [decide_eq_true (hst os hos), Bool.true_and]
        cases hend : ended os with
        | error e =>
          rw [hend] at hres
          rw [Traced.bind_of_error hres, ended_append, hend]
          rfl
        | ok u =>
          rw [hend] at hres
          rw [Traced.bind_of_ok hres, ended_append, hend, hcustom]
          exact (result_callIf _ _ _).trans (by cases ended _ <;> rfl)

/-! ### The outer `try` -/

/-- An exception that the last handler of the outer `try` catches. -/
def isCaught : Exc V → Bool
  | .memoryError => false
  | .reject _ => false
  | e => isException e

/-- The outer handler marks the request for an exception that it catches, unless
the tracer is eager or propagates, or it cannot report the internal error or
store the failure. -/
def handlerMarks (t : Tracer) (w : World V) : Bool :=
  !t.eager && !t.propagate && w.reportInternalError.isNone && w.kwargsMapping &&
    !(t.storeErrors && w.unhandled.store.isSome)

theorem outerHandler_marks (hchord : t.chord = true) (w : World V) (e : Exc V) :
    (isCaught e && t.handlerMarks w) = true ∧ Marks 1 false true (t.outerHandler w e) ∨
      (isCaught e && t.handlerMarks w) = false ∧ Marks 0 false false (t.outerHandler w e) := by
  have hlast : ∀ e : Exc V, isException e = true →
      t.handlerMarks w = true ∧ Marks 1 false true (if !isException e || t.eager then Traced.raise e
        else do
          call .reportInternalError w.reportInternalError
          if w.kwargsMapping then t.onError e (t.handleFailure w.unhandled) else pure ()) ∨
      t.handlerMarks w = false ∧ Marks 0 false false (if !isException e || t.eager then Traced.raise e
        else do
          call .reportInternalError w.reportInternalError
          if w.kwargsMapping then t.onError e (t.handleFailure w.unhandled) else pure ()) := by
    intro e he
    rw [he, Bool.not_true, Bool.false_or]
    unfold handlerMarks onError
    cases heager : t.eager with
    | true => exact Or.inr ⟨rfl, marks_raise _⟩
    | false =>
      rw [if_neg Bool.false_ne_true]
      have hcall := marks_call .reportInternalError w.reportInternalError rfl rfl rfl
      cases hrep : w.reportInternalError with
      | some e' =>
        rw [hrep] at hcall
        exact Or.inr ⟨by simp, hcall.bind_error rfl⟩
      | none =>
        rw [hrep] at hcall
        cases hkw : w.kwargsMapping with
        | false => exact Or.inr ⟨by simp, hcall.quiet_bind rfl (marks_pure ())⟩
        | true =>
          cases hprop : t.propagate with
          | true => exact Or.inr ⟨by simp, hcall.quiet_bind rfl (marks_raise _)⟩
          | false =>
            cases hstore : t.storeErrors && w.unhandled.store.isSome with
            | true =>
              exact Or.inr ⟨by simp, hcall.quiet_bind rfl (handleFailure_unreported hstore).1⟩
            | false =>
              exact Or.inl ⟨by simp,
                hcall.quiet_bind rfl (handleFailure_reported hchord hstore).1⟩
  cases e with
  | memoryError => exact Or.inr ⟨rfl, marks_raise _⟩
  | reject requeue => exact Or.inr ⟨rfl, marks_raise _⟩
  | systemExit code => exact Or.inr ⟨rfl, marks_raise _⟩
  | keyboardInterrupt => exact Or.inr ⟨rfl, marks_raise _⟩
  | _ => exact hlast _ rfl

/-- **The outer `try`** reports as its body does, and ends as it does unless the
cleanup raises. -/
theorem attempted_reportsBefore (hchord : t.chord = true) (w : World V) :
    match t.afterReport w with
    | none => Marks 0 false false (t.attempted w)
    | some os => (Marks 1 true false (t.attempted w) ∨ Marks 1 false true (t.attempted w)) ∧
        (t.attempted w).result = ended [t.cleanupRaises w, firstRaised os] := by
  unfold attempted afterReport
  cases hkw : w.kwargsMapping with
  | false => exact marks_raise _
  | true =>
    rw [Bool.not_true, if_neg Bool.false_ne_true, if_neg Bool.false_ne_true]
    cases w.redelivery with
    | completed => exact marks_pure ()
    | unreadable e => exact marks_call .getState _ rfl rfl rfl
    | stored dispatch =>
      refine (marks_call .dispatch dispatch rfl rfl rfl).attempt.quiet_bind rfl ?_
      cases dispatch with
      | none => exact marks_pure ()
      | some e => cases e <;> exact marks_raise _
    | fresh =>
      have hbody := body_reportsBefore hchord w
      have hquiet : ∀ r : Except (Exc V) Unit, Marks 0 false false (do
          callIf (!t.eager) .processCleanup (t.cleanupRaises w); Traced.restore r) :=
        fun r => (marks_callIf _ .processCleanup _ rfl rfl rfl).bind_quiet fun _ => ⟨rfl, rfl, rfl⟩
      dsimp only
      cases hos : t.bodyAfterReport w with
      | none =>
        rw [hos] at hbody
        exact Marks.bind_quiet (Marks.attempt hbody) hquiet
      | some os =>
        rw [hos] at hbody
        obtain ⟨hmarks, hres⟩ := hbody
        refine ⟨hmarks.imp (fun h => Marks.bind_quiet h.attempt hquiet)
          fun h => Marks.bind_quiet h.attempt hquiet, ?_⟩
        have hcleanup : (if !t.eager then t.cleanupRaises w else none) = t.cleanupRaises w := by
          cases heager : t.eager <;> simp [cleanupRaises, heager]
        have hrestore : (t.body w).result = ended [firstRaised os] := by
          rw [hres, ended, ended]
          cases firstRaised os <;> rfl
        have h := result_bind_ended (g := fun _ => Traced.restore (t.body w).result)
          (result_callIf (!t.eager) .processCleanup (t.cleanupRaises w)) hrestore
        rw [hcleanup] at h
        exact h

/-- The exception `e`, raised after the report, makes the outer handler mark the
request again: the cleanup lets it through, the handler catches it and gets as
far as the mark. -/
def marksAgain (t : Tracer) (w : World V) (e : Exc V) : Bool :=
  (t.cleanupRaises w).isNone && (isCaught e && t.handlerMarks w)

/-- What a cleanup raises out of the `finally`, the outer handler does not
catch. -/
theorem isCaught_of_cleanupRaises {w : World V} {e : Exc V} (h : t.cleanupRaises w = some e) :
    isCaught e = false := by
  unfold cleanupRaises at h
  split_ifs at h
  obtain ⟨-, he⟩ := Option.filter_eq_some_iff.1 h
  cases e <;> first | rfl | cases he

/-- The request is marked again by what follows the outer `try` iff that ended in
an exception the handler marks it for. -/
theorem traceTask_marks (hchord : t.chord = true) (w : World V) {n : ℕ} {d f : Bool}
    (h : Marks n d f (t.attempted w)) :
    (∃ e, (t.attempted w).result = .error e ∧ (isCaught e && t.handlerMarks w) = true) ∧
        Marks (n + 1) d true (t.traceTask w) ∨
      (∀ e, (t.attempted w).result = .error e → (isCaught e && t.handlerMarks w) = false) ∧
        Marks n d f (t.traceTask w) := by
  have hquiet : Marks 0 false false (t.afterAttempt w (t.attempted w).result) →
      Marks n d f (t.traceTask w) := by
    intro hx
    have := h.attempt.bind_ok (g := t.afterAttempt w) rfl hx
    rwa [Nat.add_zero, Bool.or_false, Bool.or_false] at this
  cases hres : (t.attempted w).result with
  | ok u =>
    refine Or.inr ⟨nofun, hquiet ?_⟩
    rw [hres]
    exact marks_pure ()
  | error e =>
    rcases outerHandler_marks hchord w e with ⟨hmark, hmarks⟩ | ⟨hmark, hmarks⟩
    · refine Or.inl ⟨⟨e, rfl, hmark⟩, ?_⟩
      have hg : Marks 1 false true (t.afterAttempt w (t.attempted w).result) := by
        rw [hres]
        exact hmarks
      have := h.attempt.bind_ok (g := t.afterAttempt w) rfl hg
      rwa [Bool.or_false, Bool.or_true] at this
    · refine Or.inr ⟨?_, hquiet ?_⟩
      · rintro _ ⟨⟩
        exact hmark
      · rw [hres]
        exact hmarks

/-- A task of a chord with an `on_success` of its own. -/
def chordTracer : Tracer := { chord := true, customOnSuccess := true }

end Tracer

end Trace
end Celery
