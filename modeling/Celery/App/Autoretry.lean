/-
# `celery/app/autoretry.py`: retrying by itself

The wrapper `add_autoretry_behaviour` puts around the `run` of a task (lines
33-66), and what runs through it in one process, execution after execution.

The body of a task is a tree: it calls `self.retry`, and goes on in one way or
another from what that raises or returns, until it returns or raises itself.
`self.retry(max_retries=...)` leaves its argument on the task, which all
executions share, as `override_max_retries`, and the wrapper takes its limit from
there.  The attribute is deleted where `task.retry` returns, and there only: a
`Retry` that it raises, as it does by default, or that the body raises itself,
passes it by.

So a limit depends on earlier executions.  `limits_independent_iff` says exactly
which ones: those before which another limit than that of the task was left.
-/

import Celery.App.Retry

namespace Celery
namespace Autoretry

open Canvas Retry

variable {V : Type}

/-- The body of a task, as a tree of the calls of `self.retry` it makes. -/
inductive Body (V : Type) where
  | retry (call : Call V) (next : Except (Exc V) Unit → Body V)
  | finish (result : Except (Exc V) V)

/-- A task with `autoretry_for`.  `backoff` is the countdown after so many retries,
where there is a `retry_backoff`, and `typeError` what Python raises for a call that is
given `exc` twice. -/
structure Config (V : Type) where
  task : TaskType V
  autoretryFor : Exc V → Bool
  dontAutoretryFor : Exc V → Bool
  retryKwargs : Call V
  backoff : Option (ℕ → ℚ)
  typeError : V

/-- An execution of the task: its request, and what its body does. -/
structure Execution (V : Type) where
  request : Retry.Context V
  uuid : TaskId
  body : Body V

/-- What an execution leaves: the attribute `override_max_retries`, its result, and
the limit that the wrapper has applied, if it has retried the task. -/
structure Executed (V : Type) where
  override : Option ℤ
  result : Except (Exc V) V
  limit : Option (Option ℤ) := none

/-- `task._orig_run`, from a value of the attribute to another. -/
def Body.run (task : TaskType V) (app : App V) (uuid : TaskId) (r : Retry.Context V) :
    Body V → Option ℤ → Option ℤ × Except (Exc V) V
  | finish result, override => (override, result)
  | retry call next, override =>
    let retried := task.retry app uuid r call override
    (next retried.result).run task app uuid r retried.override

/-- An exception that passes the wrapper by. -/
def isSignal : Exc V → Bool
  | .ignore => true
  | .retry => true
  | _ => false

namespace Config

variable (cfg : Config V) (app : App V)

/-- The exceptions that the wrapper retries the task for. -/
def retries (exc : Exc V) : Bool :=
  !isSignal exc && !cfg.dontAutoretryFor exc && cfg.autoretryFor exc

/-- `retry_kwargs_for_attempt`, with the exception. -/
def retryKwargsForAttempt (r : Retry.Context V) (exc : Exc V) (override : Option ℤ) : Call V :=
  { cfg.retryKwargs with
    exc := some exc
    countdown := match cfg.backoff with
      | none => cfg.retryKwargs.countdown
      | some interval => some (interval r.retries)
    maxRetries := override.or cfg.retryKwargs.maxRetries }

/-- **The wrapper**: `run` of `add_autoretry_behaviour`.  It passes `exc` itself, so that
`retry_kwargs` which have one too make the call of `task.retry` fail. -/
def run (e : Execution V) (override : Option ℤ) : Executed V :=
  match e.body.run cfg.task app e.uuid e.request override with
  | (override, .ok v) => { override, result := .ok v }
  | (override, .error exc) =>
    if cfg.retries exc then
      if cfg.retryKwargs.exc.isSome then { override, result := .error (.other cfg.typeError) } else
      let call := cfg.retryKwargsForAttempt e.request exc override
      let ret := cfg.task.retry app e.uuid e.request call override
      let limit := some (call.maxRetries.or cfg.task.maxRetries)
      match ret.result with
      | .ok () => { override := none, result := .error .retry, limit }
      | .error exc => { override := ret.override, result := .error exc, limit }
    else { override, result := .error exc }

/-- The attribute that executions, one after the other, leave on the task. -/
def runAll (es : List (Execution V)) (override : Option ℤ) : Option ℤ :=
  es.foldl (fun override e => (cfg.run app e override).override) override

/-- The limit the task is configured with. -/
def limit : Option ℤ := cfg.retryKwargs.maxRetries.or cfg.task.maxRetries

end Config

/-! ### What an execution does with the attribute -/

section

variable (task : TaskType V) (app : App V) (uuid : TaskId) (r : Retry.Context V)

/-- `self.retry` sets the attribute, and does not read it. -/
theorem retry_override (call : Call V) (override : Option ℤ) :
    (task.retry app uuid r call override).override = call.maxRetries.or override ∧
      (task.retry app uuid r call override).result
        = (task.retry app uuid r call none).result := by
  simp only [TaskType.retry]
  split
  · exact ⟨rfl, rfl⟩
  split
  · exact ⟨rfl, rfl⟩
  split
  · exact ⟨rfl, rfl⟩
  split <;> exact ⟨rfl, rfl⟩

/-- Nor does a body: what it passes to `self.retry` takes the place of what was
there. -/
theorem body_run (b : Body V) (override : Option ℤ) :
    b.run task app uuid r override
      = ((b.run task app uuid r none).1.or override, (b.run task app uuid r none).2) := by
  induction b generalizing override with
  | finish result => rfl
  | retry call next ih =>
    simp only [Body.run]
    obtain ⟨hset, hresult⟩ := retry_override task app uuid r call override
    obtain ⟨hset₀, -⟩ := retry_override task app uuid r call none
    rw [hset, hresult, hset₀, ih, ih _ (call.maxRetries.or none), Option.or_none, Option.or_assoc]

end

namespace Execution

variable (cfg : Config V) (app : App V) (e : Execution V)

/-- The last `max_retries` that the body of an execution passes to `self.retry`. -/
def override : Option ℤ := (e.body.run cfg.task app e.uuid e.request none).1

/-- The wrapper retries the execution. -/
def Autoretried : Prop :=
  cfg.retryKwargs.exc = none ∧
    ∃ exc, (e.body.run cfg.task app e.uuid e.request none).2 = .error exc ∧ cfg.retries exc = true

end Execution

namespace Config

variable (cfg : Config V) (app : App V) (e : Execution V)

/-- **The limit of an execution**: what its body has passed to `self.retry` last,
else what was left on the task before, else what the task is configured with. -/
theorem run_limit (override : Option ℤ) (limit : Option ℤ) :
    (cfg.run app e override).limit = some limit ↔
      e.Autoretried cfg app ∧ limit = ((e.override cfg app).or override).or cfg.limit := by
  unfold run Execution.Autoretried Execution.override
  rw [body_run]
  cases hresult : (e.body.run cfg.task app e.uuid e.request none).2 with
  | ok v => simp
  | error exc =>
    by_cases hretries : cfg.retries exc = true
    swap
    · simp [hretries]
    cases hexc : cfg.retryKwargs.exc with
    | some _ => simp [hretries]
    | none =>
      simp only [hretries, if_true, Except.error.injEq, exists_eq_left', true_and,
        Option.isSome_none, Bool.false_eq_true, if_false]
      have hlimit : ∀ o : Option ℤ,
          (cfg.retryKwargsForAttempt e.request exc o).maxRetries.or cfg.task.maxRetries
            = o.or cfg.limit := fun o => by
        rw [retryKwargsForAttempt, Config.limit, Option.or_assoc]
      split <;> simp [hlimit, eq_comm]

/-- What was left before matters to an execution that the wrapper retries. -/
theorem run_limit_eq_iff (override : Option ℤ) :
    (cfg.run app e override).limit = (cfg.run app e none).limit ↔
      (e.Autoretried cfg app → e.override cfg app = none →
        override = none ∨ override = cfg.limit) := by
  have hiff : (cfg.run app e override).limit = (cfg.run app e none).limit ↔
      (e.Autoretried cfg app →
        ((e.override cfg app).or override).or cfg.limit = (e.override cfg app).or cfg.limit) := by
    rw [Option.ext_iff]
    simp only [run_limit, Option.or_none]
    constructor
    · intro h hretried
      exact ((h _).mp ⟨hretried, rfl⟩).2
    · intro h limit
      refine and_congr_right fun hretried => ?_
      rw [h hretried]
  rw [hiff]
  refine imp_congr_right fun _ => ?_
  cases e.override cfg app with
  | some m => simp
  | none =>
    cases override with
    | none => simp
    | some m => simp

/-- **Limits do not leak**: the limit of every execution is what it would be in a
process in which nothing has been executed before. -/
def LimitsIndependent (es : List (Execution V)) : Prop :=
  ∀ es₁ e es₂, es = es₁ ++ e :: es₂ →
    (cfg.run app e (cfg.runAll app es₁ none)).limit = (cfg.run app e none).limit

/-- The executions before leave no limit, or the one the task has anyway. -/
def Unleaked (es : List (Execution V)) : Prop :=
  cfg.runAll app es none = none ∨ cfg.runAll app es none = cfg.limit

/-- **When limits leak between requests.**  In every sequence of executions, the
limit the wrapper applies to each depends on that one and the task alone if and
only if, before every execution that the wrapper retries and that has not passed a
`max_retries` to `self.retry` itself, `override_max_retries` is not on the task or
is the limit the task is configured with. -/
theorem limits_independent_iff (es : List (Execution V)) :
    cfg.LimitsIndependent app es ↔
      ∀ es₁ e es₂, es = es₁ ++ e :: es₂ → e.Autoretried cfg app → e.override cfg app = none →
        cfg.Unleaked app es₁ := by
  refine forall₃_congr fun es₁ e es₂ => imp_congr_right fun _ => ?_
  exact cfg.run_limit_eq_iff app e (cfg.runAll app es₁ none)

end Config

/-- A task that is retried three times for any error. -/
def threeRetries : Config ℕ where
  task := defaultTask
  autoretryFor _ := true
  dontAutoretryFor _ := false
  retryKwargs := {}
  backoff := none
  typeError := 0

/-- An execution that asks for ten retries. -/
def asksForTen : Execution ℕ where
  request := clientRequest
  uuid := 8
  body := .retry { maxRetries := some 10 } fun
    | .ok () => .finish (.ok 0)
    | .error exc => .finish (.error exc)

/-- An execution, of another request, that fails. -/
def fails : Execution ℕ where
  request := { clientRequest with id := 9 }
  uuid := 10
  body := .finish (.error (.other 0))

/-- **A limit leaks.**  After an execution that has asked for ten retries, another
request of the task is given ten, and not three. -/
theorem limit_leaks :
    (threeRetries.run workerApp fails (threeRetries.runAll workerApp [asksForTen] none)).limit
        = some (some 10) ∧
      (threeRetries.run workerApp fails none).limit = some (some 3) ∧
      ¬ threeRetries.LimitsIndependent workerApp [asksForTen, fails] := by
  have hten : (threeRetries.run workerApp fails
      (threeRetries.runAll workerApp [asksForTen] none)).limit = some (some 10) := rfl
  have hthree : (threeRetries.run workerApp fails none).limit = some (some 3) := rfl
  refine ⟨hten, hthree, fun h => ?_⟩
  have heq := h [asksForTen] fails [] rfl
  rw [hten, hthree] at heq
  exact absurd heq (by decide)

end Autoretry
end Celery
