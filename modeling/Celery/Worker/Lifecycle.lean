/-
# `celery/bootsteps.py`: starting, reconnecting and stopping

`start`, `close`, `restart`, `send_all` and `stop` of `Blueprint` (lines 110–184), and the loop of
`Consumer.start` in `celery/worker/consumer/consumer.py` (lines 367–408), as the calls that they
make to the steps.

Where a step raises a connection error all steps are stopped, last first, also those that have not
been started, and the loop starts anew.  So whatever is raised, and however often the connection is
lost, steps are started in order, no step is started again before it is stopped, and none is stopped
before those that were started after it (`stopped_of_run`).  `Evloop` comes last, and its `start`
returns only when the blueprint has been closed, or when the connection has been shut down, which
the steps themselves do as they are stopped.

`stop` calls no step of a blueprint that has not been fully started.  So when the loop has ended,
what runs is stopped only if the last step had been reached.

The callbacks of the blueprint and of the consumer, logging and `restart_count` are left out.
-/

import Mathlib.Data.List.Range
import Mathlib.Tactic.Common

namespace Celery
namespace Lifecycle

/-- A call of a method of the step with this index. -/
inductive Call where
  | start (k : ℕ)
  | close (k : ℕ)
  | stop (k : ℕ)
  | terminate (k : ℕ)
  deriving DecidableEq

/-- `RUN`, `CLOSE`, `TERMINATE`, and `None` before. -/
inductive BlueprintState where
  | initializing
  | run
  | close
  | terminate
  deriving DecidableEq

/-- The fields of a `Blueprint` that change. -/
structure Blueprint where
  state : BlueprintState
  started : ℕ

/-- What a step raises: an error that the loop of the consumer recovers from, `EMFILE` or not,
`WorkerShutdown`, `WorkerTerminate`, or another exception. -/
inductive Exc where
  | recoverable (emfile : Bool)
  | workerShutdown
  | workerTerminate
  | other
  deriving DecidableEq

/-- `WorkerShutdown` and `WorkerTerminate` extend `SystemExit`. -/
def Exc.isException : Exc → Bool
  | .workerShutdown | .workerTerminate => false
  | .recoverable _ | .other => true

/-! ## `Blueprint` -/

/-- What is raised, if it is not caught and logged. -/
def uncaught (propagate : Bool) (raised : Option Exc) : Option Exc :=
  raised.filter fun exc => propagate || !exc.isException

/-- `send_all`, for the steps in this order. -/
def sendAll (call : ℕ → Call) (raises : ℕ → Option Exc) (propagate : Bool) :
    List ℕ → List Call × Option Exc
  | [] => ([], none)
  | k :: ks =>
    match uncaught propagate (raises k) with
    | some exc => ([call k], some exc)
    | none =>
      let sent := sendAll call raises propagate ks
      (call k :: sent.1, sent.2)

namespace Blueprint

variable (n : ℕ)

/-- `state in STOP_CONDITIONS`. -/
def stopping (b : Blueprint) : Bool := b.state == .close || b.state == .terminate

/-- `Blueprint.start`, of `n` steps.  `started` is set before each of them is started. -/
def start (raises : ℕ → Option Exc) (b : Blueprint) : List Call × Blueprint × Option Exc :=
  let sent := sendAll .start raises true (List.range n)
  (sent.1, ⟨.run, if sent.1 = [] then b.started else sent.1.length⟩, sent.2)

/-- The blueprint, if it is closed meanwhile. -/
def meanwhile (closed : Bool) (b : Blueprint) : Blueprint :=
  if closed then { b with state := .close } else b

/-- `Blueprint.restart`, which stops all steps. -/
def restart (raises : ℕ → Option Exc) : List Call × Option Exc :=
  sendAll .stop raises false (List.range n).reverse

/-- `Blueprint.stop`, with what `close` and `stop` or `terminate` of the steps raise. -/
def stop (terminate : Bool) (closeRaises stopRaises : ℕ → Option Exc) (b : Blueprint) :
    List Call × Blueprint × Option Exc :=
  if b.stopping then ([], b, none)
  else if b.state ≠ .run ∨ b.started ≠ n then ([], { b with state := .terminate }, none)
  else
    let closed := sendAll .close closeRaises true (List.range n)
    if closed.2.isSome then (closed.1, b, closed.2)
    else
      let sent := sendAll (if terminate then .terminate else .stop) stopRaises false
        (List.range n).reverse
      (closed.1 ++ sent.1, { b with state := if sent.2.isSome then .close else .terminate }, sent.2)

end Blueprint

/-! ## `Consumer.start` -/

/-- What happens in one round of the loop: what `maybe_shutdown` raises, what the steps raise as
they are started, whether the blueprint is closed meanwhile, whether the connection is to be
retried, what `maybe_shutdown` raises then, and what the steps raise as they are stopped. -/
structure Round where
  shutdown : Option Exc
  raises : ℕ → Option Exc
  closed : Bool
  retry : Bool
  late : Option Exc
  stopRaises : ℕ → Option Exc

/-- How `Consumer.start` has ended. -/
inductive Ended where
  | returned
  | raised (exc : Exc)
  deriving DecidableEq

/-- The calls that were made, the blueprint, and how the loop has ended, if it has. -/
structure Loop where
  calls : List Call
  blueprint : Blueprint
  ended : Option Ended

/-- The handler of the connection errors. -/
def recover (n : ℕ) (r : Round) (calls : List Call) (b : Blueprint) (emfile : Bool) : Loop :=
  if !r.retry then ⟨calls, b, some (.raised .workerShutdown)⟩
  else if emfile then ⟨calls, b, some (.raised .workerTerminate)⟩
  else
    match r.late with
    | some exc => ⟨calls, b, some (.raised exc)⟩
    | none =>
      if b.stopping then ⟨calls, b, none⟩
      else
        let sent := Blueprint.restart n r.stopRaises
        ⟨calls ++ sent.1, b, sent.2.map .raised⟩

/-- A round of the loop. -/
def round (n : ℕ) (b : Blueprint) (r : Round) : Loop :=
  match r.shutdown with
  | some exc => ⟨[], b, some (.raised exc)⟩
  | none =>
    let sent := b.start n r.raises
    let b := sent.2.1.meanwhile r.closed
    match sent.2.2 with
    | none => ⟨sent.1, b, none⟩
    | some (.recoverable emfile) => recover n r sent.1 b emfile
    | some exc => ⟨sent.1, b, some (.raised exc)⟩

/-- **`Consumer.start`**, for as many rounds as are given. -/
def run (n : ℕ) : Blueprint → List Round → Loop
  | b, [] => ⟨[], b, if b.stopping then some .returned else none⟩
  | b, r :: rs =>
    if b.stopping then ⟨[], b, some .returned⟩
    else
      let l := round n b r
      match l.ended with
      | some _ => l
      | none =>
        let m := run n l.blueprint rs
        { m with calls := l.calls ++ m.calls }

/-! ## The order of the calls -/

/-- How many steps run after a call, if the first `l` do before.  There is none for a call that is
out of order: the step that is started is the next one, and a step that runs is only stopped if it
is the last one. -/
def Call.live (l : ℕ) : Call → Option ℕ
  | .start k => if k = l then some (l + 1) else none
  | .close _ => some l
  | .stop k => if k < l then (if k + 1 = l then some k else none) else some l
  | .terminate k => if k < l then (if k + 1 = l then some k else none) else some l

/-- How many steps run after some calls, if none did before and all calls are in order. -/
def live (calls : List Call) : Option ℕ := calls.foldlM Call.live 0

variable {n : ℕ} {raises : ℕ → Option Exc}

/-- What is sent goes to the first steps, and to all of them if nothing is raised. -/
theorem exists_sendAll (call : ℕ → Call) (raises : ℕ → Option Exc) (propagate : Bool)
    (ks : List ℕ) :
    ∃ sent, sent <+: ks ∧ (sendAll call raises propagate ks).1 = sent.map call ∧
      ((sendAll call raises propagate ks).2 = none → sent = ks) := by
  induction ks with
  | nil => exact ⟨[], List.prefix_rfl, rfl, fun _ => rfl⟩
  | cons k ks ih =>
    rw [sendAll]
    split
    · exact ⟨[k], List.prefix_append [k] ks, rfl, fun h => absurd h (by simp)⟩
    · obtain ⟨sent, hsent, hcalls, hall⟩ := ih
      refine ⟨k :: sent, List.cons_prefix_cons.mpr ⟨rfl, hsent⟩, ?_, fun h => ?_⟩
      · rw [List.map_cons, ← hcalls]
      · rw [hall h]

theorem sendAll_eq_none {call : ℕ → Call} {propagate : Bool} {ks : List ℕ} :
    (sendAll call raises propagate ks).2 = none ↔
      ∀ k ∈ ks, uncaught propagate (raises k) = none := by
  induction ks with
  | nil => simp [sendAll]
  | cons k ks ih =>
    rw [sendAll, List.forall_mem_cons, ← ih]
    split
    next h => simp [h]
    next h => simp [h]

theorem uncaught_true (raised : Option Exc) : uncaught true raised = raised := by
  cases raised <;> rfl

theorem sendAll_range_eq_none {call : ℕ → Call} :
    (sendAll call raises true (List.range n)).2 = none ↔ ∀ k < n, raises k = none := by
  simp only [sendAll_eq_none, uncaught_true, List.mem_range]

theorem foldlM_start (j : ℕ) : ((List.range j).map Call.start).foldlM Call.live 0 = some j := by
  induction j with
  | zero => rfl
  | succ j ih =>
    rw [List.range_succ, List.map_append, List.foldlM_append, ih]
    show (if j = j then some (j + 1) else none).bind _ = _
    rw [if_pos rfl]
    rfl

/-- Stopping steps, last first, is in order, and leaves none if it goes on to the first. -/
theorem exists_foldlM_stop (call : ℕ → Call) (hcall : ∀ l k, (call k).live l =
      if k < l then (if k + 1 = l then some k else none) else some l) {l : ℕ} (hl : l ≤ n)
    {sent : List ℕ} (hsent : sent <+: (List.range n).reverse) :
    ∃ l' ≤ l, (sent.map call).foldlM Call.live l = some l' ∧
      (sent = (List.range n).reverse → l' = 0) := by
  induction n generalizing l sent with
  | zero =>
    obtain rfl := List.prefix_nil.mp hsent
    exact ⟨l, le_rfl, rfl, fun _ => by omega⟩
  | succ n ih =>
    rw [List.range_succ, List.reverse_append, List.reverse_singleton,
      List.singleton_append] at hsent ⊢
    obtain rfl | ⟨ks, rfl, hks⟩ := List.prefix_cons_iff.mp hsent
    · exact ⟨l, le_rfl, rfl, fun h => absurd h (by simp)⟩
    rw [List.map_cons, List.foldlM_cons, hcall]
    by_cases hn : n < l
    · obtain rfl : n + 1 = l := by omega
      obtain ⟨l', hl', hlive, hall⟩ := ih le_rfl hks
      rw [if_pos hn, if_pos rfl]
      exact ⟨l', by omega, hlive, fun h => hall (List.cons.inj h).2⟩
    · have hl : l ≤ n := by omega
      obtain ⟨l', hl', hlive, hall⟩ := ih hl hks
      rw [if_neg hn]
      exact ⟨l', hl', hlive, fun h => hall (List.cons.inj h).2⟩

theorem foldlM_close (ks : List ℕ) (l : ℕ) :
    (ks.map Call.close).foldlM Call.live l = some l := by
  induction ks with
  | nil => rfl
  | cons k ks ih =>
    rw [List.map_cons, List.foldlM_cons]
    exact ih

theorem Blueprint.started_meanwhile (closed : Bool) (b : Blueprint) :
    (b.meanwhile closed).started = b.started := by
  rw [Blueprint.meanwhile]
  split <;> rfl

/-- `Blueprint.start` starts the first steps, and all of them if none raises. -/
theorem Blueprint.exists_start (n : ℕ) (raises : ℕ → Option Exc) (b : Blueprint) :
    ∃ j ≤ n, live (b.start n raises).1 = some j ∧ j ≤ (b.start n raises).2.1.started ∧
      ((b.start n raises).2.2 = none ↔ ∀ k < n, raises k = none) := by
  obtain ⟨sent, hsent, hcalls, -⟩ := exists_sendAll Call.start raises true (List.range n)
  have hlength : sent.length ≤ n := by
    simpa using hsent.length_le
  have hrange : sent = List.range sent.length := by
    rw [List.prefix_iff_eq_take, List.take_range, min_eq_left hlength] at hsent
    exact hsent
  refine ⟨sent.length, hlength, ?_, ?_, sendAll_range_eq_none⟩
  · show live (sendAll .start raises true (List.range n)).1 = _
    rw [hcalls, hrange, List.length_range]
    exact foldlM_start _
  · show sent.length ≤ if (sendAll .start raises true (List.range n)).1 = [] then _ else _
    rw [hcalls]
    split
    next h => simp [List.map_eq_nil_iff.mp h]
    next => rw [List.length_map]

/-- Calls that are in order, and then others from what runs after them. -/
theorem live_append {calls calls' : List Call} {l : ℕ} (h : live calls = some l) :
    live (calls ++ calls') = calls'.foldlM Call.live l := by
  rw [live, List.foldlM_append]
  exact congrArg (· >>= _) h

theorem live_recover {r : Round} {calls : List Call} {b : Blueprint} {l : ℕ}
    (h : live calls = some l) (hn : l ≤ n) (hl : l ≤ b.started) (emfile : Bool) :
    ∃ l', live (recover n r calls b emfile).calls = some l' ∧
      l' ≤ (recover n r calls b emfile).blueprint.started ∧
      ((recover n r calls b emfile).ended = none →
        (recover n r calls b emfile).blueprint.stopping = false → l' = 0) := by
  rw [recover]
  split
  · exact ⟨l, h, hl, fun hended => absurd hended (by simp)⟩
  split
  · exact ⟨l, h, hl, fun hended => absurd hended (by simp)⟩
  split
  · exact ⟨l, h, hl, fun hended => absurd hended (by simp)⟩
  split
  next hstopping =>
    exact ⟨l, h, hl, fun _ hrun => absurd (hstopping.symm.trans hrun) (by decide)⟩
  next =>
    obtain ⟨sent, hsent, hcalls, hall⟩ :=
      exists_sendAll Call.stop r.stopRaises false (List.range n).reverse
    obtain ⟨l', hl', hlive, hzero⟩ := exists_foldlM_stop Call.stop (fun _ _ => rfl) hn hsent
    refine ⟨l', ?_, hl'.trans hl, fun hended _ => hzero (hall ?_)⟩
    · rw [live_append h, Blueprint.restart, hcalls, hlive]
    · exact Option.map_eq_none_iff.mp hended

/-- **A round** keeps the order, and after it nothing runs or the blueprint is closed. -/
theorem live_round {r : Round} (b : Blueprint)
    (hclosed : (∀ k < n, r.raises k = none) → r.closed = true) :
    ∃ l, live (round n b r).calls = some l ∧ l ≤ (round n b r).blueprint.started ∧
      ((round n b r).ended = none → (round n b r).blueprint.stopping = false → l = 0) := by
  rw [round]
  split
  · exact ⟨0, rfl, Nat.zero_le _, fun _ _ => rfl⟩
  obtain ⟨j, hj, hlive, hstarted, hnone⟩ :=
    b.exists_start n r.raises
  have hl : j ≤ ((b.start n r.raises).2.1.meanwhile r.closed).started := by
    rwa [Blueprint.started_meanwhile]
  dsimp only
  split
  next hexc =>
    refine ⟨j, hlive, hl, fun _ hrun => ?_⟩
    rw [Blueprint.meanwhile, if_pos (hclosed (hnone.mp hexc))] at hrun
    exact absurd hrun (by simp [Blueprint.stopping])
  · exact live_recover hlive hj hl _
  · exact ⟨j, hlive, hl, fun hended => absurd hended (by simp)⟩

/-- The loop, from a blueprint of which `l` steps run. -/
theorem foldlM_run {rs : List Round} {b : Blueprint} {l : ℕ}
    (hclosed : ∀ r ∈ rs, (∀ k < n, r.raises k = none) → r.closed = true)
    (hl : l ≤ b.started) (hzero : b.stopping = false → l = 0) :
    ∃ l', (run n b rs).calls.foldlM Call.live l = some l' ∧
      l' ≤ (run n b rs).blueprint.started ∧ ((run n b rs).ended = none → l' = 0) := by
  induction rs generalizing b l with
  | nil =>
    refine ⟨l, rfl, hl, fun hended => ?_⟩
    rw [run] at hended
    split at hended
    · exact absurd hended (by simp)
    next hstopping => exact hzero (by simpa using hstopping)
  | cons r rs ih =>
    rw [run]
    split
    · exact ⟨l, rfl, hl, fun hended => absurd hended (by simp)⟩
    next hstopping =>
      obtain rfl : l = 0 := hzero (by simpa using hstopping)
      obtain ⟨m, hm, hstarted, hrun⟩ := live_round b (hclosed r List.mem_cons_self)
      dsimp only
      split
      next hended =>
        refine ⟨m, hm, hstarted, fun h => ?_⟩
        rw [hended] at h
        exact absurd h (by simp)
      next hended =>
        obtain ⟨l', hl', hstarted', hzero'⟩ :=
          ih (fun r hr => hclosed r (List.mem_cons_of_mem _ hr)) hstarted (hrun hended)
        refine ⟨l', ?_, hstarted', hzero'⟩
        rw [← hl']
        exact live_append hm

/-- `Blueprint.stop` stops what runs, if it gets that far. -/
theorem live_stop {calls : List Call} {b : Blueprint} {l : ℕ} (h : live calls = some l)
    (hl : l ≤ b.started) (terminate : Bool) (closeRaises stopRaises : ℕ → Option Exc) :
    ∃ l' ≤ l, live (calls ++ (b.stop n terminate closeRaises stopRaises).1) = some l' ∧
      (b.state = .run → b.started = n →
        (b.stop n terminate closeRaises stopRaises).2.2 = none → l' = 0) ∧
      (¬ (b.state = .run ∧ b.started = n) → l' = l) := by
  rw [live_append h, Blueprint.stop]
  split
  next hstopping =>
    refine ⟨l, le_rfl, rfl, fun hrun => ?_, fun _ => rfl⟩
    rw [Blueprint.stopping, hrun] at hstopping
    exact absurd hstopping (by decide)
  split
  next hnot =>
    refine ⟨l, le_rfl, rfl, fun hrun hn => ?_, fun _ => rfl⟩
    rcases hnot with hnot | hnot
    · exact absurd hrun hnot
    · exact absurd hn hnot
  next hfull =>
    rw [not_or, not_not, not_not] at hfull
    obtain ⟨closed, -, hclosed, -⟩ := exists_sendAll Call.close closeRaises true (List.range n)
    dsimp only
    rw [hclosed]
    split
    next hraised =>
      refine ⟨l, le_rfl, foldlM_close closed l, fun _ _ hnone => ?_, fun _ => rfl⟩
      rw [hnone] at hraised
      exact absurd hraised (by decide)
    next =>
      obtain ⟨sent, hsent, hcalls, hall⟩ :=
        exists_sendAll (if terminate then .terminate else .stop) stopRaises false
          (List.range n).reverse
      obtain ⟨l', hl', hlive, hzero⟩ :=
        exists_foldlM_stop (if terminate then .terminate else .stop)
          (fun l k => by cases terminate <;> rfl) (hfull.2 ▸ hl) hsent
      refine ⟨l', hl', ?_, fun _ _ hnone => hzero (hall hnone), fun hnot => absurd hfull hnot⟩
      rw [List.foldlM_append, foldlM_close, hcalls]
      exact hlive

/-- **Steps are started and stopped in order**, however often the connection is lost and whatever
is raised, if the steps only all start once the blueprint has been closed: each is started after
those before it, none again before it is stopped, and none is stopped before those after it.  When
the consumer is stopped in the end, what runs is stopped if all steps had been reached and nothing
is raised, and nothing is if they had not. -/
theorem stopped_of_run {rs : List Round}
    (hclosed : ∀ r ∈ rs, (∀ k < n, r.raises k = none) → r.closed = true)
    (terminate : Bool) (closeRaises stopRaises : ℕ → Option Exc) :
    ∃ l, live (run n ⟨.initializing, 0⟩ rs).calls = some l ∧
      l ≤ (run n ⟨.initializing, 0⟩ rs).blueprint.started ∧
      ((run n ⟨.initializing, 0⟩ rs).ended = none → l = 0) ∧
      ∃ l' ≤ l,
        live ((run n ⟨.initializing, 0⟩ rs).calls ++
          ((run n ⟨.initializing, 0⟩ rs).blueprint.stop n terminate closeRaises
            stopRaises).1) = some l' ∧
        ((run n ⟨.initializing, 0⟩ rs).blueprint.state = .run →
          (run n ⟨.initializing, 0⟩ rs).blueprint.started = n →
          ((run n ⟨.initializing, 0⟩ rs).blueprint.stop n terminate closeRaises
            stopRaises).2.2 = none → l' = 0) ∧
        (¬ ((run n ⟨.initializing, 0⟩ rs).blueprint.state = .run ∧
          (run n ⟨.initializing, 0⟩ rs).blueprint.started = n) → l' = l) := by
  obtain ⟨l, hl, hstarted, hended⟩ := foldlM_run (b := ⟨.initializing, 0⟩) (l := 0) hclosed
    le_rfl fun _ => rfl
  exact ⟨l, hl, hstarted, hended, live_stop hl hstarted terminate closeRaises stopRaises⟩

/-- The connection is lost as the second step starts, and then the worker is shut down in the
last. -/
def lost : List Round :=
  [⟨none, fun k => if k = 1 then some (.recoverable false) else none, false, true, none,
      fun _ => none⟩,
    ⟨none, fun k => if k = 2 then some .workerShutdown else none, false, true, none,
      fun _ => none⟩]

theorem stopped_of_lost :
    live ((run 3 ⟨.initializing, 0⟩ lost).calls ++
      ((run 3 ⟨.initializing, 0⟩ lost).blueprint.stop 3 false (fun _ => none)
        fun _ => none).1) = some 0 := by
  have hclosed : ∀ r ∈ lost, (∀ k < 3, r.raises k = none) → r.closed = true := by
    intro r hr hnone
    rcases List.mem_pair.mp hr with rfl | rfl
    · exact absurd (hnone 1 (by decide)) (by decide)
    · exact absurd (hnone 2 (by decide)) (by decide)
  obtain ⟨l, -, -, -, l', -, hlive, hzero, -⟩ :=
    stopped_of_run hclosed false (fun _ => none) fun _ => none
  rw [hlive, hzero rfl rfl rfl]

end Lifecycle
end Celery
