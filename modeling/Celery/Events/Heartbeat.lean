/-
# `celery/events/state.py`: heartbeats

A `Worker` keeps the times of the last events that came from it, in `heartbeats`, and is
`alive` until some time after the last of them: `Worker.event` (lines 183-215), `alive`
(lines 226-236), `heartbeat_expires` (lines 115-124) and what `State._event` does for the
workers (lines 554-596).

`Worker.event` drops the oldest time if there are too many, and appends or inserts the
new one.  So the list stays sorted and short, and ends with the newest of all times that
went in (`pushHeartbeat_last`).  Which time goes in is another matter.  A worker event
hands over `timestamp` and `local_received` in this order, and a task event the other way
round, so that the sender's timestamp goes in.  Liveness is judged on local receive times
as long as that makes no difference (`heartbeats_judged_iff`).

Times are rational numbers, and an event that lacks one of them is one that has it as
`None`.  Events do not have the field `heartbeats`.  Entries of `workers` may vanish at any
time, as kombu's `LRUCache` is full or is cleared.
-/

import Celery.Library.Bisect
import Celery.Library.Transition
import Mathlib.Algebra.Order.Ring.Unbundled.Rat
import Mathlib.Data.String.Basic

namespace Celery
namespace Heartbeat

open Transition

/-! ## Workers -/

/-- `Worker`, with what its heartbeats need. -/
structure Worker where
  hostname : String
  freq : ℚ
  heartbeats : List ℚ
deriving DecidableEq, Repr

/-- `Worker(hostname)`. -/
def Worker.new (hostname : String) : Worker := ⟨hostname, 60, []⟩

/-- `Worker.heartbeat_max`. -/
def heartbeatMax : ℕ := 4

/-- `HEARTBEAT_EXPIRE_WINDOW`, in percent. -/
def heartbeatExpireWindow : ℚ := 200

/-- `heartbeat_expires`: when the worker counts as offline after a heartbeat. -/
def heartbeatExpires (timestamp freq : ℚ) : ℚ := timestamp + freq * (heartbeatExpireWindow / 100)

/-- `Worker.alive`, at the time `now`. -/
def Worker.alive (w : Worker) (now : ℚ) : Bool :=
  w.heartbeats.getLast?.any fun last => now < heartbeatExpires last w.freq

/-- A time that is neither `None` nor zero. -/
def given (time : Option ℚ) : Option ℚ := time.filter fun t => t ≠ 0

/-- The oldest time goes if there are as many as may be. -/
def trim (heartbeats : List ℚ) : List ℚ :=
  if heartbeatMax - 1 < heartbeats.length then heartbeats.tail else heartbeats

/-- What `Worker.event` does with a time: it is appended if it is later than the last one,
and inserted otherwise. -/
def pushHeartbeat (heartbeats : List ℚ) (localReceived : ℚ) : List ℚ :=
  let heartbeats := trim heartbeats
  match heartbeats.getLast? with
  | some last =>
    if last < localReceived then heartbeats ++ [localReceived]
    else Bisect.insort id localReceived heartbeats
  | none => Bisect.insort id localReceived heartbeats

/-- `Worker.event`, in the order of its arguments; `freq` is that of `fields`, if any. -/
def Worker.event (w : Worker) (type : Option String) (timestamp localReceived : Option ℚ)
    (freq : Option ℚ) : Worker :=
  let w := { w with freq := freq.getD w.freq }
  if type = some "offline" then { w with heartbeats := [] }
  else
    match given localReceived, given timestamp with
    | some localReceived, some _ =>
      { w with heartbeats := pushHeartbeat w.heartbeats localReceived }
    | _, _ => w

/-! ## The state -/

/-- An event of the group `worker`. -/
structure WorkerEvent where
  subject : String
  hostname : String
  timestamp : Option ℚ
  localReceived : Option ℚ
  freq : Option ℚ
deriving DecidableEq, Repr

/-- An event of the group `task`. -/
structure TaskEvent where
  subject : String
  hostname : String
  timestamp : Option ℚ
  localReceived : Option ℚ
deriving DecidableEq, Repr

/-- `State`: the worker objects that have been made, and which of them `workers` has under
a hostname. -/
structure State where
  objects : ℕ → Worker
  made : ℕ
  workers : String → Option ℕ

/-- `State()`. -/
def State.empty : State := ⟨fun _ => Worker.new "", 0, fun _ => none⟩

/-- What happens to a state. -/
inductive Action where
  | worker (e : WorkerEvent)
  | task (e : TaskEvent)
  | forget (hostname : String)

namespace State

variable (s : State)

/-- The object of a hostname, or the next one to be made. -/
def refOf (hostname : String) : ℕ := (s.workers hostname).getD s.made

/-- The worker of a hostname, which may be new. -/
def workerOf (hostname : String) : Worker :=
  match s.workers hostname with
  | some i => s.objects i
  | none => Worker.new hostname

/-- A worker is changed, or made and put into `workers`. -/
def setWorker (hostname : String) (w : Worker) : State where
  objects := Function.update s.objects (s.refOf hostname) w
  made := if s.workers hostname = none then s.made + 1 else s.made
  workers := Function.update s.workers hostname (some (s.refOf hostname))

/-- An entry of `workers` vanishes. -/
def forget (hostname : String) : State :=
  { s with workers := Function.update s.workers hostname none }

/-- `_event` with an event of the group `worker`.  An unknown worker that goes offline is
not put into `workers`, and one that is known is taken out if there is a callback. -/
def workerEvent (onNodeLeave : Bool) (e : WorkerEvent) : State :=
  let worker := (s.workerOf e.hostname).event (some e.subject) e.timestamp e.localReceived e.freq
  if e.subject = "offline" then
    let s := if s.workers e.hostname = none then s else s.setWorker e.hostname worker
    if onNodeLeave then s.forget e.hostname else s
  else s.setWorker e.hostname worker

/-- `_event` with an event of the group `task`, as far as the workers go.  A `task-sent`
event is from a client.  The call is `worker.event(None, local_received, timestamp)`. -/
def taskEvent (e : TaskEvent) : State :=
  if e.subject = "sent" then s
  else
    let worker := s.workerOf e.hostname
    s.setWorker e.hostname <|
      if (given e.localReceived).isSome then worker.event none e.localReceived e.timestamp none
      else worker

/-- One step. -/
def step (onNodeLeave : Bool) : Action → State
  | .worker e => s.workerEvent onNodeLeave e
  | .task e => s.taskEvent e
  | .forget hostname => s.forget hostname

end State

/-! ## What was received -/

/-- A state, and for every worker object the local receive times of the events that came
from it since it was last offline. -/
structure Watched where
  state : State
  received : ℕ → List ℚ

/-- `State()`. -/
def Watched.empty : Watched := ⟨.empty, fun _ => []⟩

/-- What was received from the worker of a hostname. -/
def Watched.receivedFrom (w : Watched) (hostname : String) : List ℚ :=
  match w.state.workers hostname with
  | some i => w.received i
  | none => []

/-- What has been received from the worker of a hostname is set. -/
def Watched.setReceived (w : Watched) (hostname : String) (times : List ℚ) : ℕ → List ℚ :=
  Function.update w.received (w.state.refOf hostname) times

/-- How a step changes what was received. -/
def Watched.receive (w : Watched) : Action → ℕ → List ℚ
  | .worker e =>
    if e.subject = "offline" then
      if w.state.workers e.hostname = none then w.received else w.setReceived e.hostname []
    else w.setReceived e.hostname ((given e.localReceived).toList ++ w.receivedFrom e.hostname)
  | .task e =>
    if e.subject = "sent" then w.received
    else w.setReceived e.hostname ((given e.localReceived).toList ++ w.receivedFrom e.hostname)
  | .forget _ => w.received

/-- One step of the state, and what was received in it. -/
def Watched.step (onNodeLeave : Bool) (w : Watched) (a : Action) : Watched :=
  ⟨w.state.step onNodeLeave a, w.receive a⟩

/-- A new state after some actions. -/
def Watched.after (onNodeLeave : Bool) (as : List Action) : Watched :=
  as.foldl (Watched.step onNodeLeave) .empty

/-- **Liveness is judged on local receive times.** -/
structure Judged (w : Worker) (received : List ℚ) : Prop where
  sorted : w.heartbeats.Pairwise (· ≤ ·)
  short : w.heartbeats.length ≤ heartbeatMax
  mem : ∀ time ∈ w.heartbeats, time ∈ received
  newest : w.heartbeats.getLast? = received.max?
  alive : ∀ now, w.alive now = received.max?.any fun last => now < heartbeatExpires last w.freq

/-- In a state, this is so for all worker objects. -/
def AllJudged (w : Watched) : Prop := ∀ i, Judged (w.state.objects i) (w.received i)

/-! ## The list of heartbeats -/

section Push

variable {heartbeats : List ℚ} {time : ℚ}

theorem trim_sublist (heartbeats : List ℚ) : (trim heartbeats).Sublist heartbeats := by
  rw [trim]
  split
  · exact List.tail_sublist heartbeats
  · exact List.Sublist.refl heartbeats

theorem length_trim (h : heartbeats.length ≤ heartbeatMax) :
    (trim heartbeats).length + 1 ≤ heartbeatMax := by
  rw [trim]
  unfold heartbeatMax at h ⊢
  split
  · rw [List.length_tail]
    omega
  · omega

/-- What was dropped is not later than what is left. -/
theorem le_of_trim (hs : heartbeats.Pairwise (· ≤ ·)) :
    ∀ t ∈ heartbeats, ∃ t' ∈ trim heartbeats, t ≤ t' := by
  intro t ht
  rw [trim]
  split
  next hlong =>
    match heartbeats, hs, ht, hlong with
    | first :: second :: rest, hs, ht, _ =>
      rcases List.mem_cons.mp ht with rfl | ht
      · exact ⟨second, List.mem_cons_self, List.rel_of_pairwise_cons hs List.mem_cons_self⟩
      · exact ⟨t, ht, le_rfl⟩
  next => exact ⟨t, ht, le_rfl⟩

theorem pushHeartbeat_perm (heartbeats : List ℚ) (time : ℚ) :
    (pushHeartbeat heartbeats time).Perm (time :: trim heartbeats) := by
  have hinsort := Bisect.insort_perm id time (trim heartbeats)
  rw [pushHeartbeat]
  split
  · split
    · exact List.perm_append_singleton time _
    · exact hinsort
  · exact hinsort

theorem pushHeartbeat_sorted (hs : heartbeats.Pairwise (· ≤ ·)) (time : ℚ) :
    (pushHeartbeat heartbeats time).Pairwise (· ≤ ·) := by
  have htrim : (trim heartbeats).Pairwise (· ≤ ·) := hs.sublist (trim_sublist heartbeats)
  have hinsort : (Bisect.insort id time (trim heartbeats)).Pairwise (· ≤ ·) :=
    @Bisect.insort_sorted ℚ ℚ _ id time (trim heartbeats) htrim
  rw [pushHeartbeat]
  split
  next last hlast =>
    split
    next hlt =>
      rw [Bisect.getLast?_eq_max? htrim] at hlast
      refine List.pairwise_append.mpr ⟨htrim, List.pairwise_singleton _ _, fun t ht t' ht' => ?_⟩
      obtain rfl := List.mem_singleton.mp ht'
      exact ((List.max?_eq_some_iff.mp hlast).2 t ht).trans hlt.le
    next => exact hinsort
  next => exact hinsort

/-- The list ends with the newest of the times that went in. -/
theorem pushHeartbeat_last (hs : heartbeats.Pairwise (· ≤ ·)) (time : ℚ) :
    (pushHeartbeat heartbeats time).getLast? = (time :: heartbeats).max? := by
  rw [Bisect.getLast?_eq_max? (pushHeartbeat_sorted hs time), Bisect.max?_eq_iff]
  constructor
  · intro t ht
    have ht := (pushHeartbeat_perm heartbeats time).mem_iff.mp ht
    exact ⟨t, List.cons_subset_cons time (trim_sublist heartbeats).subset ht, le_rfl⟩
  · intro t ht
    rcases List.mem_cons.mp ht with rfl | ht
    · exact ⟨t, (pushHeartbeat_perm _ _).mem_iff.mpr List.mem_cons_self, le_rfl⟩
    · obtain ⟨t', ht', hle⟩ := le_of_trim hs t ht
      exact ⟨t', (pushHeartbeat_perm _ _).mem_iff.mpr (List.mem_cons_of_mem _ ht'), hle⟩

end Push

/-! ## One worker -/

section Worker

variable {w : Worker} {received : List ℚ} {time : ℚ}

/-- Whether a worker is alive follows from its last heartbeat. -/
theorem judged_of_newest (hsorted : w.heartbeats.Pairwise (· ≤ ·))
    (hshort : w.heartbeats.length ≤ heartbeatMax) (hmem : ∀ t ∈ w.heartbeats, t ∈ received)
    (hnewest : w.heartbeats.getLast? = received.max?) : Judged w received := by
  refine ⟨hsorted, hshort, hmem, hnewest, fun now => ?_⟩
  rw [Worker.alive, hnewest]

theorem judged_new (hostname : String) (freq : ℚ) : Judged ⟨hostname, freq, []⟩ [] :=
  judged_of_newest List.Pairwise.nil (Nat.zero_le _) (fun _ ht => ht) rfl

/-- The frequency is free. -/
theorem Judged.freq (h : Judged w received) (freq : ℚ) :
    Judged { w with freq := freq } received :=
  judged_of_newest h.sorted h.short h.mem h.newest

/-- There is as late a time among those received. -/
def Outdated (received : List ℚ) (time : ℚ) : Prop := ∃ last ∈ received, time ≤ last

/-- **A time goes in that stands for another one.** -/
theorem judged_push_iff (h : Judged w received) (freq pushed time : ℚ) :
    Judged ⟨w.hostname, freq, pushHeartbeat w.heartbeats pushed⟩ (time :: received) ↔
      pushed = time ∨ pushed ∈ received ∧ Outdated received time := by
  have hlast : (pushed :: w.heartbeats).max? = (pushed :: received).max? := by
    have hsame := h.newest
    rw [Bisect.getLast?_eq_max? h.sorted, Bisect.max?_eq_iff] at hsame
    simp only [Bisect.max?_eq_iff, List.forall_mem_cons, List.exists_mem_cons_iff, le_refl,
      true_or, true_and]
    exact ⟨fun t ht => Or.inr (hsame.1 t ht), fun t ht => Or.inr (hsame.2 t ht)⟩
  have hpushed : pushed ∈ pushHeartbeat w.heartbeats pushed :=
    (pushHeartbeat_perm _ _).mem_iff.mpr List.mem_cons_self
  constructor
  · intro hjudged
    rcases List.mem_cons.mp (hjudged.mem pushed hpushed) with heq | hmem
    · exact Or.inl heq
    · refine Or.inr ⟨hmem, ?_⟩
      have hnewest := hjudged.newest
      rw [pushHeartbeat_last h.sorted, hlast, Bisect.max?_eq_iff] at hnewest
      obtain ⟨t, ht, hle⟩ := hnewest.2 time List.mem_cons_self
      rcases List.mem_cons.mp ht with rfl | ht
      · exact ⟨t, hmem, hle⟩
      · exact ⟨t, ht, hle⟩
  · intro hcond
    have hmem : ∀ t ∈ pushed :: received, t ∈ time :: received := by
      intro t ht
      rcases List.mem_cons.mp ht with rfl | ht
      · exact hcond.elim (fun heq => heq ▸ List.mem_cons_self)
          fun hold => List.mem_cons_of_mem _ hold.1
      · exact List.mem_cons_of_mem _ ht
    refine judged_of_newest (pushHeartbeat_sorted h.sorted pushed) ?_ ?_ ?_
    · rw [(pushHeartbeat_perm w.heartbeats pushed).length_eq, List.length_cons]
      exact length_trim h.short
    · intro t ht
      have ht := (pushHeartbeat_perm w.heartbeats pushed).mem_iff.mp ht
      refine hmem t (List.cons_subset_cons pushed h.mem ?_)
      exact List.cons_subset_cons pushed (trim_sublist w.heartbeats).subset ht
    · rw [pushHeartbeat_last h.sorted, hlast, Bisect.max?_eq_iff]
      refine ⟨fun t ht => ⟨t, hmem t ht, le_rfl⟩, fun t ht => ?_⟩
      rcases List.mem_cons.mp ht with rfl | ht
      · rcases hcond with rfl | ⟨-, last, hlast, hle⟩
        · exact ⟨pushed, List.mem_cons_self, le_rfl⟩
        · exact ⟨last, List.mem_cons_of_mem _ hlast, hle⟩
      · exact ⟨t, List.mem_cons_of_mem _ ht, le_rfl⟩

/-- A time is received that does not go in. -/
theorem judged_skip_iff (h : Judged w received) (time : ℚ) :
    Judged w (time :: received) ↔ Outdated received time := by
  constructor
  · intro hjudged
    have hnewest := h.newest.symm.trans hjudged.newest
    exact (Bisect.max?_eq_iff.mp hnewest).2 time List.mem_cons_self
  · intro hold
    refine judged_of_newest h.sorted h.short (fun t ht => List.mem_cons_of_mem _ (h.mem t ht)) ?_
    rw [h.newest, Bisect.max?_eq_iff]
    refine ⟨fun t ht => ⟨t, List.mem_cons_of_mem _ ht, le_rfl⟩, fun t ht => ?_⟩
    rcases List.mem_cons.mp ht with rfl | ht
    · exact hold
    · exact ⟨t, ht, le_rfl⟩

end Worker

/-! ## All workers -/

section Workers

variable {w : Watched}

/-- **An event does no harm.**  A task event, whose timestamp goes in, has its local
receive time as its timestamp; or both its timestamp and as late a time have been
received from the worker before.  A worker event, whose local receive time goes in, has a
timestamp; or as late a time has been received. -/
def Harmless (w : Watched) : Action → Prop
  | .worker e => e.subject ≠ "offline" → ∀ time, given e.localReceived = some time →
      given e.timestamp = none → Outdated (w.receivedFrom e.hostname) time
  | .task e => e.subject ≠ "sent" → ∀ time, given e.localReceived = some time →
      given e.timestamp ≠ some time → Outdated (w.receivedFrom e.hostname) time ∧
        ∀ t, given e.timestamp = some t → t ∈ w.receivedFrom e.hostname
  | .forget _ => True

theorem judged_workerOf (h : AllJudged w) (hostname : String) :
    Judged (w.state.workerOf hostname) (w.receivedFrom hostname) := by
  rw [State.workerOf, Watched.receivedFrom]
  split
  · exact h _
  · exact judged_new hostname 60

/-- One worker changes, and what was received from it. -/
theorem allJudged_setWorker_iff (h : AllJudged w) (hostname : String) (worker : Worker)
    (times : List ℚ) :
    AllJudged ⟨w.state.setWorker hostname worker, w.setReceived hostname times⟩ ↔
      Judged worker times := by
  constructor
  · intro hall
    have hself := hall (w.state.refOf hostname)
    simpa only [State.setWorker, Watched.setReceived, Function.update_self] using hself
  · intro hjudged i
    by_cases hi : i = w.state.refOf hostname
    · subst hi
      simpa only [State.setWorker, Watched.setReceived, Function.update_self] using hjudged
    · simpa only [State.setWorker, Watched.setReceived, Function.update_of_ne hi] using h i

theorem allJudged_workerEvent_iff (onNodeLeave : Bool) (h : AllJudged w) (e : WorkerEvent) :
    AllJudged (w.step onNodeLeave (.worker e)) ↔ Harmless w (.worker e) := by
  have hworker := judged_workerOf h e.hostname
  by_cases hoff : e.subject = "offline"
  · have hall : AllJudged (w.step onNodeLeave (.worker e)) := by
      simp only [Watched.step, State.step, State.workerEvent, Watched.receive, if_pos hoff]
      have hobjects : ∀ s : State,
          (if onNodeLeave then s.forget e.hostname else s).objects = s.objects := by
        intro s
        split
        · rfl
        · rfl
      intro i
      rw [hobjects]
      by_cases hnew : w.state.workers e.hostname = none
      · rw [if_pos hnew, if_pos hnew]
        exact h i
      · rw [if_neg hnew, if_neg hnew]
        refine (allJudged_setWorker_iff h e.hostname _ []).mpr ?_ i
        rw [Worker.event, if_pos (congrArg some hoff)]
        exact judged_new _ _
    exact iff_of_true hall fun hne => absurd hoff hne
  · simp only [Watched.step, State.step, State.workerEvent, Watched.receive, if_neg hoff]
    rw [allJudged_setWorker_iff h, Worker.event, if_neg fun heq => hoff (Option.some_inj.mp heq)]
    simp only [Harmless, ne_eq, hoff, not_false_eq_true, forall_const]
    cases hreceived : given e.localReceived with
    | none => exact iff_of_true (hworker.freq _) fun _ hsome => absurd hsome (by simp)
    | some time =>
      cases hstamp : given e.timestamp with
      | none => simpa using judged_skip_iff (hworker.freq _) time
      | some _ =>
        refine iff_of_true ?_ fun _ _ hnone => absurd hnone (by simp)
        exact (judged_push_iff hworker _ time time).mpr (Or.inl rfl)

theorem allJudged_taskEvent_iff (onNodeLeave : Bool) (h : AllJudged w) (e : TaskEvent) :
    AllJudged (w.step onNodeLeave (.task e)) ↔ Harmless w (.task e) := by
  have hworker := judged_workerOf h e.hostname
  by_cases hsent : e.subject = "sent"
  · simp only [Watched.step, State.step, State.taskEvent, Watched.receive, if_pos hsent]
    exact iff_of_true h fun hne => absurd hsent hne
  · simp only [Watched.step, State.step, State.taskEvent, Watched.receive, if_neg hsent]
    rw [allJudged_setWorker_iff h]
    simp only [Harmless, ne_eq, hsent, not_false_eq_true, forall_const]
    cases hreceived : given e.localReceived with
    | none => exact iff_of_true hworker fun _ hsome => absurd hsome (by simp)
    | some time =>
      rw [Option.isSome_some, if_pos rfl, Worker.event, if_neg (by simp), hreceived]
      cases hstamp : given e.timestamp with
      | none => simpa using judged_skip_iff (hworker.freq _) time
      | some t =>
        refine (judged_push_iff hworker _ t time).trans ?_
        simp only [Option.some.injEq, forall_eq']
        grind

theorem allJudged_step_iff (onNodeLeave : Bool) (h : AllJudged w) (a : Action) :
    AllJudged (w.step onNodeLeave a) ↔ Harmless w a := by
  cases a with
  | worker e => exact allJudged_workerEvent_iff onNodeLeave h e
  | task e => exact allJudged_taskEvent_iff onNodeLeave h e
  | forget hostname => exact iff_of_true h trivial

/-- **When liveness is judged on local receive times.**  In all states of a run, the
heartbeats of every worker are sorted, few, and local receive times that end with the
newest, if and only if every event of the run does no harm. -/
theorem heartbeats_judged_iff (onNodeLeave : Bool) (as : List Action) :
    (∀ as₁ as₂, as = as₁ ++ as₂ → AllJudged (Watched.after onNodeLeave as₁)) ↔
      ∀ as₁ a as₂, as = as₁ ++ a :: as₂ → Harmless (Watched.after onNodeLeave as₁) a :=
  Run.foldl_invariant_iff (fun _ a h => allJudged_step_iff onNodeLeave h a)
    (fun _ => judged_new "" 60) as

/-- A task event of a worker whose clock is behind. -/
def fromBehind : List Action := [.task ⟨"received", "worker", some 1000, some 2000⟩]

/-- **The sender's clock decides**: the event was received at 2000, but the heartbeat is of
1000, and the worker counts as dead at 2001. -/
theorem fromBehind_not_judged :
    ((Watched.after false fromBehind).state.objects 0).heartbeats = [1000] ∧
      (Watched.after false fromBehind).received 0 = [2000] ∧
      ((Watched.after false fromBehind).state.objects 0).alive 2001 = false ∧
      ¬ AllJudged (Watched.after false fromBehind) := by
  refine ⟨by decide +kernel, by decide +kernel, by decide +kernel, fun h => ?_⟩
  have hmem := (h 0).mem 1000 (by decide +kernel)
  exact absurd hmem (by decide +kernel)

end Workers

end Heartbeat
end Celery
