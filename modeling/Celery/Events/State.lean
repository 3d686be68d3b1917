/-
# `celery/events/state.py`: the cluster state and its task heap

`State` keeps the workers and tasks it has heard of, and in `_taskheap` one
`timetuple` for every task event, which the queries by time go through: the
dispatcher `_event` (lines 575-633), `__init__`, `rebuild_taskheap`, `_clear_tasks`
and `_clear` (lines 407-471, 643-648), and `tasks_by_time` (lines 656-674).

`_event` appends a tuple that is later than the last one and inserts any other
with `bisect.insort`, so it keeps a sorted heap sorted and within its limit
(`pushEvent_sorted`, `pushEvent_length`).  `rebuild_taskheap` sorts its own list
and not the copy it has put into `_taskheap`.  So the heap stays sorted, and the
queries by time in order, exactly if every mapping of tasks that a state is made
from is in order to begin with (`taskheap_ordered_iff`).

The mappings of kombu's `LRUCache` are lists here, from which an entry may vanish
at any time.  Clocks are positive, and a `timetuple` is ordered by its clock and
its origin.  Timestamps, counters, heartbeats, parents and children have no part
in the queries and are not modelled.
-/

import Celery.Library.Bisect
import Celery.Library.Transition
import Mathlib.Data.Prod.Lex
import Mathlib.Data.String.Basic

namespace Celery
namespace EventState

open Transition

/-! ## Workers and tasks -/

/-- `Worker`. -/
structure Worker where
  hostname : String
  pid : Option ℕ
deriving DecidableEq, Repr

/-- `Worker.id`. -/
def Worker.id (w : Worker) : String :=
  w.hostname ++ "." ++ (match w.pid with
    | none => "None"
    | some pid => toString pid)

/-- A reference to a `Task` object: its uuid, and the how many-th object it is. -/
structure Ref where
  uuid : String
  object : ℕ
deriving DecidableEq, Repr

/-- `Task`; `worker` is a reference to a `Worker` object. -/
structure Task where
  ref : Ref
  name : Option String
  state : String
  client : Option String
  worker : Option ℕ
  clock : ℕ
deriving DecidableEq, Repr

/-- `Task(uuid)`. -/
def Task.new (ref : Ref) : Task := ⟨ref, none, "PENDING", none, none, 0⟩

/-- `TASK_EVENT_TO_STATE`; any other type is a custom state. -/
def taskEventToState (type : String) : String :=
  match type with
  | "sent" => "PENDING"
  | "received" => "RECEIVED"
  | "started" => "STARTED"
  | "failed" => "FAILURE"
  | "retried" => "RETRY"
  | "succeeded" => "SUCCESS"
  | "revoked" => "REVOKED"
  | "rejected" => "REJECTED"
  | type => type.toUpper

/-- `states.PRECEDENCE`, with `none` for an unknown state. -/
def precedenceList : List (Option String) :=
  [some "SUCCESS", some "FAILURE", none, some "REVOKED", some "STARTED", some "RECEIVED",
    some "REJECTED", some "RETRY", some "PENDING"]

/-- `states.precedence`. -/
def precedence (state : String) : ℕ :=
  if some state ∈ precedenceList then precedenceList.idxOf (some state)
  else precedenceList.idxOf none

/-- `states.READY_STATES`. -/
def readyStates : List String := ["SUCCESS", "FAILURE", "REVOKED"]

/-- A task event, `subject` being its type without the group.  `name` is `none` where
the event has no such field. -/
structure TaskEvent where
  subject : String
  uuid : String
  hostname : String
  clock : ℕ
  name : Option (Option String)
deriving DecidableEq, Repr

/-- `Task.event`: an event that logically happened before the current state changes no
state, and one of a `RECEIVED` state only the fields of its merge rule. -/
def Task.event (t : Task) (e : TaskEvent) : Task :=
  let state := taskEventToState e.subject
  let name := e.name.getD t.name
  if state ≠ "RETRY" ∧ t.state ≠ "RETRY" ∧ precedence t.state < precedence state then
    if state = "RECEIVED" then { t with name := name }
    else { t with name := name, clock := e.clock }
  else { t with name := name, clock := e.clock, state := state }

/-! ## The heap -/

/-- A `timetuple`, with the reference to its task. -/
structure TimeTuple where
  clock : ℕ
  origin : String
  task : Ref
deriving DecidableEq, Repr

/-- What tuples are ordered by. -/
def TimeTuple.key (t : TimeTuple) : ℕ ×ₗ String := toLex (t.clock, t.origin)

/-- What `_event` does to the heap: the oldest tuple goes if the heap is full, and the
new one is appended if it is later than the last one.  With it, whether an
`IndexError` was raised, by the `pop` or the comparison with an empty heap. -/
def pushEvent (maxEvents : ℕ) (heap : List TimeTuple) (tup : TimeTuple) :
    List TimeTuple × Bool :=
  let heaps := heap.length
  if maxEvents < heaps + 1 ∧ heaps = 0 then (heap, true)
  else
    let heap := if maxEvents < heaps + 1 then heap.tail else heap
    if heaps = 0 then (Bisect.insort TimeTuple.key tup heap, false)
    else
      match heap.getLast? with
      | none => (heap, true)
      | some last =>
        if last.key < tup.key then (heap ++ [tup], false)
        else (Bisect.insort TimeTuple.key tup heap, false)

/-! ## The state -/

/-- The settings of a `State`; `onNodeLeave` is whether there is such a callback. -/
structure Settings where
  maxTasksInMemory : ℕ
  heapMultiplier : ℕ
  onNodeLeave : Bool
deriving DecidableEq, Repr

/-- `max_events_in_heap`. -/
def Settings.maxEvents (cfg : Settings) : ℕ := cfg.maxTasksInMemory * cfg.heapMultiplier

/-- `State`: the `Worker` objects and the mapping `workers` to them, the mapping `tasks`
in its order, how many `Task` objects there have been, the heap, and the two indexes
as pairs. -/
structure State where
  workerObjects : List Worker
  workers : List (String × ℕ)
  tasks : List Task
  created : ℕ
  taskheap : List TimeTuple
  tasksByType : List (String × Ref)
  tasksByWorker : List (String × Ref)
deriving DecidableEq, Repr

/-- `State()`. -/
def State.empty : State := ⟨[], [], [], 0, [], [], []⟩

/-- The id of a worker object. -/
def State.workerId (s : State) (w : ℕ) : String :=
  match s.workerObjects[w]? with
  | none => ""
  | some worker => worker.id

/-- `Task.origin`; a task that was in an event has one of the two. -/
def State.origin (s : State) (t : Task) : String :=
  match t.worker with
  | none => t.client.getD ""
  | some w => s.workerId w

/-- `rebuild_taskheap`.  The list it makes is copied into `_taskheap`, and then it is
the list that is sorted. -/
def State.rebuildTaskheap (s : State) : State :=
  { s with taskheap := s.tasks.map fun t => ⟨t.clock, s.origin t, t.ref⟩ }

/-- The task of an event, and whether it is new. -/
def State.getTask (s : State) (uuid : String) : State × Task × Bool :=
  match s.tasks.find? (fun t => t.ref.uuid = uuid) with
  | some t => (s, t, false)
  | none =>
    let t := Task.new ⟨uuid, s.created⟩
    ({ s with tasks := s.tasks ++ [t], created := s.created + 1 }, t, true)

/-- The worker of an event. -/
def State.getWorker (s : State) (hostname : String) : State × ℕ :=
  match s.workers.lookup hostname with
  | some w => (s, w)
  | none =>
    let w := s.workerObjects.length
    ({ s with
      workerObjects := s.workerObjects ++ [⟨hostname, none⟩]
      workers := s.workers ++ [(hostname, w)] }, w)

/-- The task object is changed. -/
def State.putTask (s : State) (t : Task) : State :=
  { s with tasks := s.tasks.map fun t' => if t'.ref.uuid = t.ref.uuid then t else t' }

/-- Who an event comes from: the client that sent the task, or the worker. -/
def State.seenBy (s : State) (t : Task) (e : TaskEvent) : State × Task × String :=
  if e.subject = "sent" then (s, { t with client := some e.hostname }, e.hostname)
  else
    let (s, w) := s.getWorker e.hostname
    (s, { t with worker := some w }, s.workerId w)

/-- The indexes of a task that is new, and has a name. -/
def State.addIndexes (s : State) (t : Task) (hostname : String) (created : Bool) : State :=
  match t.name, created with
  | some name, true =>
    { s with
      tasksByType := s.tasksByType ++ [(name, t.ref)]
      tasksByWorker := s.tasksByWorker ++ [(hostname, t.ref)] }
  | _, _ => s

/-- `_event` with an event of the group `task`. -/
def State.taskEvent (cfg : Settings) (s : State) (e : TaskEvent) : State :=
  let (s, t, created) := s.getTask e.uuid
  let (s, t, origin) := s.seenBy t e
  let (heap, raised) := pushEvent cfg.maxEvents s.taskheap ⟨e.clock, origin, t.ref⟩
  let s := { s with taskheap := heap }
  if raised then s.putTask t
  else
    let t := t.event e
    (s.putTask t).addIndexes t e.hostname created

/-- `_event` with an event of the group `worker`, that has all its fields.  A worker
that is not known and goes offline is not remembered. -/
def State.workerEvent (cfg : Settings) (s : State) (subject hostname : String)
    (pid : Option (Option ℕ)) : State :=
  let isOffline := subject = "offline"
  let s := if (s.workers.lookup hostname).isNone ∧ isOffline then s
    else
      let (s, w) := s.getWorker hostname
      { s with
        workerObjects := s.workerObjects.modify w fun o => { o with pid := pid.getD o.pid } }
  if cfg.onNodeLeave ∧ isOffline then
    { s with workers := s.workers.filter fun entry => entry.1 ≠ hostname }
  else s

/-- `_clear_tasks`. -/
def State.clearTasks (s : State) (ready : Bool) : State :=
  { s with
    tasks := if ready then s.tasks.filter fun t => t.state ∉ readyStates else []
    taskheap := [] }

/-- `_clear`. -/
def State.clear (s : State) (ready : Bool) : State :=
  { s.clearTasks ready with workers := [] }

/-- What happens to a state.  It may be made anew, by `State(…)` with saved mappings or
by unpickling, and `LRUCache` may drop an entry. -/
inductive Action where
  | taskEvent (e : TaskEvent)
  | workerEvent (subject hostname : String) (pid : Option (Option ℕ))
  | clearTasks (ready : Bool)
  | clear (ready : Bool)
  | construct (saved : State)
  | dropTask (uuid : String)
  | dropWorker (hostname : String)
deriving DecidableEq, Repr

/-- One step. -/
def State.step (cfg : Settings) (s : State) : Action → State
  | .taskEvent e => s.taskEvent cfg e
  | .workerEvent subject hostname pid => s.workerEvent cfg subject hostname pid
  | .clearTasks ready => s.clearTasks ready
  | .clear ready => s.clear ready
  | .construct saved => saved.rebuildTaskheap
  | .dropTask uuid => { s with tasks := s.tasks.filter fun t => t.ref.uuid ≠ uuid }
  | .dropWorker hostname => { s with workers := s.workers.filter fun entry => entry.1 ≠ hostname }

/-! ## Queries by time -/

/-- The loop of `tasks_by_time`, over tuples whose references `deref` follows; `none`
where the task is gone.  With each task the tuple it was found at. -/
def yields (deref : Ref → Option Task) : List String → List TimeTuple → List (TimeTuple × Task)
  | _, [] => []
  | seen, evtup :: rest =>
    match deref evtup.task with
    | none => yields deref seen rest
    | some t =>
      if t.ref.uuid ∈ seen then yields deref seen rest
      else (evtup, t) :: yields deref (t.ref.uuid :: seen) rest

/-- `tasks_by_time`. -/
def tasksByTime (deref : Ref → Option Task) (heap : List TimeTuple) (limit : Option ℕ)
    (reverse : Bool) : List (TimeTuple × Task) :=
  let heap := if reverse then heap.reverse else heap
  yields deref [] (match limit with
    | none => heap
    | some n => heap.take n)

/-! ## What keeps the heap in order -/

/-- The heap is non-decreasing. -/
def Sorted (heap : List TimeTuple) : Prop := heap.Pairwise fun a b => a.key ≤ b.key

instance (heap : List TimeTuple) : Decidable (Sorted heap) :=
  inferInstanceAs (Decidable (List.Pairwise _ heap))

theorem sorted_append {heap : List TimeTuple} {last tup : TimeTuple} (h : Sorted heap)
    (hlast : heap.getLast? = some last) (hlt : last.key < tup.key) : Sorted (heap ++ [tup]) := by
  refine List.pairwise_append.mpr ⟨h, List.pairwise_singleton _ _, fun a ha b hb => ?_⟩
  rw [List.mem_singleton.mp hb]
  obtain ⟨init, rfl⟩ := List.getLast?_eq_some_iff.mp hlast
  rcases List.mem_append.mp ha with hinit | hsingle
  · have hle := (List.pairwise_append.mp h).2.2 a hinit last (List.mem_singleton_self last)
    exact hle.trans hlt.le
  · rw [List.mem_singleton.mp hsingle]
    exact hlt.le

/-- A task event keeps a sorted heap sorted. -/
theorem pushEvent_sorted {maxEvents : ℕ} {heap : List TimeTuple} (h : Sorted heap)
    (tup : TimeTuple) : Sorted (pushEvent maxEvents heap tup).1 := by
  rw [pushEvent]
  split
  · exact h
  · have hpopped : Sorted (if maxEvents < heap.length + 1 then heap.tail else heap) := by
      split
      · exact h.sublist (List.tail_sublist heap)
      · exact h
    generalize (if maxEvents < heap.length + 1 then heap.tail else heap) = popped at hpopped
    dsimp only
    split
    · exact Bisect.insort_sorted hpopped
    · split
      · exact hpopped
      next last hlast =>
        split
        next hlt => exact sorted_append hpopped hlast hlt
        next => exact Bisect.insort_sorted hpopped

/-- A task event keeps the heap within its limit. -/
theorem pushEvent_length {maxEvents : ℕ} {heap : List TimeTuple} (h : heap.length ≤ maxEvents)
    (tup : TimeTuple) : (pushEvent maxEvents heap tup).1.length ≤ maxEvents := by
  rw [pushEvent]
  split
  · exact h
  next hnot =>
    have hpopped :
        (if maxEvents < heap.length + 1 then heap.tail else heap).length + 1 ≤ maxEvents := by
      split
      · rw [List.length_tail]
        omega
      · omega
    generalize (if maxEvents < heap.length + 1 then heap.tail else heap) = popped at hpopped
    have hinsert : (Bisect.insort TimeTuple.key tup popped).length ≤ maxEvents := by
      rw [(Bisect.insort_perm TimeTuple.key tup popped).length_eq, List.length_cons]
      exact hpopped
    dsimp only
    split
    · exact hinsert
    · split
      · exact (Nat.le_succ _).trans hpopped
      · split
        · rwa [List.length_append, List.length_singleton]
        · exact hinsert

/-! ## What the queries by time give -/

section Queries

variable {deref : Ref → Option Task} {seen : List String} {heap : List TimeTuple}

/-- Tasks are found at tuples of the heap, in their order. -/
theorem yields_sublist : ((yields deref seen heap).map Prod.fst).Sublist heap := by
  induction heap generalizing seen with
  | nil => exact List.Sublist.refl _
  | cons evtup rest ih =>
    rw [yields]
    split
    · exact ih.cons _
    · split
      · exact ih.cons _
      · exact ih.cons_cons _

/-- No task is found twice, nor one that was seen before. -/
theorem yields_nodup :
    ((yields deref seen heap).map fun y => y.2.ref.uuid).Nodup ∧
      ∀ y ∈ yields deref seen heap, y.2.ref.uuid ∉ seen := by
  induction heap generalizing seen with
  | nil => exact ⟨List.nodup_nil, fun _ hy => absurd hy List.not_mem_nil⟩
  | cons evtup rest ih =>
    rw [yields]
    split
    · exact ih
    next t _ =>
      split
      · exact ih
      next hnew =>
        obtain ⟨hnodup, hseen⟩ := @ih (t.ref.uuid :: seen)
        refine ⟨List.nodup_cons.mpr ⟨fun hmem => ?_, hnodup⟩, fun y hy => ?_⟩
        · obtain ⟨y, hy, heq⟩ := List.mem_map.mp hmem
          exact hseen y hy (heq ▸ List.mem_cons_self)
        · rcases List.mem_cons.mp hy with rfl | hy
          · exact hnew
          · exact fun hmem => hseen y hy (List.mem_cons_of_mem _ hmem)

/-- On a heap from the latest tuple on, a task is found at its latest one. -/
theorem yields_latest (h : heap.Pairwise fun a b => b.key ≤ a.key) {y : TimeTuple × Task}
    (hy : y ∈ yields deref seen heap) {evtup : TimeTuple} (hev : evtup ∈ heap) {t : Task}
    (ht : deref evtup.task = some t) (huuid : t.ref.uuid = y.2.ref.uuid) : evtup.key ≤ y.1.key := by
  induction heap generalizing seen with
  | nil => cases hev
  | cons first rest ih =>
    obtain ⟨hfirst, hrest⟩ := List.pairwise_cons.mp h
    rw [yields] at hy
    -- A later task has not been seen, so it is not that of the first tuple.
    have hlater : ∀ {seen'}, y ∈ yields deref seen' rest →
        (∀ t', deref first.task = some t' → t'.ref.uuid ∈ seen') → evtup.key ≤ y.1.key := by
      intro seen' hy' hseen
      rcases List.mem_cons.mp hev with rfl | hev'
      · exact absurd (huuid ▸ hseen t ht) (yields_nodup.2 y hy')
      · exact ih hrest hy' hev'
    split at hy
    next hnone =>
      refine hlater hy fun t' ht' => ?_
      rw [hnone] at ht'
      cases ht'
    next t₁ ht₁ =>
      split at hy
      next hmem =>
        refine hlater hy fun t' ht' => ?_
        rw [ht₁] at ht'
        exact Option.some_inj.mp ht' ▸ hmem
      next =>
        rcases List.mem_cons.mp hy with rfl | hy
        · rcases List.mem_cons.mp hev with rfl | hev'
          · exact le_rfl
          · exact hfirst evtup hev'
        · refine hlater hy fun t' ht' => ?_
          rw [ht₁] at ht'
          exact Option.some_inj.mp ht' ▸ List.mem_cons_self

end Queries

/-- **The order of the heap**: it is sorted and within its limit, and `tasks_by_time`
finds each task once, at its latest event, the latest of them first. -/
structure Ordered (cfg : Settings) (s : State) : Prop where
  sorted : Sorted s.taskheap
  bounded : s.taskheap.length ≤ cfg.maxEvents
  once : ∀ deref, ((tasksByTime deref s.taskheap none true).map fun y => y.2.ref.uuid).Nodup
  latestFirst : ∀ deref, (tasksByTime deref s.taskheap none true).Pairwise
    fun y y' => y'.1.key ≤ y.1.key
  latest : ∀ deref, ∀ y ∈ tasksByTime deref s.taskheap none true, ∀ evtup ∈ s.taskheap, ∀ t,
    deref evtup.task = some t → t.ref.uuid = y.2.ref.uuid → evtup.key ≤ y.1.key

theorem ordered_iff {cfg : Settings} {s : State} :
    Ordered cfg s ↔ Sorted s.taskheap ∧ s.taskheap.length ≤ cfg.maxEvents := by
  refine ⟨fun h => ⟨h.sorted, h.bounded⟩, fun ⟨hsorted, hbounded⟩ => ?_⟩
  have hreverse : s.taskheap.reverse.Pairwise fun a b => b.key ≤ a.key :=
    List.pairwise_reverse.mpr hsorted
  refine ⟨hsorted, hbounded, fun _ => yields_nodup.1, fun deref => ?_,
    fun deref y hy evtup hev t ht huuid => ?_⟩
  · exact List.pairwise_map.mp (hreverse.sublist yields_sublist)
  · exact yields_latest hreverse hy (List.mem_reverse.mpr hev) ht huuid

/-! ## Steps and runs -/

@[simp] theorem taskheap_getTask (s : State) (uuid : String) :
    (s.getTask uuid).1.taskheap = s.taskheap := by
  rw [State.getTask]
  split <;> rfl

@[simp] theorem taskheap_getWorker (s : State) (hostname : String) :
    (s.getWorker hostname).1.taskheap = s.taskheap := by
  rw [State.getWorker]
  split <;> rfl

@[simp] theorem taskheap_seenBy (s : State) (t : Task) (e : TaskEvent) :
    (s.seenBy t e).1.taskheap = s.taskheap := by
  rw [State.seenBy]
  split
  · rfl
  · exact taskheap_getWorker s e.hostname

@[simp] theorem taskheap_addIndexes (s : State) (t : Task) (hostname : String) (created : Bool) :
    (s.addIndexes t hostname created).taskheap = s.taskheap := by
  unfold State.addIndexes
  split <;> rfl

/-- A task event pushes one tuple. -/
theorem taskheap_taskEvent (cfg : Settings) (s : State) (e : TaskEvent) :
    ∃ tup, (s.taskEvent cfg e).taskheap = (pushEvent cfg.maxEvents s.taskheap tup).1 := by
  refine ⟨⟨e.clock, ((s.getTask e.uuid).1.seenBy (s.getTask e.uuid).2.1 e).2.2,
    ((s.getTask e.uuid).1.seenBy (s.getTask e.uuid).2.1 e).2.1.ref⟩, ?_⟩
  rw [State.taskEvent]
  dsimp only
  rw [taskheap_seenBy, taskheap_getTask]
  split
  · rfl
  · rw [taskheap_addIndexes]
    rfl

theorem taskheap_workerEvent (cfg : Settings) (s : State) (subject hostname : String)
    (pid : Option (Option ℕ)) : (s.workerEvent cfg subject hostname pid).taskheap = s.taskheap := by
  rw [State.workerEvent]
  dsimp only
  split <;> split <;> first | rfl | exact taskheap_getWorker s hostname

/-- The mapping of tasks is in the order of their tuples, and not larger than the heap
may be. -/
def InOrder (cfg : Settings) (saved : State) : Prop :=
  (saved.tasks.Pairwise fun t t' =>
    toLex (t.clock, saved.origin t) ≤ toLex (t'.clock, saved.origin t')) ∧
  saved.tasks.length ≤ cfg.maxEvents

theorem ordered_rebuildTaskheap_iff {cfg : Settings} {saved : State} :
    Ordered cfg saved.rebuildTaskheap ↔ InOrder cfg saved := by
  rw [ordered_iff, Sorted, State.rebuildTaskheap, List.pairwise_map, List.length_map]
  rfl

/-- A step keeps the order, unless it makes the state anew from a mapping that is not in
order. -/
def Kept (cfg : Settings) : Action → Prop
  | .construct saved => InOrder cfg saved
  | _ => True

theorem ordered_step_iff {cfg : Settings} {s : State} (h : Ordered cfg s) (a : Action) :
    Ordered cfg (s.step cfg a) ↔ Kept cfg a := by
  obtain ⟨hsorted, hbounded⟩ := ordered_iff.mp h
  cases a with
  | taskEvent e =>
    refine iff_of_true (ordered_iff.mpr ?_) trivial
    obtain ⟨tup, htup⟩ := taskheap_taskEvent cfg s e
    rw [State.step, htup]
    exact ⟨pushEvent_sorted hsorted tup, pushEvent_length hbounded tup⟩
  | workerEvent subject hostname pid =>
    refine iff_of_true (ordered_iff.mpr ?_) trivial
    rw [State.step, taskheap_workerEvent]
    exact ⟨hsorted, hbounded⟩
  | clearTasks ready =>
    exact iff_of_true (ordered_iff.mpr ⟨List.Pairwise.nil, Nat.zero_le _⟩) trivial
  | clear ready =>
    exact iff_of_true (ordered_iff.mpr ⟨List.Pairwise.nil, Nat.zero_le _⟩) trivial
  | construct saved => exact ordered_rebuildTaskheap_iff
  | dropTask uuid => exact iff_of_true (ordered_iff.mpr ⟨hsorted, hbounded⟩) trivial
  | dropWorker hostname => exact iff_of_true (ordered_iff.mpr ⟨hsorted, hbounded⟩) trivial

/-- The actions `as` take a state that was created empty to `s`. -/
def Reaches (cfg : Settings) (as : List Action) (s : State) : Prop :=
  Run (fun s a t => s.step cfg a = t) State.empty as s

/-- **When the task heap is in order.**  Whatever a state is made from and whatever
events it gets, its heap is in order in every state of the run if and only if every
mapping of tasks it is made from is in the order of the tasks' clocks and origins, and
not larger than the heap may be. -/
theorem taskheap_ordered_iff {cfg : Settings} {as : List Action} {s : State}
    (h : Reaches cfg as s) :
    (∀ as₁ as₂ t, as = as₁ ++ as₂ → Reaches cfg as₁ t → Ordered cfg t) ↔
      ∀ saved, .construct saved ∈ as → InOrder cfg saved := by
  have hexact := Run.invariant_iff (C := fun _ a => Kept cfg a) (I := Ordered cfg)
    (fun _ _ _ _ hu hv => hu.symm.trans hv)
    (fun _ ht hstep => by rw [← hstep]; exact ordered_step_iff ht _) h
    (ordered_iff.mpr ⟨List.Pairwise.nil, Nat.zero_le _⟩)
  refine hexact.trans ⟨fun hall saved hmem => ?_, fun hall as₁ a as₂ t has _ => ?_⟩
  · obtain ⟨as₁, as₂, rfl⟩ := List.append_of_mem hmem
    obtain ⟨t, ht, -⟩ := Run.of_append h
    exact hall as₁ (.construct saved) as₂ t rfl ht
  · cases a with
    | construct saved => exact hall saved (has ▸ List.mem_append_right _ List.mem_cons_self)
    | _ => trivial

/-- The default settings of a `State`. -/
def defaultSettings : Settings := ⟨10000, 4, false⟩

/-- Two tasks are received, and the first one succeeds. -/
def twoTasks : List Action :=
  [.taskEvent ⟨"received", "t1", "w1", 1, some (some "add")⟩,
    .taskEvent ⟨"received", "t2", "w1", 2, some (some "add")⟩,
    .taskEvent ⟨"succeeded", "t1", "w1", 3, none⟩]

/-- The state after these events. -/
def twoTasksState : State := twoTasks.foldl (State.step defaultSettings) State.empty

/-- The heap of a state that was created empty. -/
theorem taskheap_ordered_twoTasks :
    Reaches defaultSettings twoTasks twoTasksState ∧
      ((∀ as₁ as₂ t, twoTasks = as₁ ++ as₂ → Reaches defaultSettings as₁ t →
          Ordered defaultSettings t) ↔
        ∀ saved, .construct saved ∈ twoTasks → InOrder defaultSettings saved) :=
  ⟨Run.foldl _ _ _, taskheap_ordered_iff (Run.foldl _ _ _)⟩

/-- **An unpickled heap is not sorted.**  The state is pickled after the first task has
succeeded: the mapping still has that task first, and its latest event is the last. -/
theorem unpickled_not_ordered :
    ∃ s, Reaches defaultSettings (twoTasks ++ [.construct twoTasksState]) s ∧
      s.taskheap.map (fun tup => (tup.task.uuid, tup.clock)) = [("t1", 3), ("t2", 2)] ∧
      ¬ Ordered defaultSettings s := by
  refine ⟨twoTasksState.rebuildTaskheap, .snoc (Run.foldl _ _ _) rfl, by decide, fun h => ?_⟩
  exact absurd h.sorted (by decide)

end EventState
end Celery
