/-
# `celery/beat.py`: the scheduler

`Scheduler.tick` (lines 292-406) keeps the entries of the schedule in a heap of
events, each with the time its entry is to be looked at.  A tick takes the first
event, and if its entry is due it reserves it, which puts a new entry with a new
`last_run_at` into the schedule, sends the task and pushes an event for the new entry.
An entry that is not due gets its event pushed again, at a later time.

Whatever happens in a tick, the heap has one event for each entry of the schedule
(`inStep_ran`).  An entry is sent only if it was due after its `last_run_at`, and the
`last_run_at` of the next one is the time of the send.  So no due time is sent for
twice (`beat_sends_once`).

Times are in microseconds, and the clock is read wherever the code reads it.  A tick
that raises ends the service.
-/

import Celery.Library.Heapq
import Celery.Library.Transition
import Celery.Schedules.IsDue

namespace Celery
namespace Beat

open Readings Transition

/-! ## Entries -/

/-- The `schedule` of an entry. -/
inductive Schedule where
  | crontab (c : Crontab)
  | interval (i : Interval)

namespace Schedule

/-- `is_due`. -/
def isDue (deadline : Option ℕ) (lastRunAt : Datetime) : Schedule → Clocked (Bool × ℤ)
  | crontab c => c.isDue deadline lastRunAt
  | interval i => i.isDue lastRunAt

/-- `__eq__`: the fields of two crontabs, the lengths of two intervals. -/
def equal : Schedule → Schedule → Bool
  | crontab c, crontab c' =>
    c'.monthOfYear.values == c.monthOfYear.values && c'.dayOfMonth.values == c.dayOfMonth.values &&
      c'.dayOfWeek.values == c.dayOfWeek.values && c'.hour.values == c.hour.values &&
      c'.minute.values == c.minute.values
  | interval i, interval i' => i.runEvery == i'.runEvery
  | _, _ => false

end Schedule

/-- `ScheduleEntry`: `message` is its task with the arguments and options, and `object`
says the how many-th such object it is. -/
structure Entry (M : Type) where
  name : String
  message : M
  schedule : Schedule
  lastRunAt : Datetime
  totalRunCount : ℕ
  object : ℕ

/-- An event of the heap. -/
structure Event (M : Type) where
  time : ℤ
  priority : ℕ
  entry : Entry M

/-- `max_interval`, `beat_cron_starting_deadline`, and the `id()` of each entry object. -/
structure Config where
  maxInterval : ℤ
  deadline : Option ℕ
  address : ℕ → ℕ

variable {M : Type} [DecidableEq M] (cfg : Config)

/-- `editable_fields_equal`. -/
def Entry.editableFieldsEqual (e e' : Entry M) : Bool :=
  decide (e.message = e'.message) && e.schedule.equal e'.schedule

/-- `entry.is_due`. -/
def Entry.isDue (e : Entry M) : Clocked (Bool × ℤ) := e.schedule.isDue cfg.deadline e.lastRunAt

/-- `<` on events: tuples of the time, the priority and the entry, and entries are
compared by their `id()` if they are not equal. -/
def Event.lt (a b : Event M) : Bool :=
  if a.time ≠ b.time then decide (a.time < b.time)
  else if a.priority ≠ b.priority then decide (a.priority < b.priority)
  else if a.entry.editableFieldsEqual b.entry then false
  else decide (cfg.address a.entry.object < cfg.address b.entry.object)

/-! ## The scheduler -/

/-- `Scheduler`: the dict `schedule`, by the names of the entries, its copy
`old_schedulers`, the heap, and how many entry objects there have been. -/
structure Scheduler (M : Type) where
  schedule : List (Entry M)
  oldSchedulers : Option (List (Entry M))
  heap : Option (Array (Event M))
  created : ℕ

/-- `adjust`: a delay is ten milliseconds shorter. -/
def adjust (n : ℤ) : ℤ := if 0 < n then n - 10000 else n

/-- `_when`: a time stamp in UTC. -/
def whenDue (nextTimeToRun : ℤ) : Clocked ℤ := do
  let now ← Reads.now
  let asNow ← Reads.lift (maybeMakeAware now .utc true)
  let utc ← Reads.lift (asNow.astimezone .utc)
  return utc.wall + adjust nextTimeToRun

/-- The events of `populate_heap`. -/
def populateHeap : List (Entry M) → Clocked (List (Event M))
  | [] => pure []
  | entry :: rest => do
    let (isDue, nextCallDelay) ← entry.isDue cfg
    let time ← whenDue (if isDue then 0 else nextCallDelay)
    let events ← populateHeap rest
    return ⟨time, 5, entry⟩ :: events

/-- `schedules_equal`, of two dicts. -/
def schedulesEqual (old new : List (Entry M)) : Bool :=
  (old.map Entry.name).all (fun name => name ∈ new.map Entry.name) &&
  (new.map Entry.name).all (fun name => name ∈ old.map Entry.name) &&
  old.all fun oldEntry =>
    match new.find? fun e => e.name = oldEntry.name with
    | none => false
    | some newEntry => newEntry.editableFieldsEqual oldEntry

/-- `schedule[entry.name] = entry`. -/
def setEntry (schedule : List (Entry M)) (entry : Entry M) : List (Entry M) :=
  if entry.name ∈ schedule.map Entry.name then
    schedule.map fun e => if e.name = entry.name then entry else e
  else schedule ++ [entry]

/-- What is sent: the entry, and the time it is reserved at. -/
structure Sent (M : Type) where
  entry : Entry M
  time : Datetime

/-- What a tick leaves: the scheduler, the delay until the next one, and what it sent. -/
structure Ticked (M : Type) where
  scheduler : Scheduler M
  delay : ℤ
  sent : Option (Sent M)

namespace Scheduler

variable (s : Scheduler M)

/-- The heap of a tick, which is populated in the first one and after a change. -/
def ensureHeap : Clocked (Scheduler M × Array (Event M)) :=
  match s.heap, s.oldSchedulers with
  | some heap, some old =>
    if schedulesEqual old s.schedule then pure (s, heap) else populate
  | _, _ => populate
where
  populate : Clocked (Scheduler M × Array (Event M)) := do
    let events ← populateHeap cfg s.schedule
    let heap := Heapq.heapify (Event.lt cfg) events.toArray
    return ({ s with oldSchedulers := some s.schedule, heap := some heap }, heap)

/-- `reserve`: the next entry, with the time of now. -/
def reserve (entry : Entry M) : Clocked (Scheduler M × Entry M) := do
  let now ← Reads.now
  let newEntry :=
    { entry with
      lastRunAt := now, totalRunCount := entry.totalRunCount + 1, object := s.created }
  return ({ s with schedule := setEntry s.schedule newEntry, created := s.created + 1 }, newEntry)

/-- The due event is sent, and an event for the next entry is pushed. -/
def sendEvent (heap : Array (Event M)) (event : Event M) (nextTimeToRun : ℤ) :
    Clocked (Ticked M) := do
  let (s, nextEntry) ← s.reserve event.entry
  let time ← whenDue nextTimeToRun
  let heap := Heapq.heappush (Event.lt cfg) heap ⟨time, event.priority, nextEntry⟩
  return ⟨{ s with heap := some heap }, 0, some ⟨event.entry, nextEntry.lastRunAt⟩⟩

/-- The event of an entry that is not due is pushed again, and if it is not the first one
then, the tick is to be repeated at once. -/
def retryLater (heap : Array (Event M)) (event : Event M) (rescheduleDelay : ℤ) :
    Clocked (Ticked M) := do
  let time ← whenDue rescheduleDelay
  let heap := Heapq.heappush (Event.lt cfg) heap ⟨time, event.priority, event.entry⟩
  let delay :=
    if heap[0]?.any fun first => first.entry.object ≠ event.entry.object then 0
    else min (adjust rescheduleDelay) cfg.maxInterval
  return ⟨{ s with heap := some heap }, delay, none⟩

/-- Another event than the first one was popped, and is pushed again. -/
def pushBack (heap : Array (Event M)) (verify : Event M) : Clocked (Ticked M) := do
  let now ← whenDue 0
  return ⟨{ s with heap := some (Heapq.heappush (Event.lt cfg) heap verify) },
    min (verify.time - now) cfg.maxInterval, none⟩

/-- The first event of the heap.  An event is known by its entry object. -/
def runEvent (heap : Array (Event M)) (event : Event M) : Clocked (Ticked M) := do
  let now ← whenDue 0
  if now < event.time then return ⟨s, min (event.time - now) cfg.maxInterval, none⟩
  else
    let (isDue, nextTimeToRun) ← event.entry.isDue cfg
    match Heapq.heappop (Event.lt cfg) heap with
    | none => Reads.lift (.error .indexError)
    | some (verify, heap) =>
      if verify.entry.object ≠ event.entry.object then s.pushBack cfg heap verify
      else if isDue then s.sendEvent cfg heap event nextTimeToRun
      else s.retryLater cfg heap event nextTimeToRun

/-- `tick`. -/
def tick : Clocked (Ticked M) := do
  let (s, heap) ← s.ensureHeap cfg
  match heap[0]? with
  | none => return ⟨s, cfg.maxInterval, none⟩
  | some event => s.runEvent cfg heap event

end Scheduler

/-! ## The heap and the schedule -/

variable {cfg} {s s' : Scheduler M} {rs : List Datetime}

/-- A heap with one event for each entry of a schedule. -/
def EventsOf (heap : Array (Event M)) (schedule : List (Entry M)) : Prop :=
  (heap.toList.map Event.entry).Perm schedule

/-- **Heap and schedule are in step**: there is exactly one event for each entry, and
its entry is the one that the schedule has under that name. -/
def InStep (s : Scheduler M) : Prop :=
  (s.schedule.map Entry.name).Nodup ∧ ∃ heap, s.heap = some heap ∧ EventsOf heap s.schedule

theorem gives_whenDue {delay time : ℤ} (h : Reads.Gives (whenDue delay) rs time) :
    ∃ now, rs = [now] ∧ time = now.instant + adjust delay := by
  simp only [whenDue, Reads.gives_bind, Reads.gives_now, Reads.gives_lift, Reads.gives_pure] at h
  obtain ⟨_, _, now, rfl, rfl, _, _, asNow, rfl, ⟨rfl, hasNow⟩, _, _, utc, rfl, ⟨rfl, hutc⟩, rfl,
    rfl⟩ := h
  obtain ⟨htz, hinstant⟩ := Datetime.astimezone_spec hutc
  exact ⟨now, rfl, by rw [← Datetime.instant_utc htz, hinstant, (maybeMakeAware_spec hasNow).2]⟩

omit [DecidableEq M] in
theorem entry_populateHeap {entries : List (Entry M)} {events : List (Event M)}
    (h : Reads.Gives (populateHeap cfg entries) rs events) : events.map Event.entry = entries := by
  induction entries generalizing rs events with
  | nil =>
    obtain ⟨-, rfl⟩ := Reads.gives_pure.mp h
    rfl
  | cons entry rest ih =>
    simp only [populateHeap, Reads.gives_bind, Reads.gives_pure] at h
    obtain ⟨_, _, _, -, -, _, _, _, -, -, _, _, events', -, hrest, -, rfl⟩ := h
    rw [List.map_cons, ih hrest]

/-- The heap that a tick works on is the one there was, or a populated one. -/
theorem ensureHeap_cases {heap : Array (Event M)}
    (h : Reads.Gives (s.ensureHeap cfg) rs (s', heap)) :
    (s' = s ∧ s.heap = some heap) ∨
      ∃ events, Reads.Gives (populateHeap cfg s.schedule) rs events ∧
        heap = Heapq.heapify (Event.lt cfg) events.toArray ∧
        s' = { s with oldSchedulers := some s.schedule, heap := some heap } := by
  have hpopulate : Reads.Gives (Scheduler.ensureHeap.populate cfg s) rs (s', heap) →
      ∃ events, Reads.Gives (populateHeap cfg s.schedule) rs events ∧
        heap = Heapq.heapify (Event.lt cfg) events.toArray ∧
        s' = { s with oldSchedulers := some s.schedule, heap := some heap } := by
    intro h
    simp only [Scheduler.ensureHeap.populate, Reads.gives_bind, Reads.gives_pure] at h
    obtain ⟨rs₁, _, events, rfl, hevents, rfl, heq⟩ := h
    obtain ⟨rfl, rfl⟩ := Prod.mk.inj heq
    exact ⟨events, by rwa [List.append_nil], rfl, rfl⟩
  unfold Scheduler.ensureHeap at h
  split at h
  next heap' old hheap _ =>
    split at h
    next =>
      obtain ⟨-, heq⟩ := Reads.gives_pure.mp h
      obtain ⟨rfl, rfl⟩ := Prod.mk.inj heq
      exact Or.inl ⟨rfl, hheap⟩
    next => exact Or.inr (hpopulate h)
  next => exact Or.inr (hpopulate h)

theorem gives_ensureHeap {heap : Array (Event M)} (hstep : s.heap = none ∨ InStep s)
    (h : Reads.Gives (s.ensureHeap cfg) rs (s', heap)) :
    s'.schedule = s.schedule ∧ s'.created = s.created ∧ s'.heap = some heap ∧
      EventsOf heap s.schedule := by
  obtain ⟨rfl, hheap⟩ | ⟨events, hevents, rfl, rfl⟩ := ensureHeap_cases h
  · refine ⟨rfl, rfl, hheap, ?_⟩
    rcases hstep with hnone | ⟨-, _, hsome, hevents⟩
    · rw [hheap] at hnone
      cases hnone
    · rw [hheap] at hsome
      rwa [Option.some_inj.mp hsome]
  · refine ⟨rfl, rfl, rfl, ?_⟩
    have hperm := (Heapq.heapify_perm (Event.lt cfg) events.toArray).toList.map Event.entry
    rwa [List.toList_toArray, entry_populateHeap hevents] at hperm

omit [DecidableEq M] in
/-- A reserved entry takes the place of the one it follows. -/
theorem setEntry_perm {schedule rest : List (Entry M)} {entry entry' : Entry M}
    (hnodup : (schedule.map Entry.name).Nodup) (hperm : schedule.Perm (entry :: rest))
    (hname : entry'.name = entry.name) : (setEntry schedule entry').Perm (entry' :: rest) := by
  have hmem : entry'.name ∈ schedule.map Entry.name := by
    rw [hname]
    exact List.mem_map_of_mem (hperm.mem_iff.mpr List.mem_cons_self)
  have hfresh : ∀ e ∈ rest, e.name ≠ entry'.name := by
    have hnames := (hperm.map Entry.name).nodup_iff.mp hnodup
    intro e he heq
    refine (List.nodup_cons.mp hnames).1 ?_
    rw [← hname, ← heq]
    exact List.mem_map_of_mem he
  rw [setEntry, if_pos hmem]
  refine (hperm.map _).trans ?_
  rw [List.map_cons, if_pos hname.symm, List.map_congr_left fun e he => if_neg (hfresh e he),
    List.map_id']

/-! ## What a tick does -/

/-- The entry that `reserve` makes. -/
def Scheduler.nextEntry (s : Scheduler M) (entry : Entry M) (now : Datetime) : Entry M :=
  { entry with lastRunAt := now, totalRunCount := entry.totalRunCount + 1, object := s.created }

section Ran

variable (cfg)

/-- The heap after a send: the rest, and the event of the next entry. -/
def sentHeap (s : Scheduler M) (rest : Array (Event M)) (event : Event M) (next : ℤ)
    (reserved later : Datetime) : Array (Event M) :=
  Heapq.heappush (Event.lt cfg) rest
    ⟨later.instant + adjust next, event.priority, s.nextEntry event.entry reserved⟩

/-- The heap where the event has been put off. -/
def retriedHeap (rest : Array (Event M)) (event : Event M) (next : ℤ) (later : Datetime) :
    Array (Event M) :=
  Heapq.heappush (Event.lt cfg) rest ⟨later.instant + adjust next, event.priority, event.entry⟩

/-- What a tick does with its heap, and the readings of the clock that it takes: it has
nothing to do, or waits for the first event, or sends it, or puts it off. -/
inductive Ran (s : Scheduler M) (heap : Array (Event M)) : List Datetime → Ticked M → Prop where
  | idle : heap[0]? = none → Ran s heap [] ⟨s, cfg.maxInterval, none⟩
  | wait {event : Event M} {now : Datetime} :
      heap[0]? = some event → now.instant < event.time →
      Ran s heap [now] ⟨s, min (event.time - now.instant) cfg.maxInterval, none⟩
  | send {event : Event M} {rest : Array (Event M)} {now reserved later : Datetime}
      {rs : List Datetime} {next : ℤ} :
      heap[0]? = some event → event.time ≤ now.instant →
      Heapq.heappop (Event.lt cfg) heap = some (event, rest) →
      Reads.Gives (event.entry.isDue cfg) rs (true, next) →
      Ran s heap (now :: (rs ++ [reserved, later]))
        ⟨{ s with
            schedule := setEntry s.schedule (s.nextEntry event.entry reserved)
            created := s.created + 1
            heap := some (sentHeap cfg s rest event next reserved later) },
          0, some ⟨event.entry, reserved⟩⟩
  | retry {event : Event M} {rest : Array (Event M)} {now later : Datetime}
      {rs : List Datetime} {next : ℤ} :
      heap[0]? = some event → event.time ≤ now.instant →
      Heapq.heappop (Event.lt cfg) heap = some (event, rest) →
      Reads.Gives (event.entry.isDue cfg) rs (false, next) →
      Ran s heap (now :: (rs ++ [later]))
        ⟨{ s with heap := some (retriedHeap cfg rest event next later) },
          if (retriedHeap cfg rest event next later)[0]?.any
            fun first => first.entry.object ≠ event.entry.object then 0
          else min (adjust next) cfg.maxInterval, none⟩

end Ran

theorem ran_runEvent {heap : Array (Event M)} {event : Event M} {t : Ticked M}
    (hevent : heap[0]? = some event) (h : Reads.Gives (s.runEvent cfg heap event) rs t) :
    Ran cfg s heap rs t := by
  obtain ⟨hsize, rfl⟩ := Array.getElem?_eq_some_iff.mp hevent
  obtain ⟨rest, hpop, -⟩ := @Heapq.heappop_eq _ (Event.lt cfg) heap hsize
  simp only [Scheduler.runEvent, Reads.gives_bind] at h
  obtain ⟨_, _, _, rfl, hnow, hrest⟩ := h
  obtain ⟨now, rfl, rfl⟩ := gives_whenDue hnow
  have hadjust : adjust 0 = 0 := rfl
  rw [hadjust, add_zero] at hrest
  split at hrest
  next hlt =>
    obtain ⟨rfl, rfl⟩ := Reads.gives_pure.mp hrest
    exact .wait hevent hlt
  next hge =>
    simp only [Reads.gives_bind, hpop, ne_eq, not_true_eq_false, if_false] at hrest
    obtain ⟨rs₁, _, ⟨due, next⟩, rfl, hdue, htail⟩ := hrest
    cases due with
    | true =>
      simp only [if_true, Scheduler.sendEvent, Scheduler.reserve, Reads.gives_bind, Reads.gives_now,
        Reads.gives_pure] at htail
      obtain ⟨_, _, _, rfl, ⟨_, _, reserved, rfl, rfl, rfl, rfl⟩, _, _, _, rfl, htime, rfl, rfl⟩ :=
        htail
      obtain ⟨later, rfl, rfl⟩ := gives_whenDue htime
      exact .send hevent (not_lt.mp hge) hpop hdue
    | false =>
      simp only [Bool.false_eq_true, if_false, Scheduler.retryLater, Reads.gives_bind,
        Reads.gives_pure] at htail
      obtain ⟨_, _, _, rfl, htime, rfl, rfl⟩ := htail
      obtain ⟨later, rfl, rfl⟩ := gives_whenDue htime
      exact .retry hevent (not_lt.mp hge) hpop hdue

/-- **What a tick does.** -/
theorem ran_tick {t : Ticked M} (h : Reads.Gives (s.tick cfg) rs t) :
    ∃ rs₀ rs₁ s₁ heap, rs = rs₀ ++ rs₁ ∧ Reads.Gives (s.ensureHeap cfg) rs₀ (s₁, heap) ∧
      Ran cfg s₁ heap rs₁ t := by
  simp only [Scheduler.tick, Reads.gives_bind] at h
  obtain ⟨rs₀, rs₁, ⟨s₁, heap⟩, rfl, hheap, hrun⟩ := h
  refine ⟨rs₀, rs₁, s₁, heap, rfl, hheap, ?_⟩
  split at hrun
  next hnone =>
    obtain ⟨rfl, rfl⟩ := Reads.gives_pure.mp hrun
    exact .idle hnone
  next event hevent => exact ran_runEvent hevent hrun

/-- The first event, and the rest. -/
theorem pop_perm {heap rest : Array (Event M)} {event : Event M} (hevent : heap[0]? = some event)
    (hpop : Heapq.heappop (Event.lt cfg) heap = some (event, rest)) :
    heap.toList.Perm (event :: rest.toList) := by
  obtain ⟨hsize, hzero⟩ := Array.getElem?_eq_some_iff.mp hevent
  obtain ⟨rest', hpop', hperm⟩ := @Heapq.heappop_eq _ (Event.lt cfg) heap hsize
  obtain ⟨-, rfl⟩ := Prod.mk.inj (Option.some_inj.mp (hpop.symm.trans hpop'))
  rwa [hzero] at hperm

/-- The events but the first are those of the other entries. -/
theorem EventsOf.pop {heap rest : Array (Event M)} {event : Event M} {schedule : List (Entry M)}
    (h : EventsOf heap schedule) (hevent : heap[0]? = some event)
    (hpop : Heapq.heappop (Event.lt cfg) heap = some (event, rest)) :
    schedule.Perm (event.entry :: rest.toList.map Event.entry) :=
  h.symm.trans ((pop_perm hevent hpop).map Event.entry)

/-- The events with one more. -/
theorem eventsOf_heappush (rest : Array (Event M)) (event : Event M) :
    EventsOf (Heapq.heappush (Event.lt cfg) rest event)
      (event.entry :: rest.toList.map Event.entry) := by
  have hperm := (Heapq.heappush_perm (Event.lt cfg) rest event).toList.map Event.entry
  refine hperm.trans ?_
  rw [Array.toList_push, List.map_append, List.map_singleton]
  exact List.perm_append_singleton _ _

omit [DecidableEq M] in
theorem names_setEntry {schedule : List (Entry M)} {entry : Entry M}
    (h : entry.name ∈ schedule.map Entry.name) :
    (setEntry schedule entry).map Entry.name = schedule.map Entry.name := by
  rw [setEntry, if_pos h, List.map_map]
  refine List.map_congr_left fun e _ => ?_
  rw [Function.comp_apply]
  split
  next heq => exact heq.symm
  next => rfl

/-- **A tick keeps heap and schedule in step.** -/
theorem inStep_ran {heap : Array (Event M)} {t : Ticked M}
    (hnames : (s.schedule.map Entry.name).Nodup) (hheap : s.heap = some heap)
    (hevents : EventsOf heap s.schedule) (h : Ran cfg s heap rs t) : InStep t.scheduler := by
  cases h with
  | idle => exact ⟨hnames, heap, hheap, hevents⟩
  | wait => exact ⟨hnames, heap, hheap, hevents⟩
  | @send event rest _ reserved _ _ _ hevent _ hpop _ =>
    have hperm := hevents.pop hevent hpop
    have hmem : event.entry.name ∈ s.schedule.map Entry.name :=
      List.mem_map_of_mem (hperm.mem_iff.mpr List.mem_cons_self)
    have hset : (setEntry s.schedule (s.nextEntry event.entry reserved)).Perm
        (s.nextEntry event.entry reserved :: rest.toList.map Event.entry) :=
      setEntry_perm hnames hperm rfl
    refine ⟨?_, _, rfl, ?_⟩
    · rwa [names_setEntry (show (s.nextEntry event.entry reserved).name ∈ _ from hmem)]
    · exact (eventsOf_heappush rest _).trans hset.symm
  | @retry event rest _ _ _ _ hevent _ hpop _ =>
    refine ⟨hnames, _, rfl, ?_⟩
    exact (eventsOf_heappush rest _).trans (hevents.pop hevent hpop).symm

/-- **What a tick sends**: an entry of the schedule that was due, and the next entry
takes its place. -/
theorem sent_tick {t : Ticked M} (hnames : (s.schedule.map Entry.name).Nodup)
    (hstep : s.heap = none ∨ InStep s) (h : Reads.Gives (s.tick cfg) rs t) :
    InStep t.scheduler ∧
      ((t.sent = none ∧ t.scheduler.schedule = s.schedule) ∨
        ∃ entry ∈ s.schedule, ∃ rs₁ rs₂ reserved later next,
          rs = rs₁ ++ (rs₂ ++ [reserved, later]) ∧
          Reads.Gives (entry.isDue cfg) rs₂ (true, next) ∧ t.sent = some ⟨entry, reserved⟩ ∧
          t.scheduler.schedule = setEntry s.schedule (s.nextEntry entry reserved)) := by
  obtain ⟨rs₀, rs₁, s₁, heap, rfl, hensure, hran⟩ := ran_tick h
  obtain ⟨hschedule, hcreated, hheap, hevents⟩ := gives_ensureHeap hstep hensure
  rw [← hschedule] at hnames hevents
  refine ⟨inStep_ran hnames hheap hevents hran, ?_⟩
  cases hran with
  | idle => exact Or.inl ⟨rfl, hschedule⟩
  | wait => exact Or.inl ⟨rfl, hschedule⟩
  | @send event rest now reserved later rs next hevent _ hpop hdue =>
    refine Or.inr ⟨event.entry, ?_, rs₀ ++ [now], rs, reserved, later, next, by simp, hdue, rfl, ?_⟩
    · rw [← hschedule]
      exact (hevents.pop hevent hpop).mem_iff.mpr List.mem_cons_self
    · rw [← hschedule, Scheduler.nextEntry, Scheduler.nextEntry, hcreated]
  | retry => exact Or.inl ⟨rfl, hschedule⟩

/-! ## Runs -/

/-- The entries of a schedule before they are made: a dict. -/
structure Table (M : Type) where
  entries : List (Entry M)
  names : (entries.map Entry.name).Nodup

/-- `Scheduler(schedule)`: the entry objects are the first ones. -/
def Scheduler.init (table : Table M) : Scheduler M where
  schedule := table.entries.mapIdx fun k e => { e with object := k }
  oldSchedulers := none
  heap := none
  created := table.entries.length

omit [DecidableEq M] in
theorem names_init (table : Table M) :
    (Scheduler.init table).schedule.map Entry.name = table.entries.map Entry.name :=
  List.ext_getElem (by simp [Scheduler.init]) (by simp [Scheduler.init])

variable (cfg) in
/-- A tick that reads the clock as in the label and sends what is in it. -/
def Step (s : Scheduler M) (tick : List Datetime × Option (Sent M)) (s' : Scheduler M) : Prop :=
  ∃ delay, Reads.Gives (s.tick cfg) tick.1 ⟨s', delay, tick.2⟩

/-- The readings of a run. -/
def readings (ticks : List (List Datetime × Option (Sent M))) : List Datetime :=
  ticks.flatMap Prod.fst

/-- What a run sends. -/
def sends (ticks : List (List Datetime × Option (Sent M))) : List (Sent M) :=
  ticks.filterMap Prod.snd

/-- The entry was sent for the run at `m`: that was due after its `last_run_at`, and by
the time of the send.  Runs are at whole minutes, so `m` is after the minute of
`last_run_at`. -/
def SentFor (c : Crontab) (a : Sent M) (m : Datetime) : Prop :=
  c.Occurs m ∧ a.entry.lastRunAt < m ∧ m ≤ a.time

/-- What an entry that is sent was due for. -/
def WasDue (a : Sent M) : Prop :=
  match a.entry.schedule with
  | .crontab c => ∃ m, SentFor c a m
  | .interval i => i.relative = false → a.entry.lastRunAt.instant + i.runEvery ≤ a.time.instant

omit [DecidableEq M] in
theorem wasDue_of_gives {entry : Entry M} {reserved : Datetime} {next : ℤ}
    (h : Reads.Gives (entry.isDue cfg) rs (true, next)) (hclock : ∀ now ∈ rs, now ≤ reserved) :
    WasDue ⟨entry, reserved⟩ := by
  unfold WasDue
  dsimp only
  unfold Entry.isDue at h
  cases hs : entry.schedule with
  | crontab c =>
    rw [hs] at h
    obtain ⟨now, hnow, r, hr, hle⟩ := Crontab.gives_isDue h
    exact ⟨r, hr.1.1, hr.1.2, hle.trans (hclock now hnow)⟩
  | interval i =>
    rw [hs] at h
    obtain ⟨now, e, rfl, he, hcases⟩ := Interval.gives_isDue h
    intro hrel
    rcases hcases with ⟨-, hle, -⟩ | ⟨hfalse, -⟩
    · have hend := Interval.endDate_instant hrel he
      have hnow := hclock now (List.mem_singleton_self now)
      rw [← hend]
      exact hle.trans hnow
    · cases hfalse

omit [DecidableEq M] in
theorem mem_setEntry {schedule : List (Entry M)} {entry e : Entry M}
    (h : entry.name ∈ schedule.map Entry.name) :
    e ∈ setEntry schedule entry ↔ e = entry ∨ e ∈ schedule ∧ e.name ≠ entry.name := by
  rw [setEntry, if_pos h, List.mem_map]
  constructor
  · rintro ⟨e', he', rfl⟩
    split
    · exact Or.inl rfl
    next hne => exact Or.inr ⟨he', hne⟩
  · rintro (rfl | ⟨he, hne⟩)
    · obtain ⟨e', he', hname⟩ := List.mem_map.mp h
      exact ⟨e', he', if_pos hname⟩
    · exact ⟨e, he, if_neg hne⟩

/-- What holds throughout a run: every entry that was sent was due, and at every later
send of its name, or now, the `last_run_at` is not before the time of the send. -/
structure Kept (ticks : List (List Datetime × Option (Sent M))) (s : Scheduler M) : Prop where
  names : (s.schedule.map Entry.name).Nodup
  heap : ticks = [] ∧ s.heap = none ∨ InStep s
  wasDue : ∀ a ∈ sends ticks, WasDue a
  read : ∀ a ∈ sends ticks, a.time ∈ readings ticks
  current : ∀ a ∈ sends ticks, ∀ e ∈ s.schedule, e.name = a.entry.name →
    e.schedule = a.entry.schedule ∧ a.time ≤ e.lastRunAt
  apart : (sends ticks).Pairwise fun a b => b.entry.name = a.entry.name →
    b.entry.schedule = a.entry.schedule ∧ a.time ≤ b.entry.lastRunAt

theorem kept_step {ticks : List (List Datetime × Option (Sent M))}
    {tick : List Datetime × Option (Sent M)} (h : Kept ticks s) (hstep : Step cfg s tick s')
    (hclock : (readings (ticks ++ [tick])).Pairwise (· ≤ ·)) : Kept (ticks ++ [tick]) s' := by
  obtain ⟨rs, sent⟩ := tick
  obtain ⟨delay, hgives⟩ := hstep
  dsimp only at hgives
  have hread : readings (ticks ++ [(rs, sent)]) = readings ticks ++ rs := by simp [readings]
  rw [hread, List.pairwise_append] at hclock
  obtain ⟨-, hrs, hlater⟩ := hclock
  obtain ⟨hinStep, hcases⟩ := sent_tick h.names (h.heap.imp_left And.right) hgives
  obtain ⟨hsent, hschedule⟩ | ⟨entry, hentry, rs₁, rs₂, reserved, later, next, hrs', hdue, hsent,
    hschedule⟩ := hcases
  · dsimp only at hsent hschedule hinStep
    have hsends : sends (ticks ++ [(rs, sent)]) = sends ticks := by simp [sends, hsent]
    refine ⟨hinStep.1, Or.inr hinStep, ?_, ?_, ?_, ?_⟩
    · rw [hsends]
      exact h.wasDue
    · rw [hsends, hread]
      exact fun a ha => List.mem_append_left _ (h.read a ha)
    · rw [hsends, hschedule]
      exact h.current
    · rw [hsends]
      exact h.apart
  · dsimp only at hsent hschedule hinStep
    have hsends : sends (ticks ++ [(rs, sent)]) = sends ticks ++ [⟨entry, reserved⟩] := by
      simp [sends, hsent]
    have hmem : reserved ∈ rs := by simp [hrs']
    have hwasDue : WasDue ⟨entry, reserved⟩ := by
      refine wasDue_of_gives hdue fun now hnow => ?_
      rw [hrs'] at hrs
      exact (List.pairwise_append.mp (List.pairwise_append.mp hrs).2.1).2.2 now hnow reserved
        List.mem_cons_self
    refine ⟨hinStep.1, Or.inr hinStep, ?_, ?_, ?_, ?_⟩
    · rw [hsends]
      exact List.forall_mem_append.mpr ⟨h.wasDue, by simpa using hwasDue⟩
    · rw [hsends, hread]
      refine List.forall_mem_append.mpr ⟨fun a ha => List.mem_append_left _ (h.read a ha), ?_⟩
      simpa using Or.inr hmem
    · have hold : entry.name ∈ s.schedule.map Entry.name := List.mem_map_of_mem hentry
      have hname : (s.nextEntry entry reserved).name ∈ s.schedule.map Entry.name := hold
      rw [hsends, hschedule]
      intro a ha e he heq
      rcases List.mem_append.mp ha with ha | ha
      · rcases (mem_setEntry hname).mp he with rfl | ⟨he, -⟩
        · exact ⟨(h.current a ha entry hentry heq).1, hlater _ (h.read a ha) _ hmem⟩
        · exact h.current a ha e he heq
      · obtain rfl := List.mem_singleton.mp ha
        rcases (mem_setEntry hname).mp he with rfl | ⟨-, hne⟩
        · exact ⟨rfl, le_rfl⟩
        · exact absurd heq hne
    · rw [hsends]
      refine List.pairwise_append.mpr ⟨h.apart, List.pairwise_singleton _ _, fun a ha b hb => ?_⟩
      obtain rfl := List.mem_singleton.mp hb
      exact h.current a ha entry hentry

theorem kept_run {table : Table M} {ticks : List (List Datetime × Option (Sent M))}
    (h : Run (Step cfg) (Scheduler.init table) ticks s)
    (hclock : (readings ticks).Pairwise (· ≤ ·)) : Kept ticks s := by
  induction h with
  | nil =>
    refine ⟨names_init table ▸ table.names, Or.inl ⟨rfl, rfl⟩, ?_, ?_, ?_, List.Pairwise.nil⟩
    · simp [sends]
    · simp [sends]
    · simp [sends]
  | @snoc ticks tick t u _ hstep ih =>
    refine kept_step (ih ?_) hstep hclock
    rw [readings, List.flatMap_append] at hclock
    exact (List.pairwise_append.mp hclock).1

/-- What a run sends under a name. -/
def sendsOf (name : String) (ticks : List (List Datetime × Option (Sent M))) : List (Sent M) :=
  (sends ticks).filter fun a => a.entry.name = name

/-- **No due time is sent for twice.**  From the first tick on the heap has one event
for each entry of the schedule.  Each send of a crontab was due for some matching
minute, no two of its sends are for the same one, and one lies between them.  Two sends
of an interval that is not relative are at least its length apart. -/
structure SendsOnce (ticks : List (List Datetime × Option (Sent M))) (s : Scheduler M) :
    Prop where
  inStep : ticks ≠ [] → InStep s
  due : ∀ name c, ∀ a ∈ sendsOf name ticks, a.entry.schedule = .crontab c → ∃ m, SentFor c a m
  crontab : ∀ name c, (sendsOf name ticks).Pairwise fun a b => a.entry.schedule = .crontab c →
    (∀ m, ¬ (SentFor c a m ∧ SentFor c b m)) ∧ ∃ m, c.Occurs m ∧ a.time < m ∧ m ≤ b.time
  interval : ∀ name i, (sendsOf name ticks).Pairwise fun a b => a.entry.schedule = .interval i →
    i.relative = false → a.time.instant + i.runEvery ≤ b.time.instant

omit [DecidableEq M] in
/-- Two sends of a name: the later one was due after the earlier one. -/
theorem Kept.sendsOf_pairwise {ticks : List (List Datetime × Option (Sent M))} {s : Scheduler M}
    (h : Kept ticks s) (name : String) :
    (sendsOf name ticks).Pairwise fun a b => WasDue b ∧ b.entry.schedule = a.entry.schedule ∧
      a.time ≤ b.entry.lastRunAt := by
  have hpairs : (sends ticks).Pairwise fun a b => WasDue b ∧ (b.entry.name = a.entry.name →
      b.entry.schedule = a.entry.schedule ∧ a.time ≤ b.entry.lastRunAt) :=
    h.apart.imp_of_mem fun _ hb hab => ⟨h.wasDue _ hb, hab⟩
  refine (hpairs.sublist List.filter_sublist).imp_of_mem fun {a b} ha hb ⟨hdue, hab⟩ => ⟨hdue, ?_⟩
  have ha' : a.entry.name = name := by simpa using (List.mem_filter.mp ha).2
  have hb' : b.entry.name = name := by simpa using (List.mem_filter.mp hb).2
  exact hab (hb'.trans ha'.symm)

/-- **Beat sends no entry twice for one due time**, in every run of ticks with clock
readings that do not decrease, within a tick or from one to the next. -/
theorem beat_sends_once {table : Table M} {ticks : List (List Datetime × Option (Sent M))}
    (h : Run (Step cfg) (Scheduler.init table) ticks s)
    (hclock : (readings ticks).Pairwise (· ≤ ·)) : SendsOnce ticks s := by
  have hkept := kept_run h hclock
  refine ⟨fun hne => hkept.heap.resolve_left fun hnil => hne hnil.1, fun name c a ha hc => ?_,
    fun name c => ?_, fun name i => ?_⟩
  · have hdue := hkept.wasDue a (List.mem_filter.mp ha).1
    rw [WasDue, hc] at hdue
    exact hdue
  · refine (hkept.sendsOf_pairwise name).imp fun {a b} ⟨hdue, hsame, hle⟩ hc => ?_
    rw [WasDue, hsame, hc] at hdue
    obtain ⟨m, hm, hlt, hmle⟩ := hdue
    refine ⟨fun m' ⟨ham, hbm⟩ => ?_, m, hm, hle.trans_lt hlt, hmle⟩
    exact (ham.2.2.trans hle).not_gt hbm.2.1
  · refine (hkept.sendsOf_pairwise name).imp fun {a b} ⟨hdue, hsame, hle⟩ hi hrel => ?_
    rw [WasDue, hsame, hi] at hdue
    have hlen := hdue hrel
    have hlei := Datetime.le_iff_instant.1 hle
    omega

/-- Ticks at these times, in each of which the clock stands still. -/
def ticksAt (cfg : Config) (s : Scheduler M) : List Datetime →
    Except PyError (Scheduler M × List (Option (Sent M)))
  | [] => .ok (s, [])
  | now :: times => do
    let ticked ← (s.tick cfg).runAt now
    let (s', sent) ← ticksAt cfg ticked.scheduler times
    return (s', ticked.sent :: sent)

/-- They are a run with these readings. -/
theorem run_of_ticksAt {times : List Datetime} {sent : List (Option (Sent M))}
    (h : ticksAt cfg s times = .ok (s', sent)) (htimes : times.Pairwise (· ≤ ·)) :
    ∃ ticks, Run (Step cfg) s ticks s' ∧ ticks.map Prod.snd = sent ∧
      (readings ticks).Pairwise (· ≤ ·) ∧ ∀ r ∈ readings ticks, r ∈ times := by
  induction times generalizing s sent with
  | nil =>
    cases h
    exact ⟨[], .nil, rfl, List.Pairwise.nil, by simp [readings]⟩
  | cons now times ih =>
    rw [List.pairwise_cons] at htimes
    rw [ticksAt, bind_eq_ok_iff] at h
    obtain ⟨ticked, hticked, h⟩ := h
    rw [bind_eq_ok_iff] at h
    obtain ⟨⟨t, ss⟩, hrest, h⟩ := h
    cases h
    obtain ⟨rs, hrs, hgives⟩ := Reads.runAt_eq_ok_iff.mp hticked
    obtain ⟨ticks, hrun, hsent, hsorted, hmem⟩ := ih hrest htimes.2
    have hreadings : readings ((rs, ticked.sent) :: ticks) = rs ++ readings ticks :=
      List.flatMap_cons
    refine ⟨(rs, ticked.sent) :: ticks, (Run.single ⟨ticked.delay, hgives⟩).append hrun,
      by rw [List.map_cons, hsent], ?_, ?_⟩
    · rw [hreadings, List.pairwise_append]
      refine ⟨List.pairwise_of_forall_mem_list fun x hx y hy => ?_, hsorted, fun x hx y hy => ?_⟩
      · rw [hrs x hx, hrs y hy]
      · rw [hrs x hx]
        exact htimes.1 y (hmem y hy)
    · rw [hreadings]
      intro r hr
      rcases List.mem_append.mp hr with hr | hr
      · rw [hrs r hr]
        exact List.mem_cons_self
      · exact List.mem_cons_of_mem _ (hmem r hr)

/-- An entry for every ten seconds and one for every ninety, last run at noon. -/
def pollAndSweep : Table Unit where
  entries := [⟨"poll", (), .interval ⟨10000000, false, .utc⟩, Crontab.onLeapDay 0, 0, 0⟩,
    ⟨"sweep", (), .interval ⟨90000000, false, .utc⟩, Crontab.onLeapDay 0, 0, 0⟩]
  names := by decide

/-- The default settings of beat. -/
def defaultConfig : Config := ⟨300000000, none, id⟩

/-- Two ticks a minute later and three after another one: the first entry is sent in both minutes,
and the second one when it is due. -/
theorem beat_sends_once_pollAndSweep :
    ∃ ticks s, Run (Step defaultConfig) (Scheduler.init pollAndSweep) ticks s ∧
      (sends ticks).map (fun a => (a.entry.name, a.time)) = [("poll", Crontab.onLeapDay 1),
        ("poll", Crontab.onLeapDay 2), ("sweep", Crontab.onLeapDay 2)] ∧
      SendsOnce ticks s := by
  have hsent : (ticksAt defaultConfig (Scheduler.init pollAndSweep) [Crontab.onLeapDay 1,
      Crontab.onLeapDay 1, Crontab.onLeapDay 2, Crontab.onLeapDay 2, Crontab.onLeapDay 2] >>=
      fun r => .ok ((r.2.filterMap id).map fun a => (a.entry.name, a.time)))
        = .ok [("poll", Crontab.onLeapDay 1), ("poll", Crontab.onLeapDay 2),
          ("sweep", Crontab.onLeapDay 2)] := by
    decide +kernel
  obtain ⟨⟨s, sent⟩, hticks, hsent⟩ := bind_eq_ok_iff.mp hsent
  replace hsent := Except.ok.inj hsent
  obtain ⟨ticks, hrun, hmap, hclock, -⟩ := run_of_ticksAt hticks (by decide)
  refine ⟨ticks, s, hrun, ?_, beat_sends_once hrun hclock⟩
  rw [← hsent, ← hmap, List.filterMap_map]
  rfl

end Beat
end Celery
