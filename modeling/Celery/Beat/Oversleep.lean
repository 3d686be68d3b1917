/-
# `celery/beat.py`: how long beat sleeps

`tick` returns the time until the first event of the heap, so beat sleeps past no due
time as long as no event is later than the time its entry is due.  The time of an
event comes from the second value of `is_due`, a little less of it (`adjust`).

While an entry is not due, that is the time to its next run, and no later tick finds it due
before that (`wait_of_not_due`).  After a send it is the time to the next run after now,
for a crontab, and the length of the interval for an interval (`wait_of_due`).  But an
interval that is `relative` ends earlier than that: its end is rounded down to a day,
an hour or a minute (`relative_oversleeps`).  And the event of an entry that is due has
the time of now, which is late if the clock goes back to when the entry was due already.

So beat does not oversleep as long as the clock does not go back over a time at which an
entry is due, and no relative interval is due when rounding its end would take off more
than the ten milliseconds by which an event is early (`beat_not_oversleep`).
-/

import Celery.Beat.Scheduler

namespace Celery
namespace Beat

open Gregorian Readings Transition

variable {M : Type} {cfg : Config}

/-! ## How long an entry can wait -/

/-- The entry is due when the clock stands at `t`. -/
def Entry.DueAt (cfg : Config) (e : Entry M) (t : Datetime) : Prop :=
  ∃ next, (e.isDue cfg).runAt t = .ok (true, next)

/-- Rounding the end of an interval that starts at `t` takes off no more than an event
is early. -/
def EndKept (i : Interval) (t : Datetime) : Prop :=
  ∀ e, i.endDate t = .ok e → t.instant + adjust i.seconds ≤ max e.instant t.instant

theorem adjust_le (n : ℤ) : adjust n ≤ n := by
  unfold adjust
  split_ifs <;> omega

theorem endKept_of_not_relative {i : Interval} (h : i.relative = false) (t : Datetime) :
    EndKept i t := by
  intro e he
  have hend := Interval.endDate_instant h he
  have hadjust := adjust_le i.seconds
  have hseconds : i.seconds = max i.runEvery 0 := rfl
  rw [hend]
  omega

/-- A crontab that was not due at `now` has no run before the one it waits for. -/
theorem crontab_wait_of_not_due {c : Crontab} {deadline : Option ℕ} {last now t : Datetime}
    {next next' : ℤ} (h : (c.isDue deadline last).runAt now = .ok (false, next)) (hle : now ≤ t)
    (hdue : (c.isDue deadline last).runAt t = .ok (true, next')) :
    now.instant + next ≤ t.instant := by
  obtain ⟨r, hr, hcases⟩ := Crontab.of_not_due h
  obtain ⟨⟨r', hr', hle', hnot⟩, -⟩ := Crontab.of_due hdue
  have hsame := hr.instant_eq hr'
  have hlei := Datetime.le_iff_instant.1 hle
  have hle'i := Datetime.le_iff_instant.1 hle'
  obtain ⟨⟨hneg, d, hd, hall⟩, n, hn, rfl⟩ | rfl := hcases
  · -- The deadline had passed at `now`, so the run within it at `t` is after `now`.
    by_contra hearly
    refine hnot ⟨by omega, d, hd, fun m hm hmt => ?_⟩
    by_cases hmnow : m ≤ now
    · have hmissed := hall m hm hmnow
      omega
    · rw [Datetime.le_iff_instant, not_le] at hmnow
      have hfirst : n.instant ≤ m.instant := hn.2 ⟨hm, hmnow⟩
      have hmti := Datetime.le_iff_instant.1 hmt
      omega
  · omega

/-- **An entry that is not due stays so** for the time that `is_due` gives. -/
theorem wait_of_not_due {e : Entry M} {now t : Datetime} {next : ℤ}
    (h : (e.isDue cfg).runAt now = .ok (false, next)) (hle : now ≤ t) (hdue : e.DueAt cfg t) :
    now.instant + next ≤ t.instant := by
  obtain ⟨next', hdue⟩ := hdue
  unfold Entry.isDue at h hdue
  cases hs : e.schedule with
  | crontab c =>
    rw [hs] at h hdue
    exact crontab_wait_of_not_due h hle hdue
  | interval i =>
    rw [hs] at h hdue
    obtain ⟨e₁, he₁, rfl⟩ := Interval.of_not_due h
    obtain ⟨-, e₂, he₂, hend⟩ := Interval.of_due hdue
    obtain rfl := Except.ok.inj (he₁.symm.trans he₂)
    have hendi := Datetime.le_iff_instant.1 hend
    omega

/-- **The entry that follows a send is not due** for the time that `is_due` gave, less
what `adjust` takes off. -/
theorem wait_of_due {e e' : Entry M} {now t : Datetime} {next : ℤ}
    (h : (e.isDue cfg).runAt now = .ok (true, next)) (hsame : e'.schedule = e.schedule)
    (hlast : e'.lastRunAt = now) (hkept : ∀ i, e.schedule = .interval i → EndKept i now)
    (hle : now ≤ t) (hdue : e'.DueAt cfg t) : now.instant + adjust next ≤ t.instant := by
  obtain ⟨next', hdue⟩ := hdue
  have hlei := Datetime.le_iff_instant.1 hle
  unfold Entry.isDue at h hdue
  rw [hsame, hlast] at hdue
  cases hs : e.schedule with
  | crontab c =>
    rw [hs] at h hdue
    obtain ⟨-, n, hn, rfl⟩ := Crontab.of_due h
    obtain ⟨⟨r, hr, hrt, -⟩, -⟩ := Crontab.of_due hdue
    have hadjust := adjust_le (n.instant - now.instant)
    have hrti := Datetime.le_iff_instant.1 hrt
    have hsame := hn.instant_eq hr
    omega
  | interval i =>
    rw [hs] at h hdue
    obtain ⟨rfl, -⟩ := Interval.of_due h
    obtain ⟨-, e₂, he₂, hend⟩ := Interval.of_due hdue
    have hbound := hkept i hs e₂ he₂
    have hendi := Datetime.le_iff_instant.1 hend
    omega

/-! ## The heap -/

variable [DecidableEq M] {s s' : Scheduler M} {heap rest : Array (Event M)} {now : Datetime}

/-- No event is later than its entry is due, from `now` on. -/
def OnTime (cfg : Config) (heap : Array (Event M)) (now : Datetime) : Prop :=
  ∀ event ∈ heap.toList, ∀ t, now ≤ t → event.entry.DueAt cfg t → event.time ≤ t.instant

theorem Event.lt_time (a b : Event M) (h : a.lt cfg b = true) : a.time ≤ b.time := by
  by_contra hlt
  rw [not_le] at hlt
  rw [Event.lt, if_pos hlt.ne', decide_eq_true_iff] at h
  exact absurd h hlt.not_gt

theorem Event.not_lt_time (a b : Event M) (h : a.lt cfg b = false) : b.time ≤ a.time := by
  by_contra hlt
  rw [not_le] at hlt
  rw [Event.lt, if_pos hlt.ne, decide_eq_false_iff_not] at h
  exact h hlt

/-- The entry objects are different ones. -/
structure Objects (s : Scheduler M) : Prop where
  nodup : (s.schedule.map Entry.object).Nodup
  lt : ∀ e ∈ s.schedule, e.object < s.created

omit [DecidableEq M] in
/-- A populated heap is on time. -/
theorem onTime_populateHeap {entries : List (Entry M)} {events : List (Event M)}
    {rs : List Datetime} (hrs : ∀ r ∈ rs, r = now)
    (h : Reads.Gives (populateHeap cfg entries) rs events) : OnTime cfg events.toArray now := by
  unfold OnTime
  rw [List.toList_toArray]
  induction entries generalizing rs events with
  | nil =>
    obtain ⟨-, rfl⟩ := Reads.gives_pure.mp h
    exact fun _ hmem => absurd hmem List.not_mem_nil
  | cons entry rest ih =>
    simp only [populateHeap, Reads.gives_bind, Reads.gives_pure] at h
    obtain ⟨rs₁, _, ⟨due, next⟩, rfl, hdue, rs₂, _, time, rfl, htime, rs₃, _, events', rfl, hrest,
      rfl, rfl⟩ := h
    obtain ⟨now', rfl, rfl⟩ := gives_whenDue htime
    obtain rfl : now' = now := hrs now' (by simp)
    have hrun : (entry.isDue cfg).runAt now' = .ok (due, next) :=
      Reads.runAt_eq_ok_iff.mpr ⟨rs₁, fun r hr => hrs r (by simp [hr]), hdue⟩
    refine List.forall_mem_cons.mpr ⟨fun t hle hdueAt => ?_, ?_⟩
    · cases due with
      | true =>
        have hlei := Datetime.le_iff_instant.1 hle
        simpa [adjust] using hlei
      | false =>
        have hwait := wait_of_not_due hrun hle hdueAt
        have hadjust := adjust_le next
        simp only [Bool.false_eq_true, if_false]
        omega
    · exact ih (fun r hr => hrs r (by simp [hr])) hrest

/-- What holds of a heap at the time `now`. -/
structure Good (cfg : Config) (s : Scheduler M) (heap : Array (Event M)) (now : Datetime) :
    Prop where
  events : EventsOf heap s.schedule
  ordered : Heapq.Heap Event.time heap
  onTime : OnTime cfg heap now

theorem good_ensureHeap {rs : List Datetime} (hrs : ∀ r ∈ rs, r = now)
    (hstep : s.heap = none ∨ InStep s) (hgood : ∀ heap, s.heap = some heap → Good cfg s heap now)
    (h : Reads.Gives (s.ensureHeap cfg) rs (s', heap)) : Good cfg s' heap now := by
  obtain ⟨hschedule, -, -, hevents⟩ := gives_ensureHeap hstep h
  rw [← hschedule] at hevents
  obtain ⟨rfl, hheap⟩ | ⟨events, hgives, rfl, rfl⟩ := ensureHeap_cases h
  · exact hgood heap hheap
  · have hontime := onTime_populateHeap hrs hgives
    refine ⟨hevents, Heapq.heapify_heap Event.lt_time Event.not_lt_time _, fun event hmem => ?_⟩
    exact hontime event ((Heapq.heapify_perm _ _).toList.mem_iff.mp hmem)

/-- No entry becomes due within the delay `d` that a tick at `now` returns. -/
def Wakes (cfg : Config) (s : Scheduler M) (now : Datetime) (d : ℤ) : Prop :=
  0 < d → ∀ e ∈ s.schedule, ∀ t, now ≤ t → e.DueAt cfg t → now.instant + d ≤ t.instant

omit [DecidableEq M] in
/-- No entry is due before the first event. -/
theorem Good.first_le (h : Good cfg s heap now) {first : Event M} (hfirst : heap[0]? = some first)
    {e : Entry M} (he : e ∈ s.schedule) {t : Datetime} (hle : now ≤ t) (hdue : e.DueAt cfg t) :
    first.time ≤ t.instant := by
  obtain ⟨hsize, rfl⟩ := Array.getElem?_eq_some_iff.mp hfirst
  obtain ⟨event, hevent, rfl⟩ := List.mem_map.mp (h.events.mem_iff.mpr he)
  obtain ⟨i, hi, rfl⟩ := Array.getElem_of_mem (Array.mem_toList_iff.mp hevent)
  exact (h.ordered.key_zero_le i hi).trans (h.onTime _ hevent t hle hdue)

/-- A heap with an event more that is on time. -/
theorem onTime_heappush (h : OnTime cfg rest now) {event : Event M}
    (hevent : ∀ t, now ≤ t → event.entry.DueAt cfg t → event.time ≤ t.instant) :
    OnTime cfg (Heapq.heappush (Event.lt cfg) rest event) now := by
  intro event' hmem
  have hmem' := (Heapq.heappush_perm (Event.lt cfg) rest event).toList.mem_iff.mp hmem
  rw [Array.toList_push, List.mem_append, List.mem_singleton] at hmem'
  rcases hmem' with hrest | rfl
  · exact h event' hrest
  · exact hevent

/-- The rest of a good heap is ordered and on time. -/
theorem Good.pop (h : Good cfg s heap now) {event : Event M} (hevent : heap[0]? = some event)
    (hpop : Heapq.heappop (Event.lt cfg) heap = some (event, rest)) :
    Heapq.Heap Event.time rest ∧ OnTime cfg rest now := by
  refine ⟨Heapq.heappop_heap Event.lt_time Event.not_lt_time h.ordered hpop, fun event' hmem => ?_⟩
  exact h.onTime event' ((pop_perm hevent hpop).mem_iff.mpr (List.mem_cons_of_mem _ hmem))

/-- The entry that follows a send is a new object. -/
theorem objects_send (h : Objects s) (hnames : (s.schedule.map Entry.name).Nodup)
    (hevents : EventsOf heap s.schedule) {event : Event M} (hevent : heap[0]? = some event)
    (hpop : Heapq.heappop (Event.lt cfg) heap = some (event, rest)) {heap' : Array (Event M)}
    (reserved : Datetime) :
    Objects { s with
      schedule := setEntry s.schedule (s.nextEntry event.entry reserved)
      created := s.created + 1
      heap := some heap' } := by
  have hperm := hevents.pop hevent hpop
  have hset : (setEntry s.schedule (s.nextEntry event.entry reserved)).Perm
      (s.nextEntry event.entry reserved :: rest.toList.map Event.entry) :=
    setEntry_perm hnames hperm rfl
  have hold : ∀ e ∈ rest.toList.map Event.entry, e.object < s.created := fun e he =>
    h.lt e (hperm.mem_iff.mpr (List.mem_cons_of_mem _ he))
  constructor
  · refine (hset.map Entry.object).nodup_iff.mpr ?_
    rw [List.map_cons, List.nodup_cons]
    refine ⟨fun hmem => ?_, ?_⟩
    · obtain ⟨e, he, heq⟩ := List.mem_map.mp hmem
      exact absurd heq (hold e he).ne
    · have hnodup := (hperm.map Entry.object).nodup_iff.mp h.nodup
      rw [List.map_cons] at hnodup
      exact (List.nodup_cons.mp hnodup).2
  · intro e he
    rcases List.mem_cons.mp (hset.mem_iff.mp he) with rfl | he
    · exact Nat.lt_succ_self _
    · exact (hold e he).trans (Nat.lt_succ_self _)

/-- Where the event that was put off is still the first one, the delay is until then. -/
theorem first_retried (h : Objects s) (hevents : EventsOf heap s.schedule) {event first : Event M}
    (hevent : heap[0]? = some event)
    (hpop : Heapq.heappop (Event.lt cfg) heap = some (event, rest)) {next : ℤ} {later : Datetime}
    (hfirst : (retriedHeap cfg rest event next later)[0]? = some first)
    (hobject : first.entry.object = event.entry.object) :
    first.time = later.instant + adjust next := by
  have hperm := (Heapq.heappush_perm (Event.lt cfg) rest
    ⟨later.instant + adjust next, event.priority, event.entry⟩).toList
  rw [Array.toList_push] at hperm
  have hobjects : ((retriedHeap cfg rest event next later).toList.map
      fun ev => ev.entry.object).Nodup := by
    refine (hperm.map _).nodup_iff.mpr ?_
    have hnodup := ((hevents.pop hevent hpop).map Entry.object).nodup_iff.mp h.nodup
    rw [List.map_append, List.map_singleton]
    refine (List.perm_append_singleton _ _).nodup_iff.mpr ?_
    rwa [List.map_cons, List.map_map] at hnodup
  have hmem : first ∈ (retriedHeap cfg rest event next later).toList := by
    obtain ⟨hsize, rfl⟩ := Array.getElem?_eq_some_iff.mp hfirst
    exact Array.mem_toList_iff.mpr (Array.getElem_mem hsize)
  have hpushed := hperm.mem_iff.mpr (List.mem_append_right rest.toList (List.mem_singleton_self _))
  rw [List.inj_on_of_nodup_map hobjects hmem hpushed hobject]

/-! ## A tick -/

/-- The heap after a send is ordered and on time. -/
theorem Good.send (h : Good cfg s heap now) {event : Event M} (hevent : heap[0]? = some event)
    (hpop : Heapq.heappop (Event.lt cfg) heap = some (event, rest)) {next : ℤ}
    (hdue : (event.entry.isDue cfg).runAt now = .ok (true, next))
    (hkept : ∀ i, event.entry.schedule = .interval i → EndKept i now) :
    Heapq.Heap Event.time (sentHeap cfg s rest event next now now) ∧
      OnTime cfg (sentHeap cfg s rest event next now now) now := by
  obtain ⟨hordered, hontime⟩ := h.pop hevent hpop
  refine ⟨Heapq.heappush_heap Event.lt_time Event.not_lt_time hordered _, ?_⟩
  have hsame : (s.nextEntry event.entry now).schedule = event.entry.schedule := rfl
  exact onTime_heappush hontime fun t hle hdueAt => wait_of_due hdue hsame rfl hkept hle hdueAt

/-- The heap where the first event is put off is ordered and on time. -/
theorem Good.retry (h : Good cfg s heap now) {event : Event M} (hevent : heap[0]? = some event)
    (hpop : Heapq.heappop (Event.lt cfg) heap = some (event, rest)) {next : ℤ}
    (hdue : (event.entry.isDue cfg).runAt now = .ok (false, next)) :
    Heapq.Heap Event.time (retriedHeap cfg rest event next now) ∧
      OnTime cfg (retriedHeap cfg rest event next now) now := by
  obtain ⟨hordered, hontime⟩ := h.pop hevent hpop
  refine ⟨Heapq.heappush_heap Event.lt_time Event.not_lt_time hordered _, ?_⟩
  refine onTime_heappush hontime fun t hle hdueAt => ?_
  have hwait := wait_of_not_due hdue hle hdueAt
  have hadjust := adjust_le next
  show now.instant + adjust next ≤ t.instant
  omega

omit [DecidableEq M] in
/-- Where there is no event, there is no entry. -/
theorem Good.wakes_empty (h : Good cfg s heap now) (hnone : heap[0]? = none) (d : ℤ) :
    Wakes cfg s now d := by
  intro _ e he
  have hempty : heap.toList = [] := by simpa using hnone
  have hmem := h.events.mem_iff.mpr he
  rw [hempty] at hmem
  exact absurd hmem List.not_mem_nil

omit [DecidableEq M] in
/-- A delay that is no longer than until the first event. -/
theorem Good.wakes (h : Good cfg s heap now) {first : Event M} (hfirst : heap[0]? = some first)
    {d : ℤ} (hd : now.instant + d ≤ first.time) : Wakes cfg s now d := fun _ _ he _ hle hdue =>
  hd.trans (h.first_le hfirst he hle hdue)

/-- **A tick returns in time**, and leaves a good heap: where it sends an interval, its
end must be kept. -/
theorem good_ran {rs : List Datetime} {t : Ticked M} (hnames : (s.schedule.map Entry.name).Nodup)
    (hobjects : Objects s) (hheap : s.heap = some heap) (h : Good cfg s heap now)
    (hkept : ∀ e ∈ s.schedule, ∀ i, e.schedule = .interval i → e.DueAt cfg now → EndKept i now)
    (hrs : ∀ r ∈ rs, r = now) (hran : Ran cfg s heap rs t) :
    Objects t.scheduler ∧ Wakes cfg t.scheduler now t.delay ∧
      ∃ heap', t.scheduler.heap = some heap' ∧ Good cfg t.scheduler heap' now := by
  obtain ⟨-, heap', hheap', hevents'⟩ := inStep_ran hnames hheap h.events hran
  cases hran with
  | idle hnone => exact ⟨hobjects, h.wakes_empty hnone _, heap, hheap, h⟩
  | @wait event now' hevent hlt =>
    obtain rfl := hrs now' (List.mem_singleton_self now')
    refine ⟨hobjects, h.wakes hevent ?_, heap, hheap, h⟩
    have hmin := min_le_left (event.time - now'.instant) cfg.maxInterval
    dsimp only
    omega
  | @send event rest now' reserved later rs next hevent _ hpop hdue =>
    obtain rfl : reserved = now := hrs reserved (by simp)
    obtain rfl : later = reserved := hrs later (by simp)
    have hrun : (event.entry.isDue cfg).runAt later = .ok (true, next) :=
      Reads.runAt_eq_ok_iff.mpr ⟨rs, fun r hr => hrs r (by simp [hr]), hdue⟩
    have hmem : event.entry ∈ s.schedule :=
      (h.events.pop hevent hpop).mem_iff.mpr List.mem_cons_self
    obtain ⟨hordered, hontime⟩ :=
      h.send hevent hpop hrun fun i hi => hkept _ hmem i hi ⟨next, hrun⟩
    obtain rfl := Option.some_inj.mp hheap'
    refine ⟨objects_send hobjects hnames h.events hevent hpop later, fun hpos => ?_, _, rfl,
      hevents', hordered, hontime⟩
    exact absurd hpos (lt_irrefl 0)
  | @retry event rest now' later rs next hevent _ hpop hdue =>
    obtain rfl : later = now := hrs later (by simp)
    have hrun : (event.entry.isDue cfg).runAt later = .ok (false, next) :=
      Reads.runAt_eq_ok_iff.mpr ⟨rs, fun r hr => hrs r (by simp [hr]), hdue⟩
    obtain ⟨hordered, hontime⟩ := h.retry hevent hpop hrun
    obtain rfl := Option.some_inj.mp hheap'
    have hgood : Good cfg { s with heap := some (retriedHeap cfg rest event next later) }
        (retriedHeap cfg rest event next later) later := ⟨hevents', hordered, hontime⟩
    refine ⟨⟨hobjects.nodup, hobjects.lt⟩, ?_, _, rfl, hgood⟩
    dsimp only
    split
    next => exact fun hpos => absurd hpos (lt_irrefl 0)
    next hsame =>
      cases hfirst : (retriedHeap cfg rest event next later)[0]? with
      | none => exact hgood.wakes_empty hfirst _
      | some first =>
        rw [hfirst] at hsame
        have hobject : first.entry.object = event.entry.object := by simpa using hsame
        have htime := first_retried hobjects h.events hevent hpop hfirst hobject
        have hmin := min_le_left (adjust next) cfg.maxInterval
        exact hgood.wakes hfirst (by omega)

/-! ## Runs -/

/-- The service: the scheduler, and the time and the delay of its last tick. -/
structure Service (M : Type) where
  scheduler : Scheduler M
  last : Option (Datetime × ℤ)

/-- Before the first tick. -/
def Service.init (table : Table M) : Service M := ⟨.init table, none⟩

section Ticks

variable (cfg) (b : Service M) (now : Datetime)

/-- A tick while the clock stands at `now`. -/
def TickAt (b' : Service M) : Prop :=
  ∃ delay sent, (b.scheduler.tick cfg).runAt now = .ok ⟨b'.scheduler, delay, sent⟩ ∧
    b'.last = some (now, delay)

/-- What the clock must not do for a tick: go back over a time when an entry is due, or
stand where a relative interval is due and loses its end. -/
structure Steady : Prop where
  clock : ∀ last delay, b.last = some (last, delay) →
    ∀ e ∈ b.scheduler.schedule, ∀ t, now ≤ t → t < last → ¬ e.DueAt cfg t
  kept : ∀ e ∈ b.scheduler.schedule, ∀ i, e.schedule = .interval i → i.relative = true →
    e.DueAt cfg now → EndKept i now

/-- Such a tick. -/
def SteadyTick (b' : Service M) : Prop := Steady cfg b now ∧ TickAt cfg b now b'

/-- What holds throughout a run. -/
structure Rested : Prop where
  names : (b.scheduler.schedule.map Entry.name).Nodup
  objects : Objects b.scheduler
  started : b.last = none → b.scheduler.heap = none
  wakes : ∀ last delay, b.last = some (last, delay) → Wakes cfg b.scheduler last delay ∧
    ∃ heap, b.scheduler.heap = some heap ∧ Good cfg b.scheduler heap last

end Ticks

variable {b b' : Service M}

omit [DecidableEq M] in
theorem rested_init (table : Table M) : Rested cfg (Service.init table) := by
  have hobjects : (Scheduler.init table).schedule.map Entry.object =
      List.range table.entries.length :=
    List.ext_getElem (by simp [Scheduler.init]) (by simp [Scheduler.init])
  refine ⟨?_, ⟨?_, fun e he => ?_⟩, fun _ => rfl, fun _ _ hlast => ?_⟩
  · exact names_init table ▸ table.names
  · exact hobjects ▸ List.nodup_range
  · have hmem : e.object ∈ List.range table.entries.length := hobjects ▸ List.mem_map_of_mem he
    exact List.mem_range.mp hmem
  · cases hlast

omit [DecidableEq M] in
/-- A heap that was good at the last tick is good now. -/
theorem Rested.good (h : Rested cfg b) (hsteady : Steady cfg b now)
    (hheap : b.scheduler.heap = some heap) : Good cfg b.scheduler heap now := by
  cases hlast : b.last with
  | none =>
    have hnone := h.started hlast
    rw [hheap] at hnone
    cases hnone
  | some tick =>
    obtain ⟨last, delay⟩ := tick
    obtain ⟨-, _, hheap', hgood⟩ := h.wakes last delay hlast
    obtain rfl := Option.some_inj.mp (hheap.symm.trans hheap')
    refine ⟨hgood.events, hgood.ordered, fun event hmem t hle hdue => ?_⟩
    by_cases hlater : last ≤ t
    · exact hgood.onTime event hmem t hlater hdue
    · rw [Datetime.le_iff_instant, not_le] at hlater
      have hentry : event.entry ∈ b.scheduler.schedule :=
        hgood.events.mem_iff.mp (List.mem_map_of_mem hmem)
      exact absurd hdue (hsteady.clock last delay hlast _ hentry t hle hlater)

theorem rested_tick (h : Rested cfg b) (htick : SteadyTick cfg b now b') : Rested cfg b' := by
  obtain ⟨hsteady, delay, sent, hrun, hlast⟩ := htick
  obtain ⟨rs, hrs, hgives⟩ := Reads.runAt_eq_ok_iff.mp hrun
  have hstep : b.scheduler.heap = none ∨ InStep b.scheduler := by
    cases hheap : b.scheduler.heap with
    | none => exact Or.inl rfl
    | some heap => exact Or.inr ⟨h.names, heap, hheap, (h.good hsteady hheap).events⟩
  have hnames := (sent_tick h.names hstep hgives).1.1
  obtain ⟨rs₀, rs₁, s₁, heap, rfl, hensure, hran⟩ := ran_tick hgives
  obtain ⟨hschedule, hcreated, hheap, -⟩ := gives_ensureHeap hstep hensure
  have hgood := good_ensureHeap (fun r hr => hrs r (List.mem_append_left _ hr)) hstep
    (fun _ => h.good hsteady) hensure
  have hobjects : Objects s₁ :=
    ⟨hschedule ▸ h.objects.nodup, by rw [hschedule, hcreated]; exact h.objects.lt⟩
  have hkept : ∀ e ∈ s₁.schedule, ∀ i, e.schedule = .interval i → e.DueAt cfg now →
      EndKept i now := by
    intro e he i hi hdue
    cases hrel : i.relative with
    | false => exact endKept_of_not_relative hrel now
    | true => exact hsteady.kept e (hschedule ▸ he) i hi hrel hdue
  obtain ⟨hobjects', hwakes, hgood'⟩ := good_ran (hschedule ▸ h.names) hobjects hheap hgood hkept
    (fun r hr => hrs r (List.mem_append_right _ hr)) hran
  refine ⟨hnames, hobjects', fun hnone => ?_, fun last d hsome => ?_⟩
  · rw [hlast] at hnone
    cases hnone
  · obtain ⟨rfl, rfl⟩ := Prod.mk.inj (Option.some_inj.mp (hlast.symm.trans hsome))
    exact ⟨hwakes, hgood'⟩

/-- **Beat does not oversleep**, in every run of ticks whose clock is steady, after the
tick that the run ends with: no entry becomes due within the delay that it returned, and
no event is later than its entry is due. -/
theorem beat_not_oversleep {table : Table M} {times : List Datetime} {delay : ℤ}
    (h : Run (SteadyTick cfg) (Service.init table) times b) (hlast : b.last = some (now, delay)) :
    Wakes cfg b.scheduler now delay ∧
      ∃ heap, b.scheduler.heap = some heap ∧ OnTime cfg heap now := by
  have hrested : Rested cfg b := h.invariant (P := fun _ => True) (I := Rested cfg)
    (fun hrested _ htick => rested_tick hrested htick) (rested_init table) (fun _ _ => trivial)
  obtain ⟨hwakes, heap, hheap, hgood⟩ := hrested.wakes now delay hlast
  exact ⟨hwakes, heap, hheap, hgood.onTime⟩

/-- An entry for every ten seconds, last run at noon. -/
def everyTenSeconds : Table Unit where
  entries := [⟨"poll", (), .interval ⟨10000000, false, .utc⟩, Crontab.onLeapDay 0, 0, 0⟩]
  names := List.nodup_singleton _

/-- At noon, a tick waits for the ten seconds to pass, less ten milliseconds. -/
theorem beat_not_oversleep_everyTenSeconds :
    ∃ b, Run (SteadyTick defaultConfig) (Service.init everyTenSeconds) [Crontab.onLeapDay 0] b ∧
      b.last = some (Crontab.onLeapDay 0, 9990000) ∧
      Wakes defaultConfig b.scheduler (Crontab.onLeapDay 0) 9990000 ∧
      ∃ heap, b.scheduler.heap = some heap ∧
        OnTime defaultConfig heap (Crontab.onLeapDay 0) := by
  obtain ⟨s, d, hs, rfl⟩ :
      ∃ s d, (Scheduler.tick defaultConfig (Scheduler.init everyTenSeconds)).runAt
          (Crontab.onLeapDay 0) = .ok ⟨s, d, none⟩ ∧ d = 9990000 := ⟨_, _, rfl, by decide⟩
  have hsteady : Steady defaultConfig (Service.init everyTenSeconds) (Crontab.onLeapDay 0) := by
    refine ⟨fun _ _ hlast => ?_, fun e he i hi hrel => ?_⟩
    · cases hlast
    · obtain rfl := List.mem_singleton.mp he
      cases hi
      cases hrel
  have hrun : Run (SteadyTick defaultConfig) (Service.init everyTenSeconds) [Crontab.onLeapDay 0]
      ⟨s, some (Crontab.onLeapDay 0, 9990000)⟩ := .single ⟨hsteady, 9990000, none, hs, rfl⟩
  exact ⟨_, hrun, rfl, beat_not_oversleep hrun rfl⟩

/-- An entry for every day, to the day, that was last run at `last`. -/
def everyDay (last : Datetime) (runs object : ℕ) : Entry Unit :=
  ⟨"report", (), .interval ⟨86400000000, true, .utc⟩, last, runs, object⟩

/-- Noon of `2024-02-28`. -/
def dayBefore : Datetime := Crontab.leapNoon.atTime ((date? 2024 2 28).get rfl) 12 0

/-- A schedule with such an entry. -/
def daily : Table Unit where
  entries := [everyDay dayBefore 0 0]
  names := List.nodup_singleton _

/-- Two minutes before the end of `2024-02-29`. -/
def beforeMidnight : Datetime := Crontab.leapNoon.atTime (Crontab.onLeapDay 0).date 23 58

/-- The end of `2024-02-29`. -/
def midnight : Datetime := Crontab.leapNoon.atTime ((date? 2024 3 1).get rfl) 0 0

/-- The scheduler after the tick that sends the entry at noon. -/
def sentAtNoon : Scheduler Unit where
  schedule := [everyDay (Crontab.onLeapDay 0) 1 1]
  oldSchedulers := some (Scheduler.init daily).schedule
  heap := some #[⟨(Crontab.onLeapDay 0).instant + adjust 86400000000, 5,
    everyDay (Crontab.onLeapDay 0) 1 1⟩]
  created := 2

/-- **A relative interval is sent late.**  At noon beat sends the entry, and has its event
a day later.  At two minutes to midnight it goes to sleep for five minutes, but at
midnight the entry is due. -/
theorem relative_oversleeps :
    ∃ b, Run (TickAt defaultConfig) (Service.init daily) [Crontab.onLeapDay 0, beforeMidnight] b ∧
      b.last = some (beforeMidnight, 300000000) ∧
      (∃ e ∈ b.scheduler.schedule, e.DueAt defaultConfig midnight) ∧
      beforeMidnight ≤ midnight ∧ midnight.instant < beforeMidnight.instant + 300000000 ∧
      ¬ Wakes defaultConfig b.scheduler beforeMidnight 300000000 := by
  have hnoon : TickAt defaultConfig (Service.init daily) (Crontab.onLeapDay 0)
      ⟨sentAtNoon, some (Crontab.onLeapDay 0, 0)⟩ := by
    refine ⟨0, some ⟨everyDay dayBefore 0 0, Crontab.onLeapDay 0⟩, ?_, rfl⟩
    rw [sentAtNoon, ← Heapq.heappush_empty (Event.lt defaultConfig)]
    rfl
  obtain ⟨s, d, hlate, rfl, rfl⟩ :
      ∃ s d, (Scheduler.tick defaultConfig sentAtNoon).runAt beforeMidnight = .ok ⟨s, d, none⟩ ∧
        s = sentAtNoon ∧ d = 300000000 := ⟨_, _, rfl, rfl, by decide⟩
  have hrun : Run (TickAt defaultConfig) (Service.init daily) [Crontab.onLeapDay 0, beforeMidnight]
      ⟨sentAtNoon, some (beforeMidnight, 300000000)⟩ :=
    (Run.single hnoon).snoc ⟨_, _, hlate, rfl⟩
  have hdue : (everyDay (Crontab.onLeapDay 0) 1 1).DueAt defaultConfig midnight := ⟨_, rfl⟩
  have hmem : everyDay (Crontab.onLeapDay 0) 1 1 ∈ sentAtNoon.schedule := List.mem_singleton_self _
  have hle : beforeMidnight ≤ midnight := by decide
  have hlt : midnight.instant < beforeMidnight.instant + 300000000 := by decide
  refine ⟨_, hrun, rfl, ⟨_, hmem, hdue⟩, hle, hlt, fun hwakes => ?_⟩
  exact absurd (hwakes (by decide) _ hmem midnight hle hdue) hlt.not_ge

end Beat
end Celery
