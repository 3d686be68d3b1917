/-
# `celery/events/state.py`: the indexes by type and by worker

`tasks_by_type` and `tasks_by_worker` answer by a set that `_event` fills (lines
575-633), and, called, by going through the heap: `_tasks_by_type` and
`_tasks_by_worker` (lines 676-700).

A task gets into the sets with the event that creates it, under the name and the
hostname of that event, if it has a name then.  The queries read the name and the
worker the task has now, and `_tasks_by_worker` raises for a task that no worker
has told of.  So the two agree exactly if the first event of every task has the
name the task ends with, and comes from the host of the worker it ends with
(`indexes_agree_iff`).
-/

import Celery.Events.State

namespace Celery
namespace EventState

/-! ## The queries -/

/-- The task a reference leads to, where no task that is not in `tasks` lives. -/
def State.deref (s : State) (r : Ref) : Option Task := s.tasks.find? fun t => t.ref = r

/-- `islice(…, 0, limit)`. -/
def islice {α : Type} (limit : Option ℕ) (l : List α) : List α :=
  match limit with
  | none => l
  | some n => l.take n

/-- `_tasks_by_type`. -/
def State.tasksByType_ (s : State) (name : String) (limit : Option ℕ) (reverse : Bool) :
    List (String × Task) :=
  islice limit (((tasksByTime s.deref s.taskheap none reverse).filter
    fun y => y.2.name = some name).map fun y => (y.2.ref.uuid, y.2))

/-- `task.worker.hostname`; `none` for the `AttributeError` of a task without a worker. -/
def State.workerHostname (s : State) (t : Task) : Option String :=
  t.worker.bind fun w => (s.workerObjects[w]?).map Worker.hostname

/-- The generator of `_tasks_by_worker`, run to its end. -/
def State.filterByWorker (s : State) (hostname : String) :
    List (TimeTuple × Task) → Option (List (String × Task))
  | [] => some []
  | (_, t) :: rest =>
    match s.workerHostname t with
    | none => none
    | some h =>
      (s.filterByWorker hostname rest).map fun found =>
        if h = hostname then (t.ref.uuid, t) :: found else found

/-- `_tasks_by_worker`; `none` where it raises. -/
def State.tasksByWorker_ (s : State) (hostname : String) (limit : Option ℕ) (reverse : Bool) :
    Option (List (String × Task)) :=
  (s.filterByWorker hostname (tasksByTime s.deref s.taskheap none reverse)).map (islice limit)

/-- The set `tasks_by_type[name]`, by uuid. -/
def State.indexedByType (s : State) (name : String) : List String :=
  (s.tasksByType.filter fun entry => entry.1 = name).map fun entry => entry.2.uuid

/-- The set `tasks_by_worker[hostname]`, by uuid. -/
def State.indexedByWorker (s : State) (hostname : String) : List String :=
  (s.tasksByWorker.filter fun entry => entry.1 = hostname).map fun entry => entry.2.uuid

/-- **The indexes agree with the queries**, and no query raises.  Tasks are equal if
their uuids are. -/
def Agree (s : State) : Prop :=
  (∀ name uuid, uuid ∈ s.indexedByType name ↔
    uuid ∈ (s.tasksByType_ name none true).map Prod.fst) ∧
  ∀ hostname, ∃ found, s.tasksByWorker_ hostname none true = some found ∧
    ∀ uuid, uuid ∈ s.indexedByWorker hostname ↔ uuid ∈ found.map Prod.fst

/-! ## Histories -/

/-- The events of a task. -/
def history (es : List TaskEvent) (uuid : String) : List TaskEvent :=
  es.filter fun e => e.uuid = uuid

/-- The name a task ends with. -/
def nameAfter (es : List TaskEvent) : Option String :=
  es.foldl (fun name e => e.name.getD name) none

/-- The host of the worker a task ends with. -/
def workerAfter (es : List TaskEvent) : Option String :=
  es.foldl (fun host e => if e.subject = "sent" then host else some e.hostname) none

/-- The name and the host of the event that created a task, if it had a name. -/
def createdAs (es : List TaskEvent) : Option (String × String) :=
  es.head?.bind fun e => (e.name.getD none).map fun name => (name, e.hostname)

/-- The first event of every task has the name the task ends with, and comes from the
host of the worker it ends with. -/
def Steady (es : List TaskEvent) : Prop :=
  ∀ uuid first rest, history es uuid = first :: rest →
    ∃ name, first.name = some (some name) ∧ nameAfter (first :: rest) = some name ∧
      workerAfter (first :: rest) = some first.hostname

variable {es : List TaskEvent} {e : TaskEvent} {uuid : String}

theorem history_snoc (es : List TaskEvent) (e : TaskEvent) (uuid : String) :
    history (es ++ [e]) uuid =
      if e.uuid = uuid then history es uuid ++ [e] else history es uuid := by
  rw [history, List.filter_append, List.filter_singleton]
  split <;> simp_all [history]

theorem nameAfter_snoc (es : List TaskEvent) (e : TaskEvent) :
    nameAfter (es ++ [e]) = e.name.getD (nameAfter es) := by
  rw [nameAfter, List.foldl_append]
  rfl

theorem workerAfter_snoc (es : List TaskEvent) (e : TaskEvent) :
    workerAfter (es ++ [e]) =
      if e.subject = "sent" then workerAfter es else some e.hostname := by
  rw [workerAfter, List.foldl_append]
  rfl

theorem createdAs_snoc_of_ne_nil (h : es ≠ []) (e : TaskEvent) :
    createdAs (es ++ [e]) = createdAs es := by
  cases es with
  | nil => exact absurd rfl h
  | cons => rfl

theorem createdAs_singleton (e : TaskEvent) (name hostname : String) :
    createdAs [e] = some (name, hostname) ↔
      e.name.getD none = some name ∧ hostname = e.hostname := by
  simp [createdAs, eq_comm]

/-! ## What a state remembers -/

/-- The state after the events `es`: for each task its name, its worker and what the
indexes have of it, and a tuple for every event. -/
structure Tracks (es : List TaskEvent) (s : State) : Prop where
  nodup : (s.tasks.map fun t => t.ref.uuid).Nodup
  tasks : ∀ uuid, (∃ t ∈ s.tasks, t.ref.uuid = uuid) ↔ history es uuid ≠ []
  name : ∀ t ∈ s.tasks, t.name = nameAfter (history es t.ref.uuid)
  worker : ∀ t ∈ s.tasks, s.workerHostname t = workerAfter (history es t.ref.uuid)
  object : ∀ t ∈ s.tasks, ∀ w, t.worker = some w → w < s.workerObjects.length
  workers : ∀ hostname w, s.workers.lookup hostname = some w →
    (s.workerObjects[w]?).map Worker.hostname = some hostname
  length : s.taskheap.length = es.length
  heap : ∀ r, (∃ tup ∈ s.taskheap, tup.task = r) ↔ ∃ t ∈ s.tasks, t.ref = r
  byType : ∀ name r, (name, r) ∈ s.tasksByType ↔
    ∃ t ∈ s.tasks, t.ref = r ∧ ∃ hostname, createdAs (history es r.uuid) = some (name, hostname)
  byWorker : ∀ hostname r, (hostname, r) ∈ s.tasksByWorker ↔
    ∃ t ∈ s.tasks, t.ref = r ∧ ∃ name, createdAs (history es r.uuid) = some (name, hostname)

theorem tracks_empty : Tracks [] State.empty := by
  constructor <;> simp [State.empty, history]

section Steps

variable {s : State} {t : Task}

/-- Whatever the merge rules keep, a name in an event is the name of the task. -/
theorem event_spec (t : Task) (e : TaskEvent) :
    (t.event e).ref = t.ref ∧ (t.event e).worker = t.worker ∧
      (t.event e).name = e.name.getD t.name := by
  rw [Task.event]
  split
  · split
    · exact ⟨rfl, rfl, rfl⟩
    · exact ⟨rfl, rfl, rfl⟩
  · exact ⟨rfl, rfl, rfl⟩

/-- A heap that is not full takes the tuple and loses none. -/
theorem pushEvent_of_lt {maxEvents : ℕ} {heap : List TimeTuple} (h : heap.length < maxEvents)
    (tup : TimeTuple) :
    (pushEvent maxEvents heap tup).2 = false ∧
      ((pushEvent maxEvents heap tup).1).Perm (tup :: heap) := by
  have hnot : ¬ maxEvents < heap.length + 1 := by omega
  have hinsort := Bisect.insort_perm TimeTuple.key tup heap
  rw [pushEvent, if_neg fun hfull => hnot hfull.1]
  dsimp only
  rw [if_neg hnot]
  split
  · exact ⟨rfl, hinsort⟩
  next hne =>
    split
    next hlast =>
      refine absurd ?_ hne
      rw [List.getLast?_eq_none_iff.mp hlast, List.length_nil]
    next =>
      split
      · exact ⟨rfl, List.perm_append_comm⟩
      · exact ⟨rfl, hinsort⟩

/-- `getWorker` gives an object with the hostname, and keeps the others. -/
theorem getWorker_spec (s : State) (hostname : String)
    (hworkers : ∀ h w, s.workers.lookup h = some w →
      (s.workerObjects[w]?).map Worker.hostname = some h) :
    (∃ new, (s.getWorker hostname).1.workerObjects = s.workerObjects ++ new) ∧
      ((s.getWorker hostname).1.workerObjects[(s.getWorker hostname).2]?).map Worker.hostname
        = some hostname ∧
      (∀ h w, (s.getWorker hostname).1.workers.lookup h = some w →
        ((s.getWorker hostname).1.workerObjects[w]?).map Worker.hostname = some h) ∧
      (s.getWorker hostname).1.tasks = s.tasks ∧
      (s.getWorker hostname).1.taskheap = s.taskheap ∧
      (s.getWorker hostname).1.tasksByType = s.tasksByType ∧
      (s.getWorker hostname).1.tasksByWorker = s.tasksByWorker := by
  rw [State.getWorker]
  split
  next w hw => exact ⟨⟨[], by simp⟩, hworkers _ w hw, hworkers, rfl, rfl, rfl, rfl⟩
  next hnone =>
    refine ⟨⟨_, rfl⟩, by simp, fun h w hw => ?_, rfl, rfl, rfl, rfl⟩
    dsimp only at hw ⊢
    rw [List.lookup_append] at hw
    cases hold : s.workers.lookup h with
    | some w' =>
      rw [hold, Option.some_or, Option.some_inj] at hw
      subst hw
      have hobject := hworkers h w' hold
      obtain ⟨o, ho, hhost⟩ := Option.map_eq_some_iff.mp hobject
      obtain ⟨hlt, -⟩ := List.getElem?_eq_some_iff.mp ho
      rwa [List.getElem?_append_left hlt]
    | none =>
      rw [hold, Option.none_or] at hw
      simp only [List.lookup_cons, List.lookup_nil] at hw
      split at hw
      next heq =>
        obtain rfl := Option.some_inj.mp hw
        simpa using (beq_iff_eq.mp heq).symm
      next => cases hw

/-- What `seenBy` does, to the state and to the task of the event. -/
structure Seen (s : State) (t : Task) (e : TaskEvent) (s₁ : State) (t₁ : Task) : Prop where
  objects : ∃ new, s₁.workerObjects = s.workerObjects ++ new
  workers : ∀ hostname w, s₁.workers.lookup hostname = some w →
    (s₁.workerObjects[w]?).map Worker.hostname = some hostname
  tasks : s₁.tasks = s.tasks
  heap : s₁.taskheap = s.taskheap
  byType : s₁.tasksByType = s.tasksByType
  byWorker : s₁.tasksByWorker = s.tasksByWorker
  ref : t₁.ref = t.ref
  name : t₁.name = t.name
  host : s₁.workerHostname t₁ = if e.subject = "sent" then s.workerHostname t else some e.hostname
  object : ∀ w, t₁.worker = some w → w < s₁.workerObjects.length

theorem seenBy_spec (e : TaskEvent)
    (hworkers : ∀ h w, s.workers.lookup h = some w →
      (s.workerObjects[w]?).map Worker.hostname = some h)
    (hobject : ∀ w, t.worker = some w → w < s.workerObjects.length) :
    Seen s t e (s.seenBy t e).1 (s.seenBy t e).2.1 := by
  rw [State.seenBy]
  split
  next hsent =>
    exact ⟨⟨[], by simp⟩, hworkers, rfl, rfl, rfl, rfl, rfl, rfl, (if_pos hsent).symm, hobject⟩
  next hsent =>
    obtain ⟨hnew, hhost, hlookup, htasks, hheap, htype, hworker⟩ :=
      getWorker_spec s e.hostname hworkers
    refine ⟨hnew, hlookup, htasks, hheap, htype, hworker, rfl, rfl, ?_, fun w hw => ?_⟩
    · rw [if_neg hsent]
      exact hhost
    · obtain rfl := Option.some_inj.mp hw
      obtain ⟨o, ho, -⟩ := Option.map_eq_some_iff.mp hhost
      exact (List.getElem?_eq_some_iff.mp ho).1

/-- What a task event does, where the heap is not full: `t` is the task of the event
afterwards, and the other tasks are as they were. -/
structure Grows (es : List TaskEvent) (s : State) (e : TaskEvent) (s' : State) (t : Task) :
    Prop where
  nodup : (s'.tasks.map fun t => t.ref.uuid).Nodup
  tasks : ∀ t', t' ∈ s'.tasks ↔ t' = t ∨ t' ∈ s.tasks ∧ t'.ref.uuid ≠ e.uuid
  uuid : t.ref.uuid = e.uuid
  ref : ∀ t' ∈ s.tasks, t'.ref.uuid = e.uuid → t'.ref = t.ref
  name : t.name = e.name.getD (nameAfter (history es e.uuid))
  host : s'.workerHostname t =
    if e.subject = "sent" then workerAfter (history es e.uuid) else some e.hostname
  object : ∀ w, t.worker = some w → w < s'.workerObjects.length
  objects : ∃ new, s'.workerObjects = s.workerObjects ++ new
  workers : ∀ hostname w, s'.workers.lookup hostname = some w →
    (s'.workerObjects[w]?).map Worker.hostname = some hostname
  heap : ∃ tup : TimeTuple, tup.task = t.ref ∧ s'.taskheap.Perm (tup :: s.taskheap)
  byType : ∀ name r, (name, r) ∈ s'.tasksByType ↔ (name, r) ∈ s.tasksByType ∨
    history es e.uuid = [] ∧ r = t.ref ∧ e.name.getD none = some name
  byWorker : ∀ hostname r, (hostname, r) ∈ s'.tasksByWorker ↔ (hostname, r) ∈ s.tasksByWorker ∨
    history es e.uuid = [] ∧ r = t.ref ∧ hostname = e.hostname ∧ e.name.getD none ≠ none

/-- `getTask` gives the task of the uuid, or a new one. -/
theorem getTask_cases (s : State) (uuid : String) :
    (∃ t ∈ s.tasks, t.ref.uuid = uuid ∧ s.getTask uuid = (s, t, false)) ∨
    ((∀ t ∈ s.tasks, t.ref.uuid ≠ uuid) ∧
      s.getTask uuid = ({ s with
        tasks := s.tasks ++ [Task.new ⟨uuid, s.created⟩]
        created := s.created + 1 }, Task.new ⟨uuid, s.created⟩, true)) := by
  rw [State.getTask]
  split
  next t ht =>
    have huuid := List.find?_some ht
    exact Or.inl ⟨t, List.mem_of_find?_eq_some ht, by simpa using huuid, rfl⟩
  next hnone =>
    refine Or.inr ⟨fun t ht heq => ?_, rfl⟩
    simpa [heq] using List.find?_eq_none.mp hnone t ht

/-- The task of an event before anything is changed in it. -/
structure Got (es : List TaskEvent) (s : State) (e : TaskEvent) (s₀ : State) (t : Task)
    (created : Bool) : Prop where
  objects : s₀.workerObjects = s.workerObjects
  workers : s₀.workers = s.workers
  heap : s₀.taskheap = s.taskheap
  byType : s₀.tasksByType = s.tasksByType
  byWorker : s₀.tasksByWorker = s.tasksByWorker
  nodup : (s₀.tasks.map fun t => t.ref.uuid).Nodup
  mem : t ∈ s₀.tasks
  others : ∀ t', t'.ref.uuid ≠ e.uuid → (t' ∈ s₀.tasks ↔ t' ∈ s.tasks)
  uuid : t.ref.uuid = e.uuid
  ref : ∀ t' ∈ s.tasks, t'.ref.uuid = e.uuid → t'.ref = t.ref
  name : t.name = nameAfter (history es e.uuid)
  host : s₀.workerHostname t = workerAfter (history es e.uuid)
  object : ∀ w, t.worker = some w → w < s₀.workerObjects.length
  created : created = true ↔ history es e.uuid = []

theorem getTask_spec (h : Tracks es s) (e : TaskEvent) :
    Got es s e (s.getTask e.uuid).1 (s.getTask e.uuid).2.1 (s.getTask e.uuid).2.2 := by
  obtain ⟨t, ht, huuid, heq⟩ | ⟨hnone, heq⟩ := getTask_cases s e.uuid
  · rw [heq]
    refine ⟨rfl, rfl, rfl, rfl, rfl, h.nodup, ht, fun _ _ => Iff.rfl, huuid, fun t' ht' hu => ?_,
      huuid ▸ h.name t ht, huuid ▸ h.worker t ht, h.object t ht, ?_⟩
    · rw [List.inj_on_of_nodup_map h.nodup ht' ht (hu.trans huuid.symm)]
    · exact iff_of_false Bool.false_ne_true ((h.tasks e.uuid).mp ⟨t, ht, huuid⟩)
  · have hhistory : history es e.uuid = [] := by
      by_contra hne
      obtain ⟨t, ht, hu⟩ := (h.tasks e.uuid).mpr hne
      exact hnone t ht hu
    rw [heq]
    refine ⟨rfl, rfl, rfl, rfl, rfl, ?_, List.mem_append_right _ (List.mem_singleton_self _),
      fun t' ht' => ?_, rfl, fun t' ht' hu => absurd hu (hnone t' ht'), by rw [hhistory]; rfl,
      by rw [hhistory]; rfl, fun w hw => absurd hw (Option.some_ne_none w).symm,
      iff_of_true rfl hhistory⟩
    · rw [List.map_append]
      refine h.nodup.append (List.nodup_singleton _) ?_
      simpa [Task.new] using hnone
    · rw [List.mem_append, List.mem_singleton]
      refine or_iff_left fun hnew => ht' ?_
      rw [hnew]
      rfl

theorem mem_putTask {s₀ : State} {t₀ t₂ : Task} (ht₀ : t₀ ∈ s₀.tasks) (href : t₂.ref = t₀.ref)
    (t' : Task) :
    t' ∈ (s₀.putTask t₂).tasks ↔ t' = t₂ ∨ t' ∈ s₀.tasks ∧ t'.ref.uuid ≠ t₂.ref.uuid := by
  rw [State.putTask, List.mem_map]
  constructor
  · rintro ⟨t, ht, rfl⟩
    split
    · exact Or.inl rfl
    next hne => exact Or.inr ⟨ht, hne⟩
  · rintro (rfl | ⟨ht', hne⟩)
    · exact ⟨t₀, ht₀, if_pos (by rw [href])⟩
    · exact ⟨t', ht', if_neg hne⟩

theorem nodup_putTask {s₀ : State} (t₂ : Task)
    (h : (s₀.tasks.map fun t => t.ref.uuid).Nodup) :
    ((s₀.putTask t₂).tasks.map fun t => t.ref.uuid).Nodup := by
  have hmap : (s₀.putTask t₂).tasks.map (fun t => t.ref.uuid) =
      s₀.tasks.map fun t => t.ref.uuid := by
    rw [State.putTask, List.map_map]
    refine List.map_congr_left fun t _ => ?_
    rw [Function.comp_apply]
    split
    next heq => exact heq.symm
    next => rfl
  rwa [hmap]

/-- The indexes get a new task that has a name. -/
theorem addIndexes_spec (s : State) (t : Task) (hostname : String) (created : Bool) :
    (s.addIndexes t hostname created).tasks = s.tasks ∧
      (s.addIndexes t hostname created).workerObjects = s.workerObjects ∧
      (s.addIndexes t hostname created).workers = s.workers ∧
      (∀ name r, (name, r) ∈ (s.addIndexes t hostname created).tasksByType ↔
        (name, r) ∈ s.tasksByType ∨ created = true ∧ r = t.ref ∧ t.name = some name) ∧
      ∀ h r, (h, r) ∈ (s.addIndexes t hostname created).tasksByWorker ↔
        (h, r) ∈ s.tasksByWorker ∨ created = true ∧ r = t.ref ∧ h = hostname ∧ t.name ≠ none := by
  unfold State.addIndexes
  split
  next name hname =>
    refine ⟨rfl, rfl, rfl, fun n r => ?_, fun h r => ?_⟩
    · simp [hname, and_comm, eq_comm]
    · simp [hname, and_comm]
  next hnot =>
    refine ⟨rfl, rfl, rfl, fun n r => ?_, fun h r => ?_⟩
    · refine (or_iff_left ?_).symm
      rintro ⟨hcreated, -, hname⟩
      exact hnot n hname hcreated
    · refine (or_iff_left ?_).symm
      rintro ⟨hcreated, -, -, hname⟩
      obtain ⟨n, hn⟩ := Option.ne_none_iff_exists'.mp hname
      exact hnot n hn hcreated

theorem taskEvent_grows {cfg : Settings} (h : Tracks es s)
    (hcap : s.taskheap.length < cfg.maxEvents) (e : TaskEvent) :
    ∃ t, Grows es s e (s.taskEvent cfg e) t := by
  have hgot := getTask_spec h e
  rw [State.taskEvent]
  generalize s.getTask e.uuid = got at hgot
  obtain ⟨s₀, t₀, created⟩ := got
  have hseen := seenBy_spec (s := s₀) (t := t₀) e
    (by rw [hgot.workers, hgot.objects]; exact h.workers) hgot.object
  dsimp only at hgot hseen ⊢
  generalize s₀.seenBy t₀ e = seen at hseen
  obtain ⟨s₁, t₁, origin⟩ := seen
  dsimp only at hseen ⊢
  have hfree : s₁.taskheap.length < cfg.maxEvents := by rwa [hseen.heap, hgot.heap]
  obtain ⟨hok, hperm⟩ := pushEvent_of_lt hfree ⟨e.clock, origin, t₁.ref⟩
  generalize pushEvent cfg.maxEvents s₁.taskheap ⟨e.clock, origin, t₁.ref⟩ = pushed at hok hperm
  obtain ⟨heap, raised⟩ := pushed
  dsimp only at hok hperm ⊢
  rw [hok, if_neg Bool.false_ne_true]
  obtain ⟨hsameRef, hsameWorker, hmerged⟩ := event_spec t₁ e
  have href : (t₁.event e).ref = t₀.ref := hsameRef.trans hseen.ref
  obtain ⟨htasks, hobjects, hworkers, htype, hworker⟩ := addIndexes_spec
    (State.putTask { s₁ with taskheap := heap } (t₁.event e)) (t₁.event e) e.hostname created
  have hheap := taskheap_addIndexes
    (State.putTask { s₁ with taskheap := heap } (t₁.event e)) (t₁.event e) e.hostname created
  have hname : (t₁.event e).name = e.name.getD (nameAfter (history es e.uuid)) := by
    rw [hmerged, hseen.name, hgot.name]
  -- A new task has the name of its first event or none.
  have hfirst : history es e.uuid = [] → (t₁.event e).name = e.name.getD none := by
    intro hnil
    rw [hname, hnil]
    rfl
  refine ⟨t₁.event e, ?_, fun t' => ?_, ?_, fun t' ht' hu => ?_, hname, ?_, fun w hw => ?_, ?_, ?_,
    ⟨⟨e.clock, origin, t₁.ref⟩, ?_, ?_⟩, fun name r => ?_, fun hostname r => ?_⟩
  · rw [htasks]
    exact nodup_putTask _ (hseen.tasks ▸ hgot.nodup)
  · rw [htasks, @mem_putTask { s₁ with taskheap := heap } t₀ _ (hseen.tasks ▸ hgot.mem) href, href,
      hgot.uuid]
    refine or_congr_right (and_congr_left fun hne => ?_)
    rw [← hgot.others t' hne, ← hseen.tasks]
  · rw [href, hgot.uuid]
  · rw [href, hgot.ref t' ht' hu]
  · have hhost := hseen.host
    rw [hgot.host] at hhost
    rw [← hhost, State.workerHostname, State.workerHostname, hobjects, hsameWorker]
    rfl
  · rw [hobjects]
    exact hseen.object w (hsameWorker ▸ hw)
  · obtain ⟨new, hnew⟩ := hseen.objects
    exact ⟨new, by rw [hobjects, ← hgot.objects]; exact hnew⟩
  · rw [hobjects, hworkers]
    exact hseen.workers
  · exact hsameRef.symm
  · rw [hheap, ← hgot.heap, ← hseen.heap]
    exact hperm
  · rw [htype, hgot.created, ← hgot.byType, ← hseen.byType]
    refine or_congr_right (and_congr_right fun hnil => ?_)
    rw [hfirst hnil]
  · rw [hworker, hgot.created, ← hgot.byWorker, ← hseen.byWorker]
    refine or_congr_right (and_congr_right fun hnil => ?_)
    rw [hfirst hnil]

theorem Grows.exists_ref {s' : State} (g : Grows es s e s' t) (r : Ref) :
    (∃ t' ∈ s'.tasks, t'.ref = r) ↔ r = t.ref ∨ ∃ t' ∈ s.tasks, t'.ref = r := by
  constructor
  · rintro ⟨t', ht', rfl⟩
    obtain rfl | ⟨hold, -⟩ := (g.tasks t').mp ht'
    · exact Or.inl rfl
    · exact Or.inr ⟨t', hold, rfl⟩
  · rintro (rfl | ⟨t', ht', rfl⟩)
    · exact ⟨t, (g.tasks t).mpr (Or.inl rfl), rfl⟩
    · by_cases hu : t'.ref.uuid = e.uuid
      · exact ⟨t, (g.tasks t).mpr (Or.inl rfl), (g.ref t' ht' hu).symm⟩
      · exact ⟨t', (g.tasks t').mpr (Or.inr ⟨ht', hu⟩), rfl⟩

/-- The other tasks have the workers they had. -/
theorem Grows.workerHostname_eq {s' : State} (g : Grows es s e s' t) {t' : Task}
    (hobject : ∀ w, t'.worker = some w → w < s.workerObjects.length) :
    s'.workerHostname t' = s.workerHostname t' := by
  obtain ⟨new, hnew⟩ := g.objects
  rw [State.workerHostname, State.workerHostname, hnew]
  cases hw : t'.worker with
  | none => rfl
  | some w => rw [Option.bind_some, Option.bind_some, List.getElem?_append_left (hobject w hw)]

/-- An index that has the tasks whose first event has the property `Q` goes on to. -/
theorem Grows.indexed {s' : State} (h : Tracks es s) (g : Grows es s e s' t)
    (Q : Option (String × String) → Prop) (r : Ref) :
    ((∃ t' ∈ s.tasks, t'.ref = r ∧ Q (createdAs (history es r.uuid))) ∨
        history es e.uuid = [] ∧ r = t.ref ∧ Q (createdAs [e])) ↔
      ∃ t' ∈ s'.tasks, t'.ref = r ∧ Q (createdAs (history (es ++ [e]) r.uuid)) := by
  have hsplit : ∀ (l : List Task) (P : Prop),
      (∃ t' ∈ l, t'.ref = r ∧ P) ↔ (∃ t' ∈ l, t'.ref = r) ∧ P := by
    intro l P
    simp only [← and_assoc, exists_and_right]
  rw [hsplit, hsplit, g.exists_ref, history_snoc]
  by_cases hu : e.uuid = r.uuid
  · rw [if_pos hu, ← hu]
    have hold : (∃ t' ∈ s.tasks, t'.ref = r) → history es e.uuid ≠ [] := by
      rintro ⟨t', ht', rfl⟩
      exact (h.tasks _).mp ⟨t', ht', hu.symm⟩
    by_cases hnil : history es e.uuid = []
    · have hnone : ¬ ∃ t' ∈ s.tasks, t'.ref = r := fun hsome => hold hsome hnil
      rw [hnil]
      simp [hnone]
    · obtain ⟨t', ht', hu'⟩ := (h.tasks _).mpr hnil
      have hsame : r = t.ref → ∃ t' ∈ s.tasks, t'.ref = r :=
        fun hr => ⟨t', ht', hr ▸ g.ref t' ht' hu'⟩
      rw [createdAs_snoc_of_ne_nil hnil, or_iff_left fun hnew => hnil hnew.1,
        or_iff_right_of_imp hsame]
  · have hne : r ≠ t.ref := fun hr => hu (hr ▸ g.uuid.symm)
    rw [if_neg hu, or_iff_left fun hnew => hne hnew.2.1, or_iff_right hne]

/-- A task event goes on with the history. -/
theorem tracks_step {cfg : Settings} (h : Tracks es s)
    (hcap : s.taskheap.length < cfg.maxEvents) (e : TaskEvent) :
    Tracks (es ++ [e]) (s.taskEvent cfg e) := by
  obtain ⟨t, g⟩ := taskEvent_grows h hcap e
  have hpast : ∀ t', t' ∈ (s.taskEvent cfg e).tasks → t' = t ∨ t' ∈ s.tasks ∧
      history (es ++ [e]) t'.ref.uuid = history es t'.ref.uuid := by
    intro t' ht'
    refine ((g.tasks t').mp ht').imp_right fun ⟨hold, hne⟩ => ⟨hold, ?_⟩
    rw [history_snoc, if_neg (Ne.symm hne)]
  have hnow : history (es ++ [e]) t.ref.uuid = history es e.uuid ++ [e] := by
    rw [history_snoc, g.uuid, if_pos rfl]
  refine ⟨g.nodup, fun uuid => ?_, fun t' ht' => ?_, fun t' ht' => ?_, fun t' ht' => ?_, g.workers,
    ?_, fun r => ?_, fun name r => ?_, fun hostname r => ?_⟩
  · have hmem := g.tasks
    rw [history_snoc]
    by_cases hu : e.uuid = uuid
    · rw [if_pos hu]
      exact iff_of_true ⟨t, (hmem t).mpr (Or.inl rfl), g.uuid.trans hu⟩ (by simp)
    · rw [if_neg hu, ← h.tasks]
      refine exists_congr fun t' => and_congr_left fun ht' => ?_
      rw [hmem, or_iff_right fun heq => hu (by rw [← ht', heq, g.uuid]),
        and_iff_left fun heq => hu (heq.symm.trans ht')]
  · obtain rfl | ⟨hold, heq⟩ := hpast t' ht'
    · rw [hnow, nameAfter_snoc, g.name]
    · rw [heq, h.name t' hold]
  · obtain rfl | ⟨hold, heq⟩ := hpast t' ht'
    · rw [hnow, workerAfter_snoc, g.host]
    · rw [heq, g.workerHostname_eq (h.object t' hold), h.worker t' hold]
  · obtain rfl | ⟨hold, -⟩ := hpast t' ht'
    · exact g.object
    · obtain ⟨new, hnew⟩ := g.objects
      intro w hw
      rw [hnew, List.length_append]
      exact Nat.lt_add_right _ (h.object t' hold w hw)
  · obtain ⟨tup, -, hperm⟩ := g.heap
    rw [hperm.length_eq, List.length_cons, h.length, List.length_append, List.length_singleton]
  · obtain ⟨tup, htup, hperm⟩ := g.heap
    rw [g.exists_ref, ← h.heap]
    simp [hperm.mem_iff, htup, eq_comm]
  · rw [g.byType, h.byType, ← g.indexed h (fun c => ∃ hostname, c = some (name, hostname))]
    simp only [createdAs_singleton, exists_and_left, exists_eq, and_true]
  · rw [g.byWorker, h.byWorker, ← g.indexed h (fun c => ∃ name, c = some (name, hostname))]
    simp only [createdAs_singleton, exists_and_right, Option.ne_none_iff_exists',
      and_comm (a := hostname = _)]

/-- As long as the heap takes all events, the state has their history. -/
theorem tracks_run {cfg : Settings} (hcap : es.length ≤ cfg.maxEvents) :
    Tracks es (es.foldl (State.taskEvent cfg) State.empty) := by
  induction es using List.reverseRecOn with
  | nil => exact tracks_empty
  | append_singleton es e ih =>
    rw [List.length_append, List.length_singleton] at hcap
    have h := ih (Nat.le_of_succ_le hcap)
    rw [List.foldl_append]
    exact tracks_step h (h.length ▸ hcap) e

end Steps

/-! ## What the queries give -/

section Queries

variable {s : State}

/-- A reference leads to the task that has it. -/
theorem deref_eq_some (h : Tracks es s) (r : Ref) (t : Task) :
    s.deref r = some t ↔ t ∈ s.tasks ∧ t.ref = r := by
  constructor
  · intro hderef
    have href := List.find?_some hderef
    exact ⟨List.mem_of_find?_eq_some hderef, by simpa using href⟩
  · rintro ⟨ht, rfl⟩
    have hsome : (s.deref t.ref).isSome := by
      rw [State.deref, List.find?_isSome]
      exact ⟨t, ht, by simp⟩
    obtain ⟨t', ht'⟩ := Option.isSome_iff_exists.mp hsome
    have href := List.find?_some ht'
    have hmem := List.mem_of_find?_eq_some ht'
    have heq : t'.ref = t.ref := by simpa using href
    rw [ht', List.inj_on_of_nodup_map h.nodup hmem ht (congrArg Ref.uuid heq)]

/-- The loop finds every task that a tuple leads to and that was not seen before. -/
theorem mem_yields {deref : Ref → Option Task} (hone : ∀ r r' t t', deref r = some t →
      deref r' = some t' → t.ref.uuid = t'.ref.uuid → t = t')
    (seen : List String) (heap : List TimeTuple) (t : Task) :
    (∃ tup, (tup, t) ∈ yields deref seen heap) ↔
      t.ref.uuid ∉ seen ∧ ∃ tup ∈ heap, deref tup.task = some t := by
  induction heap generalizing seen with
  | nil => simp [yields]
  | cons first rest ih =>
    have hcons : (∃ tup ∈ first :: rest, deref tup.task = some t) ↔
        deref first.task = some t ∨ ∃ tup ∈ rest, deref tup.task = some t := by
      simp
    rw [yields, hcons]
    split
    next hnone => rw [ih, hnone, or_iff_right (Option.some_ne_none t).symm]
    next t₁ ht₁ =>
      rw [ht₁, Option.some_inj]
      split
      next hmem =>
        rw [ih]
        refine and_congr_right fun hnew => (or_iff_right fun heq => hnew ?_).symm
        exact heq ▸ hmem
      next hnew =>
        simp only [List.mem_cons, Prod.mk.injEq, exists_or, exists_eq_left, ih, not_or]
        constructor
        · rintro (rfl | ⟨⟨-, hseen⟩, hrest⟩)
          · exact ⟨hnew, Or.inl rfl⟩
          · exact ⟨hseen, Or.inr hrest⟩
        · rintro ⟨hseen, rfl | hrest⟩
          · exact Or.inl rfl
          · by_cases heq : t = t₁
            · exact Or.inl heq
            · obtain ⟨tup, htup, hderef⟩ := hrest
              have hne : t.ref.uuid ≠ t₁.ref.uuid := fun hu => heq (hone _ _ _ _ hderef ht₁ hu)
              exact Or.inr ⟨⟨hne, hseen⟩, tup, htup, hderef⟩

/-- `tasks_by_time` gives all the tasks. -/
theorem mem_tasksByTime (h : Tracks es s) (t : Task) :
    (∃ tup, (tup, t) ∈ tasksByTime s.deref s.taskheap none true) ↔ t ∈ s.tasks := by
  have hone : ∀ r r' t t', s.deref r = some t → s.deref r' = some t' →
      t.ref.uuid = t'.ref.uuid → t = t' := by
    intro r r' t t' ht ht' hu
    rw [deref_eq_some h] at ht ht'
    exact List.inj_on_of_nodup_map h.nodup ht.1 ht'.1 hu
  rw [tasksByTime, if_pos rfl, mem_yields hone]
  constructor
  · rintro ⟨-, tup, -, htup⟩
    exact ((deref_eq_some h _ _).mp htup).1
  · intro ht
    obtain ⟨tup, htup, href⟩ := (h.heap t.ref).mpr ⟨t, ht, rfl⟩
    refine ⟨List.not_mem_nil, tup, List.mem_reverse.mpr htup, ?_⟩
    exact (deref_eq_some h _ _).mpr ⟨ht, href.symm⟩

/-- The generator of `_tasks_by_worker` ends if all the tasks have a worker. -/
theorem filterByWorker_eq_some (hostname : String) (l : List (TimeTuple × Task))
    (found : List (String × Task)) :
    s.filterByWorker hostname l = some found ↔ (∀ y ∈ l, s.workerHostname y.2 ≠ none) ∧
      found = (l.filter fun y => s.workerHostname y.2 = some hostname).map
        fun y => (y.2.ref.uuid, y.2) := by
  induction l generalizing found with
  | nil => simp [State.filterByWorker, eq_comm]
  | cons y rest ih =>
    obtain ⟨tup, t⟩ := y
    rw [State.filterByWorker, List.forall_mem_cons, List.filter_cons]
    split
    next hnone => simp [hnone]
    next host hhost =>
      simp only [Option.map_eq_some_iff, ih, hhost, Option.some_inj, decide_eq_true_eq]
      by_cases heq : host = hostname
      · simp [heq, eq_comm]
      · simp [heq, eq_comm]

/-- The tasks that a query picks. -/
theorem mem_picked (h : Tracks es s) (P : Task → Bool) (uuid : String) :
    uuid ∈ (((tasksByTime s.deref s.taskheap none true).filter fun y => P y.2).map
        fun y => (y.2.ref.uuid, y.2)).map Prod.fst ↔
      ∃ t ∈ s.tasks, t.ref.uuid = uuid ∧ P t := by
  constructor
  · intro hmem
    obtain ⟨_, hentry, rfl⟩ := List.mem_map.mp hmem
    obtain ⟨y, hy, rfl⟩ := List.mem_map.mp hentry
    obtain ⟨hfound, hP⟩ := List.mem_filter.mp hy
    exact ⟨y.2, (mem_tasksByTime h y.2).mp ⟨y.1, hfound⟩, rfl, hP⟩
  · rintro ⟨t, ht, rfl, hP⟩
    obtain ⟨tup, htup⟩ := (mem_tasksByTime h t).mpr ht
    exact List.mem_map.mpr ⟨_, List.mem_map.mpr ⟨_, List.mem_filter.mpr ⟨htup, hP⟩, rfl⟩, rfl⟩

/-- The query by type gives the tasks that have the name. -/
theorem mem_tasksByType_ (h : Tracks es s) (name uuid : String) :
    uuid ∈ (s.tasksByType_ name none true).map Prod.fst ↔
      history es uuid ≠ [] ∧ nameAfter (history es uuid) = some name := by
  rw [State.tasksByType_, islice, mem_picked h (fun t => t.name = some name), ← h.tasks]
  constructor
  · rintro ⟨t, ht, rfl, hname⟩
    exact ⟨⟨t, ht, rfl⟩, h.name t ht ▸ of_decide_eq_true hname⟩
  · rintro ⟨⟨t, ht, rfl⟩, hname⟩
    exact ⟨t, ht, rfl, decide_eq_true ((h.name t ht).trans hname)⟩

/-- The query by worker does not raise if all tasks have a worker. -/
theorem tasksByWorker_eq_some (h : Tracks es s) (hostname : String) :
    (∃ found, s.tasksByWorker_ hostname none true = some found) ↔
      ∀ uuid, history es uuid ≠ [] → workerAfter (history es uuid) ≠ none := by
  simp only [State.tasksByWorker_, Option.map_eq_some_iff, filterByWorker_eq_some]
  constructor
  · rintro ⟨-, -, ⟨hall, -⟩, -⟩ uuid hne
    obtain ⟨t, ht, rfl⟩ := (h.tasks uuid).mpr hne
    obtain ⟨tup, htup⟩ := (mem_tasksByTime h t).mpr ht
    exact h.worker t ht ▸ hall _ htup
  · intro hall
    refine ⟨_, _, ⟨fun y hy => ?_, rfl⟩, rfl⟩
    have ht := (mem_tasksByTime h y.2).mp ⟨y.1, hy⟩
    rw [h.worker y.2 ht]
    exact hall _ ((h.tasks _).mp ⟨y.2, ht, rfl⟩)

/-- The query by worker gives the tasks of the worker. -/
theorem mem_tasksByWorker_ (h : Tracks es s) {hostname : String} {found : List (String × Task)}
    (hfound : s.tasksByWorker_ hostname none true = some found) (uuid : String) :
    uuid ∈ found.map Prod.fst ↔
      history es uuid ≠ [] ∧ workerAfter (history es uuid) = some hostname := by
  simp only [State.tasksByWorker_, Option.map_eq_some_iff, filterByWorker_eq_some] at hfound
  obtain ⟨-, ⟨-, rfl⟩, rfl⟩ := hfound
  rw [islice, mem_picked h (fun t => s.workerHostname t = some hostname), ← h.tasks]
  constructor
  · rintro ⟨t, ht, rfl, hhost⟩
    exact ⟨⟨t, ht, rfl⟩, h.worker t ht ▸ of_decide_eq_true hhost⟩
  · rintro ⟨⟨t, ht, rfl⟩, hhost⟩
    exact ⟨t, ht, rfl, decide_eq_true ((h.worker t ht).trans hhost)⟩

/-- What an index has under a key. -/
theorem mem_index (h : Tracks es s) {index : List (String × Ref)} {key : String}
    {Q : Option (String × String) → Prop}
    (hindex : ∀ r, (key, r) ∈ index ↔
      ∃ t ∈ s.tasks, t.ref = r ∧ Q (createdAs (history es r.uuid))) (uuid : String) :
    uuid ∈ (index.filter fun entry => entry.1 = key).map (fun entry => entry.2.uuid) ↔
      history es uuid ≠ [] ∧ Q (createdAs (history es uuid)) := by
  have hmem : uuid ∈ (index.filter fun entry => entry.1 = key).map (fun entry => entry.2.uuid) ↔
      ∃ r, (key, r) ∈ index ∧ r.uuid = uuid := by
    simp
  rw [hmem, ← h.tasks]
  simp only [hindex]
  constructor
  · rintro ⟨_, ⟨t, ht, rfl, hcreated⟩, rfl⟩
    exact ⟨⟨t, ht, rfl⟩, hcreated⟩
  · rintro ⟨⟨t, ht, rfl⟩, hcreated⟩
    exact ⟨t.ref, ⟨t, ht, rfl, hcreated⟩, rfl⟩

/-- Index and query agree on a task whose history is `hist`. -/
def AgreeOn (hist : List TaskEvent) : Prop :=
  (∀ name, (∃ hostname, createdAs hist = some (name, hostname)) ↔ nameAfter hist = some name) ∧
  workerAfter hist ≠ none ∧
  ∀ hostname, (∃ name, createdAs hist = some (name, hostname)) ↔ workerAfter hist = some hostname

theorem agree_iff (h : Tracks es s) :
    Agree s ↔ ∀ uuid, history es uuid ≠ [] → AgreeOn (history es uuid) := by
  have htype : ∀ name uuid, uuid ∈ s.indexedByType name ↔ history es uuid ≠ [] ∧
      ∃ hostname, createdAs (history es uuid) = some (name, hostname) := fun name =>
    mem_index h (Q := fun c => ∃ hostname, c = some (name, hostname)) (h.byType name)
  have hworker : ∀ hostname uuid, uuid ∈ s.indexedByWorker hostname ↔ history es uuid ≠ [] ∧
      ∃ name, createdAs (history es uuid) = some (name, hostname) := fun hostname =>
    mem_index h (Q := fun c => ∃ name, c = some (name, hostname)) (h.byWorker hostname)
  simp only [Agree, htype, hworker, mem_tasksByType_ h, and_congr_right_iff]
  constructor
  · rintro ⟨hname, hhost⟩ uuid hne
    refine ⟨fun name => hname name uuid hne, ?_, fun hostname => ?_⟩
    · obtain ⟨found, hfound, -⟩ := hhost ""
      exact (tasksByWorker_eq_some h "").mp ⟨found, hfound⟩ uuid hne
    · obtain ⟨found, hfound, hall⟩ := hhost hostname
      have hiff := hall uuid
      rw [mem_tasksByWorker_ h hfound, and_congr_right_iff] at hiff
      exact hiff hne
  · intro hall
    refine ⟨fun name uuid hne => (hall uuid hne).1 name, fun hostname => ?_⟩
    obtain ⟨found, hfound⟩ :=
      (tasksByWorker_eq_some h hostname).mpr fun uuid hne => (hall uuid hne).2.1
    refine ⟨found, hfound, fun uuid => ?_⟩
    rw [mem_tasksByWorker_ h hfound, and_congr_right_iff]
    exact fun hne => (hall uuid hne).2.2 hostname

/-- On one task, index and query agree if its first event has its name and its worker. -/
theorem agreeOn_cons_iff (first : TaskEvent) (rest : List TaskEvent) :
    AgreeOn (first :: rest) ↔ ∃ name, first.name = some (some name) ∧
      nameAfter (first :: rest) = some name ∧
      workerAfter (first :: rest) = some first.hostname := by
  have hcreated : ∀ name hostname, createdAs (first :: rest) = some (name, hostname) ↔
      first.name = some (some name) ∧ hostname = first.hostname := by
    intro name hostname
    have hname : first.name.getD none = some name ↔ first.name = some (some name) := by
      cases first.name <;> simp
    rw [← hname]
    exact createdAs_singleton first name hostname
  simp only [AgreeOn, hcreated]
  constructor
  · rintro ⟨hname, hsome, hhost⟩
    obtain ⟨hostname, hw⟩ := Option.ne_none_iff_exists'.mp hsome
    obtain ⟨name, hfirst, rfl⟩ := (hhost hostname).mpr hw
    exact ⟨name, hfirst, (hname name).mp ⟨_, hfirst, rfl⟩, hw⟩
  · rintro ⟨name, hfirst, hname, hw⟩
    rw [hfirst, hname, hw]
    refine ⟨fun n => ?_, Option.some_ne_none _, fun hostname => ?_⟩
    · simp
    · simp [eq_comm]

end Queries

/-- **When the indexes agree with the queries.**  After any task events that the heap
takes, each index has just the tasks its query gives, and no query raises, if and only
if the first event of every task has the name the task ends with, and comes from the
host of the worker it ends with. -/
theorem indexes_agree_iff {cfg : Settings} (hcap : es.length ≤ cfg.maxEvents) :
    Agree (es.foldl (State.taskEvent cfg) State.empty) ↔ Steady es := by
  rw [agree_iff (tracks_run hcap), Steady]
  refine forall_congr' fun uuid => ?_
  cases history es uuid with
  | nil => simp
  | cons first rest =>
    rw [agreeOn_cons_iff]
    constructor
    · rintro hagree _ _ ⟨⟩
      exact hagree (List.cons_ne_nil first rest)
    · exact fun hsteady _ => hsteady first rest rfl

/-- A task that a worker receives and runs. -/
def receivedAndRun : List TaskEvent :=
  [⟨"received", "t1", "w1", 1, some (some "add")⟩, ⟨"succeeded", "t1", "w1", 2, none⟩]

theorem indexes_agree_receivedAndRun :
    receivedAndRun.length ≤ defaultSettings.maxEvents ∧
      (Agree (receivedAndRun.foldl (State.taskEvent defaultSettings) State.empty) ↔
        Steady receivedAndRun) :=
  ⟨by decide, indexes_agree_iff (by decide)⟩

/-- The state after one event, of a client that sends a task. -/
def onlySent : State :=
  State.taskEvent defaultSettings State.empty ⟨"sent", "t1", "client1", 1, some (some "add")⟩

/-- **A task that was only sent.**  It is in the index of the client's host, and the
query by worker raises. -/
theorem onlySent_not_agree :
    onlySent.indexedByWorker "client1" = ["t1"] ∧
      onlySent.tasksByWorker_ "client1" none true = none ∧ ¬ Agree onlySent := by
  have hraises : onlySent.tasksByWorker_ "client1" none true = none := by decide
  refine ⟨by decide, hraises, fun hagree => ?_⟩
  obtain ⟨found, hfound, -⟩ := hagree.2 "client1"
  exact Option.some_ne_none found (hfound.symm.trans hraises)

end EventState
end Celery
