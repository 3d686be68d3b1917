/-
# `celery/events/state.py`: parents and children

A task event may say who the parent of the task is.  `State._event` (lines 619-640) then
adds the task to the children of the parent, or leaves it in `_tasks_to_resolve` until
the parent is seen.  So a task is among the children of its parent as soon as both have
been seen, in whatever order (`linked_event`).

`Task.parent` and `Task.root` (lines 381-395) look the task up when they are read for the
first time, and `as_dict` (lines 352-357) reads them both.  What is found then is kept,
even if it is `None`.  So the two views agree as long as no event brings the parent of a
task whose `parent` has been read already, and no longer (`family_agrees_iff`).

Tasks are known by their uuids, since none is evicted here, and an id is a string that
is not empty.  Events do not have the fields `parent`, `root` and `children`.
-/

import Celery.Events.Task
import Celery.Library.Transition

namespace Celery
namespace Family

open TaskEvents

/-! ## Tasks -/

/-- A `Task`: `attrs` are the attributes it has from its events, and what `parent` and
`root` found when they were first read, if they were. -/
structure Member (V : Type) where
  uuid : String
  attrs : Fields V
  children : List String
  cachedParent : Option (Option String)
  cachedRoot : Option (Option String)
deriving DecidableEq, Repr

variable {V : Type}

/-- `Task(uuid)`. -/
def Member.new (uuid : String) : Member V := ⟨uuid, [], [], none, none⟩

/-- An id among the attributes. -/
def idOf (key : String) (attrs : Fields V) : Option String :=
  match attrs.lookup key with
  | some (.str id) => if id = "" then none else some id
  | _ => none

/-- `task.parent_id`. -/
def Member.parentId (m : Member V) : Option String := idOf "parent_id" m.attrs

/-- `task.root_id`. -/
def Member.rootId (m : Member V) : Option String := idOf "root_id" m.attrs

/-- `State`: the tasks, and `_tasks_to_resolve`, each parent with one of its children. -/
structure Cluster (V : Type) where
  tasks : List (Member V)
  tasksToResolve : List (String × String)
deriving DecidableEq, Repr

namespace Cluster

variable (s : Cluster V)

/-- `State()`. -/
def empty : Cluster V := ⟨[], []⟩

/-- The task is in `tasks`. -/
def Seen (uuid : String) : Prop := ∃ m ∈ s.tasks, m.uuid = uuid

instance (uuid : String) : Decidable (s.Seen uuid) := List.decidableBEx _ _

/-- A task object is changed. -/
def modify (uuid : String) (f : Member V → Member V) : Cluster V :=
  { s with tasks := s.tasks.map fun m => if m.uuid = uuid then f m else m }

/-- The task of an event, which may be new. -/
def touch (uuid : String) : Cluster V :=
  if s.Seen uuid then s else { s with tasks := s.tasks ++ [Member.new uuid] }

/-- `task.parent_id`, of the task with a uuid. -/
def parentOf (uuid : String) : Option String :=
  (s.tasks.find? fun m => m.uuid = uuid).bind Member.parentId

/-- A task is added to the children of its parent, or to those of a parent to come. -/
def addToParent (uuid : String) : Cluster V :=
  match s.parentOf uuid with
  | none => s
  | some parent =>
    if s.Seen parent then
      s.modify parent fun m => { m with children := m.children.insert uuid }
    else { s with tasksToResolve := (parent, uuid) :: s.tasksToResolve }

/-- The children that have been waiting for a task. -/
def resolve (uuid : String) : Cluster V :=
  let children := (s.tasksToResolve.filter fun entry => entry.1 = uuid).map Prod.snd
  { s.modify uuid (fun m => { m with children := children ∪ m.children }) with
    tasksToResolve := s.tasksToResolve.filter fun entry => entry.1 ≠ uuid }

/-- What `tasks` has under an id. -/
def lookup (id : Option String) : Option String := id.filter fun uuid => s.Seen uuid

/-- `task.parent`, of a task object. -/
def parent (m : Member V) : Option String := m.cachedParent.getD (s.lookup m.parentId)

/-- `task.root`. -/
def root (m : Member V) : Option String := m.cachedRoot.getD (s.lookup m.rootId)

variable [DecidableEq V]

/-- `_event` with an event of the group `task`, as far as the family goes. -/
def event (uuid : String) (e : Event V) : Cluster V :=
  let s := s.touch uuid
  let s := s.modify uuid fun m => { m with attrs := (TaskEvents.event m.attrs e).1 }
  let s := s.addToParent uuid
  s.resolve uuid

end Cluster

/-- What is done with a cluster state. -/
inductive Action (V : Type) where
  | event (uuid : String) (e : Event V)
  | readParent (uuid : String)
  | readRoot (uuid : String)
  | asDict (uuid : String)

namespace Cluster

/-- `task.parent` is read, and kept. -/
def readParent (s : Cluster V) (uuid : String) : Cluster V :=
  s.modify uuid fun m => { m with cachedParent := some (s.parent m) }

/-- `task.root` is read, and kept. -/
def readRoot (s : Cluster V) (uuid : String) : Cluster V :=
  s.modify uuid fun m => { m with cachedRoot := some (s.root m) }

/-- One step; `as_dict` reads the root and the parent. -/
def step [DecidableEq V] (s : Cluster V) : Action V → Cluster V
  | .event uuid e => s.event uuid e
  | .readParent uuid => s.readParent uuid
  | .readRoot uuid => s.readRoot uuid
  | .asDict uuid => (s.readRoot uuid).readParent uuid

end Cluster

/-! ## Children -/

section Children

variable {s : Cluster V} {u : String}

theorem mem_modify {f : Member V → Member V} {m' : Member V} :
    m' ∈ (s.modify u f).tasks ↔ ∃ m ∈ s.tasks, (if m.uuid = u then f m else m) = m' :=
  List.mem_map

/-- A change that keeps the uuids keeps who has been seen. -/
theorem uuids_modify {f : Member V → Member V} (hf : ∀ m, (f m).uuid = m.uuid) :
    (s.modify u f).tasks.map Member.uuid = s.tasks.map Member.uuid := by
  rw [Cluster.modify, List.map_map]
  refine List.map_congr_left fun m _ => ?_
  rw [Function.comp_apply]
  split
  · exact hf m
  · rfl

theorem seen_iff (s : Cluster V) (v : String) : s.Seen v ↔ v ∈ s.tasks.map Member.uuid := by
  rw [List.mem_map]
  rfl

theorem seen_modify {f : Member V → Member V} (hf : ∀ m, (f m).uuid = m.uuid) (v : String) :
    (s.modify u f).Seen v ↔ s.Seen v := by
  rw [seen_iff, seen_iff, uuids_modify hf]

theorem uuids_touch (s : Cluster V) (u : String) :
    (s.touch u).tasks.map Member.uuid =
      if s.Seen u then s.tasks.map Member.uuid else s.tasks.map Member.uuid ++ [u] := by
  rw [Cluster.touch]
  split
  · rfl
  · rw [List.map_append]
    rfl

theorem seen_touch (s : Cluster V) (u v : String) : (s.touch u).Seen v ↔ s.Seen v ∨ v = u := by
  rw [seen_iff, uuids_touch, seen_iff s v]
  split
  next hseen =>
    refine (or_iff_left_of_imp ?_).symm
    rintro rfl
    exact (seen_iff s v).mp hseen
  next => rw [List.mem_append, List.mem_singleton]

/-- The parent of a task that is there. -/
theorem parentOf_eq (hnodup : (s.tasks.map Member.uuid).Nodup) {m : Member V} (hm : m ∈ s.tasks) :
    s.parentOf m.uuid = m.parentId := by
  have hsome : (s.tasks.find? fun m' => m'.uuid = m.uuid).isSome := by
    rw [List.find?_isSome]
    exact ⟨m, hm, by simp⟩
  obtain ⟨m', hm'⟩ := Option.isSome_iff_exists.mp hsome
  have huuid : m'.uuid = m.uuid := by simpa using List.find?_some hm'
  rw [Cluster.parentOf, hm',
    List.inj_on_of_nodup_map hnodup (List.mem_of_find?_eq_some hm') hm huuid]
  rfl

/-- What holds of the children of all but `u`, and of the tasks that are settled. -/
structure LinkedBut (s : Cluster V) (u : String) (settled : String → Prop) : Prop where
  nodup : (s.tasks.map Member.uuid).Nodup
  linked : ∀ c ∈ s.tasks, settled c.uuid → ∀ p ∈ s.tasks, c.parentId = some p.uuid →
    c.uuid ∈ p.children ∨ p.uuid = u ∧ (u, c.uuid) ∈ s.tasksToResolve
  parked : ∀ c ∈ s.tasks, settled c.uuid → ∀ q, c.parentId = some q → ¬ s.Seen q →
    (q, c.uuid) ∈ s.tasksToResolve

/-- **Every task is among the children of its parent**, or waits for it. -/
structure Linked (s : Cluster V) : Prop where
  nodup : (s.tasks.map Member.uuid).Nodup
  linked : ∀ c ∈ s.tasks, ∀ p ∈ s.tasks, c.parentId = some p.uuid → c.uuid ∈ p.children
  parked : ∀ c ∈ s.tasks, ∀ q, c.parentId = some q → ¬ s.Seen q →
    (q, c.uuid) ∈ s.tasksToResolve

theorem linked_empty : Linked (Cluster.empty : Cluster V) :=
  ⟨List.nodup_nil, fun _ hc => absurd hc List.not_mem_nil, fun _ hc => absurd hc List.not_mem_nil⟩

theorem linkedBut_touch (h : Linked s) (u : String) :
    LinkedBut (s.touch u) u fun _ => True := by
  have hnodup : ((s.touch u).tasks.map Member.uuid).Nodup := by
    rw [uuids_touch]
    split
    · exact h.nodup
    next hnew =>
      rw [seen_iff] at hnew
      exact h.nodup.append (List.nodup_singleton u) (List.disjoint_singleton.mpr hnew)
  refine ⟨hnodup, ?_, ?_⟩
  · intro c hc _ p hp hparent
    by_cases hseen : s.Seen u
    · rw [Cluster.touch, if_pos hseen] at hc hp
      exact Or.inl (h.linked c hc p hp hparent)
    · rw [Cluster.touch, if_neg hseen] at hc hp ⊢
      rcases List.mem_append.mp hc with hc | hc
      · rcases List.mem_append.mp hp with hp | hp
        · exact Or.inl (h.linked c hc p hp hparent)
        · obtain rfl := List.mem_singleton.mp hp
          exact Or.inr ⟨rfl, h.parked c hc u hparent hseen⟩
      · obtain rfl := List.mem_singleton.mp hc
        cases hparent
  · intro c hc _ q hparent hq
    rw [seen_touch, not_or] at hq
    rw [Cluster.touch] at hc ⊢
    split at hc
    next hseen =>
      rw [if_pos hseen]
      exact h.parked c hc q hparent hq.1
    next hseen =>
      rw [if_neg hseen]
      rcases List.mem_append.mp hc with hc | hc
      · exact h.parked c hc q hparent hq.1
      · obtain rfl := List.mem_singleton.mp hc
        cases hparent

/-- The attributes of `u` change, and who its parent is with them. -/
theorem LinkedBut.attrs (h : LinkedBut s u fun _ => True) (f : Fields V → Fields V) :
    LinkedBut (s.modify u fun m => { m with attrs := f m.attrs }) u fun v => v ≠ u := by
  have hmem : ∀ m' ∈ (s.modify u fun m => { m with attrs := f m.attrs }).tasks, ∃ m ∈ s.tasks,
      m'.uuid = m.uuid ∧ m'.children = m.children ∧ (m'.uuid ≠ u → m' = m) := by
    intro m' hm'
    obtain ⟨m, hm, rfl⟩ := mem_modify.mp hm'
    split
    next huuid => exact ⟨m, hm, rfl, rfl, fun hne => absurd huuid hne⟩
    next => exact ⟨m, hm, rfl, rfl, fun _ => rfl⟩
  refine ⟨?_, ?_, ?_⟩
  · rw [uuids_modify]
    · exact h.nodup
    · exact fun _ => rfl
  · intro c hc hne p hp hparent
    obtain ⟨c', hc', -, -, hsame⟩ := hmem c hc
    obtain rfl := hsame hne
    obtain ⟨p', hp', huuid, hchildren, -⟩ := hmem p hp
    rw [huuid] at hparent ⊢
    rw [hchildren]
    exact h.linked c hc' trivial p' hp' hparent
  · intro c hc hne q hparent hq
    obtain ⟨c', hc', -, -, hsame⟩ := hmem c hc
    obtain rfl := hsame hne
    refine h.parked c hc' trivial q hparent fun hseen => hq ?_
    exact (seen_modify (fun _ => by rfl) q).mpr hseen

/-- A parent that is there gets `u` as a child. -/
theorem LinkedBut.addChild {parent : String} (h : LinkedBut s u fun v => v ≠ u)
    (honly : ∀ c ∈ s.tasks, c.uuid = u → c.parentId = some parent) (hseen : s.Seen parent) :
    LinkedBut (s.modify parent fun m => { m with children := m.children.insert u }) u
      fun _ => True := by
  have hmem : ∀ m' ∈ (s.modify parent fun m =>
      { m with children := m.children.insert u }).tasks, ∃ m ∈ s.tasks, m'.uuid = m.uuid ∧
        m'.parentId = m.parentId ∧ (∀ v ∈ m.children, v ∈ m'.children) ∧
        (m.uuid = parent → u ∈ m'.children) := by
    intro m' hm'
    obtain ⟨m, hm, rfl⟩ := mem_modify.mp hm'
    split
    next =>
      exact ⟨m, hm, rfl, rfl, fun v hv => List.mem_insert_of_mem hv,
        fun _ => List.mem_insert_self⟩
    next hne => exact ⟨m, hm, rfl, rfl, fun v hv => hv, fun heq => absurd heq hne⟩
  refine ⟨?_, ?_, ?_⟩
  · rw [uuids_modify]
    · exact h.nodup
    · exact fun _ => rfl
  · intro c hc _ p hp hq
    obtain ⟨c', hc', hcu, hcp, -⟩ := hmem c hc
    obtain ⟨p', hp', hpu, -, hold, hnew⟩ := hmem p hp
    rw [hcp, hpu] at hq
    rw [hcu, hpu]
    by_cases hcuuid : c'.uuid = u
    · rw [honly c' hc' hcuuid, Option.some_inj] at hq
      exact Or.inl (hcuuid ▸ hnew hq.symm)
    · exact (h.linked c' hc' hcuuid p' hp' hq).imp_left (hold _)
  · intro c hc _ q hq hunseen
    obtain ⟨c', hc', hcu, hcp, -⟩ := hmem c hc
    rw [hcp] at hq
    have hunseen' : ¬ s.Seen q := fun hseen =>
      hunseen ((seen_modify (fun _ => by rfl) q).mpr hseen)
    rw [hcu]
    by_cases hcuuid : c'.uuid = u
    · rw [honly c' hc' hcuuid, Option.some_inj] at hq
      exact absurd (hq ▸ hseen) hunseen'
    · exact h.parked c' hc' hcuuid q hq hunseen'

/-- For a parent that is not there yet, `u` waits. -/
theorem LinkedBut.park {parent : String} (h : LinkedBut s u fun v => v ≠ u)
    (honly : ∀ c ∈ s.tasks, c.uuid = u → c.parentId = some parent) (hseen : ¬ s.Seen parent) :
    LinkedBut { s with tasksToResolve := (parent, u) :: s.tasksToResolve } u
      fun _ => True := by
  refine ⟨h.nodup, ?_, ?_⟩
  · intro c hc _ p hp hq
    by_cases hcuuid : c.uuid = u
    · rw [honly c hc hcuuid, Option.some_inj] at hq
      exact absurd ⟨p, hp, hq.symm⟩ hseen
    · exact (h.linked c hc hcuuid p hp hq).imp_right fun ⟨hpu, hwait⟩ =>
        ⟨hpu, List.mem_cons_of_mem _ hwait⟩
  · intro c hc _ q hq hunseen
    by_cases hcuuid : c.uuid = u
    · rw [honly c hc hcuuid, Option.some_inj] at hq
      rw [hcuuid, ← hq]
      exact List.mem_cons_self
    · exact List.mem_cons_of_mem _ (h.parked c hc hcuuid q hq hunseen)

/-- Then `u` is added to the children of its parent. -/
theorem LinkedBut.addToParent (h : LinkedBut s u fun v => v ≠ u) (hu : s.Seen u) :
    LinkedBut (s.addToParent u) u fun _ => True := by
  -- What is said of `u` itself follows from its parent.
  have hself : ∀ c ∈ s.tasks, c.uuid = u → s.parentOf u = c.parentId := by
    rintro c hc rfl
    exact parentOf_eq h.nodup hc
  cases hparent : s.parentOf u with
  | none =>
    have hnone : ∀ c ∈ s.tasks, ∀ q, c.parentId = some q → c.uuid ≠ u := by
      intro c hc q hq huuid
      rw [← hself c hc huuid, hparent] at hq
      cases hq
    rw [Cluster.addToParent, hparent]
    exact ⟨h.nodup, fun c hc _ p hp hq => h.linked c hc (hnone c hc _ hq) p hp hq,
      fun c hc _ q hq => h.parked c hc (hnone c hc q hq) q hq⟩
  | some parent =>
    have honly : ∀ c ∈ s.tasks, c.uuid = u → c.parentId = some parent := by
      intro c hc huuid
      rw [← hself c hc huuid, hparent]
    rw [Cluster.addToParent, hparent]
    dsimp only
    split
    next hseen => exact h.addChild honly hseen
    next hseen => exact h.park honly hseen

/-- And at last `u` gets the children that have waited for it. -/
theorem LinkedBut.resolve (h : LinkedBut s u fun _ => True) (hu : s.Seen u) :
    Linked (s.resolve u) := by
  have hmem : ∀ m' ∈ (s.resolve u).tasks, ∃ m ∈ s.tasks, m'.uuid = m.uuid ∧
      m'.parentId = m.parentId ∧ (∀ v ∈ m.children, v ∈ m'.children) ∧
      (m.uuid = u → ∀ v, (u, v) ∈ s.tasksToResolve → v ∈ m'.children) := by
    intro m' hm'
    obtain ⟨m, hm, rfl⟩ := mem_modify.mp hm'
    split
    next =>
      refine ⟨m, hm, rfl, rfl, fun v hv => List.mem_union_right _ hv, fun _ v hv => ?_⟩
      refine List.mem_union_left ?_ _
      exact List.mem_map.mpr ⟨(u, v), List.mem_filter.mpr ⟨hv, by simp⟩, rfl⟩
    next hne => exact ⟨m, hm, rfl, rfl, fun v hv => hv, fun heq => absurd heq hne⟩
  refine ⟨?_, ?_, ?_⟩
  · have huuids : (s.resolve u).tasks.map Member.uuid = s.tasks.map Member.uuid :=
      uuids_modify fun _ => by rfl
    exact huuids ▸ h.nodup
  · intro c hc p hp hq
    obtain ⟨c', hc', hcu, hcp, -⟩ := hmem c hc
    obtain ⟨p', hp', hpu, -, hold, hwaited⟩ := hmem p hp
    rw [hcp, hpu] at hq
    rw [hcu]
    rcases h.linked c' hc' trivial p' hp' hq with hchild | ⟨hpuuid, hwait⟩
    · exact hold _ hchild
    · exact hwaited hpuuid _ hwait
  · intro c hc q hq hunseen
    obtain ⟨c', hc', hcu, hcp, -⟩ := hmem c hc
    rw [hcp] at hq
    have hunseen' : ¬ s.Seen q := fun hseen =>
      hunseen ((seen_modify (fun _ => by rfl) q).mpr hseen)
    have hwait := h.parked c' hc' trivial q hq hunseen'
    rw [hcu]
    refine List.mem_filter.mpr ⟨hwait, ?_⟩
    have hne : q ≠ u := fun heq => hunseen' (heq ▸ hu)
    simpa using hne

/-- **An event keeps every task among the children of its parent.** -/
theorem linked_event [DecidableEq V] (h : Linked s) (u : String) (e : Event V) :
    Linked (s.event u e) := by
  have htouch := linkedBut_touch h u
  have hattrs := htouch.attrs fun attrs => (TaskEvents.event attrs e).1
  have hseen : (s.touch u).Seen u := (seen_touch s u u).mpr (Or.inr rfl)
  have hseen' : ((s.touch u).modify u fun m =>
      { m with attrs := (TaskEvents.event m.attrs e).1 }).Seen u :=
    (seen_modify (fun _ => by rfl) u).mpr hseen
  refine (hattrs.addToParent hseen').resolve ?_
  rw [Cluster.addToParent]
  split
  · exact hseen'
  · split
    · exact (seen_modify (fun _ => by rfl) u).mpr hseen'
    · exact hseen'

end Children

/-! ## Parents -/

/-- **Parent and children views agree**: a task is among the children of its parent, and
the parent is what its `parent` gives. -/
def Agree (s : Cluster V) : Prop :=
  ∀ c ∈ s.tasks, ∀ p ∈ s.tasks, c.parentId = some p.uuid →
    c.uuid ∈ p.children ∧ s.parent c = some p.uuid

instance (s : Cluster V) : Decidable (Agree s) :=
  inferInstanceAs (Decidable (∀ c ∈ s.tasks, ∀ p ∈ s.tasks, c.parentId = some p.uuid →
    c.uuid ∈ p.children ∧ s.parent c = some p.uuid))

section Parents

variable {s : Cluster V} {u : String}

/-- What has been kept of `parent` is right. -/
theorem agree_iff (h : Linked s) :
    Agree s ↔ ∀ c ∈ s.tasks, ∀ found, c.cachedParent = some found →
      ∀ q, c.parentId = some q → s.Seen q → found = some q := by
  constructor
  · rintro hagree c hc found hfound q hq ⟨p, hp, rfl⟩
    have hparent := (hagree c hc p hp hq).2
    rwa [Cluster.parent, hfound] at hparent
  · intro hkept c hc p hp hq
    refine ⟨h.linked c hc p hp hq, ?_⟩
    rw [Cluster.parent]
    cases hfound : c.cachedParent with
    | some found => exact hkept c hc found hfound _ hq ⟨p, hp, rfl⟩
    | none =>
      have hseen : decide (s.Seen p.uuid) = true := decide_eq_true ⟨p, hp, rfl⟩
      rw [Option.getD_none, Cluster.lookup, hq, Option.filter_some, if_pos hseen]

/-- All of a task but its children and its root. -/
def view (m : Member V) : String × Option (Option String) × Fields V :=
  (m.uuid, m.cachedParent, m.attrs)

theorem views_modify {f : Member V → Member V} (hf : ∀ m, view (f m) = view m) :
    (s.modify u f).tasks.map view = s.tasks.map view := by
  rw [Cluster.modify, List.map_map]
  refine List.map_congr_left fun m _ => ?_
  rw [Function.comp_apply]
  split
  · exact hf m
  · rfl

theorem views_addToParent (s : Cluster V) (u : String) :
    (s.addToParent u).tasks.map view = s.tasks.map view := by
  rw [Cluster.addToParent]
  split
  · rfl
  · split
    · exact views_modify fun _ => rfl
    · rfl

theorem mem_touch {m : Member V} :
    m ∈ (s.touch u).tasks ↔ m ∈ s.tasks ∨ ¬ s.Seen u ∧ m = Member.new u := by
  rw [Cluster.touch]
  split
  next hseen => simp [hseen]
  next hnew => simp [hnew]

variable [DecidableEq V]

/-- What an event does to all of a task but its children and its root. -/
def eventView (u : String) (e : Event V) (m : Member V) :
    String × Option (Option String) × Fields V :=
  (m.uuid, m.cachedParent, if m.uuid = u then (TaskEvents.event m.attrs e).1 else m.attrs)

theorem views_event (s : Cluster V) (u : String) (e : Event V) :
    (s.event u e).tasks.map view = (s.touch u).tasks.map (eventView u e) := by
  have hresolve : ∀ t : Cluster V, (t.resolve u).tasks.map view = t.tasks.map view :=
    fun t => views_modify fun _ => rfl
  rw [Cluster.event, hresolve, views_addToParent, Cluster.modify, List.map_map]
  refine List.map_congr_left fun m _ => ?_
  rw [Function.comp_apply, eventView]
  split
  · rfl
  · rfl

/-- The parent id of a task after an event. -/
def parentAfter (u : String) (e : Event V) (m : Member V) : Option String :=
  idOf "parent_id" (eventView u e m).2.2

/-- **An event comes in time**: where `parent` has been read of a task, it was the task
that is the parent after the event, if that one has been seen then. -/
def Timely (s : Cluster V) : Action V → Prop
  | .event u e => ∀ m ∈ s.tasks, ∀ found, m.cachedParent = some found →
      ∀ q, parentAfter u e m = some q → s.Seen q ∨ q = u → found = some q
  | _ => True

theorem seen_event (s : Cluster V) (u : String) (e : Event V) (q : String) :
    (s.event u e).Seen q ↔ s.Seen q ∨ q = u := by
  have huuids : (s.event u e).tasks.map Member.uuid = (s.touch u).tasks.map Member.uuid := by
    have hviews := congrArg (List.map Prod.fst) (views_event s u e)
    rwa [List.map_map, List.map_map] at hviews
  rw [seen_iff, huuids, ← seen_iff, seen_touch]

theorem agree_event_iff (h : Linked s) (u : String) (e : Event V) :
    Agree (s.event u e) ↔ Timely s (.event u e) := by
  rw [agree_iff (linked_event h u e)]
  constructor
  · intro hkept m hm found hfound q hq hseen
    have hmem : eventView u e m ∈ (s.event u e).tasks.map view := by
      rw [views_event]
      exact List.mem_map_of_mem (mem_touch.mpr (Or.inl hm))
    obtain ⟨m', hm', heq⟩ := List.mem_map.mp hmem
    obtain ⟨-, hcached, hattrs⟩ : _ ∧ m'.cachedParent = m.cachedParent ∧ m'.attrs = _ := by
      simpa [view, eventView] using heq
    refine hkept m' hm' found (hcached.trans hfound) q ?_ ((seen_event s u e q).mpr hseen)
    rw [Member.parentId, hattrs]
    exact hq
  · intro htimely m' hm' found hfound q hq hseen
    have hmem : view m' ∈ (s.touch u).tasks.map (eventView u e) := by
      rw [← views_event]
      exact List.mem_map_of_mem hm'
    obtain ⟨m, hm, heq⟩ := List.mem_map.mp hmem
    obtain ⟨-, hcached, hattrs⟩ : _ ∧ m.cachedParent = m'.cachedParent ∧ _ = m'.attrs := by
      simpa [view, eventView] using heq
    rcases mem_touch.mp hm with hm | ⟨-, rfl⟩
    · refine htimely m hm found (hcached.trans hfound) q ?_ ((seen_event s u e q).mp hseen)
      rw [Member.parentId, ← hattrs] at hq
      exact hq
    · rw [← hcached] at hfound
      cases hfound

omit [DecidableEq V] in
/-- Reading keeps children and parents as they are. -/
theorem linked_modify (h : Linked s) {f : Member V → Member V} (huuid : ∀ m, (f m).uuid = m.uuid)
    (hparent : ∀ m, (f m).parentId = m.parentId) (hchildren : ∀ m, (f m).children = m.children) :
    Linked (s.modify u f) := by
  have hmem : ∀ m' ∈ (s.modify u f).tasks, ∃ m ∈ s.tasks, m'.uuid = m.uuid ∧
      m'.parentId = m.parentId ∧ m'.children = m.children := by
    intro m' hm'
    obtain ⟨m, hm, rfl⟩ := mem_modify.mp hm'
    split
    · exact ⟨m, hm, huuid m, hparent m, hchildren m⟩
    · exact ⟨m, hm, rfl, rfl, rfl⟩
  refine ⟨?_, ?_, ?_⟩
  · rw [uuids_modify huuid]
    exact h.nodup
  · intro c hc p hp hq
    obtain ⟨c', hc', hcu, hcp, -⟩ := hmem c hc
    obtain ⟨p', hp', hpu, -, hpc⟩ := hmem p hp
    rw [hcp, hpu] at hq
    rw [hcu, hpc]
    exact h.linked c' hc' p' hp' hq
  · intro c hc q hq hunseen
    obtain ⟨c', hc', hcu, hcp, -⟩ := hmem c hc
    rw [hcp] at hq
    rw [seen_modify huuid] at hunseen
    rw [hcu]
    exact h.parked c' hc' q hq hunseen

omit [DecidableEq V] in
theorem linked_readParent (h : Linked s) (u : String) : Linked (s.readParent u) :=
  linked_modify h (fun _ => by rfl) (fun _ => by rfl) fun _ => by rfl

omit [DecidableEq V] in
theorem linked_readRoot (h : Linked s) (u : String) : Linked (s.readRoot u) :=
  linked_modify h (fun _ => by rfl) (fun _ => by rfl) fun _ => by rfl

omit [DecidableEq V] in
theorem agree_readParent (h : Linked s) (hagree : Agree s) (u : String) :
    Agree (s.readParent u) := by
  refine (agree_iff (linked_readParent h u)).mpr ?_
  intro c' hc' found hfound q hq hseen
  have hseen' : s.Seen q := (seen_modify (fun _ => by rfl) q).mp hseen
  obtain ⟨c, hc, rfl⟩ := mem_modify.mp hc'
  split at hfound
  next huuid =>
    rw [if_pos huuid] at hq
    obtain ⟨p, hp, rfl⟩ := hseen'
    have hparent := (hagree c hc p hp hq).2
    exact (Option.some_inj.mp hfound).symm.trans hparent
  next huuid =>
    rw [if_neg huuid] at hq
    exact (agree_iff h).mp hagree c hc found hfound q hq hseen'

omit [DecidableEq V] in
theorem agree_readRoot (h : Linked s) (hagree : Agree s) (u : String) :
    Agree (s.readRoot u) := by
  refine (agree_iff (linked_readRoot h u)).mpr ?_
  intro c' hc' found hfound q hq hseen
  have hseen' : s.Seen q := (seen_modify (fun _ => by rfl) q).mp hseen
  obtain ⟨c, hc, rfl⟩ := mem_modify.mp hc'
  refine (agree_iff h).mp hagree c hc found ?_ q ?_ hseen'
  · split at hfound
    · exact hfound
    · exact hfound
  · split at hq
    · exact hq
    · exact hq

theorem linked_step (h : Linked s) (a : Action V) : Linked (s.step a) := by
  cases a with
  | event u e => exact linked_event h u e
  | readParent u => exact linked_readParent h u
  | readRoot u => exact linked_readRoot h u
  | asDict u => exact linked_readParent (linked_readRoot h u) u

theorem agree_step_iff (h : Linked s) (hagree : Agree s) (a : Action V) :
    Agree (s.step a) ↔ Timely s a := by
  cases a with
  | event u e => exact agree_event_iff h u e
  | readParent u => exact iff_of_true (agree_readParent h hagree u) trivial
  | readRoot u => exact iff_of_true (agree_readRoot h hagree u) trivial
  | asDict u =>
    have hroot := agree_readRoot h hagree u
    exact iff_of_true (agree_readParent (linked_readRoot h u) hroot u) trivial

/-- A new state after some actions. -/
def Cluster.after (as : List (Action V)) : Cluster V := as.foldl Cluster.step .empty

theorem linked_after (as : List (Action V)) : Linked (Cluster.after as) := by
  induction as using List.reverseRecOn with
  | nil => exact linked_empty
  | append_singleton as a ih =>
    rw [Cluster.after, List.foldl_concat]
    exact linked_step ih a

/-- **When parent and children views agree.**  Whatever events come and whatever is read
in between, the views agree in all states of a run if and only if every event comes in
time. -/
theorem family_agrees_iff (as : List (Action V)) :
    (∀ as₁ as₂, as = as₁ ++ as₂ → Agree (Cluster.after as₁)) ↔
      ∀ as₁ a as₂, as = as₁ ++ a :: as₂ → Timely (Cluster.after as₁) a :=
  Transition.Run.foldl_invariant_iff
    (fun as a hagree => agree_step_iff (linked_after as) hagree a)
    (fun _ hc => absurd hc List.not_mem_nil) as

/-- A task is seen, and its dict is asked for, before its parent is seen. -/
def readEarly : List (Action ℕ) :=
  [.event "child" ⟨"received", .other 1, [("parent_id", .str "parent")]⟩, .asDict "child",
    .event "parent" ⟨"received", .other 2, [("name", .str "tasks.add")]⟩]

/-- **A task that was read early has no parent**, though it is among the children. -/
theorem readEarly_not_agree :
    (Cluster.after readEarly).tasks.map
        (fun m => (m.uuid, m.children, (Cluster.after readEarly).parent m)) =
      [("child", [], none), ("parent", ["child"], none)] ∧
      ¬ Agree (Cluster.after readEarly) := by
  decide

end Parents

end Family
end Celery
