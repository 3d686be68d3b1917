/-
# `celery/backends/asynchronous.py`: `join_native` over results that are waited for

`iter_native` of `AsyncBackendMixin` (lines 233-260) with what it stands on: `on_state_change`
(429-451), `_wait_for_pending` (399-413), `on_wait_for_pending` of `celery/backends/redis.py`
(lines 209-212), and what `AsyncResult` and `GroupResult` do as they become ready
(`celery/result.py`, lines 119-121, 263-310, 944-946).

A set is waited for until its barrier is full.  Before it waits, `get_many` is asked for its
members, and a meta goes to the object that is registered for its id, and to no other.  So a member
that is another object with the same id is never ready, and `join_native` does not return, while
`get` of that member asks the backend itself.  The groups in a set become ready as their members are
asked one by one.  The barrier of an empty group is finalized by its own `iter_native` only, and
`iter_native` of an empty set raises `StopIteration`, which a generator may not.

`joinNative_eq_join_iff` is when `join_native` agrees with `join` for both mixins.
-/

import Celery.Results.Join
import Mathlib.Logic.Function.Basic

namespace Celery
namespace Join

variable {ι A : Type}

/-! ## Results that become ready -/

namespace Node

mutual

/-- `on_ready` of a member has fired, where the objects in `cached` have their meta. -/
def ready (cached : AsyncResult ι → Bool) : Node ι → Bool
  | task result => cached result
  | group _ results => !results.isEmpty && allReady cached results

def allReady (cached : AsyncResult ι → Bool) : List (Node ι) → Bool
  | [] => true
  | m :: ms => ready cached m && allReady cached ms

end

mutual

/-- The tasks of a member, those in its groups too. -/
def tasks : Node ι → List (AsyncResult ι)
  | task result => [result]
  | group _ results => allTasks results

def allTasks : List (Node ι) → List (AsyncResult ι)
  | [] => []
  | m :: ms => tasks m ++ allTasks ms

end

mutual

/-- The ids of the groups of a member. -/
def groupIds : Node ι → List ι
  | task _ => []
  | group id results => id :: allGroupIds results

def allGroupIds : List (Node ι) → List ι
  | [] => []
  | m :: ms => groupIds m ++ allGroupIds ms

end

mutual

/-- No group of a member is empty. -/
def Filled : Node ι → Prop
  | task _ => True
  | group _ results => results ≠ [] ∧ AllFilled results

def AllFilled : List (Node ι) → Prop
  | [] => True
  | m :: ms => Filled m ∧ AllFilled ms

end

theorem allReady_iff {cached : AsyncResult ι → Bool} {ms : List (Node ι)} :
    allReady cached ms = true ↔ ∀ m ∈ ms, ready cached m = true := by
  induction ms with
  | nil => simp [allReady]
  | cons m ms ih => rw [allReady, Bool.and_eq_true, ih, List.forall_mem_cons]

theorem mem_allTasks_iff {result : AsyncResult ι} {ms : List (Node ι)} :
    result ∈ allTasks ms ↔ ∃ m ∈ ms, result ∈ tasks m := by
  induction ms with
  | nil => simp [allTasks]
  | cons m ms ih => simp [allTasks, ih]

theorem mem_allGroupIds_iff {id : ι} {ms : List (Node ι)} :
    id ∈ allGroupIds ms ↔ ∃ m ∈ ms, id ∈ groupIds m := by
  induction ms with
  | nil => simp [allGroupIds]
  | cons m ms ih => simp [allGroupIds, ih]

theorem allFilled_iff {ms : List (Node ι)} : AllFilled ms ↔ ∀ m ∈ ms, Filled m := by
  induction ms with
  | nil => simp [AllFilled]
  | cons m ms ih => rw [AllFilled, ih, List.forall_mem_cons]

mutual

/-- Without empty groups, a member is ready where all its tasks are. -/
theorem ready_of_cached {cached : AsyncResult ι → Bool} : ∀ m : Node ι, Filled m →
    (∀ result ∈ tasks m, cached result = true) → ready cached m = true
  | task result, _, h => h result (.head _)
  | group _ results, hfilled, h => by
    rw [Filled] at hfilled
    rw [tasks] at h
    rw [ready, allReady_of_cached results hfilled.2 h, Bool.and_true, Bool.not_eq_true',
      List.isEmpty_eq_false_iff]
    exact hfilled.1

theorem allReady_of_cached {cached : AsyncResult ι → Bool} : ∀ ms : List (Node ι), AllFilled ms →
    (∀ result ∈ allTasks ms, cached result = true) → allReady cached ms = true
  | [], _, _ => rfl
  | m :: ms, hfilled, h => by
    rw [AllFilled] at hfilled
    rw [allTasks, List.forall_mem_append] at h
    rw [allReady, ready_of_cached m hfilled.1 h.1, allReady_of_cached ms hfilled.2 h.2,
      Bool.and_true]

end

mutual

/-- A member with an empty group is never ready. -/
theorem filled_of_ready {cached : AsyncResult ι → Bool} : ∀ m : Node ι, ready cached m = true →
    Filled m
  | task _, _ => trivial
  | group _ results, h => by
    rw [ready, Bool.and_eq_true, Bool.not_eq_true', List.isEmpty_eq_false_iff] at h
    rw [Filled]
    exact ⟨h.1, allFilled_of_allReady results h.2⟩

theorem allFilled_of_allReady {cached : AsyncResult ι → Bool} : ∀ ms : List (Node ι),
    allReady cached ms = true → AllFilled ms
  | [], _ => trivial
  | m :: ms, h => by
    rw [allReady, Bool.and_eq_true] at h
    rw [AllFilled]
    exact ⟨filled_of_ready m h.1, allFilled_of_allReady ms h.2⟩

end

end Node

variable [DecidableEq ι]

/-- The client: the objects with a meta in `_cache`, those in `_pending_results`, each under its id,
and the `GroupResult` objects there are. -/
structure Client (ι : Type) where
  cached : AsyncResult ι → Bool
  pending : ι → Option (AsyncResult ι)
  groups : List (Node ι)
  keyed : ∀ id result, pending id = some result → result.id = id

namespace Client

variable (s : Client ι)

/-- The groups that become ready where `cached` becomes larger. -/
def fired (cached : AsyncResult ι → Bool) : List ι :=
  (s.groups.filter fun g => g.ready cached && !g.ready s.cached).map Node.id

/-- `_maybe_set_cache` with a final meta.  `on_ready` of the result, and of each group that it makes
ready, calls `remove_pending_result`. -/
def setCache (result : AsyncResult ι) : Client ι where
  cached := Function.update s.cached result true
  pending id :=
    if id = result.id ∨ id ∈ s.fired (Function.update s.cached result true) then none
    else s.pending id
  groups := s.groups
  keyed id r h := by
    split at h
    · cases h
    · exact s.keyed id r h

/-- `on_state_change`, with the final meta of a task. -/
def onStateChange (taskId : ι) : Client ι :=
  match s.pending taskId with
  | none => s
  | some result => s.setCache result

/-- `get` of an `AsyncResult`, which asks the backend unless it has its meta. -/
def getTaskMeta (result : AsyncResult ι) : Client ι :=
  if s.cached result then s else s.setCache result

/-- `on_wait_for_pending`, with the ids in the order in which `get_many` yields them. -/
def poll (ids : List ι) : Client ι := ids.foldl onStateChange s

/-- The ids whose results are put into the bucket meanwhile, where those in `collected` have one. -/
def arrived (collected : List ι) (s : Client ι) : List ι → List ι
  | [] => []
  | id :: ids =>
    if (s.pending id).isSome ∧ id ∈ collected then
      id :: arrived collected (s.onStateChange id) ids
    else arrived collected (s.onStateChange id) ids

end Client

namespace Backend

variable (b : Backend ι A)

/-- `on_wait_for_pending` asks for all members. -/
def asked (results : List (Node ι)) : List ι := b.getMany (results.map Node.id).dedup

/-- The ids of the tasks that `iter_native` collects: those without a `_cache`. -/
def collected (s : Client ι) (results : List (Node ι)) : List ι :=
  (results.filter fun m => !m.ready s.cached).filterMap Node.taskId?

/-- The items that come for the tasks of a set. -/
def arrivedItems (s : Client ι) (results : List (Node ι)) : List (ι × Value A) :=
  (s.arrived (collected s results) (b.asked results)).map fun id => (id, b.value id)

/-- `join_native`, from what the bucket has at first, and the client after that has been yielded;
`none` if it raises a `RuntimeError` or never returns. -/
def gathered (s : Client ι) (results : List (Node ι))
    (taken : Option (List (ι × Value A) × Client ι)) : Option (List (Value A) × Client ι) :=
  if results.isEmpty then none
  else taken.bind fun yielded =>
    if Node.allReady yielded.2.cached results then
      some (gather (results.map Node.id) (yielded.1 ++ b.arrivedItems s results), yielded.2)
    else none

mutual

/-- `get`, with the client after it. -/
def getFrom (s : Client ι) : Node ι → Option (Value A × Client ι)
  | .task result => some (b.value result.id, s.getTaskMeta result)
  | .group _ results =>
    if b.supportsSet results then
      (b.gathered s results (takeFrom s.cached (s.poll (b.asked results)) results)).map
        fun joined => (.list joined.1, joined.2)
    else (joinFrom s results).map fun joined => (.list joined.1, joined.2)

/-- `join`, with the client after it. -/
def joinFrom (s : Client ι) : List (Node ι) → Option (List (Value A) × Client ι)
  | [] => some ([], s)
  | result :: results =>
    (getFrom s result).bind fun value =>
      (joinFrom value.2 results).map fun values => (value.1 :: values.1, values.2)

/-- What the bucket has at first: the groups, whose members are asked one by one, and the tasks that
had their meta. -/
def takeFrom (cached : AsyncResult ι → Bool) (s : Client ι) :
    List (Node ι) → Option (List (ι × Value A) × Client ι)
  | [] => some ([], s)
  | .task result :: results =>
    (takeFrom cached s results).map fun items =>
      (if cached result then (result.id, b.value result.id) :: items.1 else items.1, items.2)
  | .group id children :: results =>
    (joinFrom s children).bind fun values =>
      (takeFrom cached values.2 results).map fun items =>
        ((id, .list values.1) :: items.1, items.2)

end

/-- `join_native` over the `iter_native` of `AsyncBackendMixin`, with the client after it. -/
def joinNativeFrom (s : Client ι) (results : List (Node ι)) :
    Option (List (Value A) × Client ι) :=
  b.gathered s results (b.takeFrom s.cached (s.poll (b.asked results)) results)

/-- **`join`**; `none` if it does not return. -/
def join? (s : Client ι) (results : List (Node ι)) : Option (List (Value A)) :=
  if b.isAsync then (b.joinFrom s results).map Prod.fst else some (b.join results)

/-- **`join_native`** without a callback; `none` if it raises or does not return. -/
def joinNative? (s : Client ι) (results : List (Node ι)) : Option (List (Value A)) :=
  if b.isAsync then (b.joinNativeFrom s results).map Prod.fst else some (b.joined results)

end Backend

/-! ## Sets that support native joins -/

namespace Backend

variable {b : Backend ι A}

omit [DecidableEq ι] in
/-- Without empty groups, all members support native joins if the backend does. -/
theorem supports_of_filled (hnative : b.supportsNativeJoin = true) :
    ∀ m : Node ι, m.Filled → b.supports m = true
  | .task _, _ => hnative
  | .group _ [], h => by
    rw [Node.Filled] at h
    exact absurd rfl h.1
  | .group _ (m :: _), h => by
    rw [Node.Filled, Node.AllFilled] at h
    rw [supports, supportsSet]
    exact supports_of_filled hnative m h.2.1

omit [DecidableEq ι] in
theorem supportsSet_of_filled (hnative : b.supportsNativeJoin = true) {results : List (Node ι)}
    (hne : results ≠ []) (hfilled : ∀ m ∈ results, m.Filled) : b.supportsSet results = true := by
  cases results with
  | nil => exact absurd rfl hne
  | cons m results => exact supports_of_filled hnative m (hfilled m (.head _))

theorem mem_asked {m : Node ι} {results : List (Node ι)} (h : m ∈ results) :
    m.id ∈ b.asked results :=
  (b.getMany_perm _ (List.nodup_dedup _)).mem_iff.mpr
    (List.mem_dedup.mpr (List.mem_map_of_mem h))

end Backend

/-! ## The client -/

namespace Client

variable {s t u : Client ι} {T : List (AsyncResult ι)}

/-- What has its meta keeps it. -/
structure Grows (s t : Client ι) : Prop where
  groups : t.groups = s.groups
  cached : ∀ result, s.cached result = true → t.cached result = true

omit [DecidableEq ι] in
theorem Grows.refl (s : Client ι) : Grows s s := ⟨rfl, fun _ h => h⟩

omit [DecidableEq ι] in
theorem Grows.trans (h : Grows s t) (h' : Grows t u) : Grows s u :=
  ⟨h'.groups.trans h.groups, fun result hcached => h'.cached result (h.cached result hcached)⟩

theorem cached_setCache (s : Client ι) (result : AsyncResult ι) :
    (s.setCache result).cached result = true := Function.update_self ..

theorem grows_setCache (s : Client ι) (result : AsyncResult ι) : Grows s (s.setCache result) := by
  refine ⟨rfl, fun r h => ?_⟩
  by_cases heq : r = result
  · rw [heq]
    exact s.cached_setCache result
  · exact (Function.update_of_ne heq ..).trans h

theorem grows_onStateChange (s : Client ι) (id : ι) : Grows s (s.onStateChange id) := by
  rw [onStateChange]
  split
  · exact .refl s
  · exact s.grows_setCache _

theorem grows_getTaskMeta (s : Client ι) (result : AsyncResult ι) :
    Grows s (s.getTaskMeta result) := by
  rw [getTaskMeta]
  split
  · exact .refl s
  · exact s.grows_setCache result

theorem grows_poll (s : Client ι) (ids : List ι) : Grows s (s.poll ids) := by
  induction ids generalizing s with
  | nil => exact .refl s
  | cons id ids ih => exact (s.grows_onStateChange id).trans (ih _)

theorem cached_getTaskMeta (s : Client ι) (result : AsyncResult ι) :
    (s.getTaskMeta result).cached result = true := by
  rw [getTaskMeta]
  split
  · assumption
  · exact s.cached_setCache result

/-- An object is registered after a call only if it was before. -/
theorem pending_setCache {result r : AsyncResult ι} {id : ι}
    (h : (s.setCache result).pending id = some r) : s.pending id = some r := by
  rw [setCache] at h
  dsimp only at h
  split at h
  · cases h
  · exact h

/-! ### Tasks that are known -/

/-- Each of some tasks has its meta, or is the object that is registered for its id, and no group
has its id. -/
structure Known (T : List (AsyncResult ι)) (s : Client ι) : Prop where
  known : ∀ result ∈ T, s.cached result = true ∨ s.pending result.id = some result
  apart : ∀ result ∈ T, result.id ∉ s.groups.map Node.id

/-- **A registered object that gets its meta** takes no other task's registration away. -/
theorem Known.setCache (h : Known T s) {result : AsyncResult ι}
    (hpending : s.pending result.id = some result) : Known T (s.setCache result) := by
  refine ⟨fun r hr => ?_, h.apart⟩
  rcases h.known r hr with hcached | hregistered
  · exact .inl ((s.grows_setCache result).cached r hcached)
  · by_cases hid : r.id = result.id
    · rw [hid, hpending] at hregistered
      obtain rfl := Option.some.inj hregistered
      exact .inl (s.cached_setCache result)
    · refine .inr ((if_neg (not_or.mpr ⟨hid, fun hfired => ?_⟩)).trans hregistered)
      obtain ⟨g, hg, heq⟩ := List.mem_map.mp hfired
      exact h.apart r hr (List.mem_map.mpr ⟨g, (List.mem_filter.mp hg).1, heq⟩)

theorem Known.onStateChange (h : Known T s) (id : ι) : Known T (s.onStateChange id) := by
  rw [Client.onStateChange]
  split
  · exact h
  next result hpending => exact h.setCache ((s.keyed id result hpending).symm ▸ hpending)

theorem Known.getTaskMeta (h : Known T s) {result : AsyncResult ι} (hr : result ∈ T) :
    Known T (s.getTaskMeta result) := by
  rw [Client.getTaskMeta]
  split
  · exact h
  next hcached => exact h.setCache ((h.known result hr).resolve_left hcached)

theorem Known.poll (h : Known T s) (ids : List ι) : Known T (s.poll ids) := by
  induction ids generalizing s with
  | nil => exact h
  | cons id ids ih => exact ih (h.onStateChange id)

/-- **What is asked for is ready** before the wait begins. -/
theorem Known.cached_poll (h : Known T s) {result : AsyncResult ι} (hr : result ∈ T) {ids : List ι}
    (hid : result.id ∈ ids) : (s.poll ids).cached result = true := by
  induction ids generalizing s with
  | nil => cases hid
  | cons id ids ih =>
    rcases List.mem_cons.mp hid with rfl | hid
    · refine ((s.onStateChange result.id).grows_poll ids).cached result ?_
      rcases h.known result hr with hcached | hpending
      · exact (s.grows_onStateChange _).cached result hcached
      · rw [Client.onStateChange, hpending]
        exact s.cached_setCache result
    · exact ih (h.onStateChange id) hid

/-- A registered object without its meta comes into the bucket. -/
theorem Known.mem_arrived (h : Known T s) {result : AsyncResult ι} (hr : result ∈ T)
    (hnot : s.cached result = false) {ids collected : List ι} (hid : result.id ∈ ids)
    (hcollected : result.id ∈ collected) : result.id ∈ arrived collected s ids := by
  induction ids generalizing s with
  | nil => cases hid
  | cons id ids ih =>
    rw [arrived]
    by_cases heq : result.id = id
    · have hpending := (h.known result hr).resolve_left (ne_true_of_eq_false hnot)
      rw [if_pos ⟨by rw [← heq, hpending]; rfl, heq ▸ hcollected⟩, heq]
      exact .head _
    · have hstill : (s.onStateChange id).cached result = false := by
        rw [Client.onStateChange]
        split
        · exact hnot
        next other hpending =>
          refine (Function.update_of_ne ?_ ..).trans hnot
          rintro rfl
          exact heq (s.keyed id _ hpending)
      have htail := ih (h.onStateChange id) hstill ((List.mem_cons.mp hid).resolve_left heq)
      split
      · exact .tail _ htail
      · exact htail

theorem mem_of_mem_arrived {id : ι} {ids collected : List ι}
    (h : id ∈ arrived collected s ids) : id ∈ collected := by
  induction ids generalizing s with
  | nil => cases h
  | cons x ids ih =>
    rw [arrived] at h
    split at h
    next hx =>
      rcases List.mem_cons.mp h with rfl | h
      · exact hx.2
      · exact ih h
    · exact ih h

end Client

/-! ## What comes for an id -/

/-- Where all that is put for an id is one value, that is put last. -/
theorem written_of_forall {items : List (ι × Value A)} {id : ι} {value : Value A}
    (hmem : id ∈ items.map Prod.fst) (h : ∀ item ∈ items, item.1 = id → item.2 = value) :
    written items id = value := by
  induction items using List.reverseRecOn with
  | nil => cases hmem
  | append_singleton items item ih =>
    rw [written_snoc]
    split
    next hid => exact h item (List.mem_append_right _ (.head _)) hid
    next hid =>
      rw [List.map_append, List.mem_append] at hmem
      refine ih (hmem.resolve_right fun hlast => hid (List.mem_singleton.mp hlast).symm) ?_
      exact fun other hother => h other (List.mem_append_left _ hother)

/-- Items for other ids make no difference. -/
theorem written_filter (items : List (ι × Value A)) (id : ι) :
    written (items.filter fun item => item.1 = id) id = written items id := by
  induction items using List.reverseRecOn with
  | nil => rfl
  | append_singleton items item ih =>
    rw [List.filter_append, written_snoc]
    by_cases hid : item.1 = id
    · rw [if_pos hid, List.filter_cons_of_pos (by simpa using hid), List.filter_nil, written_snoc,
        if_pos hid]
    · rw [if_neg hid, List.filter_cons_of_neg (by simpa using hid), List.filter_nil,
        List.append_nil, ih]

theorem place_congr {items items' : List (ι × Value A)} {ids : List ι}
    (h : ∀ id ∈ ids, written items id = written items' id) :
    place items ids = place items' ids := by
  induction ids with
  | nil => rfl
  | cons id ids ih =>
    rw [place, place, h id (.head _), ih fun x hx => h x (.tail _ hx)]

namespace Backend

variable {b : Backend ι A} {s : Client ι} {T : List (AsyncResult ι)} {results : List (Node ι)}

/-- What the bucket has at first, with the values that the members have. -/
def taken (b : Backend ι A) (cached : AsyncResult ι → Bool) :
    List (Node ι) → List (ι × Value A)
  | [] => []
  | .task result :: results =>
    if cached result then (result.id, b.value result.id) :: taken b cached results
    else taken b cached results
  | .group id children :: results => (id, .list (b.join children)) :: taken b cached results

theorem mem_taken {cached : AsyncResult ι → Bool} {item : ι × Value A}
    (h : item ∈ b.taken cached results) :
    (∃ result, Node.task result ∈ results ∧ item = (result.id, b.value result.id)) ∨
      ∃ id children, Node.group id children ∈ results ∧ item.1 = id := by
  induction results with
  | nil => cases h
  | cons m results ih =>
    have htail : item ∈ b.taken cached results →
        (∃ result, Node.task result ∈ m :: results ∧ item = (result.id, b.value result.id)) ∨
          ∃ id children, Node.group id children ∈ m :: results ∧ item.1 = id := fun h =>
      (ih h).imp (fun ⟨r, hr, heq⟩ => ⟨r, .tail _ hr, heq⟩)
        fun ⟨id, children, hg, heq⟩ => ⟨id, children, .tail _ hg, heq⟩
    cases m with
    | task result =>
      rw [taken] at h
      split at h
      · rcases List.mem_cons.mp h with rfl | h
        · exact .inl ⟨result, .head _, rfl⟩
        · exact htail h
      · exact htail h
    | group id children =>
      rw [taken] at h
      rcases List.mem_cons.mp h with rfl | h
      · exact .inr ⟨id, children, .head _, rfl⟩
      · exact htail h

theorem mem_taken_of_cached {cached : AsyncResult ι → Bool} {result : AsyncResult ι}
    (hmem : .task result ∈ results) (hcached : cached result = true) :
    (result.id, b.value result.id) ∈ b.taken cached results := by
  induction results with
  | nil => cases hmem
  | cons m results ih =>
    rcases List.mem_cons.mp hmem with rfl | hrest
    · rw [taken, if_pos hcached]
      exact .head _
    · cases m with
      | task other =>
        rw [taken]
        split
        · exact .tail _ (ih hrest)
        · exact ih hrest
      | group id children =>
        rw [taken]
        exact .tail _ (ih hrest)

/-- For an id that no task has, the bucket has what the other mixin yields first. -/
theorem filter_taken {cached : AsyncResult ι → Bool} {id : ι}
    (h : ∀ result, Node.task result ∈ results → result.id ≠ id) :
    (b.taken cached results).filter (fun item => item.1 = id) =
      (b.immediate results).filter fun item => item.1 = id := by
  induction results with
  | nil => rfl
  | cons m results ih =>
    have htail := ih fun result hmem => h result (.tail _ hmem)
    cases m with
    | task result =>
      rw [taken, immediate, ← htail]
      split
      · exact List.filter_cons_of_neg (by simpa using h result (.head _))
      · rfl
    | group x children =>
      rw [taken, immediate, List.filter_cons, List.filter_cons, htail]

/-- The members of a set fit: their tasks are among `T`, the ids of their groups are no ids of
these, and no group is empty. -/
structure Fit (T : List (AsyncResult ι)) (m : Node ι) : Prop where
  tasks : ∀ result ∈ m.tasks, result ∈ T
  apart : ∀ result ∈ T, result.id ∉ m.groupIds
  filled : m.Filled

omit [DecidableEq ι] in
theorem Fit.of_group {id : ι} {children : List (Node ι)} (h : Fit T (.group id children)) :
    children ≠ [] ∧ (∀ result ∈ T, result.id ≠ id) ∧ ∀ m ∈ children, Fit T m := by
  have hfilled := h.filled
  rw [Node.Filled] at hfilled
  refine ⟨hfilled.1, fun result hr heq => h.apart result hr ?_, fun m hm => ⟨?_, ?_, ?_⟩⟩
  · rw [Node.groupIds, heq]
    exact .head _
  · intro result hr
    refine h.tasks result ?_
    rw [Node.tasks]
    exact Node.mem_allTasks_iff.mpr ⟨m, hm, hr⟩
  · intro result hr hmem
    refine h.apart result hr ?_
    rw [Node.groupIds]
    exact .tail _ (Node.mem_allGroupIds_iff.mpr ⟨m, hm, hmem⟩)
  · exact Node.allFilled_iff.mp hfilled.2 m hm

/-- **What comes from the bucket** is what the other mixin puts into its place. -/
theorem gather_taken (hknown : s.Known T) (hfit : ∀ m ∈ results, Fit T m) :
    gather (results.map Node.id) (b.taken s.cached results ++ b.arrivedItems s results) =
      b.joined results := by
  rw [joined, gather_eq, gather_eq]
  have hgroup : ∀ id children, Node.group id children ∈ results →
      ∀ result, Node.task result ∈ results → result.id ≠ id := by
    intro id children hg result hr
    refine (hfit _ hg).of_group.2.1 result ((hfit _ hr).tasks result ?_)
    exact .head _
  refine place_congr fun id hid => ?_
  by_cases htask : ∃ result, Node.task result ∈ results ∧ result.id = id
  · obtain ⟨result, hmem, rfl⟩ := htask
    rw [written_task hmem]
    by_cases harrived : result.id ∈ s.arrived (collected s results) (b.asked results)
    · exact written_append_map _ harrived b.value
    · have hitems : result.id ∉ (b.arrivedItems s results).map Prod.fst := by
        rw [arrivedItems, List.map_map]
        exact fun h => harrived (by simpa using h)
      have hcached : s.cached result = true := by
        by_contra hnot
        refine harrived (hknown.mem_arrived ((hfit _ hmem).tasks result (.head _))
          (Bool.eq_false_iff.mpr hnot) (mem_asked hmem) ?_)
        refine List.mem_filterMap.mpr ⟨_, List.mem_filter.mpr ⟨hmem, ?_⟩, rfl⟩
        rw [Node.ready, Bool.eq_false_iff.mpr hnot]
        rfl
      rw [written_append_of_not_mem hitems]
      refine written_of_forall
        (List.mem_map_of_mem (f := Prod.fst) (mem_taken_of_cached hmem hcached)) ?_
      intro item hitem heq
      rcases mem_taken hitem with ⟨other, -, rfl⟩ | ⟨x, children, hg, rfl⟩
      · exact congrArg b.value heq
      · exact absurd heq.symm (hgroup _ _ hg result hmem)
  · have hnone : ∀ result, Node.task result ∈ results → result.id ≠ id :=
      fun result hmem heq => htask ⟨result, hmem, heq⟩
    have harrived : id ∉ (b.arrivedItems s results).map Prod.fst := by
      intro h
      rw [arrivedItems, List.map_map] at h
      have hcollected := Client.mem_of_mem_arrived (by simpa using h)
      obtain ⟨m, hm, hmid⟩ := List.mem_filterMap.mp hcollected
      cases m with
      | task result =>
        exact hnone result (List.mem_filter.mp hm).1 (Option.some_inj.mp hmid)
      | group => cases hmid
    have harrives : id ∉ (b.arrivalItems results).map Prod.fst := by
      intro h
      rw [arrivalItems, List.map_map] at h
      obtain ⟨result, hmem, heq⟩ := mem_arrivals_iff.mp (by simpa using h)
      exact hnone result hmem heq
    rw [written_append_of_not_mem harrived, written_append_of_not_mem harrives,
      ← written_filter, filter_taken hnone, written_filter]

/-! ## Where everything that is waited for is known -/

/-- What a call leaves, where it leaves `T` known. -/
structure Leaves (T : List (AsyncResult ι)) (s t : Client ι) : Prop where
  known : t.Known T
  grows : s.Grows t

omit [DecidableEq ι] in
theorem Leaves.trans {t u : Client ι} (h : Leaves T s t) (h' : Leaves T t u) : Leaves T s u :=
  ⟨h'.known, h.grows.trans h'.grows⟩

theorem gathered_eq_some {taken : Option (List (ι × Value A) × Client ι)}
    {joined : List (Value A) × Client ι} (h : b.gathered s results taken = some joined) :
    ∃ yielded, taken = some yielded ∧ yielded.2 = joined.2 := by
  rw [gathered] at h
  split at h
  · cases h
  · obtain ⟨yielded, htaken, h⟩ := Option.bind_eq_some_iff.mp h
    split at h
    · obtain rfl := Option.some.inj h
      exact ⟨yielded, htaken, rfl⟩
    · cases h

/-- **A wait ends**, once what has been asked for is ready, and the members of the groups are. -/
theorem gathered_eq {t : Client ι} (hne : results ≠ []) (hknown : s.Known T)
    (hfit : ∀ m ∈ results, Fit T m) (hleaves : Leaves T (s.poll (b.asked results)) t)
    (hgroups : ∀ id children, .group id children ∈ results →
      ∀ result ∈ (Node.group id children).tasks, t.cached result = true) :
    b.gathered s results (some (b.taken s.cached results, t)) = some (b.joined results, t) ∧
      ∀ m ∈ results, ∀ result ∈ m.tasks, t.cached result = true := by
  have hready : ∀ m ∈ results, ∀ result ∈ m.tasks, t.cached result = true := by
    intro m hm result hr
    cases m with
    | task other =>
      rw [List.mem_singleton.mp hr]
      exact hleaves.grows.cached other
        (hknown.cached_poll ((hfit _ hm).tasks other (.head _)) (mem_asked hm))
    | group id children => exact hgroups id children hm result hr
  have hall : Node.allReady t.cached results = true :=
    Node.allReady_iff.mpr fun m hm => Node.ready_of_cached m (hfit m hm).filled (hready m hm)
  refine ⟨?_, hready⟩
  rw [gathered, if_neg (by simpa using hne), Option.bind_some, if_pos hall,
    gather_taken hknown hfit]

mutual

/-- **`get` returns**, with the value that it has anyway, and the tasks are ready then. -/
theorem getFrom_eq (hnative : b.supportsNativeJoin = true) : ∀ (m : Node ι) (s : Client ι),
    s.Known T → Fit T m →
    ∃ t, b.getFrom s m = some (b.get m, t) ∧ Leaves T s t ∧
      ∀ result ∈ m.tasks, t.cached result = true
  | .task result, s, hknown, hfit => by
    refine ⟨s.getTaskMeta result, by rw [getFrom, get], ?_, fun r hr => ?_⟩
    · exact ⟨hknown.getTaskMeta (hfit.tasks result (.head _)), s.grows_getTaskMeta result⟩
    · rw [List.mem_singleton.mp hr]
      exact s.cached_getTaskMeta result
  | .group id results, s, hknown, hfit => by
    obtain ⟨hne, -, hmembers⟩ := hfit.of_group
    have hset := supportsSet_of_filled hnative hne fun m hm => (hmembers m hm).filled
    have hpoll := hknown.poll (b.asked results)
    obtain ⟨t, htake, hleaves, hgroups⟩ :=
      takeFrom_eq hnative results s.cached (s.poll (b.asked results)) hpoll hmembers
    obtain ⟨hgathered, hready⟩ := gathered_eq hne hknown hmembers hleaves hgroups
    refine ⟨t, ?_, ⟨hleaves.known, (s.grows_poll _).trans hleaves.grows⟩, ?_⟩
    · have hvalue : b.get (.group id results) = .list (b.joined results) := by
        rw [get, if_pos hset]
        rfl
      rw [getFrom, if_pos hset, htake, hgathered, Option.map_some, hvalue]
    · rw [Node.tasks]
      intro result hr
      obtain ⟨m, hm, hr⟩ := Node.mem_allTasks_iff.mp hr
      exact hready m hm result hr

/-- `join` returns. -/
theorem joinFrom_eq (hnative : b.supportsNativeJoin = true) : ∀ (results : List (Node ι))
    (s : Client ι), s.Known T →
    (∀ m ∈ results, Fit T m) →
    ∃ t, b.joinFrom s results = some (b.join results, t) ∧ Leaves T s t ∧
      ∀ m ∈ results, ∀ result ∈ m.tasks, t.cached result = true
  | [], s, hknown, _ => ⟨s, by rw [joinFrom, join], ⟨hknown, .refl s⟩, nofun⟩
  | m :: results, s, hknown, hfit => by
    rw [List.forall_mem_cons] at hfit
    obtain ⟨t, hget, hleaves, hready⟩ := getFrom_eq hnative m s hknown hfit.1
    obtain ⟨u, hjoin, hleaves', hready'⟩ := joinFrom_eq hnative results t hleaves.known hfit.2
    refine ⟨u, ?_, hleaves.trans hleaves', List.forall_mem_cons.mpr ⟨fun result hr => ?_, hready'⟩⟩
    · rw [joinFrom, hget, Option.bind_some, hjoin, Option.map_some, join]
    · exact hleaves'.grows.cached result (hready result hr)

/-- The groups of the bucket come with their values. -/
theorem takeFrom_eq (hnative : b.supportsNativeJoin = true) : ∀ (results : List (Node ι))
    (cached : AsyncResult ι → Bool) (s : Client ι), s.Known T → (∀ m ∈ results, Fit T m) →
    ∃ t, b.takeFrom cached s results = some (b.taken cached results, t) ∧ Leaves T s t ∧
      ∀ id children, .group id children ∈ results →
        ∀ result ∈ (Node.group id children).tasks, t.cached result = true
  | [], _, s, hknown, _ => ⟨s, by rw [takeFrom, taken], ⟨hknown, .refl s⟩, nofun⟩
  | .task result :: results, cached, s, hknown, hfit => by
    rw [List.forall_mem_cons] at hfit
    obtain ⟨t, htake, hleaves, hready⟩ := takeFrom_eq hnative results cached s hknown hfit.2
    refine ⟨t, ?_, hleaves, fun id children hg => ?_⟩
    · rw [takeFrom, htake, Option.map_some, taken]
    · exact hready id children ((List.mem_cons.mp hg).resolve_left nofun)
  | .group id children :: results, cached, s, hknown, hfit => by
    rw [List.forall_mem_cons] at hfit
    obtain ⟨t, hjoin, hleaves, hready⟩ := joinFrom_eq hnative children s hknown hfit.1.of_group.2.2
    obtain ⟨u, htake, hleaves', hready'⟩ :=
      takeFrom_eq hnative results cached t hleaves.known hfit.2
    refine ⟨u, ?_, hleaves.trans hleaves', fun x others hg => ?_⟩
    · rw [takeFrom, hjoin, Option.bind_some, htake, Option.map_some, taken]
    · rcases List.mem_cons.mp hg with heq | hg
      · obtain ⟨rfl, rfl⟩ := Node.group.inj heq
        intro result hr
        rw [Node.tasks] at hr
        obtain ⟨m, hm, hr⟩ := Node.mem_allTasks_iff.mp hr
        exact hleaves'.grows.cached result (hready m hm result hr)
      · exact hready' x others hg

end

/-- `join_native` returns, with what comes for each id. -/
theorem joinNativeFrom_eq (hnative : b.supportsNativeJoin = true) (hne : results ≠ [])
    (hknown : s.Known T) (hfit : ∀ m ∈ results, Fit T m) :
    ∃ t, b.joinNativeFrom s results = some (b.joined results, t) := by
  obtain ⟨t, htake, hleaves, hgroups⟩ := takeFrom_eq hnative results s.cached
    (s.poll (b.asked results)) (hknown.poll _) hfit
  exact ⟨t, by rw [joinNativeFrom, htake, (gathered_eq hne hknown hfit hleaves hgroups).1]⟩

/-! ## A task that nobody hands its meta to -/

/-- A task without its meta is not the object that is registered for its id. -/
structure Unknown (task : AsyncResult ι) (s : Client ι) : Prop where
  waits : s.cached task = false
  unregistered : s.pending task.id ≠ some task

variable {task : AsyncResult ι}

theorem Unknown.setCache (h : Unknown task s) {result : AsyncResult ι} (hne : result ≠ task) :
    Unknown task (s.setCache result) :=
  ⟨(Function.update_of_ne hne.symm ..).trans h.waits,
    fun hpending => h.unregistered (Client.pending_setCache hpending)⟩

theorem Unknown.onStateChange (h : Unknown task s) (id : ι) :
    Unknown task (s.onStateChange id) := by
  rw [Client.onStateChange]
  split
  · exact h
  next result hpending =>
    refine h.setCache ?_
    rintro rfl
    exact h.unregistered ((s.keyed id result hpending).symm ▸ hpending)

theorem Unknown.getTaskMeta (h : Unknown task s) {result : AsyncResult ι} (hne : result ≠ task) :
    Unknown task (s.getTaskMeta result) := by
  rw [Client.getTaskMeta]
  split
  · exact h
  · exact h.setCache hne

theorem Unknown.poll (h : Unknown task s) (ids : List ι) : Unknown task (s.poll ids) := by
  induction ids generalizing s with
  | nil => exact h
  | cons id ids ih => exact ih (h.onStateChange id)

mutual

/-- It stays so while other tasks are asked for. -/
theorem Unknown.getFrom : ∀ (m : Node ι) {s t : Client ι} {value : Value A}, Unknown task s →
    task ∉ m.tasks → b.getFrom s m = some (value, t) → Unknown task t
  | .task result, s, t, value, h, hnot, hget => by
    rw [Backend.getFrom] at hget
    obtain ⟨-, rfl⟩ := Prod.mk.inj (Option.some.inj hget)
    exact h.getTaskMeta fun heq => hnot (heq ▸ .head _)
  | .group _ results, s, t, value, h, hnot, hget => by
    rw [Node.tasks] at hnot
    rw [Backend.getFrom] at hget
    split at hget
    · obtain ⟨⟨values, u⟩, hgathered, heq⟩ := Option.map_eq_some_iff.mp hget
      obtain ⟨-, rfl⟩ := Prod.mk.inj heq
      obtain ⟨⟨items, u'⟩, htake, hend⟩ := gathered_eq_some hgathered
      refine hend ▸ Unknown.takeFrom results (h.poll _) (fun id children hg hmem => hnot ?_) htake
      exact Node.mem_allTasks_iff.mpr ⟨_, hg, by rwa [Node.tasks]⟩
    · obtain ⟨⟨values, u⟩, hjoin, heq⟩ := Option.map_eq_some_iff.mp hget
      obtain ⟨-, rfl⟩ := Prod.mk.inj heq
      exact Unknown.joinFrom results h hnot hjoin

theorem Unknown.joinFrom : ∀ (results : List (Node ι)) {s t : Client ι} {values : List (Value A)},
    Unknown task s → task ∉ Node.allTasks results → b.joinFrom s results = some (values, t) →
    Unknown task t
  | [], s, t, values, h, _, hjoin => by
    rw [Backend.joinFrom] at hjoin
    obtain ⟨-, rfl⟩ := Prod.mk.inj (Option.some.inj hjoin)
    exact h
  | m :: results, s, t, values, h, hnot, hjoin => by
    rw [Node.allTasks, List.mem_append, not_or] at hnot
    rw [Backend.joinFrom] at hjoin
    obtain ⟨⟨value, u⟩, hget, hrest⟩ := Option.bind_eq_some_iff.mp hjoin
    obtain ⟨⟨values, u'⟩, htail, heq⟩ := Option.map_eq_some_iff.mp hrest
    obtain ⟨-, rfl⟩ := Prod.mk.inj heq
    exact Unknown.joinFrom results (Unknown.getFrom m h hnot.1 hget) hnot.2 htail

/-- The tasks of a set are not asked for as they come out of its bucket. -/
theorem Unknown.takeFrom : ∀ (results : List (Node ι)) {cached : AsyncResult ι → Bool}
    {s t : Client ι} {items : List (ι × Value A)}, Unknown task s →
    (∀ id children, .group id children ∈ results → task ∉ Node.allTasks children) →
    b.takeFrom cached s results = some (items, t) → Unknown task t
  | [], cached, s, t, items, h, _, htake => by
    rw [Backend.takeFrom] at htake
    obtain ⟨-, rfl⟩ := Prod.mk.inj (Option.some.inj htake)
    exact h
  | .task result :: results, cached, s, t, items, h, hnot, htake => by
    rw [Backend.takeFrom] at htake
    obtain ⟨⟨items', u⟩, htail, heq⟩ := Option.map_eq_some_iff.mp htake
    obtain ⟨-, rfl⟩ := Prod.mk.inj heq
    exact Unknown.takeFrom results h (fun id children hg => hnot id children (.tail _ hg)) htail
  | .group id children :: results, cached, s, t, items, h, hnot, htake => by
    rw [Backend.takeFrom] at htake
    obtain ⟨⟨values, u⟩, hjoin, hrest⟩ := Option.bind_eq_some_iff.mp htake
    obtain ⟨⟨items', u'⟩, htail, heq⟩ := Option.map_eq_some_iff.mp hrest
    obtain ⟨-, rfl⟩ := Prod.mk.inj heq
    exact Unknown.takeFrom results (Unknown.joinFrom children h (hnot id children (.head _)) hjoin)
      (fun x others hg => hnot x others (.tail _ hg)) htail

end

/-- A set with such a task among its own is waited for in vain, unless one of its groups has the
task too. -/
theorem Unknown.joinNativeFrom_eq_none (h : Unknown task s) (hmem : .task task ∈ results)
    (hnot : ∀ id children, .group id children ∈ results → task ∉ Node.allTasks children) :
    b.joinNativeFrom s results = none := by
  rw [Option.eq_none_iff_forall_ne_some]
  rintro ⟨values, t⟩ hjoined
  have hready : Node.allReady t.cached results = true ∧ Unknown task t := by
    rw [joinNativeFrom, gathered] at hjoined
    split at hjoined
    · cases hjoined
    · obtain ⟨⟨items, u⟩, htake, hend⟩ := Option.bind_eq_some_iff.mp hjoined
      split at hend
      next hready =>
        obtain ⟨-, rfl⟩ := Prod.mk.inj (Option.some.inj hend)
        exact ⟨hready, Unknown.takeFrom results (h.poll _) hnot htake⟩
      · cases hend
  have hcached := Node.allReady_iff.mp hready.1 _ hmem
  rw [Node.ready, hready.2.waits] at hcached
  cases hcached

end Backend

namespace Node

/-- A member is that task. -/
def is (task : AsyncResult ι) : Node ι → Bool
  | .task result => result = task
  | .group .. => false

mutual

/-- How many of the sets in a member have the task among their own members. -/
def holders (task : AsyncResult ι) : Node ι → ℕ
  | .task _ => 0
  | .group _ results => (if results.any (is task) then 1 else 0) + allHolders task results

def allHolders (task : AsyncResult ι) : List (Node ι) → ℕ
  | [] => 0
  | m :: ms => holders task m + allHolders task ms

end

variable {task : AsyncResult ι}

theorem any_is_iff {ms : List (Node ι)} : ms.any (is task) = true ↔ .task task ∈ ms := by
  rw [List.any_eq_true]
  constructor
  · rintro ⟨m, hm, his⟩
    cases m with
    | task result => exact of_decide_eq_true his ▸ hm
    | group id results => cases his
  · exact fun h => ⟨_, h, decide_eq_true rfl⟩

mutual

theorem mem_tasks_iff : ∀ m : Node ι, task ∈ m.tasks ↔ is task m = true ∨ 0 < holders task m
  | .task result => by
    simp [tasks, is, holders, eq_comm]
  | .group _ results => by
    rw [tasks, mem_allTasks_holders results, is, holders]
    split
    next h => exact iff_of_true (.inl (any_is_iff.mp h)) (.inr (by omega))
    next h => simp [mt any_is_iff.mpr h]

theorem mem_allTasks_holders : ∀ ms : List (Node ι),
    task ∈ allTasks ms ↔ .task task ∈ ms ∨ 0 < allHolders task ms
  | [] => by simp [allTasks, allHolders]
  | m :: ms => by
    rw [allTasks, List.mem_append, mem_tasks_iff m, mem_allTasks_holders ms, allHolders,
      List.mem_cons, Nat.add_pos_iff_pos_or_pos]
    have his : is task m = true ↔ .task task = m := by
      have h : [m].any (is task) = true ↔ .task task ∈ [m] := any_is_iff
      simpa using h
    rw [his]
    tauto

end

theorem not_mem_of_group {ms : List (Node ι)} (h : allHolders task ms = 0) {id : ι}
    {children : List (Node ι)} (hg : .group id children ∈ ms) : task ∉ allTasks children := by
  induction ms with
  | nil => cases hg
  | cons m ms ih =>
    rw [allHolders, Nat.add_eq_zero_iff] at h
    rcases List.mem_cons.mp hg with rfl | hg
    · intro hmem
      have hpos : is task (.group id children) = true ∨ 0 < holders task (.group id children) :=
        (mem_tasks_iff _).mp (by rwa [tasks])
      rw [is, h.1] at hpos
      simp at hpos
    · exact ih h.2 hg

end Node

namespace Backend

variable {b : Backend ι A} {s : Client ι} {task : AsyncResult ι} {results : List (Node ι)}

/-- One of the ways in which a set is joined never returns. -/
def Stuck (b : Backend ι A) (task : AsyncResult ι) (results : List (Node ι)) : Prop :=
  (∀ s, Unknown task s → b.joinNativeFrom s results = none) ∨
    ∀ s, Unknown task s → b.joinFrom s results = none

/-- A set joins its groups natively, and `join_native` asks the members of its groups one by one: so
one of the two waits for the set that has the task. -/
theorem stuck_of_members (hone : (if results.any (Node.is task) then 1 else 0) +
      Node.allHolders task results = 1)
    (h : .task task ∉ results → Node.allHolders task results = 1 →
      (∀ s, Unknown task s → b.joinFrom s results = none) ∨
        ∀ cached s, Unknown task s → b.takeFrom cached s results = none) :
    b.Stuck task results := by
  by_cases hany : results.any (Node.is task) = true
  · rw [if_pos hany] at hone
    have hfree : Node.allHolders task results = 0 := by omega
    exact .inl fun s hs => hs.joinNativeFrom_eq_none (Node.any_is_iff.mp hany)
      fun id children hg => Node.not_mem_of_group hfree hg
  · rw [if_neg hany] at hone
    rcases h (mt Node.any_is_iff.mpr hany) (by omega) with hjoin | htake
    · exact .inr hjoin
    · refine .inl fun s hs => ?_
      rw [joinNativeFrom, htake _ _ (hs.poll _), gathered, Option.bind_none, ite_self]

mutual

theorem stuck_node (hnative : b.supportsNativeJoin = true) : ∀ (m : Node ι), m.Filled →
    Node.holders task m = 1 →
    (∀ s, Unknown task s → b.getFrom s m = none) ∨
      ∃ id children, m = .group id children ∧ ∀ s, Unknown task s → b.joinFrom s children = none
  | .task _, _, hone => by cases hone
  | .group id results, hfilled, hone => by
    rw [Node.Filled] at hfilled
    have hset := supportsSet_of_filled hnative hfilled.1 (Node.allFilled_iff.mp hfilled.2)
    rcases stuck_of_members hone (stuck_members hnative results hfilled.2) with hwait | hjoin
    · refine .inl fun s hs => ?_
      rw [getFrom, if_pos hset]
      exact congrArg (Option.map _) (hwait s hs)
    · exact .inr ⟨id, results, rfl, hjoin⟩

theorem stuck_members (hnative : b.supportsNativeJoin = true) : ∀ (ms : List (Node ι)),
    Node.AllFilled ms → .task task ∉ ms → Node.allHolders task ms = 1 →
    (∀ s, Unknown task s → b.joinFrom s ms = none) ∨
      ∀ cached s, Unknown task s → b.takeFrom cached s ms = none
  | [], _, _, hone => by cases hone
  | m :: ms, hfilled, hnot, hone => by
    rw [Node.AllFilled] at hfilled
    rw [Node.allHolders] at hone
    have hne : Node.is task m ≠ true := fun his =>
      hnot (Node.any_is_iff.mp (List.any_eq_true.mpr ⟨m, .head _, his⟩))
    rcases Nat.eq_zero_or_pos (Node.holders task m) with hzero | hpos
    · -- The task is in one of the later members.
      have hfree : task ∉ m.tasks := fun hmem => by
        rcases (Node.mem_tasks_iff m).mp hmem with his | hpos
        · exact hne his
        · omega
      have hrest := stuck_members hnative ms hfilled.2 (fun hmem => hnot (.tail _ hmem)) (by omega)
      refine hrest.imp (fun hjoin s hs => ?_) fun htake cached s hs => ?_
      · rw [joinFrom]
        refine Option.bind_eq_none_iff.mpr fun value hget => ?_
        rw [hjoin _ (Unknown.getFrom m hs hfree hget), Option.map_none]
      · cases m with
        | task result => rw [takeFrom, htake cached s hs, Option.map_none]
        | group id children =>
          rw [takeFrom]
          refine Option.bind_eq_none_iff.mpr fun values hjoin => ?_
          rw [Node.tasks] at hfree
          rw [htake cached _ (Unknown.joinFrom children hs hfree hjoin), Option.map_none]
    · rcases stuck_node hnative m hfilled.1 (by omega) with hget | ⟨id, children, rfl, hjoin⟩
      · exact .inl fun s hs => by rw [joinFrom, hget s hs, Option.bind_none]
      · exact .inr fun cached s hs => by rw [takeFrom, hjoin s hs, Option.bind_none]

end

/-! ## When the joins agree -/

/-- The wait for a set ends: it is not empty, nor is a group in it; every task in it has its meta,
or is the object that is registered for its id, which is the id of no group. -/
structure Awaitable (s : Client ι) (results : List (Node ι)) : Prop where
  ne_nil : results ≠ []
  filled : Node.AllFilled results
  known : ∀ result ∈ Node.allTasks results,
    s.cached result = true ∨ s.pending result.id = some result
  apart : ∀ result ∈ Node.allTasks results,
    result.id ∉ Node.allGroupIds results ++ s.groups.map Node.id

omit [DecidableEq ι] in
theorem Awaitable.fit (h : Awaitable s results) :
    s.Known (Node.allTasks results) ∧ ∀ m ∈ results, Fit (Node.allTasks results) m := by
  refine ⟨⟨h.known, fun result hr hid => h.apart result hr (List.mem_append_right _ hid)⟩,
    fun m hm => ⟨fun result hr => Node.mem_allTasks_iff.mpr ⟨m, hm, hr⟩, fun result hr hid => ?_,
      Node.allFilled_iff.mp h.filled m hm⟩⟩
  exact h.apart result hr
    (List.mem_append_left _ (Node.mem_allGroupIds_iff.mpr ⟨m, hm, hid⟩))

/-- The condition: an asynchronous wait ends, and in the set, and in every nested group that is
joined natively, two members with one id are tasks that returned `None`. -/
def Regular (b : Backend ι A) (s : Client ι) (results : List (Node ι)) : Prop :=
  (b.isAsync = true → Awaitable s results) ∧ b.NoClash results ∧ b.AgreesAll results

/-- A task that would be waited for in vain is in one set only, and no group has the id of a
task. -/
def Single (s : Client ι) (results : List (Node ι)) : Prop :=
  (∀ task ∈ Node.allTasks results, Unknown task s →
    (if results.any (Node.is task) then 1 else 0) + Node.allHolders task results = 1) ∧
  ∀ result ∈ Node.allTasks results, result.id ∉ Node.allGroupIds results ++ s.groups.map Node.id

/-- Both return, and the same list. -/
def JoinsAgree (b : Backend ι A) (s : Client ι) (results : List (Node ι)) : Prop :=
  ∃ values, b.joinNative? s results = some values ∧ b.join? s results = some values

/-- Where the wait ends, both return what they return where nothing is waited for. -/
theorem Awaitable.joinsAgree_iff (hasync : b.isAsync = true) (h : Awaitable s results) :
    b.JoinsAgree s results ↔ b.joined results = b.join results := by
  obtain ⟨hknown, hfit⟩ := h.fit
  have hnative := b.supports_of_isAsync hasync
  obtain ⟨t, hnativeFrom⟩ := joinNativeFrom_eq hnative h.ne_nil hknown hfit
  obtain ⟨u, hjoinFrom, -⟩ := joinFrom_eq hnative results s hknown hfit
  rw [JoinsAgree, joinNative?, join?, if_pos hasync, if_pos hasync, hnativeFrom, hjoinFrom]
  simp [eq_comm]

/-- **Where the joins agree, the wait ends.** -/
theorem JoinsAgree.awaitable (hasync : b.isAsync = true) (hsingle : Single s results)
    (h : b.JoinsAgree s results) : Awaitable s results := by
  obtain ⟨values, hnative, hjoin⟩ := h
  rw [joinNative?, if_pos hasync] at hnative
  rw [join?, if_pos hasync] at hjoin
  obtain ⟨⟨values', t⟩, hnativeFrom, -⟩ := Option.map_eq_some_iff.mp hnative
  obtain ⟨⟨values'', u⟩, hjoinFrom, -⟩ := Option.map_eq_some_iff.mp hjoin
  have hends : results ≠ [] ∧ Node.AllFilled results := by
    rw [joinNativeFrom, gathered] at hnativeFrom
    split at hnativeFrom
    · cases hnativeFrom
    next hne =>
      obtain ⟨⟨items, u'⟩, -, hend⟩ := Option.bind_eq_some_iff.mp hnativeFrom
      split at hend
      next hready =>
        exact ⟨fun hnil => hne (List.isEmpty_iff.mpr hnil), Node.allFilled_of_allReady _ hready⟩
      · cases hend
  refine ⟨hends.1, hends.2, fun task htask => ?_, hsingle.2⟩
  by_contra hnot
  rw [not_or] at hnot
  have hunknown : Unknown task s := ⟨Bool.eq_false_iff.mpr hnot.1, hnot.2⟩
  rcases stuck_of_members (hsingle.1 task htask hunknown)
      (stuck_members (b.supports_of_isAsync hasync) results hends.2) with hstuck | hstuck
  · rw [hstuck s hunknown] at hnativeFrom
    cases hnativeFrom
  · rw [hstuck s hunknown] at hjoinFrom
    cases hjoinFrom

/-- A backend that yields the ids of a set as they are. -/
def inOrder (isAsync : Bool) (value : ℕ → Value ℕ) : Backend ℕ ℕ where
  isAsync := isAsync
  supportsNativeJoin := true
  supports_of_isAsync _ := rfl
  value := value
  getMany ids := ids
  getMany_perm _ _ := .rfl

/-- A client that waits for one object. -/
def waitsFor (result : AsyncResult ℕ) : Client ℕ where
  cached _ := false
  pending id := if id = result.id then some result else none
  groups := []
  keyed id r h := by
    split at h
    next hid => exact Option.some.inj h ▸ hid.symm
    · cases h

end Backend

end Join
end Celery
