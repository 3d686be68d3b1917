/-
# `celery/result.py`: `join` and `join_native`

`ResultSet.get`, `join`, `join_native` and `supports_native_join` (lines 725-916), over
`iter_native` of `SyncBackendMixin` (`celery/backends/base.py`, lines 1007-1025), where all tasks
have succeeded.

`join_native` puts what comes for an id at the last index of that id, and where nothing is put
`None` stays (`gather_eq`).  So a member that is followed by another with its id gives `None`.
`iter_native` yields the groups first, whose members are asked one by one, while `join` asks a
group with `get`, which is `join_native` again.  `joined_eq_join_iff` is when the two agree.

The tasks are asked for with `get_many`, which yields each id once (`Backend.ofGetMany`).
-/

import Celery.Backends.GetMany
import Mathlib.Data.List.Dedup
import Mathlib.Data.List.Induction
import Mathlib.Data.List.Perm.Basic

namespace Celery
namespace Join

/-- A value that a task returns or a join gives. -/
inductive Value (A : Type) where
  | none
  | atom (a : A)
  | list (values : List (Value A))

/-- An `AsyncResult`: its id, and which of the objects with that id it is. -/
structure AsyncResult (ι : Type) where
  id : ι
  object : ℕ
deriving DecidableEq

/-- A member of a set: an `AsyncResult`, or a `GroupResult` with its id and results. -/
inductive Node (ι : Type) where
  | task (result : AsyncResult ι)
  | group (id : ι) (results : List (Node ι))

variable {ι A : Type} [DecidableEq ι]

namespace Node

/-- `id`. -/
def id : Node ι → ι
  | task result => result.id
  | group id _ => id

/-- The id of a task. -/
def taskId? : Node ι → Option ι
  | task result => some result.id
  | group .. => none

end Node

/-- A backend that holds the values of all tasks.  `getMany` is the order in which `get_many` yields
the ids of a set; both backends with `AsyncBackendMixin` support native joins. -/
structure Backend (ι A : Type) where
  isAsync : Bool
  supportsNativeJoin : Bool
  supports_of_isAsync : isAsync = true → supportsNativeJoin = true
  value : ι → Value A
  getMany : List ι → List ι
  getMany_perm : ∀ ids, ids.Nodup → (getMany ids).Perm ids

/-- An id that has a key in the store. -/
abbrev KeyedId : Type := { id : String // id ≠ "" }

/-- The id that a string is. -/
def keyedId? (id : String) : Option KeyedId := if h : id ≠ "" then some ⟨id, h⟩ else none

theorem filterMap_keyedId? (ids : List KeyedId) :
    (ids.map Subtype.val).filterMap keyedId? = ids := by
  rw [List.filterMap_map]
  exact (List.filterMap_congr fun id _ => dif_pos id.2).trans List.filterMap_some

/-- **The backends whose `get_many` polls a store** until each id has come once. -/
def Backend.ofGetMany {α R β M : Type} [DecidableEq α] (b : GetMany.Backend α R β M)
    (isAsync : Bool) (value : KeyedId → Value A)
    (store : List KeyedId → ℕ → List α → Option β) (cache : String → Option M)
    (polls : List KeyedId → List (GetMany.Backend.Poll R β))
    (h : ∀ ids : List KeyedId, ids.Nodup →
      b.ExactlyOnce (store ids) (ids.map Subtype.val) cache (polls ids)
          (b.getMany (ids.map Subtype.val) cache (polls ids)) ∧
        (b.getMany (ids.map Subtype.val) cache (polls ids)).2 = .returned) :
    Backend KeyedId A where
  isAsync := isAsync
  supportsNativeJoin := true
  supports_of_isAsync _ := rfl
  value := value
  getMany ids :=
    ((b.getMany (ids.map Subtype.val) cache (polls ids)).1.map Prod.fst).filterMap keyedId?
  getMany_perm ids hids :=
    (((h ids hids).1.all (h ids hids).2).filterMap keyedId?).trans (.of_eq (filterMap_keyedId? ids))

/-- `order_index`: the index of an id, the last one where there are several. -/
def orderIndex : List ι → ι → Option ℕ
  | [], _ => none
  | x :: ids, id =>
    match orderIndex ids id with
    | some i => some (i + 1)
    | none => if x = id then some 0 else none

/-- `acc[order_index[task_id]] = value`. -/
def assign (ids : List ι) (acc : List (Value A)) (item : ι × Value A) : List (Value A) :=
  match orderIndex ids item.1 with
  | some i => acc.set i item.2
  | none => acc

/-- The loop of `join_native` over the items of `iter_native`. -/
def gather (ids : List ι) (items : List (ι × Value A)) : List (Value A) :=
  items.foldl (assign ids) (ids.map fun _ => .none)

namespace Backend

variable (b : Backend ι A)

mutual

/-- `supports_native_join`. -/
def supports : Node ι → Bool
  | .task .. => b.supportsNativeJoin
  | .group _ results => supportsSet results

/-- `ResultSet.supports_native_join`: that of the first result, or none. -/
def supportsSet : List (Node ι) → Bool
  | [] => false
  | result :: _ => supports result

end

/-- The ids of the tasks of a set, as `get_many` yields them. -/
def arrivals (results : List (Node ι)) : List ι :=
  b.getMany (results.filterMap Node.taskId?).dedup

/-- The metas that come, in order, with the values in them. -/
def arrivalItems (results : List (Node ι)) : List (ι × Value A) :=
  (b.arrivals results).map fun id => (id, b.value id)

mutual

/-- `get`, with `join_native` or `join` for a group. -/
def get : Node ι → Value A
  | .task result => b.value result.id
  | .group _ results =>
    if b.supportsSet results then
      .list (gather (results.map Node.id) (immediate results ++ b.arrivalItems results))
    else .list (join results)

/-- `join`. -/
def join : List (Node ι) → List (Value A)
  | [] => []
  | result :: results => get result :: join results

/-- What `iter_native` yields first: the groups, with the values of their members. -/
def immediate : List (Node ι) → List (ι × Value A)
  | [] => []
  | .task _ :: results => immediate results
  | .group id children :: results => (id, .list (join children)) :: immediate results

end

/-- **`join_native`** without a callback. -/
def joined (results : List (Node ι)) : List (Value A) :=
  gather (results.map Node.id) (b.immediate results ++ b.arrivalItems results)

/-! ## The condition -/

/-- A member `m` that is followed by `m'` with the same id does no harm: both are tasks, and they
returned `None`. -/
def Harmless (m m' : Node ι) : Prop :=
  ∃ result result', m = .task result ∧ m' = .task result' ∧ b.value result.id = .none

/-- No two members of a set have the same id, but for those that do no harm. -/
def NoClash (results : List (Node ι)) : Prop :=
  results.Pairwise fun m m' => m.id = m'.id → b.Harmless m m'

mutual

/-- There is no clash in a group that supports native joins, nor in the groups in it. -/
def Agrees : Node ι → Prop
  | .task .. => True
  | .group _ results => b.supportsSet results = true → b.NoClash results ∧ AgreesAll results

def AgreesAll : List (Node ι) → Prop
  | [] => True
  | result :: results => Agrees result ∧ AgreesAll results

end

end Backend

/-! ## What the loop puts where -/

/-- The value that is put last for an id. -/
def written (items : List (ι × Value A)) (id : ι) : Value A :=
  items.foldl (fun value item => if item.1 = id then item.2 else value) .none

/-- At the last index of an id is what was put last for it, and `None` is at the others. -/
def place (items : List (ι × Value A)) : List ι → List (Value A)
  | [] => []
  | id :: ids => (if id ∈ ids then .none else written items id) :: place items ids

theorem orderIndex_eq_none_iff {ids : List ι} {id : ι} : orderIndex ids id = none ↔ id ∉ ids := by
  induction ids with
  | nil => simp [orderIndex]
  | cons x ids ih =>
    rw [orderIndex, List.mem_cons, not_or, ← ih]
    rcases orderIndex ids id with _ | i
    · by_cases hx : x = id
      · simp [hx]
      · simp [hx, Ne.symm hx]
    · simp

theorem written_append (items items' : List (ι × Value A)) (id : ι) :
    written (items ++ items') id =
      items'.foldl (fun value item => if item.1 = id then item.2 else value) (written items id) :=
  List.foldl_append

theorem written_snoc (items : List (ι × Value A)) (item : ι × Value A) (id : ι) :
    written (items ++ [item]) id = if item.1 = id then item.2 else written items id :=
  written_append items [item] id

/-- One more item is one more assignment. -/
theorem place_snoc (items : List (ι × Value A)) (item : ι × Value A) (ids : List ι) :
    place (items ++ [item]) ids = assign ids (place items ids) item := by
  induction ids with
  | nil => rfl
  | cons id ids ih =>
    rw [assign] at ih ⊢
    rw [place, place, ih, written_snoc, orderIndex]
    rcases hindex : orderIndex ids item.1 with _ | i
    · have hnot : item.1 ∉ ids := orderIndex_eq_none_iff.mp hindex
      by_cases hid : id = item.1
      · rw [hid, if_neg hnot, if_pos rfl, if_pos rfl]
        rfl
      · rw [if_neg (Ne.symm hid), if_neg hid]
    · have hmem : item.1 ∈ ids := by
        by_contra hnot
        rw [orderIndex_eq_none_iff.mpr hnot] at hindex
        cases hindex
      by_cases hid : id = item.1
      · have hin : id ∈ ids := hid.symm ▸ hmem
        rw [if_pos hin, if_pos hin]
        rfl
      · rw [if_neg (Ne.symm hid)]
        rfl

/-- **The loop of `join_native`:** where no index is the last one of its id, `None` stays. -/
theorem gather_eq (ids : List ι) (items : List (ι × Value A)) :
    gather ids items = place items ids := by
  induction items using List.reverseRecOn with
  | nil =>
    induction ids with
    | nil => rfl
    | cons id ids ih =>
      have hhead : (if id ∈ ids then Value.none else written ([] : List (ι × Value A)) id) =
          Value.none := ite_self _
      rw [place, hhead, ← ih]
      rfl
  | append_singleton items item ih =>
    rw [place_snoc, ← ih, gather, List.foldl_append]
    rfl

theorem written_append_of_not_mem {items items' : List (ι × Value A)} {id : ι}
    (h : id ∉ items'.map Prod.fst) : written (items ++ items') id = written items id := by
  induction items' using List.reverseRecOn with
  | nil => rw [List.append_nil]
  | append_singleton items' item ih =>
    rw [List.map_append, List.mem_append, not_or] at h
    have hne : item.1 ≠ id := fun heq => h.2 (heq ▸ List.mem_singleton_self _)
    rw [← List.append_assoc, written_snoc, if_neg hne, ih h.1]

/-- What comes for an id that is waited for is put last. -/
theorem written_append_map (items : List (ι × Value A)) {ids : List ι} {id : ι} (h : id ∈ ids)
    (value : ι → Value A) : written (items ++ ids.map fun id => (id, value id)) id = value id := by
  induction ids using List.reverseRecOn with
  | nil => cases h
  | append_singleton ids x ih =>
    rw [List.map_append, ← List.append_assoc, List.map_singleton, written_snoc]
    by_cases hx : x = id
    · rw [if_pos hx, hx]
    · rw [if_neg hx]
      rcases List.mem_append.mp h with h | h
      · exact ih h
      · exact absurd (List.mem_singleton.mp h).symm hx

namespace Backend

variable {b : Backend ι A} {results pre post : List (Node ι)}

/-! ## What comes for an id -/

theorem immediate_append (pre post : List (Node ι)) :
    b.immediate (pre ++ post) = b.immediate pre ++ b.immediate post := by
  induction pre with
  | nil => rfl
  | cons m pre ih =>
    cases m with
    | task result => rw [List.cons_append, immediate, immediate, ih]
    | group id children =>
      rw [List.cons_append, immediate, immediate, ih]
      rfl

theorem ids_immediate (results : List (Node ι)) :
    ∀ id ∈ (b.immediate results).map Prod.fst, id ∈ results.map Node.id := by
  induction results with
  | nil => exact fun _ h => h
  | cons m results ih =>
    intro id hid
    cases m with
    | task result =>
      rw [immediate] at hid
      exact .tail _ (ih id hid)
    | group id' children =>
      rw [immediate] at hid
      rcases List.mem_cons.mp hid with rfl | hid
      · exact .head _
      · exact .tail _ (ih id hid)

theorem mem_arrivals_iff {id : ι} :
    id ∈ b.arrivals results ↔ ∃ result, Node.task result ∈ results ∧ result.id = id := by
  rw [arrivals, (b.getMany_perm _ (List.nodup_dedup _)).mem_iff, List.mem_dedup,
    List.mem_filterMap]
  constructor
  · rintro ⟨m, hm, hid⟩
    cases m with
    | task result => exact ⟨result, hm, Option.some_inj.mp hid⟩
    | group id' children => cases hid
  · rintro ⟨result, hm, rfl⟩
    exact ⟨_, hm, rfl⟩

/-- For a task, its value is put last. -/
theorem written_task {result : AsyncResult ι} (hmem : .task result ∈ results) :
    written (b.immediate results ++ b.arrivalItems results) result.id = b.value result.id :=
  written_append_map _ (mem_arrivals_iff.mpr ⟨result, hmem, rfl⟩) b.value

/-- For a group that is the last member with its id, the values of its members are put last, unless
a task with its id is waited for. -/
theorem written_group {id : ι} {children : List (Node ι)} (hlast : id ∉ post.map Node.id)
    (harrives : id ∉ b.arrivals (pre ++ .group id children :: post)) :
    written (b.immediate (pre ++ .group id children :: post) ++
      b.arrivalItems (pre ++ .group id children :: post)) id = .list (b.join children) := by
  have hitems : id ∉ (b.arrivalItems (pre ++ .group id children :: post)).map Prod.fst := by
    rw [arrivalItems, List.map_map]
    exact fun h => harrives (by simpa using h)
  rw [written_append_of_not_mem hitems, immediate_append, immediate,
    List.append_cons, written_append_of_not_mem fun h => hlast (ids_immediate post id h),
    written_snoc, if_pos rfl]

/-! ## When the joins agree -/

theorem get_group_ne_none {id : ι} {children : List (Node ι)} :
    b.get (.group id children) ≠ .none := by
  rw [get]
  split <;> nofun

/-- A task whose `get` gives `None`. -/
theorem exists_task_of_get {m : Node ι} (h : b.get m = .none) :
    ∃ result, m = .task result ∧ b.value result.id = .none := by
  cases m with
  | task result => exact ⟨result, rfl, by rwa [get] at h⟩
  | group id children => exact absurd h get_group_ne_none

/-- At every position is what `get` gives for the member. -/
def Fits (b : Backend ι A) (items : List (ι × Value A)) (results : List (Node ι)) : Prop :=
  ∀ pre m post, results = pre ++ m :: post →
    (if m.id ∈ post.map Node.id then .none else written items m.id) = b.get m

theorem place_eq_join_iff (items : List (ι × Value A)) (results : List (Node ι)) :
    place items (results.map Node.id) = b.join results ↔ b.Fits items results := by
  induction results with
  | nil => exact iff_of_true (by rw [join]; rfl) fun pre m post h => by simp at h
  | cons m results ih =>
    rw [List.map_cons, place, join, List.cons.injEq, ih]
    constructor
    · rintro ⟨hhead, htail⟩ pre m' post heq
      cases pre with
      | nil =>
        obtain ⟨rfl, rfl⟩ := List.cons.inj heq
        exact hhead
      | cons m'' pre =>
        obtain ⟨rfl, rfl⟩ := List.cons.inj heq
        exact htail pre m' post rfl
    · intro h
      refine ⟨h [] m results rfl, fun pre m' post heq => h (m :: pre) m' post ?_⟩
      rw [heq, List.cons_append]

omit [DecidableEq ι] in
theorem pairwise_iff_split {R : Node ι → Node ι → Prop} {results : List (Node ι)} :
    results.Pairwise R ↔ ∀ pre m post, results = pre ++ m :: post → ∀ m' ∈ post, R m m' := by
  constructor
  · rintro h pre m post rfl
    exact (List.pairwise_cons.mp (List.pairwise_append.mp h).2.1).1
  · intro h
    induction results with
    | nil => exact .nil
    | cons m results ih =>
      refine .cons (h [] m results rfl) (ih fun pre m' post heq => h (m :: pre) m' post ?_)
      rw [heq, List.cons_append]

/-- The joins of a group that supports native joins agree. -/
def Coherent (b : Backend ι A) (m : Node ι) : Prop :=
  ∀ id children, m = .group id children → b.supportsSet children = true →
    b.joined children = b.join children

/-- Such a group gives what its members give one by one. -/
theorem get_group_iff {id : ι} {children : List (Node ι)} :
    b.get (.group id children) = .list (b.join children) ↔ b.Coherent (.group id children) := by
  rw [get]
  constructor
  · rintro h id' children' heq hsupports
    obtain ⟨rfl, rfl⟩ := Node.group.inj heq
    rw [if_pos hsupports] at h
    exact Value.list.inj h
  · intro h
    split
    next hsupports => exact congrArg Value.list (h id children rfl hsupports)
    · rfl

/-- A group gives no `None`, so no member with its id follows it. -/
theorem Fits.last {items : List (ι × Value A)} {id : ι} {children : List (Node ι)}
    (h : b.Fits items (pre ++ .group id children :: post)) :
    id ∉ post.map Node.id ∧ written items id = b.get (.group id children) := by
  have hfit := h pre (.group id children) post rfl
  rw [Node.id] at hfit
  have hlast : id ∉ post.map Node.id := by
    intro hmem
    rw [if_pos hmem] at hfit
    exact get_group_ne_none hfit.symm
  rw [if_neg hlast] at hfit
  exact ⟨hlast, hfit⟩

/-- **Where the joins agree**, a member that is followed by one with its id does no harm. -/
theorem Fits.noClash (h : b.Fits (b.immediate results ++ b.arrivalItems results) results) :
    b.NoClash results := by
  refine pairwise_iff_split.mpr fun pre m post heq m' hm' hid => ?_
  have hnone : b.get m = .none := by
    rw [← h pre m post heq, if_pos (hid ▸ List.mem_map_of_mem hm')]
  obtain ⟨result, rfl, hvalue⟩ := exists_task_of_get hnone
  refine ⟨result, ?_⟩
  cases m' with
  | task result' => exact ⟨result', rfl, rfl, hvalue⟩
  | group id children =>
    obtain rfl : result.id = id := hid
    obtain ⟨before, after, rfl⟩ := List.append_of_mem hm'
    have hwritten : written (b.immediate results ++ b.arrivalItems results) result.id =
        b.get (.group result.id children) := by
      have hsplit : results =
          (pre ++ .task result :: before) ++ .group result.id children :: after := by
        rw [heq, List.append_assoc, List.cons_append]
      rw [hsplit] at h ⊢
      exact h.last.2
    -- The `None` of the task comes after the group.
    have hlast : written (b.immediate results ++ b.arrivalItems results) result.id = .none :=
      (written_task (heq ▸ List.mem_append_right _ (.head _))).trans hvalue
    exact absurd (hwritten.symm.trans hlast) get_group_ne_none

/-- For a group that is the last member with its id no task is waited for, if there is no clash. -/
theorem NoClash.not_mem_arrivals {id : ι} {children : List (Node ι)}
    (h : b.NoClash (pre ++ .group id children :: post)) (hlast : id ∉ post.map Node.id) :
    id ∉ b.arrivals (pre ++ .group id children :: post) := by
  intro harrives
  obtain ⟨result, hmem, hid⟩ := mem_arrivals_iff.mp harrives
  rcases List.mem_append.mp hmem with hpre | hpost
  · obtain ⟨-, result', -, htask, -⟩ :=
      (List.pairwise_append.mp h).2.2 _ hpre _ (.head _) hid
    cases htask
  · rcases List.mem_cons.mp hpost with heq | hpost
    · cases heq
    · exact hlast (hid ▸ List.mem_map_of_mem (f := Node.id) hpost)

/-- **When the joins of a set agree**, given those of its groups. -/
theorem joined_eq_join_iff (results : List (Node ι)) :
    b.joined results = b.join results ↔ b.NoClash results ∧ ∀ m ∈ results, b.Coherent m := by
  rw [joined, gather_eq, place_eq_join_iff]
  constructor
  · intro hfits
    refine ⟨hfits.noClash, fun m hm => ?_⟩
    cases m with
    | task result => exact fun _ _ heq => by cases heq
    | group id children =>
      obtain ⟨pre, post, rfl⟩ := List.append_of_mem hm
      obtain ⟨hlast, hwritten⟩ := hfits.last
      have hjoin := written_group hlast (hfits.noClash.not_mem_arrivals hlast)
      exact get_group_iff.mp (hwritten.symm.trans hjoin)
  · rintro ⟨hclash, hcoherent⟩ pre m post rfl
    split
    next hlater =>
      obtain ⟨m', hm', hid⟩ := List.mem_map.mp hlater
      obtain ⟨result, -, rfl, -, hvalue⟩ :=
        pairwise_iff_split.mp hclash pre m post rfl m' hm' hid.symm
      rw [get, hvalue]
    next hlast =>
      cases m with
      | task result =>
        rw [get]
        exact written_task (List.mem_append_right _ (.head _))
      | group id children =>
        rw [get_group_iff.mpr (hcoherent _ (List.mem_append_right _ (.head _)))]
        exact written_group hlast (hclash.not_mem_arrivals hlast)

mutual

theorem coherent_iff (b : Backend ι A) : ∀ m : Node ι, b.Coherent m ↔ b.Agrees m
  | .task .. => iff_of_true (fun _ _ heq => by cases heq) (by rw [Agrees]; trivial)
  | .group id results => by
    rw [Agrees, ← forall_coherent_iff b results, ← joined_eq_join_iff]
    refine ⟨fun h => h id results rfl, fun h id' results' heq => ?_⟩
    obtain ⟨rfl, rfl⟩ := Node.group.inj heq
    exact h

theorem forall_coherent_iff (b : Backend ι A) : ∀ results : List (Node ι),
    (∀ m ∈ results, b.Coherent m) ↔ b.AgreesAll results
  | [] => iff_of_true nofun (by rw [AgreesAll]; trivial)
  | m :: results => by
    rw [List.forall_mem_cons, AgreesAll, coherent_iff b m, forall_coherent_iff b results]

end

end Backend
end Join
end Celery
