/-
# `celery/result.py`: result trees and their two encodings

`AsyncResult.as_tuple` (lines 123-125), `AsyncResult.__reduce_args__` (441-442),
`GroupResult.__reduce_args__`, `__bool__` and `as_tuple` (979-983, 1008-1012) and
`result_from_tuple` (1116-1135).

`resultFromTuple_asTuple` and `resultFromTuple_toLists` are the round trips of the tuples, as
they are and as lists, for every tree.  JSON has no form for a result, and `as_tuple` leaves a
parent that is false as it is; `__reduce_args__` of a group leaves out its parent.
`survives_iff` says which trees both encodings keep.
-/

import Mathlib.Data.List.Basic

namespace Celery
namespace Results

/-- An `AsyncResult` with its id and parent, or a `GroupResult` with its id, results and
parent. -/
inductive Result where
  | task (id : String) (parent : Option Result)
  | group (id : Option String) (results : List Result) (parent : Option Result)

/-- `tuple` and `list`. -/
inductive Seq where
  | tuple
  | list

/-- The values that `as_tuple` builds and `result_from_tuple` reads. -/
inductive PyVal where
  | none
  | str (s : String)
  | seq (kind : Seq) (items : List PyVal)
  | result (r : Result)

namespace Result

/-- `bool(result)`: `GroupResult.__bool__`; an `AsyncResult` is true. -/
def truthy : Result → Bool
  | task .. => true
  | group id results _ => id.any (· ≠ "") || !results.isEmpty

end Result

/-- A string or `None`, as a value. -/
def PyVal.ofId : Option String → PyVal
  | .none => .none
  | some s => .str s

namespace Result

mutual

/-- `as_tuple`. -/
def asTuple : Result → PyVal
  | task id parent =>
    .seq .tuple [.seq .tuple [.ofId (some id), asTupleParent parent], .none]
  | group id results parent =>
    .seq .tuple [.seq .tuple [.ofId id, asTupleParent parent], .seq .list (asTupleAll results)]

/-- `parent and parent.as_tuple()`. -/
def asTupleParent : Option Result → PyVal
  | none => .none
  | some parent => if parent.truthy then asTuple parent else .result parent

def asTupleAll : List Result → List PyVal
  | [] => []
  | r :: results => asTuple r :: asTupleAll results

end

end Result

/-! ## `result_from_tuple` -/

/-- An id that is a string or `None`; there are no others in a tree. -/
def PyVal.id? : PyVal → Option (Option String)
  | .none => some .none
  | .str s => some (some s)
  | _ => .none

/-- `GroupResult` if there are nodes, else `AsyncResult`, which refuses the id `None`. -/
def build (id : Option String) (parent : Option Result) : Option (List Result) → Option Result
  | some results => some (.group id results parent)
  | none => id.map fun id => .task id parent

mutual

/-- `result_from_tuple`; `none` where it raises, or where what it builds has an id that is no
string or a parent that is no result. -/
def resultFromTuple : PyVal → Option Result
  | .result r => some r
  | .seq _ items => fromPair items
  | _ => none

/-- `res, nodes = r` and what follows. -/
def fromPair : List PyVal → Option Result
  | [res, nodes] => do
    let (id, parent) ← fromHead res
    build id parent (← fromNodes nodes)
  | _ => none

/-- `id, parent = res if isinstance(res, (list, tuple)) else (res, None)`. -/
def fromHead : PyVal → Option (Option String × Option Result)
  | .seq _ [id, parent] => do return (← id.id?, ← fromParent parent)
  | .seq _ _ => none
  | res => do return (← res.id?, none)

/-- `if parent: parent = result_from_tuple(parent)`: a false result stays as it is. -/
def fromParent : PyVal → Option (Option Result)
  | .none => some none
  | .result r => some (some r)
  | .seq _ items => do return some (← fromPair items)
  | .str _ => none

/-- The members, if `nodes is not None`; a string that is not empty has no pairs in it. -/
def fromNodes : PyVal → Option (Option (List Result))
  | .none => some none
  | .seq _ nodes => do return some (← fromAll nodes)
  | .str s => if s = "" then some (some []) else none
  | .result (.group _ results _) => some (some results)
  | .result (.task ..) => none

def fromAll : List PyVal → Option (List Result)
  | [] => some []
  | node :: nodes => do return (← resultFromTuple node) :: (← fromAll nodes)

end

/-! ## The trips -/

namespace PyVal

mutual

/-- The tuples become lists. -/
def toLists : PyVal → PyVal
  | .seq _ items => .seq .list (toListsAll items)
  | v => v

def toListsAll : List PyVal → List PyVal
  | [] => []
  | v :: vs => toLists v :: toListsAll vs

end

mutual

/-- JSON has a form for the value: there is no result in it. -/
def encodable : PyVal → Bool
  | .result _ => false
  | .seq _ items => encodableAll items
  | _ => true

def encodableAll : List PyVal → Bool
  | [] => true
  | v :: vs => encodable v && encodableAll vs

end

/-- `json.loads(json.dumps(value))`. -/
def json? (v : PyVal) : Option PyVal :=
  if v.encodable then some v.toLists else .none

end PyVal

/-- The arguments in `__reduce_args__` that are ids or results; the others are the backend and
two `None`. -/
inductive ReduceArgs where
  | task (id : String) (parent : Option Result)
  | group (id : Option String) (results : List Result)

namespace Result

/-- `__reduce_args__`. -/
def reduceArgs : Result → ReduceArgs
  | task id parent => .task id parent
  | group id results _ => .group id results

/-- The class is called with the arguments; the `parent` of a `GroupResult` is `None` by
default. -/
def ofArgs : ReduceArgs → Result
  | .task id parent => task id parent
  | .group id results => group id results none

mutual

/-- Pickling: the results among the arguments are themselves rebuilt. -/
def rebuild : Result → Result
  | task id parent => ofArgs (.task id (rebuildParent parent))
  | group id results _ => ofArgs (.group id (rebuildAll results))

def rebuildParent : Option Result → Option Result
  | none => none
  | some parent => some (rebuild parent)

def rebuildAll : List Result → List Result
  | [] => []
  | r :: results => rebuild r :: rebuildAll results

end

/-- The results among the arguments rebuilt. -/
def rebuildArgs : ReduceArgs → ReduceArgs
  | .task id parent => .task id (rebuildParent parent)
  | .group id results => .group id (rebuildAll results)

/-- `parent`. -/
def parent? : Result → Option Result
  | task _ parent => parent
  | group _ _ parent => parent

/-- Whether a result is a `GroupResult`. -/
def isGroup : Result → Bool
  | task .. => false
  | group .. => true

mutual

/-- The nodes of a tree. -/
def nodes : Result → List Result
  | task id parent => task id parent :: nodesParent parent
  | group id results parent => group id results parent :: (nodesAll results ++ nodesParent parent)

def nodesParent : Option Result → List Result
  | none => []
  | some parent => nodes parent

def nodesAll : List Result → List Result
  | [] => []
  | r :: results => nodes r ++ nodesAll results

end

/-- **Both encodings give the tree back:** the tuples, also through JSON, and pickling. -/
structure Survives (r : Result) : Prop where
  tuple : resultFromTuple r.asTuple = some r
  json : r.asTuple.json?.bind resultFromTuple = some r
  pickle : r.rebuild = r

/-- No group of the tree has a parent. -/
def GroupsOrphaned (r : Result) : Prop :=
  ∀ node ∈ r.nodes, node.isGroup → node.parent? = none

/-- No parent in the tree is an empty group without an id. -/
def ParentsTruthy (r : Result) : Prop :=
  ∀ node ∈ r.nodes, ∀ parent ∈ node.parent?, parent.truthy

end Result

/-! ## The tuples -/

@[simp]
theorem id?_ofId (id : Option String) : (PyVal.ofId id).id? = some id := by
  cases id <;> rfl

@[simp]
theorem toLists_ofId (id : Option String) : (PyVal.ofId id).toLists = .ofId id := by
  cases id <;> simp [PyVal.ofId, PyVal.toLists]

@[simp]
theorem id?_toLists (v : PyVal) : v.toLists.id? = v.id? := by
  cases v <;> simp [PyVal.toLists, PyVal.id?]

open PyVal in
mutual

/-- **The decoder does not tell tuples from lists.** -/
theorem resultFromTuple_toLists : ∀ v : PyVal, resultFromTuple v.toLists = resultFromTuple v
  | .none | .str _ | .result _ => by rw [toLists]; rintro _ _ ⟨⟩
  | .seq _ items => by
    rw [toLists, resultFromTuple, resultFromTuple, fromPair_toListsAll items]

theorem fromPair_toListsAll : ∀ items : List PyVal,
    fromPair (toListsAll items) = fromPair items
  | [] => rfl
  | [_] => by simp [toListsAll, fromPair]
  | [res, nodes] => by
    rw [toListsAll, toListsAll, toListsAll, fromPair, fromPair, fromHead_toLists res,
      fromNodes_toLists nodes]
  | _ :: _ :: _ :: _ => by simp [toListsAll, fromPair]

theorem fromHead_toLists : ∀ v : PyVal, fromHead v.toLists = fromHead v
  | .none | .str _ | .result _ => by rw [toLists]; rintro _ _ ⟨⟩
  | .seq _ [] => by simp [toLists, toListsAll, fromHead]
  | .seq _ [_] => by simp [toLists, toListsAll, fromHead]
  | .seq _ [id, parent] => by
    rw [toLists, toListsAll, toListsAll, toListsAll, fromHead, fromHead, id?_toLists,
      fromParent_toLists parent]
  | .seq _ (_ :: _ :: _ :: _) => by simp [toLists, toListsAll, fromHead]

theorem fromParent_toLists : ∀ v : PyVal, fromParent v.toLists = fromParent v
  | .none | .str _ | .result _ => by rw [toLists]; rintro _ _ ⟨⟩
  | .seq _ items => by rw [toLists, fromParent, fromParent, fromPair_toListsAll items]

theorem fromNodes_toLists : ∀ v : PyVal, fromNodes v.toLists = fromNodes v
  | .none | .str _ | .result _ => by rw [toLists]; rintro _ _ ⟨⟩
  | .seq _ nodes => by rw [toLists, fromNodes, fromNodes, fromAll_toListsAll nodes]

theorem fromAll_toListsAll : ∀ nodes : List PyVal, fromAll (toListsAll nodes) = fromAll nodes
  | [] => rfl
  | node :: nodes => by
    rw [toListsAll, fromAll, fromAll, resultFromTuple_toLists node, fromAll_toListsAll nodes]

end

namespace Result

mutual

/-- **`result_from_tuple(r.as_tuple())`** is the tree, whatever its parents are. -/
theorem resultFromTuple_asTuple : ∀ r : Result, resultFromTuple r.asTuple = some r
  | task id parent => by
    rw [asTuple, resultFromTuple, fromPair, fromHead, fromParent_asTupleParent parent]
    rfl
  | group id results parent => by
    rw [asTuple, resultFromTuple, fromPair, fromHead, fromParent_asTupleParent parent, fromNodes,
      fromAll_asTupleAll results, id?_ofId]
    rfl

theorem fromParent_asTupleParent : ∀ parent : Option Result,
    fromParent (asTupleParent parent) = some parent
  | none => rfl
  | some parent => by
    rw [asTupleParent]
    split
    · have htrip := resultFromTuple_asTuple parent
      cases parent <;>
      · rw [asTuple, resultFromTuple] at htrip
        rw [asTuple, fromParent, htrip]
        rfl
    · rfl

theorem fromAll_asTupleAll : ∀ results : List Result, fromAll (asTupleAll results) = some results
  | [] => rfl
  | r :: results => by
    rw [asTupleAll, fromAll, resultFromTuple_asTuple r, fromAll_asTupleAll results]
    rfl

end

/-- A condition on the nodes of a single result. -/
theorem forall_nodes_task {P : Result → Prop} {id : String} {parent : Option Result} :
    (∀ node ∈ (task id parent).nodes, P node) ↔
      P (task id parent) ∧ ∀ node ∈ nodesParent parent, P node := by
  rw [nodes, List.forall_mem_cons]

/-- A condition on the nodes of a group. -/
theorem forall_nodes_group {P : Result → Prop} {id : Option String} {results : List Result}
    {parent : Option Result} :
    (∀ node ∈ (group id results parent).nodes, P node) ↔
      P (group id results parent) ∧
        (∀ node ∈ nodesAll results, P node) ∧ ∀ node ∈ nodesParent parent, P node := by
  rw [nodes, List.forall_mem_cons, List.forall_mem_append]

mutual

theorem encodable_asTuple : ∀ r : Result, r.asTuple.encodable ↔ r.ParentsTruthy
  | task id parent => by
    rw [ParentsTruthy, forall_nodes_task, parent?, ← encodable_asTupleParent parent]
    simp [asTuple, PyVal.encodable, PyVal.encodableAll, PyVal.ofId]
  | group id results parent => by
    rw [ParentsTruthy, forall_nodes_group, and_left_comm, ← encodableAll_asTupleAll results,
      and_comm, parent?, ← encodable_asTupleParent parent]
    cases id <;> simp [asTuple, PyVal.encodable, PyVal.encodableAll, PyVal.ofId]

theorem encodable_asTupleParent : ∀ parent : Option Result,
    (asTupleParent parent).encodable ↔
      (∀ p ∈ parent, p.truthy) ∧
        ∀ node ∈ nodesParent parent, ∀ p ∈ node.parent?, p.truthy
  | none => by simp [asTupleParent, PyVal.encodable, nodesParent]
  | some parent => by
    have hparent := encodable_asTuple parent
    rw [asTupleParent]
    split
    next h => simpa [h, nodesParent, ParentsTruthy] using hparent
    next h => simp [h, PyVal.encodable]

theorem encodableAll_asTupleAll : ∀ results : List Result,
    PyVal.encodableAll (asTupleAll results) ↔
      ∀ node ∈ nodesAll results, ∀ p ∈ node.parent?, p.truthy
  | [] => by simp [asTupleAll, PyVal.encodableAll, nodesAll]
  | r :: results => by
    rw [asTupleAll, PyVal.encodableAll, Bool.and_eq_true, encodable_asTuple r,
      encodableAll_asTupleAll results, nodesAll, List.forall_mem_append]
    rfl

end

/-- **Through JSON** exactly the trees survive in which no parent is an empty group without an
id. -/
theorem json_iff (r : Result) :
    r.asTuple.json?.bind resultFromTuple = some r ↔ r.ParentsTruthy := by
  rw [← encodable_asTuple, PyVal.json?]
  split
  next h =>
    refine iff_of_true ?_ h
    rw [Option.bind_some, resultFromTuple_toLists, resultFromTuple_asTuple]
  next h => simp [h]

/-! ## Pickling -/

/-- Pickling calls `__reduce__` at every node. -/
theorem rebuild_eq (r : Result) : r.rebuild = ofArgs (rebuildArgs r.reduceArgs) := by
  cases r <;> rfl

/-- `fun(*args)` for `fun, args = r.__reduce__()` is the result, unless it is a group with a
parent. -/
theorem ofArgs_reduceArgs_iff (r : Result) :
    ofArgs r.reduceArgs = r ↔ (r.isGroup → r.parent? = none) := by
  cases r with
  | task id parent => simp [reduceArgs, ofArgs, isGroup]
  | group id results parent => cases parent <;> simp [reduceArgs, ofArgs, isGroup, parent?]

mutual

/-- **Pickling** keeps exactly the trees in which no group has a parent. -/
theorem rebuild_eq_iff : ∀ r : Result, r.rebuild = r ↔ r.GroupsOrphaned
  | task id parent => by
    rw [GroupsOrphaned, forall_nodes_task, ← rebuildParent_eq_iff parent]
    simp [rebuild, ofArgs, isGroup]
  | group id results parent => by
    rw [GroupsOrphaned, forall_nodes_group, ← rebuildAll_eq_iff results]
    cases parent <;> simp [rebuild, ofArgs, isGroup, parent?, nodesParent]

theorem rebuildParent_eq_iff : ∀ parent : Option Result, rebuildParent parent = parent ↔
    ∀ node ∈ nodesParent parent, node.isGroup → node.parent? = none
  | none => by simp [rebuildParent, nodesParent]
  | some parent => by
    rw [rebuildParent, nodesParent, Option.some_inj]
    exact rebuild_eq_iff parent

theorem rebuildAll_eq_iff : ∀ results : List Result, rebuildAll results = results ↔
    ∀ node ∈ nodesAll results, node.isGroup → node.parent? = none
  | [] => by simp [rebuildAll, nodesAll]
  | r :: results => by
    rw [rebuildAll, nodesAll, List.cons.injEq, List.forall_mem_append, rebuild_eq_iff r,
      rebuildAll_eq_iff results]
    rfl

end

/-- **Which trees survive both encodings:** those in which no group has a parent, and no parent
is an empty group without an id. -/
theorem survives_iff (r : Result) : r.Survives ↔ r.GroupsOrphaned ∧ r.ParentsTruthy :=
  ⟨fun h => ⟨r.rebuild_eq_iff.mp h.pickle, r.json_iff.mp h.json⟩,
    fun ⟨hgroups, hparents⟩ =>
      ⟨r.resultFromTuple_asTuple, r.json_iff.mpr hparents, r.rebuild_eq_iff.mpr hgroups⟩⟩

/-- A group of one task, after another task: pickling leaves out that task. -/
theorem group_after_task_lost :
    ¬ (group (some "g") [task "a" none] (some (task "p" none))).Survives := by
  intro h
  have hpickle := h.pickle
  simp [rebuild, ofArgs] at hpickle

end Result
end Results
end Celery
