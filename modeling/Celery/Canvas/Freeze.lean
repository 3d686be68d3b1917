/-
# `celery/canvas.py`: cloning, preparing and freezing signatures

`clone` (lines 460-496, with the `from_dict` of each kind), `_chain.prepare_steps`
(1198-1349) and the four `freeze` methods: of a task (500-549), of a chain, of a
group (`_freeze_group_tasks`, `_freeze_unroll`, `_freeze_tasks`, 1910-2024) and
of a chord (2171-2202).

`freeze` changes signatures in place; here it returns the changed tree.  A
frozen chain holds the steps that `prepare_steps` has made of its members, in
the order in which they run, where the source keeps them in `_frozen`, reversed.
A header task holds the body of its chord by reference and so sees it frozen: the
model freezes the body before the header.  A group before another step becomes
the header of a chord with that step, which has been frozen, as its body; the
second `freeze` of the body finds all ids and tags in place and is not modelled.

The loops of the source are worklists.  They run on fuel, of which the weight of
a signature is always enough (`Celery.Canvas.Steps`).  `link_error` and
`use_link`, which is of task protocol 1, are left out.
-/

import Celery.Canvas.Signature
import Celery.Utils.Time

namespace Celery
namespace Canvas

/-- What signatures are bound to, as far as they ask: the id of this thread and
the uuids not yet used. -/
structure App where
  threadOid : TaskId
  nextUuid : TaskId

/-- Freezing takes new ids from the app and may raise. -/
abbrev FreezeM := StateT App (Except PyError)

/-- `uuid()`. -/
def uuid : FreezeM TaskId := fun app =>
  .ok (app.nextUuid, { app with nextUuid := app.nextUuid + 1 })

/-- What `freeze` returns: an `AsyncResult` or a `GroupResult`. -/
inductive Result where
  | async (id : TaskId)
  | group (id : TaskId) (results : List Result)

/-- `result.id`. -/
def Result.id : Result → TaskId
  | async i => i
  | group i _ => i

/-- The arguments of `freeze`.  `chord` is the body that `if chord:` lets
through: an empty group is none. -/
structure FreezeArgs (V : Type) where
  id : Option TaskId := none
  groupId : Option TaskId := none
  chord : Option (Sig V) := none
  rootId : Option TaskId := none
  parentId : Option TaskId := none
  groupIndex : Option ℕ := none

/-- `freeze`, as the code that calls it sees it. -/
abbrev Freezer (V : Type) := FreezeArgs V → Sig V → FreezeM (Sig V × Result)

/-- Prepared steps with their results, in the order in which they run. -/
abbrev Steps (V : Type) := List (Sig V × Result)

variable {V : Type}

/-- `d[k] = v`. -/
def dictSet (k : String) (v : V) : List (String × V) → List (String × V)
  | [] => [(k, v)]
  | (k', v') :: d => if k' = k then (k, v) :: d else (k', v') :: dictSet k v d

/-- `dict(d, **e)`. -/
def dictUpdate (d e : List (String × V)) : List (String × V) :=
  e.foldl (fun d kv => dictSet kv.1 kv.2 d) d

/-- `k in d`. -/
def dictHas (d : List (String × V)) (k : String) : Bool := d.any (·.1 == k)

/-- `Signature._merge` with no options: nothing is merged into an immutable
signature. -/
def Fields.merge (args : List V) (kwargs : List (String × V)) (f : Fields V (Sig V)) :
    Fields V (Sig V) :=
  if f.immutable then f
  else { f with args := args ++ f.args, kwargs := dictUpdate f.kwargs kwargs }

namespace Sig

mutual

/-- `sig.clone()`.  `_chain.from_dict` and `group.from_dict` rebuild the
signature from its members and options only. -/
def clone : Sig V → Sig V
  | task n f => task n f
  | chain ts f => chain (cloneAll ts) { options := f.options }
  | group l ts f => group l ts { options := f.options }
  -- the header of a frozen chord is a group, whose list is taken as it is
  | chord l h (some _) b f => chord l h none (clone b) f
  | chord _ h none b f => chord false (cloneAll h) none (clone b) f

def cloneAll : List (Sig V) → List (Sig V)
  | [] => []
  | t :: ts => clone t :: cloneAll ts

end

/-- Whether `kwargs` would take the place of the members of a signature, which
are entries of its own `kwargs`.  No value is a list of signatures, so the
`from_dict` that meets one raises. -/
def clobbered (kwargs : List (String × V)) : Sig V → Bool
  | task .. => false
  | chain _ f => !f.immutable && dictHas kwargs "tasks"
  | group _ _ f => !f.immutable && dictHas kwargs "tasks"
  | chord _ _ _ _ f => !f.immutable && (dictHas kwargs "header" || dictHas kwargs "body")

/-- What becomes of partial arguments in `clone(args, kwargs)`: a task and a
chord keep them, a chain and a group lose them in `from_dict`. -/
def receiveArgs (args : List V) (kwargs : List (String × V)) : Sig V → Sig V
  | task n f => task n (f.merge args kwargs)
  | chord l h hg b f => chord l h hg b (f.merge args kwargs)
  | s => s

/-- `sig.clone(args, kwargs)`. -/
def cloneWith (args : List V) (kwargs : List (String × V)) (s : Sig V) : Except PyError (Sig V) :=
  if s.clobbered kwargs then .error .typeError else .ok (s.clone.receiveArgs args kwargs)

/-- `sig.args = tuple(args) + tuple(sig.args)`. -/
def prependArgs (args : List V) (s : Sig V) : Sig V :=
  s.withFields { s.fields with args := args ++ s.fields.args }

mutual

/-- The number of nodes of a signature. -/
def weight : Sig V → ℕ
  | task .. => 1
  | chain ts _ => weightAll ts + 1
  | group _ ts _ => weightAll ts + 1
  | chord _ h _ b _ => weightAll h + weight b + 1

def weightAll : List (Sig V) → ℕ
  | [] => 0
  | t :: ts => weight t + weightAll ts

end

end Sig

open Sig

/-- The options of a task frozen under the id `tid`. -/
def FreezeArgs.taskOptions (p : FreezeArgs V) (opts : Options V (Sig V)) (tid threadOid : TaskId) :
    Options V (Sig V) :=
  { opts with
    taskId := some tid
    rootId := (p.rootId.map some).or opts.rootId
    parentId := (p.parentId.map some).or opts.parentId
    replyTo := opts.replyTo.or (some threadOid)
    groupId := opts.groupId.or p.groupId
    chord := p.chord.or opts.chord
    groupIndex := p.groupIndex.or opts.groupIndex }

/-- `Signature.freeze`. -/
def freezeTask (p : FreezeArgs V) (name : String) (f : Fields V (Sig V)) :
    FreezeM (Sig V × Result) := do
  let tid ← (f.options.taskId.or p.id).getDM uuid
  let app ← get
  pure (.task name { f with options := p.taskOptions f.options tid app.threadOid }, .async tid)

/-- `group._freeze_unroll`: a worklist from the left, on which a nested group
puts its members one after the other, so in reverse. -/
def freezeUnroll (freeze : Freezer V) (p : FreezeArgs V) :
    ℕ → List (Sig V) → ℕ → FreezeM (Steps V)
  | _, [], _ => pure []
  | 0, _ :: _, _ => throw .outOfFuel
  | n + 1, s :: stack, groupIndex =>
    match s.clone with
    | .group _ ts _ => freezeUnroll freeze p n (ts.reverse ++ stack) groupIndex
    | sig =>
      if sig.isEmptyChain then freezeUnroll freeze p n stack groupIndex
      else do
        let step ← freeze { p with groupIndex := some groupIndex } sig
        let steps ← freezeUnroll freeze p n stack (groupIndex + 1)
        pure (step :: steps)

/-- `group._freeze_tasks` over `group._unroll_tasks`: the members of a generator
are frozen one by one.  An empty chain stays a member and has no result. -/
def freezeTasks (freeze : Freezer V) (p : FreezeArgs V) :
    List (Sig V) → ℕ → FreezeM (List (Sig V) × List Result)
  | [], _ => pure ([], [])
  | s :: ts, groupIndex =>
    let task := s.clone
    if task.isEmptyChain then do
      let (tasks, results) ← freezeTasks freeze p ts (groupIndex + 1)
      pure (task :: tasks, results)
    else do
      let (task, res) ← freeze { p with groupIndex := some groupIndex } task
      let (tasks, results) ← freezeTasks freeze p ts (groupIndex + 1)
      pure (task :: tasks, res :: results)

/-- The options of a group frozen under the id `gid`. -/
def FreezeArgs.groupOptions (p : FreezeArgs V) (opts : Options V (Sig V)) (gid : TaskId) :
    Options V (Sig V) :=
  { opts with
    taskId := some gid
    groupId := p.groupId.or opts.groupId
    chord := p.chord.or opts.chord
    groupIndex := p.groupIndex.or opts.groupIndex
    rootId := some (opts.rootId.getD p.rootId)
    parentId := some (opts.parentId.getD p.parentId) }

/-- What the members of a group are frozen with, their index aside. -/
def FreezeArgs.member (p : FreezeArgs V) (opts : Options V (Sig V)) : FreezeArgs V where
  groupId := p.groupId
  chord := p.chord
  rootId := opts.rootId.getD p.rootId
  parentId := opts.parentId.getD p.parentId

/-- `group._freeze_group_tasks`: the group's options, its members and their
results. -/
def freezeGroupTasks (freeze : Freezer V) (p : FreezeArgs V) (lazy : Bool) (tasks : List (Sig V))
    (opts : Options V (Sig V)) :
    FreezeM (Options V (Sig V) × List (Sig V) × Result) := do
  let gid ← (opts.taskId.or p.groupId).getDM uuid
  let member := p.member opts
  let opts := p.groupOptions opts gid
  if lazy then
    let (tasks, results) ← freezeTasks freeze member tasks 0
    pure (opts, tasks, .group gid results)
  else
    let steps ← freezeUnroll freeze member (weightAll tasks) tasks 0
    pure (opts, steps.map Prod.fst, .group gid (steps.map Prod.snd))

/-- `group.freeze`. -/
def freezeGroup (freeze : Freezer V) (p : FreezeArgs V) (lazy : Bool) (tasks : List (Sig V))
    (f : Fields V (Sig V)) : FreezeM (Sig V × Result) := do
  let (opts, tasks, res) ← freezeGroupTasks freeze p lazy tasks f.options
  pure (.group lazy tasks { f with options := opts }, res)

/-- `_chord.freeze` from its frozen body on: the header is made a group, whose id
the chord takes, and its tasks report to the body.  `truthy` is what the body was
before. -/
def freezeHeader (freeze : Freezer V) (p : FreezeArgs V) (lazy : Bool) (header : List (Sig V))
    (headerGroup : Option (Options V (Sig V))) (truthy : Bool) (frozenBody : Sig V)
    (f : Fields V (Sig V)) : FreezeM (Sig V) := do
  let chord := if truthy then some frozenBody else none
  let (opts, header, _) ← freezeGroupTasks freeze
    { rootId := p.rootId, parentId := p.parentId, chord := chord } lazy header
    (headerGroup.getD {})
  pure (.chord lazy header (some opts) frozenBody
    { f with options := { f.options with taskId := opts.taskId } })

/-- `_chord.freeze`: the body is what the chord reports with and what it
returns. -/
def freezeChord (freeze : Freezer V) (p : FreezeArgs V) (lazy : Bool) (header : List (Sig V))
    (headerGroup : Option (Options V (Sig V))) (body : Sig V) (f : Fields V (Sig V)) :
    FreezeM (Sig V × Result) := do
  let (frozenBody, bodyResult) ← freeze { p with parentId := none } body
  let chord ← freezeHeader freeze p lazy header headerGroup body.truthy frozenBody f
  pure (chord, bodyResult)

/-- The first loop of `prepare_steps`: splice the chains at the head of a chain,
unroll a group there and strip it if it is empty and not alone. -/
def normaliseHead (clone : Bool) : ℕ → List (Sig V) → List (Sig V)
  | n + 1, .chain ts _ :: st => normaliseHead clone n ((if clone then cloneAll ts else ts) ++ st)
  | n + 1, .group l ts f :: st =>
    let head := (Sig.group l ts f).maybeUnrollGroup
    if !st.isEmpty && head.isEmptyGroup then normaliseHead clone n st else head :: st
  | _, st => st

/-- What `prepare_steps` is called with, its tasks aside. -/
structure Prepare (V : Type) where
  clone : Bool := true
  args : List V := []
  kwargs : List (String × V) := []
  lastTaskId : Option TaskId := none
  rootId : Option TaskId := none
  groupId : Option TaskId := none
  chordBody : Option (Sig V) := none
  groupIndex : Option ℕ := none

/-- The first task of the chain gets the partial arguments. -/
def Prepare.receive (c : Prepare V) (isFirstTask : Bool) (task : Sig V) :
    Except PyError (Sig V) :=
  match c.clone, isFirstTask with
  | true, true => task.cloneWith c.args c.kwargs
  | true, false => .ok task.clone
  | false, true => .ok (task.prependArgs c.args)
  | false, false => .ok task

/-- What the last step of the chain is frozen with: it is the one that reports
for the chain. -/
def Prepare.lastArgs (c : Prepare V) : FreezeArgs V where
  id := c.lastTaskId
  groupId := c.groupId
  chord := c.chordBody
  rootId := c.rootId
  groupIndex := c.groupIndex

/-- Freeze a step before the prepared ones.  A group before another step is
upgraded, `chord(group, body=prev_task, root_id=root_id)`, which takes the members
of the group and no more.  The `task_id` that chord is given too is replaced by
that of its header as soon as it is frozen. -/
def freezeStep (freeze : Freezer V) (c : Prepare V) (task : Sig V) : Steps V → FreezeM (Steps V)
  | [] => do
    let step ← freeze c.lastArgs task
    pure [step]
  | (prevTask, prevRes) :: steps => do
    match task, prevTask.truthy with
    | .group l ts _, true =>
      let chord ← freezeHeader freeze { rootId := c.rootId } l ts none true prevTask
        { options := { rootId := some c.rootId } }
      pure ((chord, prevRes) :: steps)
    | _, _ =>
      let step ← freeze { rootId := c.rootId } task
      pure (step :: (prevTask, prevRes) :: steps)

/-- `prev_task`, as a condition. -/
def prevTruthy (steps : Steps V) : Bool := steps.head?.any (·.1.truthy)

/-- The second loop of `prepare_steps`, over the steps not yet taken, the last
one first. -/
def prepareLoop (freeze : Freezer V) (c : Prepare V) :
    ℕ → List (Sig V) → Steps V → FreezeM (Steps V)
  | _, [], steps => pure steps
  | 0, _ :: _, _ => throw .outOfFuel
  | n + 1, s :: st, steps =>
    let task := s.maybeUnrollGroup
    if task.isEmptyGroup && (!st.isEmpty || prevTruthy steps) then
      prepareLoop freeze c n st steps
    else do
      let task ← c.receive st.isEmpty task
      match task with
      | .chain ts _ => prepareLoop freeze c n (ts.reverse ++ st) steps
      | sig =>
        let steps ← freezeStep freeze c sig steps
        prepareLoop freeze c n st steps

/-- `_chain.prepare_steps`. -/
def prepareSteps (freeze : Freezer V) (c : Prepare V) (tasks : List (Sig V)) :
    FreezeM (Steps V) :=
  let steps := normaliseHead c.clone (weightAll tasks) tasks
  prepareLoop freeze c (weightAll steps) steps.reverse []

/-- `_chain.freeze`: the result of a chain is that of its last step. -/
def freezeChain (freeze : Freezer V) (p : FreezeArgs V) (tasks : List (Sig V))
    (f : Fields V (Sig V)) : FreezeM (Sig V × Result) := do
  let steps ← prepareSteps freeze
    { clone := false, args := f.args, kwargs := f.kwargs, lastTaskId := p.id, rootId := p.rootId,
      groupId := p.groupId, chordBody := p.chord, groupIndex := p.groupIndex } tasks
  match steps.getLast? with
  | none => throw .indexError
  | some (_, res) =>
    pure (.chain (steps.map Prod.fst)
      { f with options := { f.options with taskId := some res.id } }, res)

/-- `sig.freeze(...)`, with fuel for the depth of the calls. -/
def freezeFuel : ℕ → Freezer V
  | 0 => fun _ _ => throw .outOfFuel
  | n + 1 => fun p s => match s with
    | .task name f => freezeTask p name f
    | .chain ts f => freezeChain (freezeFuel n) p ts f
    | .group l ts f => freezeGroup (freezeFuel n) p l ts f
    | .chord l h hg b f => freezeChord (freezeFuel n) p l h hg b f

/-- `sig.freeze(...)`. -/
def freeze (p : FreezeArgs V) (s : Sig V) : FreezeM (Sig V × Result) := freezeFuel s.weight p s

/-- `chain.prepare_steps(...)`. -/
def prepareChain (c : Prepare V) (tasks : List (Sig V)) : FreezeM (Steps V) :=
  prepareSteps (freezeFuel (weightAll tasks)) c tasks

end Canvas
end Celery
