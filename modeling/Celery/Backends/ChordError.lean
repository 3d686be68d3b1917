/-
# The failure of a chord header

When the last part of a chord comes in and a part has failed, the backend does not
call the body but `chord_error_from_stack` on it (`celery/backends/base.py`, lines
400-521).  This file models that error path and the two ways to it: in
`RedisBackend.on_chord_part_return` (`celery/backends/redis.py`, lines 798-860)
and in the counting `on_chord_part_return` of the key/value backends
(`base.py`, lines 1333-1401).  What the store and the callbacks answer is given,
and messages stop where the source prints an exception.

The error path stores a failure under the id of the body, or under the ids of its
tasks if it is a group, always without a request.  So nobody is told that the body
will not report to the chord it is in the header of, and that chord gets no part
(`chordError_partReturnsFor_iff`).
-/

import Celery.Backends.ChainFailure
import Celery.Backends.Redis

namespace Celery
namespace Backend

open Canvas Sig

variable {V : Type}

/-- What is done when a chord is complete. -/
inductive ChordCall (V : Type) where
  | mark (call : Call V)
  | delay (callback : Sig V) (resl : List V)
  | revoke (ids : List TaskId)
  | deleteKeys

/-- The calls that mark tasks. -/
def ChordCall.mark? : ChordCall V → Option (Call V)
  | mark c => some c
  | _ => none

/-- The calls that mark tasks, in order. -/
def marks (cs : List (ChordCall V)) : List (Call V) := cs.filterMap ChordCall.mark?

/-- `_create_fake_task_request`. -/
def createFakeTaskRequest (taskId : TaskId) (errbacks : List (Sig V)) : Context V where
  id := some taskId
  errbacks := errbacks

/-- The exceptions that the errbacks of a request raise, if any. -/
abbrev Errbacks (V : Type) := Context V → Option (Exc V)

/-- The cause of a `ChordError`, or the exception itself. -/
def originalExc : Exc V → Exc V
  | .chordError _ (some cause) => cause
  | exc => exc

/-- `fail_from_current_stack`, as a call on the completion of a chord. -/
def failCalls (taskId : TaskId) (exc : Exc V) : List (ChordCall V) :=
  (failFromCurrentStack taskId (.exc exc)).map .mark

/-- `_handle_group_chord_error`: what the errbacks raise is passed over. -/
def handleGroupChordError (groupCallback : Sig V) (exc : Exc V) (app : App) :
    List (ChordCall V) :=
  let original := originalExc exc
  match freeze {} groupCallback app with
  -- `freeze` gives the group its id before it comes to a member that raises
  | .error _ => failCalls (groupCallback.options.taskId.getD app.nextUuid) exc
  | .ok ((_, .async _), _) => []
  | .ok ((_, .group gid results), _) =>
    (results.flatMap fun r =>
      let fakeRequest := createFakeTaskRequest r.id groupCallback.options.linkError
      .mark (.callTaskErrbacks fakeRequest (.exc original)) :: failCalls r.id original) ++
    (markAsFailure gid (.exc original) none).map .mark ++ [.revoke (results.map Result.id)]

/-- `chord_error_from_stack`: what an errback raises takes the place of the
error. -/
def chordErrorFromStack (errbacks : Errbacks V) (callback : Sig V) (exc : Exc V) (app : App) :
    List (ChordCall V) :=
  if callback.isGroup then handleGroupChordError callback exc app
  else
    let callbackId := callback.options.taskId.getD app.nextUuid
    let fakeRequest := createFakeTaskRequest callbackId callback.options.linkError
    .mark (.callTaskErrbacks fakeRequest (.exc exc)) ::
      failCalls callbackId ((errbacks fakeRequest).getD exc)

/-- Call the body with the results; an exception of that is an error of the chord,
with its `cause` or without. -/
def callBody (errbacks : Errbacks V) (callback : Sig V) (resl : List V) (delay : Option (Exc V))
    (cause : Exc V → Option (Exc V)) (app : App) : List (ChordCall V) :=
  .delay callback resl ::
    match delay with
    | none => []
    | some e => chordErrorFromStack errbacks callback (.chordError "Callback error" (cause e)) app

/-- What Redis answers to a part: how many parts there are, how many there should
be, what joining the saved header gives, if it was saved, and the parts. -/
structure RedisReply (V : Type) where
  readycount : ℕ
  totaldiff : ℕ
  chordSize : Option ℕ
  restored : Option (Except (Exc V) (List V))
  parts : List (Redis.Part V)
  delay : Option (Exc V)

/-- The results of the header, joined or unpacked. -/
def RedisReply.results (reply : RedisReply V) : Except (Exc V) (List V) :=
  reply.restored.getD (reply.parts.mapM Redis.unpackChordResult)

/-- A `ChordError` is passed on as it is. -/
def joinError : Exc V → Exc V
  | .chordError message cause => .chordError message cause
  | _ => .chordError "Join error" none

/-- `RedisBackend.on_chord_part_return`, from the answer to its pipeline on. -/
def RedisReply.onChordPartReturn (reply : RedisReply V) (errbacks : Errbacks V)
    (request : Context V) (app : App) : List (ChordCall V) :=
  match request.id, request.group, request.chord, reply.chordSize with
  | some _, some _, some callback, some size =>
    if reply.readycount = size + reply.totaldiff then
      match reply.results with
      | .error e => chordErrorFromStack errbacks callback (joinError e) app
      | .ok resl => callBody errbacks callback resl reply.delay (fun _ => none) app ++ [.deleteKeys]
    else []
  | _, _, _, _ => []

/-- What a counting key/value backend answers: the saved header, by its length, the
counter, the size in the request and what joining the header gives, with the first
failed member. -/
structure IncrReply (V : Type) where
  deps : Except (Exc V) (Option ℕ)
  val : ℕ
  chordSize : Option ℕ
  join : Except (Exc V) (List V)
  culprit : Option TaskId
  delay : Option (Exc V)

/-- The error a failed join gives: without a culprit it is called after the
exception alone. -/
def IncrReply.joinError (reply : IncrReply V) (exc : Exc V) : Exc V :=
  match reply.culprit with
  | some culprit => .chordError s!"Dependency {culprit} raised" (some exc)
  | none => .chordError "" (some exc)

/-- `BaseKeyValueStoreBackend.on_chord_part_return`, with `implements_incr`. -/
def IncrReply.onChordPartReturn (reply : IncrReply V) (errbacks : Errbacks V)
    (request : Context V) (app : App) : List (ChordCall V) :=
  match request.group, request.chord with
  | some gid, some callback =>
    match reply.deps with
    | .error _ =>
      chordErrorFromStack errbacks callback (.chordError "Cannot restore group" none) app
    | .ok none =>
      chordErrorFromStack errbacks callback
        (.chordError s!"GroupResult {gid} no longer exists" none) app
    | .ok (some length) =>
      if reply.val = reply.chordSize.getD length then
        (match reply.join with
        | .error e => chordErrorFromStack errbacks callback (reply.joinError e) app
        | .ok ret => callBody errbacks callback ret reply.delay some app) ++ [.deleteKeys]
      -- one too many is only logged, and one too few only waited for
      else []
  | _, _ => []

/-- A backend with native chords, with its answer. -/
inductive NativeReply (V : Type) where
  | redis (reply : RedisReply V)
  | incr (reply : IncrReply V)

/-- `on_chord_part_return` of a backend with native chords. -/
def NativeReply.onChordPartReturn : NativeReply V → Errbacks V → Context V → App →
    List (ChordCall V)
  | redis reply => reply.onChordPartReturn
  | incr reply => reply.onChordPartReturn

/-- The chord is complete, and its header has failed with `e`. -/
inductive NativeReply.HeaderFailed : NativeReply V → Exc V → Prop
  | redis {reply : RedisReply V} {size : ℕ} {e : Exc V} (hsize : reply.chordSize = some size)
      (hcomplete : reply.readycount = size + reply.totaldiff) (he : reply.results = .error e) :
      HeaderFailed (.redis reply) (Backend.joinError e)
  | incr {reply : IncrReply V} {length : ℕ} {e : Exc V} (hdeps : reply.deps = .ok (some length))
      (hcomplete : reply.val = reply.chordSize.getD length) (he : reply.join = .error e) :
      HeaderFailed (.incr reply) (reply.joinError e)

/-- The request of a task in the header of the chord `I`. -/
def headerRequest (tid gid : TaskId) (I : Sig V) : Context V where
  id := some tid
  group := some gid
  chord := I.body?

/-- **A failed header leads to `chord_error_from_stack` on the body.** -/
theorem marks_of_headerFailed {reply : NativeReply V} {e : Exc V} (hfailed : reply.HeaderFailed e)
    (errbacks : Errbacks V) (tid gid : TaskId) {I callback : Sig V} (hI : I.body? = some callback)
    (app : App) :
    marks (reply.onChordPartReturn errbacks (headerRequest tid gid I) app) =
      marks (chordErrorFromStack errbacks callback e app) := by
  cases hfailed with
  | redis hsize hcomplete he =>
    simp only [NativeReply.onChordPartReturn, RedisReply.onChordPartReturn, headerRequest, hI,
      hsize, hcomplete, if_true, he]
  | incr hdeps hcomplete he =>
    simp only [NativeReply.onChordPartReturn, IncrReply.onChordPartReturn, headerRequest, hI,
      hdeps, hcomplete, if_true, he]
    simp [marks, ChordCall.mark?]

/-! ### Nobody is told -/

@[simp] theorem marks_append (cs ds : List (ChordCall V)) :
    marks (cs ++ ds) = marks cs ++ marks ds := List.filterMap_append

@[simp] theorem marks_map_mark (cs : List (Call V)) : marks (cs.map .mark) = cs := by
  simp [marks, List.filterMap_map, Function.comp_def, ChordCall.mark?]

theorem partReturns_markAsFailure_none (taskId : TaskId) (exc : Payload V) :
    partReturns (markAsFailure taskId exc none) = [] := by
  simp [markAsFailure]

theorem partReturns_failCalls (taskId : TaskId) (exc : Exc V) :
    partReturns (marks (failCalls taskId exc)) = [] := by
  rw [failCalls, marks_map_mark]
  exact partReturns_markAsFailure_none taskId _

/-- An errback is no part of a chord, and neither is the failure stored after
it. -/
theorem partReturns_errbacks_failCalls (request : Context V) (p : Payload V) (taskId : TaskId)
    (exc : Exc V) :
    partReturns (marks (.mark (.callTaskErrbacks request p) :: failCalls taskId exc)) = [] :=
  partReturns_failCalls taskId exc

theorem partReturns_failResults (request : Result → Context V) (p : Payload V) (exc : Exc V)
    (results : List Result) :
    partReturns (marks (results.flatMap fun r =>
      .mark (.callTaskErrbacks (request r) p) :: failCalls r.id exc)) = [] := by
  induction results with
  | nil => rfl
  | cons r rs ih =>
    rw [List.flatMap_cons, marks_append, partReturns_append, ih, List.append_nil]
    exact partReturns_errbacks_failCalls _ _ _ _

theorem partReturns_handleGroupChordError (groupCallback : Sig V) (exc : Exc V) (app : App) :
    partReturns (marks (handleGroupChordError groupCallback exc app)) = [] := by
  unfold handleGroupChordError
  split
  · exact partReturns_failCalls _ _
  · rfl
  · rw [marks_append, marks_append, partReturns_append, partReturns_append,
      partReturns_failResults, marks_map_mark, partReturns_markAsFailure_none]
    rfl

/-- **`chord_error_from_stack` returns no part to any chord.** -/
theorem partReturns_chordErrorFromStack (errbacks : Errbacks V) (callback : Sig V) (exc : Exc V)
    (app : App) : partReturns (marks (chordErrorFromStack errbacks callback exc app)) = [] := by
  unfold chordErrorFromStack
  split_ifs
  · exact partReturns_handleGroupChordError callback exc app
  · exact partReturns_errbacks_failCalls _ _ _ _

/-- **The failure of an inner chord's header reaches the outer chord only where
there is nothing to tell.**  One of the header tasks of the chord `I` completes it,
with a failure, and the backend goes through `chord_error_from_stack`.  Whatever
group the body of `I` reports to, no part is returned for it, so an outer chord
that waits for the parts of `I` gets them only if there are none. -/
theorem chordError_partReturnsFor_iff (g : TaskId) (l : Bool) (h : List (Sig V))
    (hg : Option (Options V (Sig V))) (body : Sig V) (f : Fields V (Sig V)) (tid gid : TaskId)
    (reply : NativeReply V) (e : Exc V) (hfailed : reply.HeaderFailed e) (errbacks : Errbacks V)
    (app : App) :
    partReturnsFor g (marks (reply.onChordPartReturn errbacks
        (headerRequest tid gid (.chord l h hg body f)) app)) =
      (Sig.chord l h hg body f).descend ↔ body.silent = true := by
  rw [marks_of_headerFailed hfailed errbacks tid gid rfl, partReturnsFor,
    partReturns_chordErrorFromStack, descend, ← descend_eq_zero_iff, eq_comm]
  rfl

/-- The only part of a chord has come in, as a failure. -/
def failedPart : RedisReply Unit where
  readycount := 1
  totaldiff := 0
  chordSize := some 1
  restored := none
  parts := [⟨8, .error (.other ())⟩]
  delay := none

theorem failedPart_headerFailed :
    (NativeReply.redis failedPart).HeaderFailed
      (.chordError "Dependency 8 raised" (some (.other ()))) :=
  @NativeReply.HeaderFailed.redis Unit failedPart 1
    (.chordError "Dependency 8 raised" (some (.other ()))) rfl rfl rfl

/-- The options of what reports to the chord of group `7` with body `tsum`. -/
def reportsTo : Options Unit (Sig Unit) where
  taskId := some 10
  groupId := some 7
  chord := some (.task "tsum" {})

/-- `chord([add], group())` in the header of group `7`: its body has no task that
could report. -/
def emptyBodyChord : Sig Unit :=
  .chord false [.task "add" {}] none (.group false [] { options := reportsTo }) {}

theorem emptyBodyChord_partReturnsFor :
    partReturnsFor 7 (marks ((NativeReply.redis failedPart).onChordPartReturn (fun _ => none)
      (headerRequest 8 9 emptyBodyChord) ⟨0, 11⟩)) = emptyBodyChord.descend :=
  (chordError_partReturnsFor_iff 7 _ _ _ _ _ 8 9 _ _ failedPart_headerFailed _ _).2 rfl

/-- `chord([add], mul)` in the header of group `7`. -/
def innerChord : Sig Unit :=
  .chord false [.task "add" {}] none (.task "mul" { options := reportsTo }) {}

/-- `add` fails, `mul` is stored as failed, and the outer chord, which waits for its
part, is not told. -/
theorem innerChord_partReturnsFor :
    partReturnsFor 7 (marks ((NativeReply.redis failedPart).onChordPartReturn (fun _ => none)
      (headerRequest 8 9 innerChord) ⟨0, 11⟩)) ≠ innerChord.descend := by
  rw [marks_of_headerFailed failedPart_headerFailed _ 8 9 rfl, partReturnsFor,
    partReturns_chordErrorFromStack]
  decide

end Backend
end Celery
