/-
# `celery/backends/base.py`: recording the end of a task

What `Backend.mark_as_done`, `mark_as_failure`, `mark_as_revoked` and
`mark_as_retry` (lines 255-397) ask of a result backend, as the list of the
calls they make: states stored, chord parts returned, errbacks called.

A failure is also the failure of the steps of the chain that will now never
run.  `mark_as_failure` walks over them with a deque, and a chord step puts its
body at the end of it; `walkChain` is that loop and `Sig.reached` the elements
it visits (`walkChain_perm`).

`mark_as_revoked` has no such walk, so the rest of the chain is told about a
revocation only where a failure would have nothing to tell it
(`markAsRevoked_propagates_iff`).
-/

import Celery.Canvas.Signature
import Mathlib.Data.List.Perm.Basic

namespace Celery

open Canvas

/-- `celery/states.py`; `custom` is a state of the user's own, such as `update_state`
stores. -/
inductive State where
  | pending
  | received
  | started
  | success
  | failure
  | revoked
  | rejected
  | retry
  | ignored
  | custom (name : String)
deriving DecidableEq, Repr

/-- `PROPAGATE_STATES`. -/
def State.propagateStates : List State := [.failure, .revoked]

/-- `EXCEPTION_STATES`. -/
def State.exceptionStates : List State := [.retry, .failure, .revoked]

/-- The `code` of a `SystemExit`: nothing, a number, or some other object. -/
inductive ExitCode where
  | none
  | int (code : ℤ)
  | object
deriving DecidableEq, Repr

/-- The exceptions the code tells apart, of Python, of billiard and of
`celery/exceptions.py`; `other` is any other `Exception`. -/
inductive Exc (V : Type) where
  | systemExit (code : ExitCode)
  | keyboardInterrupt
  | memoryError
  | terminated (message : String)
  | workerLostError (message : String)
  | timeLimitExceeded
  | exceptionWithTraceback (exc : Exc V)
  | reject (requeue : Bool)
  | ignore
  | retry
  | maxRetriesExceededError
  | encodeError
  | invalidTaskError (message : String)
  | taskRevokedError (reason : String)
  | chordError (message : String) (cause : Option (Exc V))
  | other (e : V)

/-- What is stored for a task: its return value or an exception. -/
inductive Payload (V : Type) where
  | value (v : V)
  | exc (e : Exc V)

/-- `celery.app.task.Context`: what a backend reads of a request.  `chord`,
`chain` and `errbacks` come out of a message, as plain dicts, so that they are
true whenever they are there. -/
structure Context (V : Type) where
  id : Option TaskId := none
  group : Option TaskId := none
  groupIndex : Option ℕ := none
  chord : Option (Sig V) := none
  chain : Option (List (Sig V)) := none
  errbacks : List (Sig V) := []
  ignoreResult : Bool := false

namespace Backend

/-- The calls a backend makes to end a task. -/
inductive Call (V : Type) where
  | storeResult (taskId : TaskId) (result : Payload V) (state : State)
      (request : Option (Context V))
  | onChordPartReturn (request : Context V) (state : State) (result : Payload V)
  | callTaskErrbacks (request : Context V) (exc : Payload V)

namespace Call

variable {V : Type}

/-- The id a call stores a state for. -/
def storedId? : Call V → Option TaskId
  | storeResult i .. => some i
  | _ => none

/-- The request whose chord part a call returns. -/
def partReturn? : Call V → Option (Context V)
  | onChordPartReturn r .. => some r
  | _ => none

end Call

variable {V : Type}

/-- The ids that get a state, in order. -/
def storedIds (cs : List (Call V)) : List TaskId := cs.filterMap Call.storedId?

/-- The requests that return a chord part, in order. -/
def partReturns (cs : List (Call V)) : List (Context V) := cs.filterMap Call.partReturn?

/-- A call made under a condition. -/
def callIf (b : Bool) (c : Call V) : List (Call V) := if b then [c] else []

section

variable (b : Bool) (cs ds : List (Call V)) (i : TaskId) (p : Payload V) (st : State)
  (r : Context V) (o : Option (Context V))

@[simp] theorem storedIds_append : storedIds (cs ++ ds) = storedIds cs ++ storedIds ds :=
  List.filterMap_append

@[simp] theorem partReturns_append : partReturns (cs ++ ds) = partReturns cs ++ partReturns ds :=
  List.filterMap_append

@[simp] theorem storedIds_nil : storedIds ([] : List (Call V)) = [] := rfl

@[simp] theorem partReturns_nil : partReturns ([] : List (Call V)) = [] := rfl

@[simp] theorem storedIds_callIf_store :
    storedIds (callIf b (.storeResult i p st o)) = if b then [i] else [] := by
  cases b <;> rfl

@[simp] theorem storedIds_callIf_part : storedIds (callIf b (.onChordPartReturn r st p)) = [] := by
  cases b <;> rfl

@[simp] theorem storedIds_callIf_errbacks : storedIds (callIf b (.callTaskErrbacks r p)) = [] := by
  cases b <;> rfl

@[simp] theorem partReturns_callIf_store :
    partReturns (callIf b (.storeResult i p st o)) = [] := by
  cases b <;> rfl

@[simp] theorem partReturns_callIf_part :
    partReturns (callIf b (.onChordPartReturn r st p)) = if b then [r] else [] := by
  cases b <;> rfl

@[simp] theorem partReturns_callIf_errbacks :
    partReturns (callIf b (.callTaskErrbacks r p)) = [] := by
  cases b <;> rfl

end

/-- `mark_as_done`. -/
def markAsDone (taskId : TaskId) (result : Payload V) (request : Option (Context V))
    (storeResult : Bool) (state : State := .success) : List (Call V) :=
  callIf (storeResult && !(request.map Context.ignoreResult).getD false)
    (.storeResult taskId result state request) ++
  match request with
  | some r => callIf r.chord.isSome (.onChordPartReturn r state result)
  | none => []

/-- The `Context` that `mark_as_failure` makes for a chain element: its options,
under the names a request has for them.  An element has no `errbacks` entry. -/
def elemCtx (e : Sig V) : Context V where
  id := e.options.taskId
  group := e.options.groupId
  groupIndex := e.options.groupIndex
  chord := e.options.chord
  chain := e.options.chain

/-- What `mark_as_failure` does for one chain element. -/
def elemCalls (exc : Payload V) (storeResult : Bool) (state : State) (e : Sig V) :
    List (Call V) :=
  (match e.options.taskId with
  | some i =>
    callIf (storeResult && state ∈ State.propagateStates)
      (.storeResult i exc state (some (elemCtx e)))
  | none => []) ++
  callIf e.options.chord.isSome (.onChordPartReturn (elemCtx e) state exc)

/-- The loop over `chain_elems`: take an element from the left, and put the body
of a chord at the right. -/
def walkChain (f : Sig V → List (Call V)) : List (Sig V) → List (Call V)
  | [] => []
  | e :: es => f e ++ walkChain f (es ++ e.body?.toList)
termination_by es => (es.map fun e => e.bodyDepth + 1).sum
decreasing_by
  cases e with
  | chord l h hg b f =>
    simp only [Sig.body?, Sig.bodyDepth, Option.toList_some, List.map_append, List.map_cons,
      List.map_nil, List.sum_append, List.sum_cons, List.sum_nil]
    omega
  | _ => simp [Sig.body?]

/-- `mark_as_failure`. -/
def markAsFailure (taskId : TaskId) (exc : Payload V) (request : Option (Context V))
    (storeResult : Bool := true) (callErrbacks : Bool := true) (state : State := .failure) :
    List (Call V) :=
  callIf storeResult (.storeResult taskId exc state request) ++
  match request with
  | some r =>
    callIf r.chord.isSome (.onChordPartReturn r state exc) ++
    walkChain (elemCalls exc storeResult state) (r.chain.getD []) ++
    callIf (callErrbacks && !r.errbacks.isEmpty) (.callTaskErrbacks r exc)
  | none => []

/-- `mark_as_revoked`. -/
def markAsRevoked (taskId : TaskId) (reason : String) (request : Option (Context V))
    (storeResult : Bool := true) (state : State := .revoked) : List (Call V) :=
  let exc := .exc (.taskRevokedError reason)
  callIf storeResult (.storeResult taskId exc state request) ++
  match request with
  | some r => callIf r.chord.isSome (.onChordPartReturn r state exc)
  | none => []

/-- `mark_as_retry`. -/
def markAsRetry (taskId : TaskId) (exc : Payload V) (request : Option (Context V))
    (state : State := .retry) : List (Call V) :=
  [.storeResult taskId exc state request]

/-- `fail_from_current_stack`: the failure of `task_id`, with no request. -/
def failFromCurrentStack (taskId : TaskId) (exc : Payload V) : List (Call V) :=
  markAsFailure taskId exc none

/-! ### The walk over the rest of the chain -/

theorem reached_eq (e : Sig V) : e.reached = e :: e.body?.toList.flatMap Sig.reached := by
  cases e <;> simp [Sig.reached, Sig.body?]

/-- **The walk visits every remaining element and the bodies of its chords**,
each once; only the order is the deque's. -/
theorem walkChain_perm (f : Sig V → List (Call V)) (es : List (Sig V)) :
    (walkChain f es).Perm ((es.flatMap Sig.reached).flatMap f) := by
  induction es using walkChain.induct with
  | case1 => simp [walkChain]
  | case2 e es ih =>
    rw [walkChain, List.flatMap_cons, reached_eq, List.cons_append, List.flatMap_cons]
    refine List.Perm.append_left _ (ih.trans ?_)
    rw [List.flatMap_append]
    exact List.perm_append_comm.flatMap_right f

/-- The remaining elements a failure is propagated to. -/
def remaining (r : Context V) : List (Sig V) := (r.chain.getD []).flatMap Sig.reached

/-- What is seen of the walk's calls is what is seen of each element's. -/
theorem walkChain_filterMap_perm {α : Type} (g : Call V → Option α) (f : Sig V → List (Call V))
    (r : Context V) :
    ((walkChain f (r.chain.getD [])).filterMap g).Perm
      ((remaining r).flatMap fun e => (f e).filterMap g) := by
  rw [← List.filterMap_flatMap]
  exact (walkChain_perm f _).filterMap g

theorem storedIds_elemCalls (exc : Payload V) (store : Bool) (e : Sig V) :
    storedIds (elemCalls exc store .failure e) = if store then e.options.taskId.toList else [] := by
  unfold elemCalls
  cases e.options.taskId <;> simp [State.propagateStates]

theorem partReturns_elemCalls (exc : Payload V) (store : Bool) (state : State) (e : Sig V) :
    partReturns (elemCalls exc store state e) =
      if e.options.chord.isSome then [elemCtx e] else [] := by
  unfold elemCalls
  cases e.options.taskId <;> simp

/-- **The states a failure stores**: the task's own and that of every remaining
element with an id. -/
theorem storedIds_markAsFailure (taskId : TaskId) (exc : Payload V) (r : Context V)
    (store : Bool) :
    (storedIds (markAsFailure taskId exc (some r) store)).Perm
      (if store then taskId :: (remaining r).flatMap (·.options.taskId.toList) else []) := by
  have hwalk := walkChain_filterMap_perm Call.storedId? (elemCalls exc store .failure) r
  change (storedIds _).Perm (List.flatMap (fun e => storedIds (elemCalls _ _ _ e)) _) at hwalk
  simp only [storedIds_elemCalls] at hwalk
  simp only [markAsFailure, storedIds_append, storedIds_callIf_store, storedIds_callIf_part,
    storedIds_callIf_errbacks, List.nil_append, List.append_nil]
  cases store with
  | false =>
    rw [if_neg Bool.false_ne_true, if_neg Bool.false_ne_true]
    exact hwalk.trans (by simp)
  | true => exact hwalk.cons taskId

/-- **The chord parts a failure returns**: the task's own and that of every
remaining element with a chord. -/
theorem partReturns_markAsFailure (taskId : TaskId) (exc : Payload V) (r : Context V)
    (store : Bool) :
    (partReturns (markAsFailure taskId exc (some r) store)).Perm
      ((if r.chord.isSome then [r] else []) ++
        (remaining r).flatMap fun e => if e.options.chord.isSome then [elemCtx e] else []) := by
  have hwalk := walkChain_filterMap_perm Call.partReturn? (elemCalls exc store .failure) r
  change (partReturns _).Perm (List.flatMap (fun e => partReturns (elemCalls _ _ _ e)) _) at hwalk
  simp only [partReturns_elemCalls] at hwalk
  simp only [markAsFailure, partReturns_append, partReturns_callIf_store, partReturns_callIf_part,
    partReturns_callIf_errbacks, List.nil_append, List.append_nil]
  exact hwalk.append_left _

/-! ### Revocation -/

theorem storedIds_markAsRevoked (taskId : TaskId) (reason : String) (r : Context V)
    (store : Bool) :
    storedIds (markAsRevoked taskId reason (some r) store) = if store then [taskId] else [] := by
  simp [markAsRevoked]

theorem partReturns_markAsRevoked (taskId : TaskId) (reason : String) (r : Context V)
    (store : Bool) :
    partReturns (markAsRevoked taskId reason (some r) store) =
      if r.chord.isSome then [r] else [] := by
  simp [markAsRevoked]

/-- A revocation reaches the remaining elements as a failure with `exc` would:
all that have an id get a state, where states are stored at all, all that have a
chord return a part, and these are the elements `mark_as_failure` does it for. -/
structure RevokedLikeFailure (taskId : TaskId) (reason : String) (exc : Payload V)
    (r : Context V) (store : Bool) : Prop where
  stored : store = true → ∀ e ∈ remaining r, ∀ i ∈ e.options.taskId,
    i ∈ storedIds (markAsRevoked taskId reason (some r) store)
  returned : ∀ e ∈ remaining r, e.options.chord.isSome →
    elemCtx e ∈ partReturns (markAsRevoked taskId reason (some r) store)
  stored_perm : (storedIds (markAsRevoked taskId reason (some r) store)).Perm
    (storedIds (markAsFailure taskId exc (some r) store))
  returned_perm : (partReturns (markAsRevoked taskId reason (some r) store)).Perm
    (partReturns (markAsFailure taskId exc (some r) store))

/-- **A revocation reaches the rest of the chain exactly when there is nothing in
it to reach**: `mark_as_revoked` ends the request only, so it agrees with
`mark_as_failure` iff no remaining element, chord bodies included, has a chord
and, where states are stored, none has an id. -/
theorem markAsRevoked_propagates_iff (taskId : TaskId) (reason : String) (exc : Payload V)
    (r : Context V) (store : Bool) :
    RevokedLikeFailure taskId reason exc r store ↔
      ∀ e ∈ remaining r, e.options.chord = none ∧ (store = true → e.options.taskId = none) := by
  have hs := storedIds_markAsFailure taskId exc r store
  have hp := partReturns_markAsFailure taskId exc r store
  constructor
  · rintro ⟨-, -, hstored, hreturned⟩ e he
    rw [storedIds_markAsRevoked] at hstored
    rw [partReturns_markAsRevoked] at hreturned
    have hlen := (hreturned.trans hp).length_eq
    rw [List.length_append, Nat.left_eq_add, List.length_eq_zero_iff,
      List.flatMap_eq_nil_iff] at hlen
    refine ⟨?_, fun hst => ?_⟩
    · have := hlen e he
      by_contra hne
      rw [if_pos (Option.isSome_iff_ne_none.2 hne)] at this
      cases this
    · have hlen' := (hstored.trans hs).length_eq
      rw [if_pos hst, if_pos hst, List.length_cons, List.length_cons, List.length_nil,
        Nat.add_right_cancel_iff, eq_comm, List.length_eq_zero_iff,
        List.flatMap_eq_nil_iff] at hlen'
      exact Option.toList_eq_nil_iff.1 (hlen' e he)
  · intro h
    refine ⟨fun hst e he i hi => ?_, fun e he hc => ?_, ?_, ?_⟩
    · rw [(h e he).2 hst] at hi
      cases hi
    · rw [(h e he).1] at hc
      cases hc
    · refine List.Perm.trans (List.Perm.of_eq ?_) hs.symm
      rw [storedIds_markAsRevoked]
      split_ifs with hst
      · rw [List.flatMap_eq_nil_iff.2 fun e he => Option.toList_eq_nil_iff.2 ((h e he).2 hst)]
      · rfl
    · refine List.Perm.trans (List.Perm.of_eq ?_) hp.symm
      rw [partReturns_markAsRevoked, List.flatMap_eq_nil_iff.2, List.append_nil]
      intro e he
      rw [(h e he).1]
      rfl

/-- The first of two steps is revoked.  The second, `2`, is the one that reports
to the chord of group `7`. -/
def revokedStep : Context Unit where
  id := some 1
  chain := some [.task "add" { options := { taskId := some 2, groupId := some 7,
                                            chord := some (.task "tsum" {}) } }]

/-- Nothing is stored for `2` and the chord is not told: it waits for ever. -/
theorem not_revokedLikeFailure_revokedStep :
    ¬ RevokedLikeFailure 1 "revoked" (.exc (.other ())) revokedStep true := by
  intro h
  have hmem : ∃ e, e ∈ remaining revokedStep ∧ e.options.chord.isSome := by
    refine ⟨_, List.mem_singleton_self _, rfl⟩
  obtain ⟨e, he, hc⟩ := hmem
  have hret := h.returned e he hc
  rw [partReturns_markAsRevoked] at hret
  cases hret

end Backend
end Celery
