/-
# `celery/backends/redis.py`: when the keys of a chord are deleted

`on_chord_part_return` (lines 767-860) and `_unpack_chord_result` (731-742), with all the ways in
which what they call can raise.

The keys are deleted in the `finally` around `callback.delay`.  Whatever raises before it is
entered, a failed part above all, is handled by the outer `try`, which deletes nothing: the
call that finds the chord complete then leaves the keys as they are.  `cleanedUp_iff` is the
condition under which it deletes them.  `BaseKeyValueStoreBackend.on_chord_part_return` has its `finally` around the join
as well.
-/

import Celery.Backends.Base
import Celery.Library.Raising
import Mathlib.Data.List.Lex
import Mathlib.Data.List.Sort
import Mathlib.Data.Prod.Lex
import Mathlib.Order.WithBot

namespace Celery
namespace ChordCleanup

open Raising Canvas

/-- What is raised, as the handlers tell it apart: a `ChordError`, another `Exception`, or none. -/
inductive Raised where
  | chordError (message : String)
  | exception (message : String)
  | baseException (message : String)

/-- The keys of a group: the parts under `.j`, in a sorted set with their scores (in a list they
have none), and the numbers under `.t` and `.s`. -/
structure Keys (β : Type) where
  j : List (WithTop ℕ × β) := []
  t : Option ℤ := none
  s : Option ℤ := none

variable {V β C : Type}

/-- A `GroupResult` that has been restored: what its methods give. -/
structure GroupResult (V : Type) where
  onReady : Except Raised Unit
  supportsNativeJoin : Bool
  join : Except Raised (List V)
  joinNative : Except Raised (List V)

/-- What `on_chord_part_return` reads of a request; an id that is not there is false. -/
structure Request where
  id : Option TaskId
  group : Option TaskId
  groupIndex : Option ℕ

/-- The backend, and what it calls: parts are stored as bytes `β`, and `C` are the callbacks. -/
structure Backend (V β C : Type) where
  chordZset : Bool
  /-- `encode_result`, and `encode([1, tid, state, result])`. -/
  encode : TaskId → State → V → Except Raised β
  decode : β → Except Raised (TaskId × State × V)
  exceptionToPython : V → Except Raised V
  /-- `maybe_signature(request.chord)`. -/
  maybeSignature : Except Raised C
  restore : TaskId → Except Raised (Option (GroupResult V))
  delay : C → List V → Except Raised Unit
  chordErrorFromStack : C → Raised → Except Raised Unit
  reprValue : V → String
  reprExc : Raised → String

/-- The header that was saved, joined. -/
def GroupResult.joined (header : GroupResult V) : Except Raised (List V) := do
  header.onReady
  if header.supportsNativeJoin then header.joinNative else header.join

/-- `group_index`, or `'+inf'`. -/
def Request.score (request : Request) : WithTop ℕ :=
  match request.groupIndex with
  | none => ⊤
  | some index => WithTop.some index

/-- Delete the three keys. -/
def Keys.delete (_ : Keys β) : Keys β := {}

/-- The keys are gone. -/
def Keys.CleanedUp (keys : Keys β) : Prop := keys = {}

namespace Backend

variable [LinearOrder β] (b : Backend V β C)

/-- `ZADD` or `RPUSH`: a sorted set has a member once, and is ordered by the scores, then by the
members. -/
def addPart (score : WithTop ℕ) (encoded : β) (j : List (WithTop ℕ × β)) :
    List (WithTop ℕ × β) :=
  if b.chordZset then
    (j.filter fun part => part.2 ≠ encoded).orderedInsert (fun p q => toLex p ≤ toLex q)
      (score, encoded)
  else j ++ [(score, encoded)]

omit [LinearOrder β] in
/-- `ZRANGE 0 -1` or `LRANGE 0 total`. -/
def range (total : ℤ) (j : List (WithTop ℕ × β)) : List β :=
  (if b.chordZset then j else j.take (total.toNat + 1)).map Prod.snd

/-- `_unpack_chord_result`. -/
def unpackChordResult (tup : β) : Except Raised V := do
  let (tid, state, retval) ← b.decode tup
  let retval ← if state ∈ State.exceptionStates then b.exceptionToPython retval else pure retval
  if state ∈ State.propagateStates then
    throw (.chordError s!"Dependency {tid} raised {b.reprValue retval}")
  else
    pure retval

/-- The results: of the header if one was saved, else of the parts. -/
def results (gid : TaskId) (total : ℤ) (keys : Keys β) : Except Raised (List V) := do
  match ← b.restore gid with
  | some header => header.joined
  | none => (b.range total keys.j).mapM b.unpackChordResult

/-- The `try` around `callback.delay`, with its handler. -/
def callBody (callback : C) (resl : List V) : Except Raised Unit :=
  match b.delay callback resl with
  | .ok () => .ok ()
  | .error (.baseException message) => .error (.baseException message)
  | .error exc =>
    b.chordErrorFromStack callback (.chordError s!"Callback error: {b.reprExc exc}")

/-- The handlers of the outer `try`. -/
def onError (callback : C) : Raised → Except Raised Unit
  | .chordError message => b.chordErrorFromStack callback (.chordError message)
  | .exception message =>
    b.chordErrorFromStack callback (.chordError s!"Join error: {b.reprExc (.exception message)}")
  | .baseException message => .error (.baseException message)

/-- The handlers where `maybe_signature` has raised: `callback` is not bound then. -/
def onUnbound : Raised → Raised
  | .baseException message => .baseException message
  | _ => .exception "UnboundLocalError"

/-- What follows the pipeline, where there is a chord size. -/
def settle (gid : TaskId) (readycount : ℕ) (total : ℤ) : ExceptT Raised (StateM (Keys β)) Unit :=
  match b.maybeSignature with
  | .error exc => throw (onUnbound exc)
  | .ok callback =>
    tryCatch
      (if readycount = total then do
        let keys ← get
        let resl ← ofExcept (b.results gid total keys)
        finallyDo (ofExcept (b.callBody callback resl)) (modify Keys.delete)
      else pure ())
      fun exc => ofExcept (b.onError callback exc)

/-- **`on_chord_part_return`.** -/
def onChordPartReturn (request : Request) (state : State) (result : V) :
    ExceptT Raised (StateM (Keys β)) Unit :=
  match request.id, request.group with
  | some tid, some gid => do
    let encoded ← ofExcept (b.encode tid state result)
    modify fun keys => { keys with j := b.addPart request.score encoded keys.j }
    let keys ← get
    match keys.s with
    | some size => b.settle gid keys.j.length (size + keys.t.getD 0)
    | none => pure ()
  | _, _ => pure ()

/-! ## The call that completes the chord -/

/-- **The call that finds `readycount` equal to the total:** it has stored its part, and `counted`
are the keys that the pipeline has read. -/
structure Completes (request : Request) (state : State) (result : V) (keys : Keys β) (gid : TaskId)
    (counted : Keys β) : Prop where
  group : request.group = some gid
  stored : ∃ tid encoded, request.id = some tid ∧ b.encode tid state result = .ok encoded ∧
    counted = { keys with j := b.addPart request.score encoded keys.j }
  total : ∃ size, counted.s = some size ∧ (counted.j.length : ℤ) = size + counted.t.getD 0

omit [LinearOrder β] in
/-- A part that is a result: it can be decoded, and its task has neither failed nor been
revoked. -/
def IsResult (tup : β) : Prop :=
  ∃ tid state retval, b.decode tup = .ok (tid, state, retval) ∧ state ∉ State.propagateStates ∧
    (state ∈ State.exceptionStates → ∃ exc, b.exceptionToPython retval = .ok exc)

omit [LinearOrder β] in
/-- **The condition:** there is a callback, and the header that was saved can be restored and
joined, or none was saved and every part is a result. -/
inductive Obtained (gid : TaskId) (parts : List β) : Prop where
  | joined {callback : C} {header : GroupResult V} {resl : List V}
    (callback : b.maybeSignature = .ok callback) (restored : b.restore gid = .ok (some header))
    (joined : header.joined = .ok resl)
  | unpacked {callback : C} (callback : b.maybeSignature = .ok callback)
    (restored : b.restore gid = .ok none) (parts : ∀ tup ∈ parts, b.IsResult tup)

variable {b}

omit [LinearOrder β] in
/-- A part is unpacked exactly if it is a result. -/
theorem unpackChordResult_iff (tup : β) :
    (∃ retval, b.unpackChordResult tup = .ok retval) ↔ b.IsResult tup := by
  rw [unpackChordResult, IsResult]
  rcases b.decode tup with exc | ⟨tid, state, retval⟩
  · simp [bind, Except.bind]
  · constructor
    · rintro ⟨value, h⟩
      have hpropagate : state ∉ State.propagateStates := by
        intro hpropagate
        simp only [bind, Except.bind, if_pos hpropagate] at h
        split at h
        · rcases hpython : b.exceptionToPython retval with exc | value'
          · rw [hpython] at h
            cases h
          · rw [hpython] at h
            cases h
        · cases h
      refine ⟨tid, state, retval, rfl, hpropagate, fun hexc => ?_⟩
      rcases hpython : b.exceptionToPython retval with exc | value'
      · simp [hexc, hpython, bind, Except.bind] at h
      · exact ⟨value', rfl⟩
    · rintro ⟨tid', state', retval', heq, hpropagate, hpython⟩
      cases heq
      by_cases hexc : state ∈ State.exceptionStates
      · obtain ⟨value, hvalue⟩ := hpython hexc
        exact ⟨value, by simp [hexc, hvalue, hpropagate, bind, Except.bind, pure, Except.pure]⟩
      · exact ⟨retval, by simp [hexc, hpropagate, bind, Except.bind, pure, Except.pure]⟩

end Backend

/-- A loop gives something exactly if each of its rounds does. -/
theorem mapM_ok_iff {α ε γ : Type} (f : α → Except ε γ) (l : List α) :
    (∃ values, l.mapM f = .ok values) ↔ ∀ a ∈ l, ∃ value, f a = .ok value := by
  induction l with
  | nil => simp [pure, Except.pure]
  | cons a l ih =>
    rw [List.forall_mem_cons, ← ih, List.mapM_cons]
    rcases f a with e | value
    · simp [bind, Except.bind]
    · rcases l.mapM f with e | values <;> simp [bind, Except.bind, pure, Except.pure]

namespace Backend

variable [LinearOrder β] {b : Backend V β C}

omit [LinearOrder β] in
/-- As many parts as there are to be are all the parts. -/
theorem range_eq {total : ℤ} {j : List (WithTop ℕ × β)} (h : (j.length : ℤ) = total) :
    b.range total j = j.map Prod.snd := by
  rw [range]
  split
  · rfl
  · rw [List.take_of_length_le (by omega)]

omit [LinearOrder β] in
theorem results_iff {gid : TaskId} {total : ℤ} {keys : Keys β} {callback : C}
    (hcallback : b.maybeSignature = .ok callback) (h : (keys.j.length : ℤ) = total) :
    (∃ resl, b.results gid total keys = .ok resl) ↔ b.Obtained gid (keys.j.map Prod.snd) := by
  rw [results, range_eq h]
  rcases hrestore : b.restore gid with exc | _ | header
  · refine iff_of_false (fun ⟨_, h⟩ => by cases h) fun h => ?_
    cases h <;> simp_all
  · refine (mapM_ok_iff _ _).trans ((forall₂_congr fun tup _ => unpackChordResult_iff tup).trans ?_)
    refine ⟨fun hparts => .unpacked hcallback hrestore hparts, fun h => ?_⟩
    cases h with
    | joined _ restored _ => simp_all
    | unpacked _ _ parts => exact parts
  · refine ⟨fun ⟨resl, hresl⟩ => .joined hcallback hrestore hresl, fun h => ?_⟩
    cases h with
    | joined _ restored joined =>
      obtain rfl := Option.some_inj.mp (Except.ok.inj (hrestore.symm.trans restored))
      exact ⟨_, joined⟩
    | unpacked _ restored _ => simp_all

/-- After the pipeline. -/
theorem Completes.exec_eq {request : Request} {state : State} {result : V} {keys counted : Keys β}
    {gid : TaskId} (h : b.Completes request state result keys gid counted) :
    ∃ total : ℤ, (counted.j.length : ℤ) = total ∧
      exec (b.onChordPartReturn request state result) keys =
        exec (b.settle gid counted.j.length total) counted := by
  obtain ⟨tid, encoded, hid, hencode, rfl⟩ := h.stored
  obtain ⟨size, hsize, htotal⟩ := h.total
  refine ⟨_, htotal, ?_⟩
  rw [onChordPartReturn, hid, h.group]
  dsimp only
  rw [exec_bind, exec_ofExcept, hencode]
  dsimp only
  rw [exec_bind, exec_modify]
  dsimp only
  rw [exec_bind, exec_get]
  dsimp only at hsize ⊢
  rw [hsize]

omit [LinearOrder β] in
/-- The end of the `try` block: the keys are deleted if there are results, and are left as they
are if there are none. -/
theorem exec_settle {gid : TaskId} {total : ℤ} {counted : Keys β}
    (h : (counted.j.length : ℤ) = total) :
    (b.Obtained gid (counted.j.map Prod.snd) ∧
      (exec (b.settle gid counted.j.length total) counted).2 = {}) ∨
    (¬ b.Obtained gid (counted.j.map Prod.snd) ∧
      (exec (b.settle gid counted.j.length total) counted).2 = counted) := by
  rw [settle]
  rcases hcallback : b.maybeSignature with exc | callback
  · refine .inr ⟨fun hobtained => ?_, by simp⟩
    cases hobtained <;> simp_all
  · rw [← results_iff hcallback h]
    dsimp only
    rw [exec_tryCatch, if_pos h, exec_bind, exec_get]
    dsimp only
    rw [exec_bind, exec_ofExcept]
    rcases b.results gid total counted with exc | resl
    · refine .inr ⟨fun ⟨_, hok⟩ => (by cases hok), ?_⟩
      dsimp only
      rw [exec_ofExcept]
    · refine .inl ⟨⟨resl, rfl⟩, ?_⟩
      dsimp only
      rw [exec_finallyDo_modify, exec_ofExcept]
      rcases b.callBody callback resl with exc | _
      · dsimp only
        rw [exec_ofExcept]
        rfl
      · rfl

/-- **When the keys are deleted:** the call that finds the chord complete, whether the callback
raises or not, deletes them exactly if it obtains the results. -/
theorem cleanedUp_iff {request : Request} {state : State} {result : V} {keys counted : Keys β}
    {gid : TaskId} (h : b.Completes request state result keys gid counted) :
    (exec (b.onChordPartReturn request state result) keys).2.CleanedUp ↔
      b.Obtained gid (counted.j.map Prod.snd) := by
  obtain ⟨total, htotal, hexec⟩ := h.exec_eq
  rw [hexec]
  obtain ⟨hobtained, hkeys⟩ | ⟨hobtained, hkeys⟩ := @exec_settle V β C b gid total counted htotal
  · exact iff_of_true hkeys hobtained
  · refine iff_of_false (fun hclean => ?_) hobtained
    obtain ⟨size, hsize, -⟩ := h.total
    rw [← hkeys, hclean] at hsize
    cases hsize

/-- Bytes with the parts written out, an unordered chord whose header was not saved, and a body
that can be called. -/
def unordered : Backend ℕ (List ℕ) Unit where
  chordZset := false
  encode tid state value := .ok [1, tid, if state = .success then 0 else 1, value]
  decode
    | [_, tid, code, value] => .ok (tid, if code = 0 then .success else .failure, value)
    | _ => .error (.exception "DecodeError")
  exceptionToPython value := .ok value
  maybeSignature := .ok ()
  restore _ := .ok none
  delay _ _ := .ok ()
  chordErrorFromStack _ _ := .ok ()
  reprValue := toString
  reprExc _ := ""

/-- The parts that three tasks have left, of a chord of three to which one was added. -/
def threeParts : Keys (List ℕ) where
  j := [(⊤, [1, 4, 0, 20]), (⊤, [1, 5, 0, 30]), (⊤, [1, 6, 0, 40])]
  t := some 1
  s := some 3

/-- The last task. -/
def lastTask : Request := ⟨some 7, some 9, none⟩

/-- All have succeeded: the keys are gone. -/
theorem succeeded_cleanedUp :
    (exec (unordered.onChordPartReturn lastTask .success 5) threeParts).2.CleanedUp := by
  have hcompletes : unordered.Completes lastTask .success 5 threeParts 9
      { threeParts with j := threeParts.j ++ [(⊤, [1, 7, 0, 5])] } :=
    ⟨rfl, ⟨7, [1, 7, 0, 5], rfl, rfl, rfl⟩, ⟨3, rfl, rfl⟩⟩
  refine (cleanedUp_iff hcompletes).mpr (.unpacked rfl rfl fun tup htup => ?_)
  simp only [threeParts, List.map_append, List.map_cons, List.map_nil, List.mem_append,
    List.mem_cons, List.not_mem_nil, or_false] at htup
  rcases htup with (rfl | rfl | rfl) | rfl <;>
    exact ⟨_, .success, _, rfl, by decide, fun h => absurd h (by decide)⟩

/-- A chord of one task. -/
def onlyTask : Request := ⟨some 7, some 9, none⟩

/-- The only task of a chord has failed: its keys stay. -/
theorem failed_keeps_keys :
    unordered.Completes onlyTask .failure 5 { s := some 1 } 9
        { j := [(⊤, [1, 7, 1, 5])], s := some 1 } ∧
      ¬ (exec (unordered.onChordPartReturn onlyTask .failure 5) { s := some 1 }).2.CleanedUp := by
  refine ⟨⟨rfl, ⟨7, [1, 7, 1, 5], rfl, rfl, rfl⟩, ⟨1, rfl, rfl⟩⟩, fun h => ?_⟩
  have hkeys : (exec (unordered.onChordPartReturn onlyTask .failure 5) { s := some 1 }).2 =
      { j := [(⊤, [1, 7, 1, 5])], s := some 1 } := rfl
  rw [hkeys] at h
  cases h

end Backend
end ChordCleanup
end Celery
