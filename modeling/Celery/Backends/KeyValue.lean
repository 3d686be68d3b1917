/-
# `celery/backends/base.py`: results in a key/value store

`BaseKeyValueStoreBackend._store_result` and `_get_task_meta_for` (lines
1261-1298): a result is stored under the key of its task, and a result that is
there with status `SUCCESS` is left alone.  The comment there says what this is
for: the run of a lost worker, redelivered, should not overwrite the success of
the other one.

The store does one `get` or one `set` at a time, and a call makes one of each:
it reads the key, and unless it has read a success it writes.  Any number of
calls for one task id, from any workers, interleave between the two.

A call that has read before another writes a success does not read again.  So a
stored success stays exactly in the runs in which no call with another state
reads before and writes after one with `SUCCESS` (`success_kept_iff`).
-/

import Celery.Backends.Base
import Celery.Library.Transition
import Mathlib.Logic.Function.Basic

namespace Celery
namespace KeyValue

open Transition
open scoped List

variable {V B ι : Type}

/-- The meta-data of a result, as `_get_result_meta` makes it; a `result` of `none`
is `None`.  Its other entries travel with these two, and nothing here reads them. -/
structure Meta (V : Type) where
  status : State
  result : Option (Payload V)

/-- `encode`, `decode` and `exception_to_python` of a backend, with a serializer
of kombu; `none` where they raise.  A payload is never the empty string, and the
status, which is a string, comes back as it was. -/
structure Codec (V B : Type) where
  encode : Meta V → B
  decode : B → Option (Meta V)
  exceptionToPython : Option (Payload V) → Option (Option (Payload V))
  truthy : B → Bool
  truthy_encode : ∀ m, truthy (encode m) = true
  status_decode_encode : ∀ m, (decode (encode m)).map Meta.status = some m.status

namespace Codec

variable (c : Codec V B)

/-- `meta_from_decoded`. -/
def metaFromDecoded (m : Meta V) : Option (Meta V) :=
  if m.status ∈ State.exceptionStates then
    (c.exceptionToPython m.result).map fun r => { m with result := r }
  else some m

/-- `decode_result`. -/
def decodeResult (payload : B) : Option (Meta V) := (c.decode payload).bind c.metaFromDecoded

/-- `_get_task_meta_for`, of what `get` has returned. -/
def getTaskMetaFor : Option B → Option (Meta V)
  | none => some ⟨.pending, none⟩
  | some payload =>
    if c.truthy payload then c.decodeResult payload else some ⟨.pending, none⟩

/-- The store holds a result with status `SUCCESS`. -/
def HoldsSuccess (store : Option B) : Prop :=
  (c.getTaskMetaFor store).map Meta.status = some .success

instance (store : Option B) : Decidable (c.HoldsSuccess store) :=
  inferInstanceAs (Decidable (_ = _))

theorem status_of_metaFromDecoded {m m' : Meta V} (h : c.metaFromDecoded m = some m') :
    m'.status = m.status := by
  rw [metaFromDecoded] at h
  split at h
  · obtain ⟨r, -, rfl⟩ := Option.map_eq_some_iff.mp h
    rfl
  · rw [Option.some_inj.mp h]

/-- What is stored is a success exactly if it was stored as one. -/
theorem holdsSuccess_encode_iff (m : Meta V) :
    c.HoldsSuccess (some (c.encode m)) ↔ m.status = .success := by
  obtain ⟨m₁, hm₁, hst⟩ := Option.map_eq_some_iff.mp (c.status_decode_encode m)
  have hdec : c.getTaskMetaFor (some (c.encode m)) = c.metaFromDecoded m₁ := by
    simp only [getTaskMetaFor, c.truthy_encode, if_true, decodeResult, hm₁, Option.bind_some]
  rw [HoldsSuccess, hdec, ← hst]
  constructor
  · intro h
    obtain ⟨m₂, hm₂, hst₂⟩ := Option.map_eq_some_iff.mp h
    rw [← c.status_of_metaFromDecoded hm₂, hst₂]
  · intro h
    have hnot : m₁.status ∉ State.exceptionStates := by rw [h]; decide
    rw [metaFromDecoded, if_neg hnot, Option.map_some, h]

end Codec

/-- Where a call of `_store_result` is. -/
inductive Pc where
  | start
  /-- It has read a result that is not a success. -/
  | checked
  | returned
  | raised
deriving DecidableEq, Repr

/-- One operation of a call.  `raises` is a `get`, an `encode` or a `set` that
raises, which leaves the store as it is. -/
inductive Action (ι : Type) where
  | get (i : ι)
  | set (i : ι)
  | raises (i : ι)
deriving DecidableEq

/-- The key of the task, and the calls. -/
structure Sys (ι B : Type) where
  store : Option B
  pc : ι → Pc

/-- No call has begun. -/
def Sys.Fresh (s : Sys ι B) : Prop := ∀ i, s.pc i = .start

section

variable [DecidableEq ι]

/-- A call gets somewhere. -/
def Sys.move (s : Sys ι B) (i : ι) (p : Pc) : Sys ι B :=
  { s with pc := Function.update s.pc i p }

theorem Sys.pc_move_self (s : Sys ι B) (i : ι) (p : Pc) : (s.move i p).pc i = p :=
  Function.update_self ..

theorem Sys.pc_move_of_ne (s : Sys ι B) {i j : ι} (h : j ≠ i) (p : Pc) :
    (s.move i p).pc j = s.pc j :=
  Function.update_of_ne h ..

/-- Who is where the moved call is not has not moved. -/
theorem Sys.pc_of_move {s : Sys ι B} {i j : ι} {p q : Pc} (hne : p ≠ q)
    (h : (s.move i p).pc j = q) : s.pc j = q := by
  have hij : j ≠ i := by
    rintro rfl
    exact hne ((s.pc_move_self j p).symm.trans h)
  rwa [s.pc_move_of_ne hij] at h

/-- **The steps of `_store_result`**, `metas i` being what the call `i` stores.
`none` where the call is not there. -/
def storeResult (c : Codec V B) (metas : ι → Meta V) (s : Sys ι B) :
    Action ι → Option (Sys ι B)
  | .get i =>
    if s.pc i = .start then
      match c.getTaskMetaFor s.store with
      | none => some (s.move i .raised)
      | some m => some (s.move i (if m.status = .success then .returned else .checked))
    else none
  | .set i =>
    if s.pc i = .checked then
      some { s.move i .returned with store := some (c.encode (metas i)) }
    else none
  | .raises i =>
    if s.pc i = .start ∨ s.pc i = .checked then some (s.move i .raised) else none

variable {c : Codec V B} {metas : ι → Meta V} {s t u : Sys ι B} {a : Action ι}
  {as : List (Action ι)}

/-- What a step can do: read, write, or raise. -/
theorem storeResult_cases (h : storeResult c metas s a = some t) :
    (∃ i p, a = .get i ∧ t = s.move i p ∧ (p = .checked → ¬ c.HoldsSuccess s.store)) ∨
    (∃ i, a = .set i ∧ s.pc i = .checked ∧
      t = { s.move i .returned with store := some (c.encode (metas i)) }) ∨
    (∃ i, a = .raises i ∧ t = s.move i .raised) := by
  cases a with
  | get i =>
    simp only [storeResult] at h
    split at h
    · left
      split at h
      next hget =>
        refine ⟨i, .raised, rfl, (Option.some_inj.mp h).symm, fun hp => ?_⟩
        cases hp
      next m hget =>
        refine ⟨i, _, rfl, (Option.some_inj.mp h).symm, fun hp hsuccess => ?_⟩
        rw [Codec.HoldsSuccess, hget, Option.map_some, Option.some_inj] at hsuccess
        rw [if_pos hsuccess] at hp
        cases hp
    · cases h
  | set i =>
    simp only [storeResult] at h
    split at h
    next hpc => exact Or.inr (Or.inl ⟨i, rfl, hpc, (Option.some_inj.mp h).symm⟩)
    next => cases h
  | raises i =>
    simp only [storeResult] at h
    split at h
    · exact Or.inr (Or.inr ⟨i, rfl, (Option.some_inj.mp h).symm⟩)
    · cases h

/-- A call that has read a result that is no success, over a store that holds one
by now, has been overtaken by a call that stored it. -/
theorem overtaken_of_checked {s₀ : Sys ι B} (h₀ : s₀.Fresh)
    (h : Run (fun s a t => storeResult c metas s a = some t) s₀ as t) (j : ι)
    (hpc : t.pc j = .checked) :
    Action.get j ∈ as ∧ (c.HoldsSuccess t.store →
      ∃ i, (metas i).status = .success ∧ [.get j, .set i] <+ as) := by
  induction h with
  | nil =>
    rw [h₀ j] at hpc
    cases hpc
  | @snoc as a s t _ hstep ih =>
    -- The steps that leave both `j` and the store alone keep what held before.
    have keep : s.pc j = .checked → t.store = s.store → Action.get j ∈ as ++ [a] ∧
        (c.HoldsSuccess t.store →
          ∃ i, (metas i).status = .success ∧ [.get j, .set i] <+ as ++ [a]) := by
      intro hs hstore
      obtain ⟨hget, hover⟩ := ih hs
      refine ⟨List.mem_append_left _ hget, fun hsuccess => ?_⟩
      obtain ⟨i, hi, hsub⟩ := hover (hstore ▸ hsuccess)
      exact ⟨i, hi, hsub.trans (List.sublist_append_left _ _)⟩
    obtain ⟨i, p, rfl, rfl, hp⟩ | ⟨i, rfl, hchecked, rfl⟩ | ⟨i, rfl, rfl⟩ :=
      storeResult_cases hstep
    · by_cases hp' : p = .checked
      · by_cases hij : j = i
        · subst hij
          exact ⟨by simp, fun hsuccess => absurd hsuccess (hp hp')⟩
        · exact keep (by rwa [s.pc_move_of_ne hij] at hpc) rfl
      · exact keep (Sys.pc_of_move hp' hpc) rfl
    · have hget := (ih (Sys.pc_of_move (by decide) hpc)).1
      refine ⟨List.mem_append_left _ hget, fun hsuccess => ⟨i, ?_, ?_⟩⟩
      · exact (c.holdsSuccess_encode_iff _).mp hsuccess
      · exact (List.singleton_sublist.mpr hget).append (List.Sublist.refl [Action.set i])
    · exact keep (Sys.pc_of_move (by decide) hpc) rfl

/-- A stored success stays: of any two states on the way, the later one holds a
success if the earlier one does. -/
def SuccessKept (c : Codec V B) (metas : ι → Meta V) (s₀ : Sys ι B) (as : List (Action ι)) :
    Prop :=
  ∀ as₁ as₂ as₃ s t, as = as₁ ++ as₂ ++ as₃ →
    Run (fun s a t => storeResult c metas s a = some t) s₀ as₁ s →
    Run (fun s a t => storeResult c metas s a = some t) s as₂ t →
    c.HoldsSuccess s.store → c.HoldsSuccess t.store

/-- A call with another state reads before, and writes after, one with `SUCCESS`
writes. -/
def Overtakes (metas : ι → Meta V) (as : List (Action ι)) : Prop :=
  ∃ i j, (metas i).status = .success ∧ (metas j).status ≠ .success ∧
    [.get j, .set i, .set j] <+ as

/-- A call that writes leaves what it has to store. -/
theorem store_of_set {i : ι} (h : storeResult c metas s (.set i) = some t) :
    t.store = some (c.encode (metas i)) := by
  obtain ⟨_, _, ha, -⟩ | ⟨_, ha, -, rfl⟩ | ⟨_, ha, -⟩ := storeResult_cases h
  · cases ha
  · cases ha
    rfl
  · cases ha

theorem successKept_of_not_overtakes {s₀ : Sys ι B} (h₀ : s₀.Fresh)
    (hnot : ¬ Overtakes metas as) : SuccessKept c metas s₀ as := by
  intro as₁ as₂ as₃ s t has h₁ h₂ hs
  induction h₂ generalizing as₃ with
  | nil => exact hs
  | @snoc as₂ a t u h₂ hstep ih =>
    have ht : c.HoldsSuccess t.store := ih ([a] ++ as₃) (by simpa using has)
    obtain ⟨i, p, rfl, rfl, -⟩ | ⟨j, rfl, hchecked, rfl⟩ | ⟨i, rfl, rfl⟩ :=
      storeResult_cases hstep
    · exact ht
    · refine (c.holdsSuccess_encode_iff _).mpr ?_
      by_contra hj
      obtain ⟨-, hover⟩ := overtaken_of_checked h₀ (h₁.append h₂) j hchecked
      obtain ⟨i, hi, hsub⟩ := hover ht
      refine hnot ⟨i, j, hi, hj, ?_⟩
      have hsub' : [.get j, .set i] ++ [Action.set j] <+ as₁ ++ as₂ ++ [Action.set j] :=
        hsub.append (List.Sublist.refl _)
      rw [has, ← List.append_assoc as₁]
      exact hsub'.trans (List.sublist_append_left _ _)
    · exact ht

/-- **When a stored success is overwritten.**  However many calls for one task id
interleave their `get` and `set`, from any store, a success that was stored is
there in every later state of the run if and only if no call with another state
has read the key before a call with `SUCCESS` writes it and writes it after. -/
theorem success_kept_iff {s₀ : Sys ι B} (h₀ : s₀.Fresh)
    (h : Run (fun s a t => storeResult c metas s a = some t) s₀ as t) :
    SuccessKept c metas s₀ as ↔ ¬ Overtakes metas as := by
  refine ⟨fun hkept => ?_, successKept_of_not_overtakes h₀⟩
  rintro ⟨i, j, hi, hj, hsub⟩
  obtain ⟨r₁, r₂, rfl, -, hsub₂⟩ := List.cons_sublist_iff.mp hsub
  obtain ⟨r₃, r₄, rfl, hmem, hsub₄⟩ := List.cons_sublist_iff.mp hsub₂
  obtain ⟨p, q, rfl⟩ := List.append_of_mem hmem
  obtain ⟨p', q', rfl⟩ := List.append_of_mem (List.singleton_sublist.mp hsub₄)
  have has : r₁ ++ (p ++ .set i :: q ++ (p' ++ .set j :: q')) =
      (r₁ ++ p ++ [.set i]) ++ (q ++ p' ++ [.set j]) ++ q' := by simp
  rw [has] at h hkept
  obtain ⟨v, hv, -⟩ := h.of_append
  obtain ⟨w, hw, hrun⟩ := hv.of_append
  obtain ⟨_, -, hsetI⟩ := hw.of_snoc
  obtain ⟨_, -, hsetJ⟩ := hrun.of_snoc
  have hwSuccess : c.HoldsSuccess w.store := by
    rw [store_of_set hsetI]
    exact (c.holdsSuccess_encode_iff _).mpr hi
  have hvSuccess := hkept _ _ _ w v rfl hw hrun hwSuccess
  rw [store_of_set hsetJ] at hvSuccess
  exact hj ((c.holdsSuccess_encode_iff _).mp hvSuccess)

end

/-- A codec that stores the meta-data as they are. -/
def plainCodec : Codec ℕ (Meta ℕ) where
  encode m := m
  decode := some
  exceptionToPython := some
  truthy _ := true
  truthy_encode _ := rfl
  status_decode_encode _ := rfl

/-- A worker that was thought lost fails, and the run that was started in its place
succeeds. -/
def redelivered : Bool → Meta ℕ
  | false => ⟨.failure, some (.exc .memoryError)⟩
  | true => ⟨.success, some (.value 42)⟩

/-- Nothing is stored yet, and no call has begun. -/
def redeliveredStart : Sys Bool (Meta ℕ) := ⟨none, fun _ => .start⟩

/-- The two runs one after the other. -/
theorem success_kept_sequential :
    redeliveredStart.Fresh ∧
      (SuccessKept plainCodec redelivered redeliveredStart [.get true, .set true, .get false] ↔
        ¬ Overtakes redelivered [.get true, .set true, .get false]) := by
  refine ⟨fun _ => rfl, ?_⟩
  exact success_kept_iff (fun _ => rfl) (.snoc (.snoc (.snoc .nil rfl) rfl) rfl)

/-- **A stored success is overwritten.**  Both calls read before either writes. -/
theorem success_overwritten :
    ∃ t, Run (fun s a t => storeResult plainCodec redelivered s a = some t) redeliveredStart
        [.get false, .get true, .set true, .set false] t ∧
      ¬ SuccessKept plainCodec redelivered redeliveredStart
        [.get false, .get true, .set true, .set false] := by
  refine ⟨_, .snoc (.snoc (.snoc (.snoc .nil rfl) rfl) rfl) rfl, fun h => ?_⟩
  have hlost := h [.get false, .get true, .set true] [.set false] [] _ _ rfl
    (.snoc (.snoc (.snoc .nil rfl) rfl) rfl) (.snoc .nil rfl) (by decide)
  exact absurd hlost (by decide)

end KeyValue
end Celery
