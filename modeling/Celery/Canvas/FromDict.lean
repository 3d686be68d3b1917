/-
# `celery/canvas.py`: signatures from plain dicts

A signature travels as a plain dict: JSON has the entries of its node, in the place of its members
their dicts, and in the place of a generator of members a list (`toDict`).  `Signature.from_dict`
(lines 325-360) makes a signature of it again.  A task is `Signature(d)` and keeps every entry, and
so does `_chord.from_dict` (2075-2149), apart from a header that `freeze` has made a group, of which
`_maybe_group` (1541-1554) takes the members.  `_chain.from_dict` (967-983) and `group.from_dict`
(1590-1659) hand the members and the options to the constructor, and nothing else.

So a chain or a group that is immutable, or has arguments of its own, comes back without them
(`immutableChain_lost`); where there is none, everything comes back (`fromDict_round_trips`).
-/

import Celery.Canvas.Apply

namespace Celery
namespace Canvas

open Sig

variable {V : Type}

namespace Sig

mutual

/-- **The plain dict of a signature.**  Its options are options of plain dicts. -/
def toDict : Sig V → Sig V
  | task n f => task n (fieldsDict f)
  | chain ts f => chain (toDictAll ts) (fieldsDict f)
  | group _ ts f => group false (toDictAll ts) (fieldsDict f)
  | chord _ h hg b f => chord false (toDictAll h) (headerDict hg) (toDict b) (fieldsDict f)

def toDictAll : List (Sig V) → List (Sig V)
  | [] => []
  | t :: ts => toDict t :: toDictAll ts

def fieldsDict : Fields V (Sig V) → Fields V (Sig V)
  | ⟨args, kwargs, options, immutable⟩ => ⟨args, kwargs, optionsDict options, immutable⟩

def optionsDict : Options V (Sig V) → Options V (Sig V)
  | ⟨taskId, groupId, body, rootId, parentId, replyTo, groupIndex, link, linkError, rest, extra⟩ =>
    ⟨taskId, groupId, chordDict body, rootId, parentId, replyTo, groupIndex, toDictAll link,
      toDictAll linkError, chainDict rest, extra⟩

def chordDict : Option (Sig V) → Option (Sig V)
  | none => none
  | some s => some (toDict s)

def chainDict : Option (List (Sig V)) → Option (List (Sig V))
  | none => none
  | some ts => some (toDictAll ts)

def headerDict : Option (Options V (Sig V)) → Option (Options V (Sig V))
  | none => none
  | some o => some (optionsDict o)

end

mutual

/-- **`Signature.from_dict(d)`**, of a plain dict. -/
def fromDict : Sig V → Sig V
  | task n f => task n f
  | chain ts f => chain (fromDictAll ts) { options := f.options }
  | group l ts f => group l (fromDictAll ts) { options := f.options }
  -- of a header that is a group only the members are left
  | chord l h _ b f => chord l (fromDictAll h) none (fromDict b) f

def fromDictAll : List (Sig V) → List (Sig V)
  | [] => []
  | t :: ts => fromDict t :: fromDictAll ts

end

end Sig

/-- A node that is nothing but its members and its options. -/
def Fields.bare (f : Fields V (Sig V)) : Bool :=
  f.args.isEmpty && f.kwargs.isEmpty && !f.immutable

namespace Sig

mutual

/-- **Where nothing is lost**: no chain and no group has arguments of its own or is immutable, and
no header is a group. -/
def faithful : Sig V → Bool
  | task .. => true
  | chain ts f => f.bare && faithfulAll ts
  | group _ ts f => f.bare && faithfulAll ts
  | chord _ h hg b _ => hg.isNone && faithfulAll h && faithful b

def faithfulAll : List (Sig V) → Bool
  | [] => true
  | t :: ts => faithful t && faithfulAll ts

end

/-- A chain and a group keep the fields of a dict if there are only options. -/
theorem bare_iff (f : Fields V (Sig V)) :
    ({ options := (fieldsDict f).options } : Fields V (Sig V)) = fieldsDict f ↔ f.bare = true := by
  obtain ⟨args, kwargs, options, immutable⟩ := f
  cases args <;> cases kwargs <;> cases immutable <;> simp [fieldsDict, Fields.bare]

mutual

/-- **What comes back is what was sent exactly if nothing is lost.** -/
theorem fromDict_toDict_iff : ∀ s : Sig V, fromDict s.toDict = s.toDict ↔ s.faithful = true
  | task .. => by simp only [toDict, fromDict, faithful]
  | chain ts f => by
    rw [toDict, fromDict, faithful, chain.injEq, fromDictAll_toDictAll_iff ts, bare_iff,
      Bool.and_eq_true, and_comm]
  | group _ ts f => by
    rw [toDict, fromDict, faithful, group.injEq, fromDictAll_toDictAll_iff ts, bare_iff,
      Bool.and_eq_true, eq_self, true_and, and_comm]
  | chord _ h hg b f => by
    have hnone : none = headerDict hg ↔ hg.isNone = true := by
      cases hg <;> simp [headerDict]
    rw [toDict, fromDict, faithful, chord.injEq, fromDictAll_toDictAll_iff h,
      fromDict_toDict_iff b, hnone, Bool.and_eq_true, Bool.and_eq_true]
    tauto

theorem fromDictAll_toDictAll_iff : ∀ ts : List (Sig V),
    fromDictAll (toDictAll ts) = toDictAll ts ↔ faithfulAll ts = true
  | [] => by simp only [toDictAll, fromDictAll, faithfulAll]
  | t :: ts => by
    rw [toDictAll, fromDictAll, faithfulAll, List.cons.injEq, fromDict_toDict_iff t,
      fromDictAll_toDictAll_iff ts, Bool.and_eq_true]

end

end Sig

/-! ### What is sent of a plain dict -/

namespace Sig

mutual

/-- Every generator could be a list. -/
def tidy : Sig V → Bool
  | task .. => true
  | chain ts _ => tidyAll ts
  | group l ts _ => listLike l ts && tidyAll ts
  | chord l h _ b _ => listLike l h && tidyAll h && tidy b

def tidyAll : List (Sig V) → Bool
  | [] => true
  | t :: ts => tidy t && tidyAll ts

end

theorem tidyAll_eq_true_iff {ts : List (Sig V)} :
    tidyAll ts = true ↔ ∀ t ∈ ts, t.tidy = true :=
  forall_of_cons rfl fun _ _ => rfl

theorem toDictAll_eq_map (ts : List (Sig V)) : toDictAll ts = ts.map toDict :=
  map_of_cons rfl (fun _ _ => rfl) ts

/-- The fields of a dict are merged with arguments as those of a signature are. -/
theorem fieldsDict_merge (args : List V) (kwargs : List (String × V)) (f : Fields V (Sig V)) :
    fieldsDict (f.merge args kwargs) = (fieldsDict f).merge args kwargs := by
  obtain ⟨args', kwargs', options, immutable⟩ := f
  cases immutable <;> rfl

@[simp] theorem fieldsDict_args (f : Fields V (Sig V)) : (fieldsDict f).args = f.args := by
  cases f; rfl

@[simp] theorem fieldsDict_kwargs (f : Fields V (Sig V)) : (fieldsDict f).kwargs = f.kwargs := by
  cases f; rfl

@[simp] theorem fieldsDict_immutable (f : Fields V (Sig V)) :
    (fieldsDict f).immutable = f.immutable := by
  cases f; rfl

@[simp] theorem fieldsDict_options (f : Fields V (Sig V)) :
    (fieldsDict f).options = optionsDict f.options := by
  cases f; rfl

theorem fieldsDict_of_options (o : Options V (Sig V)) :
    fieldsDict { options := o } = { options := optionsDict o } := rfl

mutual

/-- The copy of a dict is the dict of the copy. -/
theorem clone_toDict : ∀ s : Sig V, s.toDict.clone = s.clone.toDict
  | task .. => by simp only [toDict, clone]
  | chain ts f => by
    rw [toDict, clone, clone, toDict, cloneAll_toDictAll ts, fieldsDict_options,
      fieldsDict_of_options]
  | group _ ts f => by
    rw [toDict, clone, clone, toDict, fieldsDict_options, fieldsDict_of_options]
  | chord _ h (some _) b f => by
    rw [toDict, headerDict, clone, clone, toDict, clone_toDict b, headerDict]
  | chord _ h none b f => by
    rw [toDict, headerDict, clone, clone, toDict, cloneAll_toDictAll h, clone_toDict b, headerDict]

theorem cloneAll_toDictAll : ∀ ts : List (Sig V), cloneAll (toDictAll ts) = toDictAll (cloneAll ts)
  | [] => rfl
  | t :: ts => by
    rw [toDictAll, cloneAll, cloneAll, toDictAll, clone_toDict t, cloneAll_toDictAll ts]

end

mutual

/-- A signature as a dict weighs the same. -/
theorem weight_toDict : ∀ s : Sig V, s.toDict.weight = s.weight
  | task .. => by simp only [toDict, weight]
  | chain ts f => by rw [toDict, weight, weight, weightAll_toDictAll ts]
  | group _ ts f => by rw [toDict, weight, weight, weightAll_toDictAll ts]
  | chord _ h _ b f => by
    rw [toDict, weight, weight, weightAll_toDictAll h, weight_toDict b]

theorem weightAll_toDictAll : ∀ ts : List (Sig V), weightAll (toDictAll ts) = weightAll ts
  | [] => rfl
  | t :: ts => by rw [toDictAll, weightAll, weightAll, weight_toDict t, weightAll_toDictAll ts]

end

mutual

/-- The worklist of `_freeze_unroll` does with dicts what it does with signatures. -/
theorem flat_toDict : ∀ s : Sig V, s.toDict.flat = s.flat.map toDict
  | task .. => by simp only [toDict, flat, List.map_cons, List.map_nil]
  | chain [] f => by simp only [toDict, toDictAll, flat, List.map_nil]
  | chain (t :: ts) f => by
    have := clone_toDict (chain (t :: ts) f)
    rw [toDict, toDictAll] at this
    rw [toDict, toDictAll, flat, flat, this, List.map_cons, List.map_nil]
  | group _ ts f => by rw [toDict, flat, flat, flatRev_toDictAll ts]
  | chord l h hg b f => by
    have := clone_toDict (chord l h hg b f)
    rw [toDict] at this
    rw [toDict, flat, flat, this, List.map_cons, List.map_nil]

theorem flatRev_toDictAll : ∀ ts : List (Sig V), flatRev (toDictAll ts) = (flatRev ts).map toDict
  | [] => rfl
  | t :: ts => by
    rw [toDictAll, flatRev, flatRev, flatRev_toDictAll ts, flat_toDict t, List.map_append]

end

mutual

/-- So does the worklist of `_prepared`. -/
theorem prepared_toDict : ∀ s : Sig V, s.toDict.prepared = s.prepared.map toDict
  | task .. => by simp only [toDict, prepared, List.map_cons, List.map_nil]
  | chain [] f => by simp only [toDict, toDictAll, prepared, List.map_nil]
  | chain (t :: ts) f => by
    have := clone_toDict (chain (t :: ts) f)
    rw [toDict, toDictAll] at this
    rw [toDict, toDictAll, prepared, prepared, this, List.map_cons, List.map_nil]
  | group _ ts f => by rw [toDict, prepared, prepared, preparedAll_toDictAll ts]
  | chord l h hg b f => by
    have := clone_toDict (chord l h hg b f)
    rw [toDict] at this
    rw [toDict, prepared, prepared, this, List.map_cons, List.map_nil]

theorem preparedAll_toDictAll : ∀ ts : List (Sig V),
    preparedAll (toDictAll ts) = (preparedAll ts).map toDict
  | [] => rfl
  | t :: ts => by
    rw [toDictAll, preparedAll, preparedAll, preparedAll_toDictAll ts, prepared_toDict t,
      List.map_append]

end

/-- A group of one is unrolled as a dict too. -/
theorem maybeUnrollGroup_toDict (s : Sig V) :
    s.toDict.maybeUnrollGroup = s.maybeUnrollGroup.toDict := by
  cases s with
  | group l ts f =>
    rcases ts with _ | ⟨t, _ | ⟨t', ts⟩⟩ <;> simp only [toDict, toDictAll, maybeUnrollGroup]
  | _ => simp only [toDict, maybeUnrollGroup]

@[simp] theorem isEmptyGroup_toDict (s : Sig V) : s.toDict.isEmptyGroup = s.isEmptyGroup := by
  cases s with
  | group l ts f => cases ts <;> simp only [toDict, toDictAll, isEmptyGroup]
  | _ => simp only [toDict, isEmptyGroup]

@[simp] theorem isChain_toDict (s : Sig V) : s.toDict.isChain = s.isChain := by
  cases s <;> simp only [toDict, isChain]

@[simp] theorem truthy_toDict (s : Sig V) : s.toDict.truthy = s.truthy := by
  cases s with
  | group l ts f => simp only [toDict, truthy, toDictAll_eq_map, List.isEmpty_map]
  | _ => simp only [toDict, truthy]

/-- `tasks` as a keyword argument overwrites the tasks of a dict too. -/
@[simp] theorem clobbered_toDict (kwargs : List (String × V)) (s : Sig V) :
    s.toDict.clobbered kwargs = s.clobbered kwargs := by
  cases s <;> simp only [toDict, clobbered, fieldsDict_immutable]

/-- Arguments are given to a dict as to a signature. -/
theorem receiveArgs_toDict (args : List V) (kwargs : List (String × V)) (s : Sig V) :
    s.toDict.receiveArgs args kwargs = (s.receiveArgs args kwargs).toDict := by
  cases s <;> simp only [toDict, receiveArgs, fieldsDict_merge]

mutual

/-- There is something to freeze in a dict if there is in the signature. -/
theorem bearing_toDict : ∀ s : Sig V, s.toDict.bearing = s.bearing
  | task .. => by simp only [toDict, bearing]
  | chain ts f => by simp only [toDict, bearing, toDictAll_eq_map, List.isEmpty_map]
  | group _ ts f => by rw [toDict, bearing, bearing, bearingAny_toDictAll ts]
  | chord l h hg b f => by simp only [toDict, bearing]

theorem bearingAny_toDictAll : ∀ ts : List (Sig V), bearingAny (toDictAll ts) = bearingAny ts
  | [] => rfl
  | t :: ts => by
    rw [toDictAll, bearingAny, bearingAny, bearing_toDict t, bearingAny_toDictAll ts]

end

/-- The members of a generator are those of the list that takes its place. -/
theorem memberList_toDictAll {lazy : Bool} {ts : List (Sig V)} (h : listLike lazy ts = true) :
    memberList false (toDictAll ts) = (memberList lazy ts).map toDict := by
  rw [memberList_of_listLike h, memberList, memberList, if_neg Bool.false_ne_true,
    if_neg Bool.false_ne_true, List.map_flatMap, toDictAll_eq_map, List.flatMap_map]
  exact List.flatMap_congr fun t _ => flat_toDict t

/-- A step that is a dict is true if the step is, unless it holds a generator that is no list. -/
theorem staysTruthy_toDict {s : Sig V} (h : s.tidy = true) :
    s.toDict.staysTruthy = s.staysTruthy := by
  cases s with
  | group l ts f =>
    rw [toDict, staysTruthy, bearingAny_toDictAll]
    cases l with
    | false => rfl
    | true =>
      cases ts with
      | nil => rfl
      | cons t ts =>
        simp only [tidy, listLike, List.all_cons, Bool.not_true, Bool.false_or, Bool.and_eq_true] at h
        have hbearing : t.bearing = true := by
          cases t with
          | group => cases h.1.1.1
          | chain us g => cases us with
            | nil => cases h.1.1.2
            | cons u us => rfl
          | _ => rfl
        rw [bearingAny, hbearing, staysTruthy]
        rfl
  | _ => simp only [toDict, staysTruthy]

mutual

/-- Copies hold no other generators. -/
theorem tidy_clone : ∀ {s : Sig V}, s.tidy = true → s.clone.tidy = true
  | task .., _ => rfl
  | chain ts _, h => by
    rw [clone, tidy]
    exact tidyAll_cloneAll h
  | group _ ts _, h => h
  | chord _ hd (some _) b _, h => by
    rw [tidy, Bool.and_eq_true] at h
    rw [clone, tidy, h.1, tidy_clone h.2]
    rfl
  | chord _ hd none b _, h => by
    rw [tidy, Bool.and_eq_true, Bool.and_eq_true] at h
    rw [clone, tidy, tidyAll_cloneAll h.1.2, tidy_clone h.2]
    rfl

theorem tidyAll_cloneAll : ∀ {ts : List (Sig V)}, tidyAll ts = true → tidyAll (cloneAll ts) = true
  | [], _ => rfl
  | t :: ts, h => by
    rw [tidyAll, Bool.and_eq_true] at h
    rw [cloneAll, tidyAll, tidy_clone h.1, tidyAll_cloneAll h.2]
    rfl

end

/-- Neither do the parts that a signature is taken apart into. -/
theorem hereditary_tidy : Hereditary fun s : Sig V => s.tidy = true where
  unroll s h := by
    unfold maybeUnrollGroup
    split
    · rw [tidy, tidyAll, Bool.and_eq_true, Bool.and_eq_true] at h
      exact h.2.1
    · exact h
  splice ts f h := tidyAll_eq_true_iff.1 h
  clone s h := tidy_clone h
  receiveArgs args kwargs s h := by
    cases s <;> exact h
  prependArgs args s h := by
    cases s <;> exact h

mutual

/-- Neither do the members that come off the worklist. -/
theorem tidyAll_flat : ∀ {s : Sig V}, s.tidy = true → tidyAll s.flat = true
  | task .., _ => rfl
  | chain [] _, _ => rfl
  | chain (t :: ts) _, h => by
    rw [flat, tidyAll, tidy_clone h]
    rfl
  | group _ ts _, h => by
    rw [tidy, Bool.and_eq_true] at h
    exact tidyAll_flatRev h.2
  | chord .., h => by
    rw [flat, tidyAll, tidy_clone h]
    rfl

theorem tidyAll_flatRev : ∀ {ts : List (Sig V)}, tidyAll ts = true → tidyAll (flatRev ts) = true
  | [], _ => rfl
  | t :: ts, h => by
    rw [tidyAll, Bool.and_eq_true] at h
    rw [flatRev, tidyAll_eq_true_iff, List.forall_mem_append, ← tidyAll_eq_true_iff,
      ← tidyAll_eq_true_iff]
    exact ⟨tidyAll_flatRev h.2, tidyAll_flat h.1⟩

end

theorem tidyAll_preparedAll {ts : List (Sig V)} (h : tidyAll ts = true) :
    tidyAll (preparedAll ts) = true :=
  tidyAll_eq_true_iff.2 fun t ht => tidyAll_eq_true_iff.1 (tidyAll_flatRev h) t
    ((preparedAll_perm_flatRev ts).mem_iff.1 ht)

theorem tidyAll_memberList (lazy : Bool) {ts : List (Sig V)} (h : tidyAll ts = true) :
    tidyAll (memberList lazy ts) = true := by
  unfold memberList
  split_ifs
  · rw [← cloneAll_eq_map]
    exact tidyAll_cloneAll h
  · refine tidyAll_eq_true_iff.2 fun u hu => ?_
    obtain ⟨t, ht, hu⟩ := List.mem_flatMap.1 hu
    exact tidyAll_eq_true_iff.1 (tidyAll_flat (tidyAll_eq_true_iff.1 h t ht)) u hu

end Sig

section Steps

variable {c : Prepare V} (hc : c.clone = true)
include hc

/-- `prepare_steps` hands arguments to dicts as to signatures. -/
theorem Prepare.receive_toDict (first : Bool) (s : Sig V) :
    c.receive first s.toDict = (c.receive first s).map toDict := by
  unfold Prepare.receive
  rw [hc]
  cases first with
  | true =>
    simp only [cloneWith, clobbered_toDict, clone_toDict, receiveArgs_toDict]
    split_ifs <;> rfl
  | false => simp only [clone_toDict, Except.map]

/-- **The second loop of `prepare_steps` takes the same steps of dicts**, in the same order. -/
theorem taken_toDict (n : ℕ) (prev : Bool) {st : List (Sig V)} (hst : ∀ s ∈ st, s.tidy = true) :
    taken c n prev (st.map toDict) = (taken c n prev st).map (List.map toDict) := by
  induction n generalizing prev st with
  | zero => cases st <;> rfl
  | succ n ih =>
    cases st with
    | nil => rfl
    | cons s st =>
      obtain ⟨hs, hst⟩ := List.forall_mem_cons.1 hst
      have hskipped : skipped prev s.toDict (st.map toDict) = skipped prev s st := by
        rw [skipped, skipped, maybeUnrollGroup_toDict, isEmptyGroup_toDict, List.isEmpty_map]
      have hreceive : c.receive (st.map toDict).isEmpty s.toDict.maybeUnrollGroup
          = (c.receive st.isEmpty s.maybeUnrollGroup).map toDict := by
        rw [List.isEmpty_map, maybeUnrollGroup_toDict, Prepare.receive_toDict hc]
      rw [List.map_cons]
      cases hskip : skipped prev s st with
      | true => rw [taken_skip hskip, taken_skip (hskipped.trans hskip), ih prev hst]
      | false =>
        have hskip' := hskipped.trans hskip
        cases hr : c.receive st.isEmpty s.maybeUnrollGroup with
        | error e =>
          rw [hr] at hreceive
          rw [taken_error hskip hr, taken_error hskip' hreceive]
          rfl
        | ok x =>
          have hx := hereditary_tidy.of_receive hr (hereditary_tidy.unroll s hs)
          rw [hr] at hreceive
          by_cases hchain : x.isChain = true
          · cases x with
            | chain xs f =>
              have hxs : ∀ x ∈ xs.reverse, x.tidy = true := fun x hmem =>
                hereditary_tidy.splice xs f hx x (List.mem_reverse.1 hmem)
              rw [taken_splice hskip hr, taken_splice hskip' hreceive, toDictAll_eq_map,
                ← List.map_reverse, ← List.map_append,
                ih prev (List.forall_mem_append.2 ⟨hxs, hst⟩)]
            | _ => cases hchain
          · rw [Bool.not_eq_true] at hchain
            rw [taken_take hskip hr hchain,
              taken_take hskip' hreceive ((isChain_toDict x).trans hchain), staysTruthy_toDict hx,
              ih _ hst]
            cases taken c n (prev || x.staysTruthy) st <;> rfl

omit hc in
/-- So does the first one, which takes apart what the chain begins with. -/
theorem normaliseHead_toDict (n : ℕ) (ts : List (Sig V)) :
    normaliseHead true n (ts.map toDict) = (normaliseHead true n ts).map toDict := by
  induction n generalizing ts with
  | zero => rfl
  | succ n ih =>
    match ts with
    | [] => rfl
    | .task .. :: st => rfl
    | .chord .. :: st => rfl
    | .chain ts f :: st =>
      rw [List.map_cons, toDict, normaliseHead, normaliseHead, if_pos rfl, if_pos rfl,
        cloneAll_toDictAll, toDictAll_eq_map, ← List.map_append, ih]
    | .group l ts f :: st =>
      have hunroll := maybeUnrollGroup_toDict (.group l ts f)
      rw [toDict] at hunroll
      rw [List.map_cons, toDict, normaliseHead, normaliseHead]
      simp only [hunroll, isEmptyGroup_toDict, List.isEmpty_map]
      split_ifs
      · exact ih st
      · rfl

/-- **A chain takes the same steps** whether they are plain dicts or signatures. -/
theorem takenSteps_toDict {ts : List (Sig V)} (hts : tidyAll ts = true) :
    takenSteps c (toDictAll ts) = (takenSteps c ts).map (List.map toDict) := by
  unfold takenSteps
  rw [weightAll_toDictAll, toDictAll_eq_map]
  simp only [hc, normaliseHead_toDict]
  rw [← toDictAll_eq_map (normaliseHead _ _ _), weightAll_toDictAll, toDictAll_eq_map,
    ← List.map_reverse]
  refine taken_toDict hc _ _ fun s hs => ?_
  exact hereditary_tidy.of_normaliseHead true _ (tidyAll_eq_true_iff.1 hts) s
    (List.mem_reverse.1 hs)

end Steps

namespace Sig

/-- What a member settles to does not depend on its being a dict. -/
theorem settle_toDict {s : Sig V} (h : s.tidy = true) : s.toDict.settle = s.settle.toDict := by
  cases s with
  | group l ts f =>
    rw [tidy, Bool.and_eq_true] at h
    rw [toDict, settle, settle, toDict, memberList_toDictAll h.1, toDictAll_eq_map]
  | _ => simp only [toDict, settle]

theorem tidy_settle {s : Sig V} (h : s.tidy = true) : s.settle.tidy = true := by
  cases s with
  | group l ts f =>
    rw [tidy, Bool.and_eq_true] at h
    rw [settle, tidy, tidyAll_memberList l h.2, Bool.and_true]
    cases l with
    | false => rfl
    | true =>
      have hclone : ∀ t : Sig V, (!t.clone.isGroup && !t.clone.isEmptyChain)
          = (!t.isGroup && !t.isEmptyChain) := by
        intro t
        rw [isEmptyChain_clone]
        cases t with
        | chord l h hg b f => cases hg <;> rfl
        | _ => rfl
      rw [listLike, memberList, if_pos rfl, List.all_map]
      simpa only [listLike, Function.comp_def, hclone] using h.1
  | _ => exact h

/-- An option that is set in the dict is set in the signature that the dict is made into. -/
theorem toDict_mapOptions {g g' : Options V (Sig V) → Options V (Sig V)}
    (h : ∀ o, optionsDict (g o) = g' (optionsDict o)) (s : Sig V) :
    (s.mapOptions g).toDict = s.toDict.mapOptions g' := by
  have hfields : ∀ f : Fields V (Sig V), fieldsDict { f with options := g f.options }
      = { fieldsDict f with options := g' (fieldsDict f).options } := by
    rintro ⟨args, kwargs, options, immutable⟩
    simp only [fieldsDict, h]
  cases s <;> simp only [mapOptions, options, fields, withFields, toDict, hfields]

@[simp] theorem tidy_mapOptions (g : Options V (Sig V) → Options V (Sig V)) (s : Sig V) :
    (s.mapOptions g).tidy = s.tidy := by
  cases s <;> rfl

end Sig

/-- Groups before another step become chords in dicts too. -/
theorem upgradeSteps_toDict {ts : List (Sig V)} (h : ∀ t ∈ ts, t.tidy = true) :
    upgradeSteps (ts.map toDict) = (upgradeSteps ts).map toDict := by
  induction ts with
  | nil => rfl
  | cons t ts ih =>
    obtain ⟨ht, hts⟩ := List.forall_mem_cons.1 h
    rw [List.map_cons, upgradeSteps, upgradeSteps, settle_toDict ht, ih hts]
    cases t.settle with
    | group l us f =>
      cases upgradeSteps ts with
      | nil => rfl
      | cons p ps =>
        simp only [toDict, List.map_cons, truthy_toDict]
        split_ifs <;> rfl
    | _ => rfl

theorem tidy_of_mem_upgradeSteps {ts : List (Sig V)} (h : ∀ t ∈ ts, t.tidy = true) :
    ∀ t ∈ upgradeSteps ts, t.tidy = true := by
  induction ts with
  | nil => exact h
  | cons t ts ih =>
    obtain ⟨ht, hts⟩ := List.forall_mem_cons.1 h
    have hsettle := tidy_settle ht
    rw [upgradeSteps]
    split
    next l us f p ps hgroup hps =>
      rw [hgroup, tidy] at hsettle
      rw [hps] at ih
      obtain ⟨hp, hrest⟩ := List.forall_mem_cons.1 (ih hts)
      split_ifs
      · refine List.forall_mem_cons.2 ⟨?_, hrest⟩
        rw [tidy, hsettle, hp]
        rfl
      · exact List.forall_mem_cons.2 ⟨hsettle, List.forall_mem_cons.2 ⟨hp, hrest⟩⟩
    next => exact List.forall_mem_cons.2 ⟨hsettle, ih hts⟩

/-- What goes with a plain dict. -/
def Riders.toDict (r : Riders V) : Riders V where
  chain := toDictAll r.chain
  chord := chordDict r.chord

/-- What a message carries along goes on the options of a dict as on those of a signature. -/
theorem Riders.on_toDict (r : Riders V) (o : Options V (Sig V)) :
    r.toDict.on (optionsDict o) = optionsDict (r.on o) := by
  obtain ⟨rest, body⟩ := r
  obtain ⟨_, _, c, _, _, _, _, _, _, ch, _⟩ := o
  cases rest <;> cases body <;> cases c <;> cases ch <;> rfl

/-- And so it does when it is passed on to the members. -/
theorem Riders.passed_toDict (r : Riders V) (o : Options V (Sig V)) :
    r.toDict.passed (optionsDict o) = (r.passed o).toDict := by
  obtain ⟨rest, body⟩ := r
  obtain ⟨_, _, c, _, _, _, _, _, _, ch, _⟩ := o
  cases rest <;> cases body <;> cases c <;> cases ch <;> rfl

/-- The message as it is encoded. -/
def Message.toDict (m : Message V) : Message V := { m with options := optionsDict m.options }

/-- Members that send the same each send the same together. -/
theorem sendAll_toDict {go go' : Sig V → Except PyError (List (Message V))} {ts : List (Sig V)}
    (h : ∀ t ∈ ts, go' t.toDict = (go t).map (List.map Message.toDict)) :
    sendAll go' (ts.map Sig.toDict) = (sendAll go ts).map (List.map Message.toDict) := by
  have hmapM : (ts.map Sig.toDict).mapM go'
      = (ts.mapM go).map (List.map (List.map Message.toDict)) := by
    induction ts with
    | nil => rfl
    | cons t ts ih =>
      obtain ⟨ht, hts⟩ := List.forall_mem_cons.1 h
      rw [List.map_cons, List.mapM_cons, List.mapM_cons, ht, ih hts]
      cases go t with
      | error e => rfl
      | ok ms => cases ts.mapM go <;> rfl
  rw [sendAll, sendAll, hmapM]
  cases ts.mapM go with
  | error e => rfl
  | ok mss => exact congrArg Except.ok (List.map_flatten ..).symm

theorem modifyHead_toDict {g k : Options V (Sig V) → Options V (Sig V)}
    (h : ∀ o, optionsDict (g o) = k (optionsDict o)) (ts : List (Sig V)) :
    (ts.modifyHead (mapOptions g)).map toDict = (ts.map toDict).modifyHead (mapOptions k) := by
  cases ts with
  | nil => rfl
  | cons t ts =>
    rw [List.modifyHead_cons, List.map_cons, List.map_cons, List.modifyHead_cons,
      toDict_mapOptions h]

/-- The body that a member reports to is set in the options of the dict. -/
theorem reporting_toDict (body : Option (Sig V)) (o : Options V (Sig V)) :
    optionsDict { o with chord := body.or o.chord }
      = { optionsDict o with chord := (chordDict body).or (optionsDict o).chord } := by
  obtain ⟨_, _, c, _, _, _, _, _, _, _, _⟩ := o
  cases body <;> cases c <;> rfl

section Send

variable [PyValue V]

omit [PyValue V] in
theorem handed_fieldsDict (f : Fields V (Sig V)) (args : List V) :
    (fieldsDict f).handed args = f.handed args := by
  rw [Fields.handed, Fields.handed, fieldsDict_args, fieldsDict_immutable]

/-- **A plain dict sends what the signature sends**, once that is encoded. -/
theorem send_toDict (n : ℕ) {s : Sig V} (hs : s.tidy = true) (args : List V)
    (kwargs : List (String × V)) (r : Riders V) :
    send n s.toDict args kwargs r.toDict
      = (send n s args kwargs r).map (List.map Message.toDict) := by
  induction n generalizing s args kwargs r with
  | zero => rfl
  | succ n ih =>
    cases s with
    | task name f =>
      rw [Sig.toDict, send, send]
      simp only [← fieldsDict_merge, fieldsDict_args, fieldsDict_kwargs, fieldsDict_options,
        Riders.on_toDict]
      rfl
    | chain ts f =>
      rw [Sig.toDict, send, send, takenSteps_toDict rfl hs, handed_fieldsDict, fieldsDict_options,
        Riders.passed_toDict]
      cases hsteps : takenSteps { args := f.handed args, kwargs := kwargs } ts with
      | error e => rfl
      | ok steps =>
        let last := mapOptions fun o : Options V (Sig V) =>
          { o with chord := (r.passed f.options).chord.or o.chord }
        have hlast : ∀ t ∈ (steps.modifyHead last).reverse, t.tidy = true := by
          intro t ht
          have hsteps := hereditary_tidy.of_takenSteps hsteps (tidyAll_eq_true_iff.1 hs)
          cases steps with
          | nil => cases ht
          | cons u us =>
            obtain ⟨hu, hus⟩ := List.forall_mem_cons.1 hsteps
            rw [List.modifyHead_cons, List.mem_reverse, List.mem_cons] at ht
            rcases ht with rfl | ht
            · exact (tidy_mapOptions _ u).trans hu
            · exact hus t ht
        have hup := upgradeSteps_toDict hlast
        rw [List.map_reverse, modifyHead_toDict (k := fun o =>
          { o with chord := (r.passed f.options).toDict.chord.or o.chord })
          (reporting_toDict (r.passed f.options).chord)] at hup
        dsimp only [bind, Except.bind, Except.map]
        rw [hup]
        cases hfirst : upgradeSteps (steps.modifyHead last).reverse with
        | nil => rfl
        | cons first rest =>
          have hfirst := tidy_of_mem_upgradeSteps hlast first (hfirst ▸ List.mem_cons_self)
          have hrest : Riders.toDict { chain := rest ++ (r.passed f.options).chain }
              = { chain := rest.map Sig.toDict ++ (r.passed f.options).toDict.chain } := by
            simp only [Riders.toDict, toDictAll_eq_map, List.map_append, chordDict]
          rw [List.map_cons]
          dsimp only
          rw [← hrest]
          exact ih hfirst _ _ _
    | group l ts f =>
      rw [Sig.tidy, Bool.and_eq_true] at hs
      rw [Sig.toDict, send, send, preparedAll_toDictAll]
      refine sendAll_toDict fun t ht => ?_
      rw [fieldsDict_options, Riders.passed_toDict]
      exact ih (tidyAll_eq_true_iff.1 (tidyAll_preparedAll hs.2) t ht) _ _ _
    | chord l hd hg body f =>
      rw [Sig.tidy, Bool.and_eq_true, Bool.and_eq_true] at hs
      obtain ⟨⟨hlazy, hhd⟩, hbody⟩ := hs
      have hon : body.clone.toDict.mapOptions (r.passed f.options).toDict.on
          = (body.clone.mapOptions (r.passed f.options).on).toDict :=
        (toDict_mapOptions (fun o => (Riders.on_toDict _ o).symm) _).symm
      rw [Sig.toDict, send, send, fieldsDict_kwargs, fieldsDict_options, Riders.passed_toDict,
        handed_fieldsDict, clone_toDict, memberList_toDictAll hlazy, hon]
      split_ifs
      · rfl
      · rfl
      dsimp only
      rw [List.isEmpty_map]
      split_ifs
      · refine ih ?_ [PyValue.nil] [] {}
        rw [tidy_mapOptions]
        exact tidy_clone hbody
      · rw [← toDictAll_eq_map, preparedAll_toDictAll]
        refine sendAll_toDict fun t ht => ?_
        have hrider : Riders.toDict
            { chord := (body.clone.mapOptions (r.passed f.options).on).ifTruthy }
            = { chord := (body.clone.mapOptions (r.passed f.options).on).toDict.ifTruthy } := by
          simp only [Riders.toDict, ifTruthy, truthy_toDict]
          split_ifs <;> rfl
        rw [← hrider]
        exact ih (tidyAll_eq_true_iff.1 (tidyAll_preparedAll (tidyAll_memberList l hhd)) t ht) _ _ _

/-- **The round trip**: the same tree comes back, and applied to any partial arguments it sends
the messages of `s`, which are plain once they are encoded. -/
structure RoundTrips (s : Sig V) : Prop where
  same : fromDict s.toDict = s.toDict
  sends : ∀ args kwargs, applyAsync (fromDict s.toDict) args kwargs
    = (applyAsync s args kwargs).map (List.map Message.toDict)

/-- **Only what is faithful comes back, and all of it does** if its generators are tidy. -/
theorem fromDict_round_trips (s : Sig V) :
    (RoundTrips s → s.faithful = true) ∧
      (s.faithful = true → s.tidy = true → RoundTrips s) := by
  refine ⟨fun h => (fromDict_toDict_iff s).1 h.same, fun hfaithful htidy => ?_⟩
  have hsame := (fromDict_toDict_iff s).2 hfaithful
  refine ⟨hsame, fun args kwargs => ?_⟩
  rw [hsame, applyAsync, applyAsync, weight_toDict]
  exact send_toDict _ htidy args kwargs {}

end Send

/-- An immutable chain comes back mutable, and takes the result of the task it is linked to. -/
theorem immutableChain_lost :
    ¬ @RoundTrips ℤ ⟨(· != 0), 0⟩ (.chain [.task "add" {}] { immutable := true }) := by
  intro h
  have hsends := @RoundTrips.sends ℤ ⟨(· != 0), 0⟩ _ h [1] []
  have hargs := congrArg (Except.map (List.map fun m => m.label.args)) hsends
  revert hargs
  decide

end Canvas
end Celery
