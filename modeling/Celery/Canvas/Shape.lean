/-
# The shape of a signature

Which steps of a chain survive, and whether a signature can be frozen at all, is
decided by how chains, groups and chords are nested.  `shape` forgets the rest:
names, arguments and options.  Cloning does not change the shape, nor do the
arguments that `prepare_steps` hands to the first task.

`taken` is the second loop of `prepare_steps` without its effects: the steps that
are left once nested chains are spliced, groups of one member unrolled and empty
groups skipped, in the order in which the loop freezes them, the last one first.
`flat` lists the members of a group as `_freeze_unroll` takes them.
-/

import Celery.Canvas.Freeze

namespace Celery
namespace Canvas

variable {V : Type}

/-- A signature with nothing but its nesting. -/
abbrev Shape := Sig Unit

namespace Sig

mutual

/-- The nesting of a signature. -/
def shape : Sig V → Shape
  | task .. => task "" {}
  | chain ts _ => chain (shapeAll ts) {}
  | group l ts _ => group l (shapeAll ts) {}
  | chord _ h _ b _ => chord false (shapeAll h) none (shape b) {}

def shapeAll : List (Sig V) → List Shape
  | [] => []
  | t :: ts => shape t :: shapeAll ts

end

mutual

/-- A member that `_freeze_unroll` finds something to freeze in. -/
def bearing : Sig V → Bool
  | task .. => true
  | chain ts _ => !ts.isEmpty
  | group _ ts _ => bearingAny ts
  | chord .. => true

def bearingAny : List (Sig V) → Bool
  | [] => false
  | t :: ts => bearing t || bearingAny ts

end

/-- Whether a step is true once it is frozen: a group made from a list has been
flattened by then. -/
def staysTruthy : Sig V → Bool
  | group false ts _ => bearingAny ts
  | group true ts _ => !ts.isEmpty
  | _ => true

mutual

/-- What a member of a group comes to on the worklist of `_freeze_unroll`. -/
def flat : Sig V → List (Sig V)
  | group _ ts _ => flatRev ts
  | task n f => [task n f]
  | chain [] _ => []
  | chain (t :: ts) f => [(chain (t :: ts) f).clone]
  | chord l h hg b f => [(chord l h hg b f).clone]

def flatRev : List (Sig V) → List (Sig V)
  | [] => []
  | t :: ts => flatRev ts ++ flat t

end

mutual

/-- The task signatures in a signature: first the header of a chord, then its
body. -/
def leaves : Sig V → List (Sig V)
  | task n f => [task n f]
  | chain ts _ => leavesAll ts
  | group _ ts _ => leavesAll ts
  | chord _ h _ b _ => leavesAll h ++ leaves b

def leavesAll : List (Sig V) → List (Sig V)
  | [] => []
  | t :: ts => leaves t ++ leavesAll ts

end

theorem shapeAll_eq_map (ts : List (Sig V)) : shapeAll ts = ts.map shape :=
  map_of_cons rfl (fun _ _ => rfl) ts

theorem cloneAll_eq_map (ts : List (Sig V)) : cloneAll ts = ts.map clone :=
  map_of_cons rfl (fun _ _ => rfl) ts

theorem weightAll_eq_sum (ts : List (Sig V)) : weightAll ts = (ts.map weight).sum := by
  induction ts with
  | nil => rfl
  | cons t ts ih => rw [weightAll, ih, List.map_cons, List.sum_cons]

theorem bearingAny_eq_any (ts : List (Sig V)) : bearingAny ts = ts.any bearing := by
  induction ts with
  | nil => rfl
  | cons t ts ih => rw [bearingAny, ih, List.any_cons]

theorem leavesAll_eq_flatMap (ts : List (Sig V)) : leavesAll ts = ts.flatMap leaves := by
  induction ts with
  | nil => rfl
  | cons t ts ih => rw [leavesAll, ih, List.flatMap_cons]

theorem flatRev_eq_flatMap (ts : List (Sig V)) : flatRev ts = ts.reverse.flatMap flat := by
  induction ts with
  | nil => rfl
  | cons t ts ih => rw [flatRev, ih, List.reverse_cons, List.flatMap_append]; simp

@[simp] theorem weightAll_append (ts us : List (Sig V)) :
    weightAll (ts ++ us) = weightAll ts + weightAll us := by
  simp [weightAll_eq_sum]

@[simp] theorem weightAll_reverse (ts : List (Sig V)) : weightAll ts.reverse = weightAll ts := by
  simp [weightAll_eq_sum]

/-- Every signature weighs something, so that a recursion on the weight gets on. -/
theorem weight_pos (s : Sig V) : 0 < s.weight := by
  cases s <;> simp [weight]

/-- A member is no heavier than the list it is in. -/
theorem weight_le_weightAll {t : Sig V} {ts : List (Sig V)} (h : t ∈ ts) :
    t.weight ≤ weightAll ts := by
  rw [weightAll_eq_sum]
  exact List.single_le_sum (by simp) _ (List.mem_map_of_mem h)

mutual

/-- A copy has the same nesting: `clone` only touches fields. -/
@[simp] theorem shape_clone : ∀ s : Sig V, s.clone.shape = s.shape
  | task .. => rfl
  | chain ts _ => by rw [clone, shape, shape, shapeAll_cloneAll ts]
  | group .. => rfl
  | chord _ _ (some _) b _ => by rw [clone, shape, shape, shape_clone b]
  | chord _ h none b _ => by rw [clone, shape, shape, shapeAll_cloneAll h, shape_clone b]

@[simp] theorem shapeAll_cloneAll : ∀ ts : List (Sig V), shapeAll (cloneAll ts) = shapeAll ts
  | [] => rfl
  | t :: ts => by rw [cloneAll, shapeAll, shapeAll, shape_clone t, shapeAll_cloneAll ts]

end

mutual

/-- The weight of a signature, which is the fuel of every recursion here, depends on its nesting
alone. -/
@[simp] theorem weight_shape : ∀ s : Sig V, s.shape.weight = s.weight
  | task .. => rfl
  | chain ts _ => by rw [shape, weight, weight, weightAll_shapeAll ts]
  | group _ ts _ => by rw [shape, weight, weight, weightAll_shapeAll ts]
  | chord _ h _ b _ => by rw [shape, weight, weight, weightAll_shapeAll h, weight_shape b]

@[simp] theorem weightAll_shapeAll : ∀ ts : List (Sig V), weightAll (shapeAll ts) = weightAll ts
  | [] => rfl
  | t :: ts => by rw [shapeAll, weightAll, weightAll, weight_shape t, weightAll_shapeAll ts]

end

mutual

/-- So does whether the worklist finds something to freeze in it. -/
theorem bearing_shape : ∀ s : Sig V, s.shape.bearing = s.bearing
  | task .. => rfl
  | chain ts _ => by rw [shape, bearing, bearing, shapeAll_eq_map]; simp
  | group _ ts _ => by rw [shape, bearing, bearing, bearingAny_shapeAll ts]
  | chord .. => rfl

theorem bearingAny_shapeAll : ∀ ts : List (Sig V), bearingAny (shapeAll ts) = bearingAny ts
  | [] => rfl
  | t :: ts => by rw [shapeAll, bearingAny, bearingAny, bearing_shape t, bearingAny_shapeAll ts]

end

mutual

/-- So does whether nothing in it reports to the body of a chord. -/
@[simp] theorem silent_shape : ∀ s : Sig V, s.shape.silent = s.silent
  | task .. => rfl
  | chain ts _ => by rw [shape, silent, silent, silentAll_shapeAll ts]
  | group _ ts _ => by rw [shape, silent, silent, silentAll_shapeAll ts]
  | chord _ _ _ b _ => by rw [shape, silent, silent, silent_shape b]

@[simp] theorem silentAll_shapeAll : ∀ ts : List (Sig V), silentAll (shapeAll ts) = silentAll ts
  | [] => rfl
  | t :: ts => by rw [shapeAll, silentAll, silentAll, silent_shape t, silentAll_shapeAll ts]

end

mutual

/-- `_descend` counts the tasks by the nesting alone. -/
@[simp] theorem descend_shape : ∀ s : Sig V, s.shape.descend = s.descend
  | task .. => rfl
  | chain ts _ => by rw [shape, descend, descend, (descend_shapeAll ts).2]
  | group _ ts _ => by rw [shape, descend, descend, (descend_shapeAll ts).1]
  | chord _ _ _ b _ => by rw [shape, descend, descend, descend_shape b]

theorem descend_shapeAll : ∀ ts : List (Sig V),
    descendGroup (shapeAll ts) = descendGroup ts ∧ descendChain (shapeAll ts) = descendChain ts
  | [] => ⟨rfl, rfl⟩
  | t :: ts => by
    obtain ⟨hg, hc⟩ := descend_shapeAll ts
    rw [shapeAll, descendGroup, descendGroup, descendChain, descendChain, descend_shape t, hg, hc]
    exact ⟨rfl, rfl⟩

end

/-- Other fields do not change the nesting. -/
@[simp] theorem shape_withFields (f : Fields V (Sig V)) (s : Sig V) :
    (s.withFields f).shape = s.shape := by
  cases s <;> rfl

/-- Neither do the arguments that the first step of a chain is given. -/
@[simp] theorem shape_receiveArgs (args : List V) (kwargs : List (String × V)) (s : Sig V) :
    (s.receiveArgs args kwargs).shape = s.shape := by
  cases s <;> rfl

/-- `maybe_unroll_group` looks at nothing but the nesting. -/
theorem shape_maybeUnrollGroup (s : Sig V) :
    s.maybeUnrollGroup.shape = s.shape.maybeUnrollGroup := by
  cases s with
  | group l ts f => match ts with
    | [] => rfl
    | [_] => rfl
    | _ :: _ :: _ => rfl
  | _ => rfl

/-- `_is_empty_group` looks at nothing but the nesting. -/
@[simp] theorem isEmptyGroup_shape (s : Sig V) : s.shape.isEmptyGroup = s.isEmptyGroup := by
  cases s with
  | group l ts f => cases ts <;> rfl
  | _ => rfl

@[simp] theorem isEmptyChain_shape (s : Sig V) : s.shape.isEmptyChain = s.isEmptyChain := by
  cases s with
  | chain ts f => cases ts <;> rfl
  | _ => rfl

theorem isEmptyGroup_clone (s : Sig V) : s.clone.isEmptyGroup = s.isEmptyGroup := by
  rw [← isEmptyGroup_shape, shape_clone, isEmptyGroup_shape]

theorem isEmptyChain_clone (s : Sig V) : s.clone.isEmptyChain = s.isEmptyChain := by
  rw [← isEmptyChain_shape, shape_clone, isEmptyChain_shape]

/-- Whether a step that is frozen is true depends on its nesting alone. -/
@[simp] theorem staysTruthy_shape (s : Sig V) : s.shape.staysTruthy = s.staysTruthy := by
  cases s with
  | group l ts f =>
    rw [shape]
    cases l with
    | false => rw [staysTruthy, staysTruthy, bearingAny_shapeAll]
    | true => rw [staysTruthy, staysTruthy, shapeAll_eq_map]; simp
  | _ => rfl

mutual

/-- The worklist leaves nothing of a member exactly when there is nothing in it
to freeze. -/
theorem flat_eq_nil_iff : ∀ s : Sig V, s.flat = [] ↔ s.bearing = false
  | task .. => by simp [flat, bearing]
  | chain [] _ => by simp [flat, bearing]
  | chain (_ :: _) _ => by simp [flat, bearing]
  | group _ ts _ => by rw [flat, bearing]; exact flatRev_eq_nil_iff ts
  | chord .. => by simp [flat, bearing]

theorem flatRev_eq_nil_iff : ∀ ts : List (Sig V), flatRev ts = [] ↔ bearingAny ts = false
  | [] => by simp [flatRev, bearingAny]
  | t :: ts => by
    rw [flatRev, bearingAny, List.append_eq_nil_iff, Bool.or_eq_false_iff, flat_eq_nil_iff t,
      flatRev_eq_nil_iff ts, and_comm]

end

mutual

/-- A copy has the same tasks. -/
theorem leaves_clone : ∀ s : Sig V, s.clone.leaves = s.leaves
  | task .. => rfl
  | chain ts _ => by rw [clone, leaves, leaves, leavesAll_cloneAll ts]
  | group .. => rfl
  | chord _ _ (some _) b _ => by rw [clone, leaves, leaves, leaves_clone b]
  | chord _ h none b _ => by rw [clone, leaves, leaves, leavesAll_cloneAll h, leaves_clone b]

theorem leavesAll_cloneAll : ∀ ts : List (Sig V), leavesAll (cloneAll ts) = leavesAll ts
  | [] => rfl
  | t :: ts => by rw [cloneAll, leavesAll, leavesAll, leaves_clone t, leavesAll_cloneAll ts]

end

/-- Unrolling a group of one loses no task. -/
theorem leaves_maybeUnrollGroup (s : Sig V) : s.maybeUnrollGroup.leaves = s.leaves := by
  unfold maybeUnrollGroup
  split
  · simp [leaves, leavesAll]
  · rfl

mutual

/-- Flattening a group loses no task. -/
theorem leavesAll_flat_perm : ∀ s : Sig V, (leavesAll s.flat).Perm s.leaves
  | task .. => by simp [flat, leaves, leavesAll]
  | chain [] _ => by simp [flat, leaves, leavesAll]
  | chain (t :: ts) f => by rw [flat, leavesAll, leavesAll, leaves_clone, List.append_nil]
  | chord l h hg b f => by rw [flat, leavesAll, leavesAll, leaves_clone, List.append_nil]
  | group _ ts _ => by rw [flat, leaves]; exact leavesAll_flatRev_perm ts

theorem leavesAll_flatRev_perm : ∀ ts : List (Sig V), (leavesAll (flatRev ts)).Perm (leavesAll ts)
  | [] => .refl _
  | t :: ts => by
    rw [flatRev, leavesAll_eq_flatMap, List.flatMap_append, ← leavesAll_eq_flatMap,
      ← leavesAll_eq_flatMap, leavesAll]
    exact ((leavesAll_flatRev_perm ts).append (leavesAll_flat_perm t)).trans
      List.perm_append_comm

end

theorem weightAll_cloneAll (ts : List (Sig V)) : weightAll (cloneAll ts) = weightAll ts := by
  rw [← weightAll_shapeAll, shapeAll_cloneAll, weightAll_shapeAll]

mutual

/-- No header has been made a group by `freeze`. -/
def listed : Sig V → Bool
  | task .. => true
  | chain ts _ => listedAll ts
  | group .. => true
  | chord _ h hg b _ => hg.isNone && listedAll h && listed b

def listedAll : List (Sig V) → Bool
  | [] => true
  | t :: ts => listed t && listedAll ts

end

mutual

/-- A copy of a copy is no other. -/
theorem clone_clone : ∀ {s : Sig V}, s.listed = true → s.clone.clone = s.clone
  | task .., _ => rfl
  | chain ts _, h => by rw [clone, clone, cloneAll_cloneAll h]
  | group .., _ => rfl
  | chord _ _ (some _) _ _, h => by cases h
  | chord _ h none b _, hl => by
    rw [listed, Bool.and_eq_true, Bool.and_eq_true] at hl
    rw [clone, clone, cloneAll_cloneAll hl.1.2, clone_clone hl.2]

theorem cloneAll_cloneAll : ∀ {ts : List (Sig V)}, listedAll ts = true →
    cloneAll (cloneAll ts) = cloneAll ts
  | [], _ => rfl
  | t :: ts, h => by
    rw [listedAll, Bool.and_eq_true] at h
    rw [cloneAll, cloneAll, clone_clone h.1, cloneAll_cloneAll h.2]

end

end Sig

open Sig

/-! ### The steps that survive -/

/-- The second loop of `prepare_steps` without the freezing, over the steps not
yet taken, the last one first. -/
def taken (c : Prepare V) : ℕ → Bool → List (Sig V) → Except PyError (List (Sig V))
  | _, _, [] => .ok []
  | 0, _, _ :: _ => .error .outOfFuel
  | n + 1, prev, s :: st =>
    let task := s.maybeUnrollGroup
    if task.isEmptyGroup && (!st.isEmpty || prev) then taken c n prev st
    else do
      let task ← c.receive st.isEmpty task
      match task with
      | .chain ts _ => taken c n prev (ts.reverse ++ st)
      | sig =>
        -- after a true step a group is upgraded, and a chord is true
        let rest ← taken c n (prev || sig.staysTruthy) st
        pure (sig :: rest)

/-- The steps that `prepare_steps` freezes, the last one first. -/
def takenSteps (c : Prepare V) (tasks : List (Sig V)) : Except PyError (List (Sig V)) :=
  let steps := normaliseHead c.clone (weightAll tasks) tasks
  taken c (weightAll steps) false steps.reverse

/-- The steps of a chain of this shape that survive, the last one first. -/
def survivors (tasks : List Shape) : List Shape :=
  (takenSteps { clone := false } tasks).toOption.getD []

/-- **What `freeze` does not raise on.**  A chain needs a step that survives; an
empty chain is no obstacle where it is a member of a group or a header. -/
inductive Freezes : Shape → Prop
  | task (name : String) (f : Fields Unit Shape) : Freezes (.task name f)
  | chain (ts : List Shape) (f : Fields Unit Shape) (hne : survivors ts ≠ [])
      (hall : ∀ t ∈ survivors ts, Freezes t) : Freezes (.chain ts f)
  | group (l : Bool) (ts : List Shape) (f : Fields Unit Shape)
      (hall : ∀ t ∈ ts, t.isEmptyChain = false → Freezes t) : Freezes (.group l ts f)
  | chord (l : Bool) (h : List Shape) (hg : Option (Options Unit Shape)) (b : Shape)
      (f : Fields Unit Shape) (hh : ∀ t ∈ h, t.isEmptyChain = false → Freezes t)
      (hb : Freezes b) : Freezes (.chord l h hg b f)

end Canvas
end Celery
