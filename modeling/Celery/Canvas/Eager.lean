/-
# Chains that are applied eagerly, and by workers

`_chain.apply` (`celery/canvas.py`, lines 1351-1368) runs the steps of a chain one after
the other in this process.  `_chain.run` (1082-1124) prepares them with `prepare_steps`
(1152-1349) and sends the first one; a worker that has finished a step applies the next
one to its result.  `Work` says what tasks do, and both ways leave the calls that are made,
in order, and a value.

`prepare_steps` is `takenSteps` here, which leaves the ids out.  A group before another
step is the header of a chord with that step as its body, which gets the list of the
results: as for every other step, the next one gets the value of this one.

The two ways agree on `agreeChain`, as `Canvas.EagerWork` shows; here are the definitions, and what
`apply` comes to on such chains.  A chain outside reaches a place where the two are written
differently.  `maybe_unroll_group` takes the only member of a group in `prepare_steps` alone
(`groupOfOne_disagrees`); `clone` loses the partial arguments of a group at
the head; a chain of empty groups within the chain is skipped by `prepare_steps` alone, and
`apply` raises at an empty one; `freeze` reverses a group in a list of members and leaves one
among those of a generator where it is.
-/

import Celery.Canvas.Labels
import Celery.Canvas.Rules
import Celery.Canvas.Unroll
import Celery.Library.Traced

namespace Celery
namespace Canvas

open Sig

variable {V : Type}

/-- What tasks do, deterministic and successful, and what a list of results is as a
value. -/
structure Work (V : Type) where
  run : Label V → V
  pack : List V → V

/-- The tasks that are run, with the arguments they receive, and what they come to. -/
abbrev Doing (V α : Type) := Traced (Label V) PyError α

/-- A task is run with partial arguments. -/
def callTask (w : Work V) (name : String) (f : Fields V (Sig V)) (args : List V)
    (kwargs : List (String × V)) : Doing V V :=
  let g := f.merge args kwargs
  ⟨[⟨name, g.args, g.kwargs⟩], .ok (w.run ⟨name, g.args, g.kwargs⟩)⟩

/-- The result of a step, of which `None` has no attributes. -/
def resultOr (e : PyError) : Option V → Doing V V
  | none => .raise e
  | some v => pure v

/-! ### `apply` -/

mutual

/-- `sig.apply(args, kwargs).get()`. -/
def apply (w : Work V) : Sig V → List V → List (String × V) → Doing V V
  | .task n f, args, kwargs => callTask w n f args kwargs
  | .chain ts _, args, kwargs => applySteps w ts none args kwargs >>= resultOr .attributeError
  | .group _ ts _, args, kwargs => w.pack <$> applyMembers w ts args kwargs
  | .chord _ h _ b _, args, kwargs => do
    let vs ← applyMembers w h args kwargs
    apply w b [w.pack vs] []

/-- **The loop of `_chain.apply`**, after the value `last`: an empty group is skipped unless
it is the only task. -/
def applySteps (w : Work V) :
    List (Sig V) → Option V → List V → List (String × V) → Doing V (Option V)
  | [], last, _, _ => pure last
  | t :: ts, last, args, kwargs =>
    if t.isEmptyGroup && (!ts.isEmpty || last.isSome) then applySteps w ts last args kwargs
    else do
      let v ← apply w t (last.elim args ([·])) kwargs
      applySteps w ts (some v) [] []

/-- The results of the tasks that `group._prepared` unrolls. -/
def applyMembers (w : Work V) : List (Sig V) → List V → List (String × V) → Doing V (List V)
  | [], _, _ => pure []
  | t :: ts, args, kwargs => do
    let vs ← applyMember w t args kwargs
    let vs' ← applyMembers w ts args kwargs
    pure (vs ++ vs')

def applyMember (w : Work V) : Sig V → List V → List (String × V) → Doing V (List V)
  | .task n f, args, kwargs => ([·]) <$> callTask w n f args kwargs
  -- an empty chain contributes no task
  | .chain [] _, _, _ => pure []
  | .chain (t :: ts) _, args, kwargs =>
    ([·]) <$> (applySteps w (t :: ts) none args kwargs >>= resultOr .attributeError)
  | .group _ ts _, args, kwargs => applyMembers w ts args kwargs
  | .chord _ h _ b _, args, kwargs => do
    let vs ← applyMembers w h args kwargs
    let v ← apply w b [w.pack vs] []
    pure [v]

end

/-! ### `apply_async` -/

/-- Each step is applied to the result of the one before. -/
def doSteps (go : Sig V → List V → List (String × V) → Doing V V) :
    List (Sig V) → Option V → List V → List (String × V) → Doing V (Option V)
  | [], last, _, _ => pure last
  | t :: ts, last, args, kwargs => do
    let v ← go t (last.elim args ([·])) kwargs
    doSteps go ts (some v) [] []

/-- The results of the members of a group. -/
def doMembers (go : Sig V → List V → List (String × V) → Doing V V) (args : List V)
    (kwargs : List (String × V)) : List (Sig V) → Doing V (List V)
  | [] => pure []
  | t :: ts => do
    let v ← go t args kwargs
    let vs ← doMembers go args kwargs ts
    pure (v :: vs)

/-- The partial arguments that a chain or chord hands on: its own ones come last. -/
def handed (f : Fields V (Sig V)) (args : List V) : List V :=
  if f.immutable then f.args else args ++ f.args

/-- **`_chain.run(args, kwargs)`**, where `go` applies the steps.  The first one has the
partial arguments from `prepare_steps`. -/
def runChain (go : Sig V → List V → List (String × V) → Doing V V) (ts : List (Sig V))
    (f : Fields V (Sig V)) (args : List V) (kwargs : List (String × V)) : Doing V (Option V) := do
  let steps ← Traced.restore (takenSteps { args := handed f args, kwargs := kwargs } ts)
  doSteps go steps.reverse none [] []

/-- `sig.apply_async(args, kwargs)`, and what workers then do, with fuel.  The members of a
group have been frozen before; a chain without a step to freeze raises then. -/
def work (w : Work V) : ℕ → Sig V → List V → List (String × V) → Doing V V
  | 0, _, _, _ => .raise .outOfFuel
  | n + 1, s, args, kwargs =>
    match s with
    | .task name f => callTask w name f args kwargs
    | .chain ts f => runChain (work w n) ts f args kwargs >>= resultOr .indexError
    | .group l ts _ =>
      let members := (memberList l ts).filter (!·.isEmptyChain)
      w.pack <$> doMembers (work w n) args kwargs members
    | .chord l h _ b f => do
      let members := (memberList l h).filter (!·.isEmptyChain)
      let vs ← doMembers (work w n) (handed f args) kwargs members
      work w n b [w.pack vs] []

/-- `chain.apply_async(args, kwargs)` and what workers then do. -/
def workChain (w : Work V) (ts : List (Sig V)) (f : Fields V (Sig V)) (args : List V)
    (kwargs : List (String × V)) : Doing V (Option V) :=
  runChain (work w (weightAll ts)) ts f args kwargs

/-! ### Where they agree -/

namespace Sig

mutual

/-- The steps of a chain: chains in it are spliced, and empty groups are none. -/
def spineOf : Sig V → List (Sig V)
  | chain ts _ => spine ts
  | group _ [] _ => []
  | s => [s]

def spine : List (Sig V) → List (Sig V)
  | [] => []
  | t :: ts => spineOf t ++ spine ts

end

/-- The first step is a task. -/
def headIsTask (ts : List (Sig V)) : Bool := (spine ts).head?.any isTask

mutual

/-- There is no task to run: an empty group, or a chain of such steps. -/
def hollow : Sig V → Bool
  | task .. => false
  | chain ts _ => !ts.isEmpty && hollowAll ts
  | group _ ts _ => ts.isEmpty
  | chord .. => false

def hollowAll : List (Sig V) → Bool
  | [] => true
  | t :: ts => hollow t && hollowAll ts

end

/-- What `prepare_steps` takes a step for: each is unrolled once, and the first one in both
loops. -/
def opened (first : Bool) (s : Sig V) : Sig V :=
  if first then s.maybeUnrollGroup.maybeUnrollGroup else s.maybeUnrollGroup

/-- A group with the members in the order in which they are written, once `freeze` has flattened
those of a list. -/
def inOrder : Sig V → Bool
  | group true ts _ => bearingAny ts && ts.all (!·.isGroup)
  | group false ts _ => !ts.isEmpty && ts.all straight
  | _ => false

mutual

/-- A step on which both ways agree: a task, a chain with a step in it, or a group.  `first`
says that it is the first step of all, and `given` that it may be given arguments. -/
def agree (first given : Bool) : Sig V → Bool
  | task .. => true
  | chain ts _ => agreeFirst first given ts
  | group l ts f => inOrder (opened first (group l ts f)) && agreeMembers given ts
  | chord .. => false

/-- The steps of a chain, of which one is not an empty group. -/
def agreeFirst (first given : Bool) : List (Sig V) → Bool
  | [] => false
  | t :: ts =>
    if t.isEmptyGroup then agreeFirst first given ts else agree first given t && agreeRest ts

def agreeRest : List (Sig V) → Bool
  | [] => true
  | t :: ts => (t.isEmptyGroup || agree false true t) && agreeRest ts

/-- A member of a group.  A chain is run on its own, with a task at its head for the arguments. -/
def agreeMember (given : Bool) : Sig V → Bool
  | task .. => true
  | chain ts _ => hollowAll ts || agreeFirst true given ts && (!given || headIsTask ts)
  | group _ ts _ => agreeMembers given ts
  | chord .. => false

def agreeMembers (given : Bool) : List (Sig V) → Bool
  | [] => true
  | t :: ts => agreeMember given t && agreeMembers given ts

end

end Sig

/-- **`_chain.apply` and the workers agree**, whatever tasks do: the same tasks are run, in
the same order and with the same arguments, and come to the same value. -/
def AppliesAlike (ts : List (Sig V)) (f : Fields V (Sig V)) (args : List V)
    (kwargs : List (String × V)) : Prop :=
  ∀ w : Work V, workChain w ts f args kwargs = applySteps w ts none args kwargs

/-- **The chains on which both ways agree**, called with these arguments.  Where a task is the
first step, `_chain.run` has to hand on those that the chain is called with. -/
def agreeChain [DecidableEq V] (ts : List (Sig V)) (f : Fields V (Sig V)) (args : List V)
    (kwargs : List (String × V)) : Bool :=
  let given := !(args.isEmpty && kwargs.isEmpty)
  hollowAll ts && (ts.isEmpty || !dictHas kwargs "tasks") ||
    agreeFirst true given ts && (if headIsTask ts then decide (handed f args = args) else !given)

/-! ### Steps after steps -/

section Steps

variable {go : Sig V → List V → List (String × V) → Doing V V}

theorem doSteps_append_nil (xs ys : List (Sig V)) (last : Option V) :
    doSteps go (xs ++ ys) last [] [] = doSteps go xs last [] [] >>= (doSteps go ys · [] []) := by
  induction xs generalizing last with
  | nil => rfl
  | cons x xs ih => simp only [List.cons_append, doSteps, ih, bind_assoc]

theorem doSteps_append {xs : List (Sig V)} (hxs : xs ≠ []) (ys : List (Sig V)) (last : Option V)
    (args : List V) (kwargs : List (String × V)) :
    doSteps go (xs ++ ys) last args kwargs =
      doSteps go xs last args kwargs >>= (doSteps go ys · [] []) := by
  cases xs with
  | nil => exact absurd rfl hxs
  | cons x xs => simp only [List.cons_append, doSteps, doSteps_append_nil, bind_assoc]

/-- The value of the step before is the argument of the first one. -/
theorem doSteps_some {xs : List (Sig V)} (hxs : xs ≠ []) (v : V) :
    doSteps go xs (some v) [] [] = doSteps go xs none [v] [] := by
  cases xs with
  | nil => exact absurd rfl hxs
  | cons x xs => rfl

theorem resultOr_doSteps_some (e : PyError) (xs : List (Sig V)) (v : V) :
    (doSteps go xs (some v) [] [] >>= fun r => some <$> resultOr e r)
      = doSteps go xs (some v) [] [] := by
  induction xs generalizing v with
  | nil => rfl
  | cons x xs ih => simp only [doSteps, bind_assoc, ih]

/-- Steps come to a value. -/
theorem resultOr_doSteps (e : PyError) {xs : List (Sig V)} (hxs : xs ≠ []) (args : List V)
    (kwargs : List (String × V)) :
    some <$> (doSteps go xs none args kwargs >>= resultOr e) = doSteps go xs none args kwargs := by
  cases xs with
  | nil => exact absurd rfl hxs
  | cons x xs => simp only [doSteps, bind_assoc, map_bind, resultOr_doSteps_some]

/-- So it does not matter what would be raised without one. -/
theorem resultOr_doSteps_eq (e e' : PyError) {xs : List (Sig V)} (hxs : xs ≠ []) (args : List V)
    (kwargs : List (String × V)) :
    doSteps go xs none args kwargs >>= resultOr e
      = doSteps go xs none args kwargs >>= resultOr e' := by
  conv_lhs => rw [← resultOr_doSteps e' hxs args kwargs, bind_map_left]
  exact bind_pure _

end Steps

namespace Sig

theorem spine_append (ts us : List (Sig V)) : spine (ts ++ us) = spine ts ++ spine us := by
  induction ts with
  | nil => rfl
  | cons t ts ih => rw [List.cons_append, spine, spine, ih, List.append_assoc]

theorem spineOf_of_isEmptyGroup {s : Sig V} (h : s.isEmptyGroup = true) : spineOf s = [] := by
  cases s with
  | group l ts f => cases ts with
    | nil => rfl
    | cons => cases h
  | _ => cases h

theorem spineOf_of_isChain {s : Sig V} (hs : s.isEmptyGroup = false) (h : s.isChain = false) :
    spineOf s = [s] := by
  cases s with
  | chain => cases h
  | group l ts f => cases ts with
    | nil => cases hs
    | cons => rfl
  | _ => rfl

mutual

theorem spineOf_ne_nil : ∀ {s : Sig V} {first given : Bool}, s.isEmptyGroup = false →
    s.agree first given = true → spineOf s ≠ []
  | task .., _, _, _, _ => by simp [spineOf]
  | chain ts _, _, _, _, h => by
    rw [spineOf]
    exact spine_ne_nil h
  | group _ [] _, _, _, h, _ => by cases h
  | group _ (_ :: _) _, _, _, _, _ => by simp [spineOf]
  | chord .., _, _, _, h => by cases h

theorem spine_ne_nil : ∀ {ts : List (Sig V)} {first given : Bool},
    agreeFirst first given ts = true → spine ts ≠ []
  | [], _, _, h => by cases h
  | t :: ts, first, given, h => by
    rw [agreeFirst] at h
    rw [spine]
    split at h
    · exact List.append_ne_nil_of_right_ne_nil _ (spine_ne_nil h)
    next ht =>
      rw [Bool.and_eq_true] at h
      rw [Bool.not_eq_true] at ht
      exact List.append_ne_nil_of_left_ne_nil (spineOf_ne_nil ht h.1) _

end

end Sig

/-! ### The eager way -/

section Apply

variable (w : Work V)

mutual

theorem doSteps_spineOf : ∀ (s : Sig V) (first given : Bool) (args : List V)
    (kwargs : List (String × V)), s.isEmptyGroup = false → s.agree first given = true →
      doSteps (apply w) (spineOf s) none args kwargs = some <$> apply w s args kwargs
  | .task n f, _, _, args, kwargs, _, _ => by
    simp only [spineOf, doSteps, map_eq_pure_bind]
    rfl
  | .chain ts f, first, given, args, kwargs, _, h => by
    have hsteps := applySteps_eq_doSteps ts first given args kwargs h
    rw [spineOf, apply, hsteps]
    exact (resultOr_doSteps _ (spine_ne_nil h) args kwargs).symm
  | .group _ [] _, _, _, _, _, h, _ => by cases h
  | .group l (t :: ts) f, _, _, args, kwargs, _, _ => by
    simp only [spineOf, doSteps, map_eq_pure_bind]
    rfl
  | .chord .., _, _, _, _, _, h => by cases h

/-- **What the loop of `_chain.apply` comes to**: one step after the other. -/
theorem applySteps_eq_doSteps : ∀ (ts : List (Sig V)) (first given : Bool) (args : List V)
    (kwargs : List (String × V)), agreeFirst first given ts = true →
      applySteps w ts none args kwargs = doSteps (apply w) (spine ts) none args kwargs
  | [], _, _, _, _, h => by cases h
  | t :: ts, first, given, args, kwargs, h => by
    rw [agreeFirst] at h
    rw [applySteps, spine]
    split at h
    next ht =>
      have hne : ts.isEmpty = false := by
        cases ts with
        | nil => cases h
        | cons => rfl
      simp only [ht, hne, Bool.not_false, Bool.true_or, Bool.and_true, if_true]
      rw [applySteps_eq_doSteps ts first given args kwargs h, spineOf_of_isEmptyGroup ht,
        List.nil_append]
    next ht =>
      rw [Bool.and_eq_true] at h
      rw [Bool.not_eq_true] at ht
      rw [doSteps_append (spineOf_ne_nil ht h.1),
        doSteps_spineOf t first given args kwargs ht h.1, bind_map_left]
      simp only [ht, Bool.false_and, Bool.false_eq_true, if_false, Option.elim_none,
        applySteps_some_eq_doSteps ts _ h.2]

theorem applySteps_some_eq_doSteps : ∀ (ts : List (Sig V)) (v : V), agreeRest ts = true →
    applySteps w ts (some v) [] [] = doSteps (apply w) (spine ts) (some v) [] []
  | [], _, _ => rfl
  | t :: ts, v, h => by
    rw [agreeRest, Bool.and_eq_true, Bool.or_eq_true] at h
    rw [applySteps, spine]
    cases ht : t.isEmptyGroup with
    | true =>
      simp only [Option.isSome_some, Bool.or_true, Bool.and_true, if_true]
      rw [applySteps_some_eq_doSteps ts v h.2, spineOf_of_isEmptyGroup ht, List.nil_append]
    | false =>
      have htrue : t.agree false true = true :=
        h.1.resolve_left (by rw [ht]; exact Bool.false_ne_true)
      have hne := spineOf_ne_nil ht htrue
      rw [doSteps_append hne, doSteps_some hne, doSteps_spineOf t false true [v] [] ht htrue,
        bind_map_left]
      simp only [Bool.false_and, Bool.false_eq_true, if_false, Option.elim_some,
        applySteps_some_eq_doSteps ts _ h.2]

end

/-- A group comes to the list of what its members, opened, come to. -/
theorem apply_group (l : Bool) (ts : List (Sig V)) (f : Fields V (Sig V)) (args : List V)
    (kwargs : List (String × V)) :
    apply w (.group l ts f) args kwargs = w.pack <$> applyMembers w ts args kwargs := by
  rw [apply]

theorem applyMembers_singleton (t : Sig V) (args : List V) (kwargs : List (String × V)) :
    applyMembers w [t] args kwargs = applyMember w t args kwargs := by
  simp only [applyMembers, pure_bind, List.append_nil]
  exact bind_pure _

mutual

/-- A member without a task has no result. -/
theorem applyMember_of_not_bearing : ∀ (s : Sig V) (args : List V) (kwargs : List (String × V)),
    s.bearing = false → applyMember w s args kwargs = pure []
  | .task .., _, _, h => by cases h
  | .chain [] _, _, _, _ => by rw [applyMember]
  | .chain (_ :: _) _, _, _, h => by cases h
  | .group _ ts _, args, kwargs, h => by
    rw [applyMember]
    exact applyMembers_of_not_bearing ts args kwargs h
  | .chord .., _, _, h => by cases h

theorem applyMembers_of_not_bearing : ∀ (ts : List (Sig V)) (args : List V)
    (kwargs : List (String × V)), bearingAny ts = false → applyMembers w ts args kwargs = pure []
  | [], _, _, _ => by rw [applyMembers]
  | t :: ts, args, kwargs, h => by
    rw [bearingAny, Bool.or_eq_false_iff] at h
    rw [applyMembers, applyMember_of_not_bearing t args kwargs h.1,
      applyMembers_of_not_bearing ts args kwargs h.2]
    rfl

end

mutual

theorem apply_of_hollow : ∀ (s : Sig V) (args : List V) (kwargs : List (String × V)),
    s.hollow = true → apply w s args kwargs = pure (w.pack [])
  | .task .., _, _, h => by cases h
  | .chain ts f, args, kwargs, h => by
    rw [hollow, Bool.and_eq_true] at h
    have hne : ts ≠ [] := by
      rintro rfl
      cases h.1
    rw [apply, applySteps_of_hollow ts args kwargs hne h.2]
    rfl
  | .group _ [] _, _, _, _ => by
    rw [apply, applyMembers]
    rfl
  | .group _ (_ :: _) _, _, _, h => by cases h
  | .chord .., _, _, h => by cases h

/-- **Steps without a task come to an empty list.** -/
theorem applySteps_of_hollow : ∀ (ts : List (Sig V)) (args : List V) (kwargs : List (String × V)),
    ts ≠ [] → hollowAll ts = true → applySteps w ts none args kwargs = pure (some (w.pack []))
  | [], _, _, hne, _ => absurd rfl hne
  | t :: ts, args, kwargs, _, h => by
    rw [hollowAll, Bool.and_eq_true] at h
    rw [applySteps]
    split
    next hskip =>
      have hmore : ts ≠ [] := by
        rintro rfl
        simp at hskip
      exact applySteps_of_hollow ts args kwargs hmore h.2
    next =>
      simp only [Option.elim_none, apply_of_hollow t args kwargs h.1, pure_bind]
      exact applySteps_some_of_hollow ts [] [] h.2

theorem applySteps_some_of_hollow : ∀ (ts : List (Sig V)) (args : List V)
    (kwargs : List (String × V)), hollowAll ts = true →
      applySteps w ts (some (w.pack [])) args kwargs = pure (some (w.pack []))
  | [], _, _, _ => by rw [applySteps]
  | t :: ts, args, kwargs, h => by
    rw [hollowAll, Bool.and_eq_true] at h
    rw [applySteps]
    split
    · exact applySteps_some_of_hollow ts args kwargs h.2
    · simp only [apply_of_hollow t _ kwargs h.1, pure_bind]
      exact applySteps_some_of_hollow ts [] [] h.2

end

end Apply

end Canvas
end Celery
