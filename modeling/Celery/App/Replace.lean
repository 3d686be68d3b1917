/-
# `celery/app/task.py`: replacing a task by a canvas

`Task.replace` (lines 1040-1108).  The task that calls it may be a member of a chord,
which waits for one part from it; the signature that takes its place has to leave that
count as it is.  So a group is uplifted to a chord with `celery.accumulate` as its body,
and so is a group at the end of a chain.  Of a chord with a group as its body, and of a
chain that ends in a chain or a chord that ends in a group, nothing is made: all members of
that group report to the chord of the task (`replace_counts_one_iff`, `groupBody_counts_two`).

The callbacks of the request, which are linked to the signature, and the option
`replaced_task_nesting` are left out: neither `|` nor `_descend` looks at them.
`freeze` writes ids into the signature, in place, and flattens its groups; none of this
changes what `_descend` counts, and `rewrite` runs it for the errors that it raises.
-/

import Celery.Canvas.Or
import Celery.Library.Outcome

namespace Celery
namespace Replace

open Canvas Sig Outcome

variable {V : Type}

/-- `self.request`, as far as `replace` reads it.  The next step of the chain is the
last one in the list. -/
structure Request (V : Type) where
  id : TaskId
  chord : Option (Sig V) := none
  group : Option TaskId := none
  groupIndex : Option ℕ := none
  rootId : Option TaskId := none
  chain : List (Sig V) := []

/-- `self.app.tasks['celery.accumulate'].s(index=0)`. -/
def accumulate [Zero V] : Sig V := .task "celery.accumulate" { kwargs := [("index", 0)] }

/-- Groups get uplifted to a chord: a signature that is one, and one at the end of a
chain. -/
def uplift [Zero V] : Sig V → Sig V
  | .group l ts f => orSig (.group l ts f) accumulate
  | .chain ts f =>
    match ts.getLast? with
    | some (.group l gs g) => .chain (ts.dropLast ++ [orSig (.group l gs g) accumulate]) f
    | _ => .chain ts f
  | s => s

/-- What is sent in place of the task, without the rest of its chain. -/
def rewrite [Zero V] (r : Request V) (sig : Sig V) : FreezeM (Sig V) :=
  if sig.options.chord.isSome then
    throw (.improperlyConfigured "A signature replacing a task must not be part of a chord")
  else if sig.isEmptyChain then
    throw (.improperlyConfigured "Cannot replace with an empty chain")
  else do
    let sig := uplift sig
    let _ ← freeze { id := some r.id } sig
    pure (sig.mapOptions fun o =>
      { o with
        chord := r.chord
        groupId := r.group
        groupIndex := r.groupIndex
        rootId := some r.rootId })

/-- The rest of the chain is chained to it again, `sig |= chain_task`. -/
def reattach (r : Request V) (sig : Sig V) : Sig V := r.chain.reverse.foldl orSig sig

/-- **`task.replace(sig)`**: the canvas that is sent. -/
def replace [Zero V] (r : Request V) (sig : Sig V) : FreezeM (Sig V) := do
  let part ← rewrite r sig
  pure (reattach r part)

/-! ### What the chord of the task waits for -/

/-- `isinstance(sig, _chain) and isinstance(sig.tasks[-1], group)`. -/
def endsInGroup : Sig V → Bool
  | .chain ts _ => ts.getLast?.any isGroup
  | _ => false

/-- **The chord that the task reports to still gets its one part.**  With nothing left of
the chain of the task, from the canvas; else from the last step of that chain. -/
structure KeepsAccounting (r : Request V) (part canvas : Sig V) : Prop where
  part : part.descend = 1
  alone : r.chain = [] → canvas.descend = 1
  last : ∀ last rest, r.chain = last :: rest → last.tells = true → canvas.descend = last.descend

theorem descend_mapOptions (g : Options V (Sig V) → Options V (Sig V)) (s : Sig V) :
    (s.mapOptions g).descend = s.descend := by
  cases s <;> rfl

/-- What counts in the canvas is what counts in the last step of the chain. -/
theorem descend_reattach {r : Request V} {last : Sig V} {rest : List (Sig V)}
    (hr : r.chain = last :: rest) (hlast : last.tells = true) (part : Sig V) :
    (reattach r part).descend = last.descend := by
  rw [reattach, hr, List.reverse_cons, List.foldl_append, List.foldl_cons, List.foldl_nil]
  exact descend_orSig _ hlast

section

variable [Zero V]

theorem descend_orSig_accumulate (s : Sig V) : (orSig s accumulate).descend = 1 :=
  descend_orSig s rfl

theorem descend_uplift_group (s : Sig V) (h : s.isGroup = true) : (uplift s).descend = 1 := by
  cases s with
  | group l ts f => exact descend_orSig_accumulate _
  | _ => cases h

theorem descend_uplift_chain (s : Sig V) (h : endsInGroup s = true) : (uplift s).descend = 1 := by
  cases s with
  | chain ts f =>
    rw [endsInGroup] at h
    rw [uplift]
    cases ht : ts.getLast? with
    | none =>
      rw [ht] at h
      cases h
    | some t =>
      rw [ht, Option.any_some] at h
      cases t with
      | group l gs g =>
        have hbody := descend_orSig_accumulate (Sig.group l gs g)
        exact (descendChain_snoc ts.dropLast (by rw [hbody]; exact Nat.one_pos)).trans hbody
      | _ => cases h
  | _ => cases h

theorem uplift_of_not (s : Sig V) (hgroup : s.isGroup = false) (hchain : endsInGroup s = false) :
    uplift s = s := by
  cases s with
  | group l ts f => cases hgroup
  | chain ts f =>
    rw [endsInGroup] at hchain
    rw [uplift]
    cases ht : ts.getLast? with
    | none => rfl
    | some t =>
      rw [ht, Option.any_some] at hchain
      cases t with
      | group l gs g => cases hchain
      | _ => rfl
  | _ => rfl

/-- **Uplifting leaves one part**, or what there was. -/
theorem descend_uplift_eq_one_iff (s : Sig V) :
    (uplift s).descend = 1 ↔ s.isGroup = true ∨ endsInGroup s = true ∨ s.single = true := by
  rw [← descend_eq_one_iff]
  cases hgroup : s.isGroup with
  | true => simp [descend_uplift_group s hgroup]
  | false =>
    cases hchain : endsInGroup s with
    | true => simp [descend_uplift_chain s hchain]
    | false => simp [uplift_of_not s hgroup hchain]

/-- What `replace` accepts it uplifts; the rest are options. -/
theorem descend_of_rewrite {r : Request V} {sig part : Sig V} {app app' : App}
    (h : rewrite r sig app = .ok (part, app')) : part.descend = (uplift sig).descend := by
  unfold rewrite at h
  split at h
  · cases h
  split at h
  · cases h
  obtain ⟨_, _, -, h⟩ := exists_of_bind_ok h
  cases h
  exact descend_mapOptions _ _

/-- **When `replace` keeps the account of the chord**: if it is given a group or a chain
that ends in one, which it uplifts, or a signature of which one task reports as it is. -/
theorem replace_counts_one_iff {r : Request V} {sig canvas : Sig V} {app app' : App}
    (h : replace r sig app = .ok (canvas, app')) :
    ∃ part, rewrite r sig app = .ok (part, app') ∧ canvas = reattach r part ∧
      (KeepsAccounting r part canvas ↔
        sig.isGroup = true ∨ endsInGroup sig = true ∨ sig.single = true) := by
  obtain ⟨part, _, hpart, h⟩ := exists_of_bind_ok h
  cases h
  refine ⟨part, hpart, rfl, ?_⟩
  rw [← descend_uplift_eq_one_iff, ← descend_of_rewrite hpart]
  constructor
  · exact fun hkeeps => hkeeps.part
  · intro hone
    refine ⟨hone, fun hnil => ?_, fun last rest hlast htells => descend_reattach hlast htells part⟩
    rw [reattach, hnil]
    exact hone

end

/-- A task in the header of `chord([...], mul)`. -/
def headerTask : Request ℤ where
  id := 7
  chord := some (.task "mul" {})
  group := some 3
  groupIndex := some 0
  rootId := some 1

/-- `add | group([add, mul])`. -/
def taskThenGroup : Sig ℤ :=
  .chain [.task "add" {}, .group false [.task "add" {}, .task "mul" {}] {}] {}

/-- The group at the end of the chain is uplifted. -/
theorem taskThenGroup_counts_one :
    ∃ part app', rewrite headerTask taskThenGroup ⟨0, 10⟩ = .ok (part, app') ∧
      KeepsAccounting headerTask part (reattach headerTask part) := by
  obtain ⟨canvas, app', h⟩ : ∃ canvas app',
      replace headerTask taskThenGroup ⟨0, 10⟩ = .ok (canvas, app') := ⟨_, _, rfl⟩
  obtain ⟨part, hpart, hcanvas, hkeeps⟩ := replace_counts_one_iff h
  rw [hcanvas] at hkeeps
  exact ⟨part, app', hpart, hkeeps.mpr (.inr (.inl rfl))⟩

/-- `chord([add], group([add, mul]))`. -/
def groupBody : Sig ℤ :=
  .chord false [.task "add" {}] none (.group false [.task "add" {}, .task "mul" {}] {}) {}

/-- The group in the body is not: both of its tasks report. -/
theorem groupBody_counts_two :
    ∃ part app', rewrite headerTask groupBody ⟨0, 10⟩ = .ok (part, app') ∧ part.descend = 2 ∧
      ¬ KeepsAccounting headerTask part (reattach headerTask part) := by
  refine ⟨_, _, rfl, rfl, ?_⟩
  intro hkeeps
  cases hkeeps.part

end Replace
end Celery
