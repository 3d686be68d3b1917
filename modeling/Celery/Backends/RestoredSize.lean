/-
# The size of a chord on a store that counts

`_chord.run` freezes its header with `_freeze_group_tasks` and hands the results to
`_apply_chord_incr`, which saves them as a `GroupResult`
(`celery/backends/base.py`, lines 1328-1331).  Each part then restores it and
compares the counter with its length.

A result is what a member is frozen to, and a member has one: a chain that ends in
a group has a single `GroupResult`, while all the tasks of that group report.  So
the chord is called too early, or, with a member in which nothing reports, never.
The length is the number of the tasks that report, which is what Redis counts with
`_descend`, exactly where the members have one such task each, on the whole
(`restored_size_iff`).
-/

import Celery.Canvas.ChordSize

namespace Celery
namespace RestoredSize

open Canvas Sig Outcome

variable {V : Type}

/-- The members that a header is frozen to: nested groups are unrolled, if it is
not a generator, and empty chains are dropped. -/
def memberCount (lazy : Bool) (ts : List (Sig V)) : ℕ :=
  (memberList lazy ts).countP fun t => !t.isEmptyChain

/-- `len(deps)`, of the `GroupResult` that was saved. -/
def depsLength : Result → ℕ
  | .async _ => 0
  | .group _ results => results.length

/-! ### The results of a frozen group -/

theorem freezeTasks_length {fr : Freezer V} {p : FreezeArgs V} {ts : List (Sig V)} {i : ℕ}
    {app app' : App} {r : List (Sig V) × List Result}
    (h : freezeTasks fr p ts i app = .ok (r, app')) :
    r.2.length = (ts.map clone).countP fun t => !t.isEmptyChain := by
  induction ts generalizing i app r with
  | nil =>
    cases h
    rfl
  | cons t ts ih =>
    rw [freezeTasks] at h
    rw [List.map_cons, List.countP_cons]
    split at h
    next hempty =>
      obtain ⟨rs, app₁, hrs, h⟩ := exists_of_bind_ok h
      cases h
      simp [ih hrs, hempty]
    next hempty =>
      obtain ⟨t', app₁, -, h⟩ := exists_of_bind_ok h
      obtain ⟨rs, app₂, hrs, h⟩ := exists_of_bind_ok h
      cases h
      simp [ih hrs, hempty]

theorem freezeUnroll_length {fr : Freezer V} {p : FreezeArgs V} {n : ℕ} {stack : List (Sig V)}
    {i : ℕ} {app app' : App} {steps : Steps V}
    (h : freezeUnroll fr p n stack i app = .ok (steps, app')) :
    steps.length = (stack.flatMap flat).length := by
  induction n generalizing stack i app steps with
  | zero =>
    cases stack with
    | nil =>
      cases h
      rfl
    | cons s stack => cases h
  | succ n ih =>
    cases stack with
    | nil =>
      cases h
      rfl
    | cons s stack =>
      -- a member that is frozen on its own
      have hone : ∀ t : Sig V, s.flat = [t] → (do
            let step ← fr { p with groupIndex := some i } t
            let steps ← freezeUnroll fr p n stack (i + 1)
            pure (step :: steps)) app = .ok (steps, app') →
          steps.length = ((s :: stack).flatMap flat).length := by
        intro t hflat h
        obtain ⟨step, app₁, -, h⟩ := exists_of_bind_ok h
        obtain ⟨rest, app₂, hrest, h⟩ := exists_of_bind_ok h
        cases h
        rw [List.flatMap_cons, hflat, List.length_append, ← ih hrest, List.length_cons,
          List.length_singleton]
        omega
      cases s with
      | task m f => exact hone _ rfl h
      | chord l hd hg b f => cases hg <;> exact hone _ rfl h
      | chain ts f =>
        cases ts with
        | nil =>
          rw [List.flatMap_cons, flat, List.nil_append]
          exact ih h
        | cons t ts => exact hone _ rfl h
      | group l ts f =>
        have hlen : steps.length = ((ts.reverse ++ stack).flatMap flat).length := ih h
        rw [List.flatMap_append, ← flatRev_eq_flatMap] at hlen
        rw [List.flatMap_cons, flat]
        exact hlen

/-- **A header has a result for each of its members.** -/
theorem depsLength_freeze {p : FreezeArgs V} {lazy : Bool} {ts : List (Sig V)}
    {f : Fields V (Sig V)} {app app' : App} {s' : Sig V} {res : Result}
    (h : freeze p (.group lazy ts f) app = .ok ((s', res), app')) :
    depsLength res = memberCount lazy ts := by
  have hgroup : freezeGroup (freezeFuel (weightAll ts)) p lazy ts f app = .ok ((s', res), app') := h
  rw [freezeGroup] at hgroup
  obtain ⟨r, app₁, hr, hgroup⟩ := exists_of_bind_ok hgroup
  cases hgroup
  rw [freezeGroupTasks] at hr
  obtain ⟨gid, app₂, -, hr⟩ := exists_of_bind_ok hr
  cases lazy with
  | true =>
    obtain ⟨q, app₃, hq, hr⟩ := exists_of_bind_ok hr
    cases hr
    exact freezeTasks_length hq
  | false =>
    obtain ⟨q, app₃, hq, hr⟩ := exists_of_bind_ok hr
    cases hr
    have hlen := freezeUnroll_length hq
    have hall : ∀ t ∈ ts.flatMap flat, (!t.isEmptyChain) = true := fun t ht => by
      rw [isEmptyChain_of_mem_flatMap ts t ht]
      rfl
    rw [memberCount, memberList, if_neg Bool.false_ne_true, List.countP_eq_length.mpr hall, ← hlen]
    exact List.length_map _

/-- **The chord waits for exactly the parts that report**: the header freezes, and the
length of its `GroupResult` is both the number of its tasks that are told to report
and the size Redis would wait for. -/
def WaitsForParts (g : TaskId) (b : Sig V) (rootId : Option TaskId) (header : Sig V) (app : App) :
    Prop :=
  ∃ s' res app',
    freeze { groupId := some g, chord := b.ifTruthy, rootId := rootId } header app
      = .ok ((s', res), app') ∧
    depsLength res = tagCount g b s' ∧ depsLength res = header.descend

/-- **When the length of the restored result is the number of parts.** -/
theorem restored_size_iff (g : TaskId) (b : Sig V) (rootId : Option TaskId) (lazy : Bool)
    (ts : List (Sig V)) (f : Fields V (Sig V)) (app : App) (hs : Unfrozen (.group lazy ts f)) :
    WaitsForParts g b rootId (.group lazy ts f) app ↔
      Freezes (Sig.group lazy ts f).shape ∧
      (if b.truthy then Counted (Sig.group lazy ts f).shape
        else (Sig.group lazy ts f).silent = true) ∧
      memberCount lazy ts = (Sig.group lazy ts f).descend := by
  have hgives := freeze_gives (freezeRule_tagRel g b)
    { groupId := some g, chord := b.ifTruthy, rootId := rootId } (.group lazy ts f)
  constructor
  · rintro ⟨s', res, app', hok, htags, hsize⟩
    have hf : Freezes (Sig.group lazy ts f).shape := by
      by_contra hf
      obtain ⟨e, he⟩ := hgives.fails hf app
      rw [hok] at he
      cases he
    obtain ⟨⟨s'', res'⟩, app'', hok', hrel⟩ := hgives.gives hf app
    rw [hok] at hok'
    cases hok'
    refine ⟨hf, (hrel.count_eq_descend_iff rfl rfl hs).1 (htags.symm.trans hsize), ?_⟩
    rw [← hsize, depsLength_freeze hok]
  · rintro ⟨hf, hcounted, hcount⟩
    obtain ⟨⟨s', res⟩, app', hok, hrel⟩ := hgives.gives hf app
    have hsize : depsLength res = (Sig.group lazy ts f).descend := by
      rw [depsLength_freeze hok, hcount]
    refine ⟨s', res, app', hok, ?_, hsize⟩
    rw [hsize, (hrel.count_eq_descend_iff rfl rfl hs).2 hcounted]

/-- `chain(add, group(add, add))`, as the header of a chord. -/
def chainToGroup : Sig Unit :=
  .group false [.chain [.task "add" {}, .group false [.task "add" {}, .task "add" {}] {}] {}] {}

/-- Two tasks, as the header of a chord. -/
def twoTasks : Sig Unit := .group false [.task "add" {}, .task "add" {}] {}

theorem twoTasks_waitsForParts :
    Unfrozen twoTasks ∧ WaitsForParts 7 (.task "tsum" {}) none twoTasks ⟨0, 1⟩ := by
  have hs : Unfrozen twoTasks := by
    intro o ho
    fin_cases ho <;> exact ⟨rfl, rfl⟩
  refine ⟨hs, (restored_size_iff _ _ _ _ _ _ _ hs).2 ⟨?_, ?_, rfl⟩⟩
  · refine .group _ _ _ fun t ht _ => ?_
    fin_cases ht <;> exact .task _ _
  · refine .group _ _ _ fun t ht _ => ?_
    fin_cases ht <;> exact .task _ _

/-- **The chord is called after the first of two parts.**  Both tasks of the group
report, and the chain they end has one result. -/
theorem chainToGroup_not_waitsForParts :
    ¬ WaitsForParts 7 (.task "tsum" {}) none chainToGroup ⟨0, 1⟩ := by
  rintro ⟨s', res, app', hok, -, hsize⟩
  cases hok
  exact absurd hsize (by decide)

end RestoredSize
end Celery
