/-
# `celery/canvas.py`: the group indexes of a chord header

`_chord.run` (lines 2303-2363) freezes its header, and `apply_async` of the header publishes
what `_prepared` (1780-1832) yields.  Indexes are given out three times.  `_freeze_tasks` and
`_freeze_unroll` (1986-2024) number the members of a header as they freeze them, and
`_prepared` numbers them once more: an index given later takes the place of the earlier one.
A header made from a list has been flattened by then, and is numbered through.  One made from
a generator has not, and `_prepared` starts from zero in each of its nested groups.

Freezing a generator is put off until its results are asked for.  `apply_chord` of the Redis
backend (`celery/backends/redis.py`, 747-757) does not ask for them, so that nested groups are
published as they were written; other backends go through them, and nested groups made from
lists are flattened first (`through`).

`indexesFrom` are the indexes that go out with a header made from a generator
(`publishHeader_reported`).  They increase exactly if each member that has tasks ends before
the next one begins (`apartFrom`, `publishHeader_increases_iff`): a task at position `i` takes
the index `i`, and a nested group those from its first to its last, counted from zero.

The index of a chain is that of its last step, and that of a chord the one of its body: these
are what reports to the chord.
-/

import Celery.Canvas.Unroll
import Mathlib.Data.List.Chain

namespace Celery
namespace Canvas

open Sig Outcome

variable {V : Type}

namespace Sig

mutual

/-- The group index of what reports for a signature. -/
def reportIndex : Sig V → Option ℕ
  | task _ f => f.options.groupIndex
  | chain ts _ => lastReportIndex ts
  | group _ _ f => f.options.groupIndex
  | chord _ _ _ b _ => reportIndex b

def lastReportIndex : List (Sig V) → Option ℕ
  | [] => none
  | t :: ts => if ts.isEmpty then reportIndex t else lastReportIndex ts

end

end Sig

section Publish

variable (fr : Freezer V) (p : FreezeArgs V)

mutual

/-- `_prepared` for the member at the index `i`: it is cloned and frozen, a nested group is
opened. -/
def prepareMember (i : ℕ) : Sig V → FreezeM (Steps V)
  | .task n f => freezeEach fr p i [(Sig.task n f).clone]
  | .chain [] _ => pure []
  | .chain (t :: ts) f => freezeEach fr p i [(Sig.chain (t :: ts) f).clone]
  | .group _ ts _ => prepareFrom 0 ts
  | .chord l h hg b f => freezeEach fr p i [(Sig.chord l h hg b f).clone]

/-- `_prepared`, over the members from the index `i` on. -/
def prepareFrom : ℕ → List (Sig V) → FreezeM (Steps V)
  | _, [] => pure []
  | i, t :: ts => do
    let first ← prepareMember i t
    let rest ← prepareFrom (i + 1) ts
    pure (first ++ rest)

end

end Publish

/-- `_freeze_group_tasks` of a group made from a generator, before its results are gone
through: the members have been cloned, and none is frozen. -/
def deferGroupTasks (p : FreezeArgs V) (tasks : List (Sig V)) (opts : Options V (Sig V)) :
    FreezeM (Options V (Sig V) × List (Sig V)) := do
  let gid ← (opts.taskId.or p.groupId).getDM uuid
  pure (p.groupOptions opts gid, tasks.map clone)

/-- The header as `_chord.run` leaves it to be published.  `through` says whether
`apply_chord` of the backend goes through the results of a generator. -/
def freezeForPublishing (p : FreezeArgs V) (through lazy : Bool) (header : List (Sig V))
    (opts : Options V (Sig V)) : FreezeM (Options V (Sig V) × List (Sig V)) :=
  if lazy && !through then deferGroupTasks p header opts
  else do
    let (opts, tasks, _) ← freezeGroupTasks freeze p lazy header opts
    pure (opts, tasks)

/-- What `_chord.run` publishes of its header, for the group id `gid`, the body and the
`root_id`s of the body and of the options of the call. -/
def publishHeader (through : Bool) (gid : TaskId) (body : Sig V) (rootId : Option TaskId)
    (callRootId : Option (Option TaskId)) (lazy : Bool) (header : List (Sig V))
    (opts : Options V (Sig V)) : FreezeM (Steps V) := do
  let (opts, tasks) ← freezeForPublishing
    { groupId := some gid, chord := body.ifTruthy, rootId := rootId } through lazy header opts
  prepareFrom freeze
    { groupId := some gid, rootId := (callRootId.or opts.rootId).getD none } 0 tasks

namespace Sig

mutual

/-- The number of tasks, chains and chords in a member, nested groups opened. -/
def holds : Sig V → ℕ
  | task .. => 1
  | chain ts _ => if ts.isEmpty then 0 else 1
  | group _ ts _ => holdsAll ts
  | chord .. => 1

def holdsAll : List (Sig V) → ℕ
  | [] => 0
  | t :: ts => holds t + holdsAll ts

end

mutual

/-- The indexes that `_prepared` gives to a member at the index `i`.  If the header is gone
through before, a nested group made from a list has been flattened by then. -/
def indexes (through : Bool) (i : ℕ) : Sig V → List ℕ
  | task .. => [i]
  | chain ts _ => if ts.isEmpty then [] else [i]
  | group lazy ts _ =>
    if through && !lazy then List.range (holdsAll ts) else indexesFrom through 0 ts
  | chord .. => [i]

def indexesFrom (through : Bool) : ℕ → List (Sig V) → List ℕ
  | _, [] => []
  | i, t :: ts => indexes through i t ++ indexesFrom through (i + 1) ts

end

/-- The indexes that are published of a header. -/
def headerIndexes (through lazy : Bool) (header : List (Sig V)) : List ℕ :=
  if lazy then indexesFrom through 0 header else List.range (holdsAll header)

/-- From where the first begins to where the second ends. -/
def joinSpans : Option (ℕ × ℕ) → Option (ℕ × ℕ) → Option (ℕ × ℕ)
  | some s, some s' => some (s.1, s'.2)
  | some s, none => some s
  | none, s' => s'

/-- The first ends before the second begins. -/
def spanBefore : Option (ℕ × ℕ) → Option (ℕ × ℕ) → Bool
  | some s, some s' => decide (s.2 ≤ s'.1)
  | _, _ => true

mutual

/-- Where the indexes of a member at the index `i` begin and where they end. -/
def span (through : Bool) (i : ℕ) : Sig V → Option (ℕ × ℕ)
  | task .. => some (i, i + 1)
  | chain ts _ => if ts.isEmpty then none else some (i, i + 1)
  | group lazy ts _ =>
    if through && !lazy then if holdsAll ts = 0 then none else some (0, holdsAll ts)
    else spanFrom through 0 ts
  | chord .. => some (i, i + 1)

def spanFrom (through : Bool) : ℕ → List (Sig V) → Option (ℕ × ℕ)
  | _, [] => none
  | i, t :: ts => joinSpans (span through i t) (spanFrom through (i + 1) ts)

end

mutual

/-- Each member with tasks ends before the next one begins, in the groups that have not been
flattened. -/
def apart (through : Bool) : Sig V → Bool
  | task .. => true
  | chain .. => true
  | group lazy ts _ => through && !lazy || apartFrom through 0 ts
  | chord .. => true

def apartFrom (through : Bool) : ℕ → List (Sig V) → Bool
  | _, [] => true
  | i, t :: ts =>
    apart through t && apartFrom through (i + 1) ts &&
      spanBefore (span through i t) (spanFrom through (i + 1) ts)

end

end Sig

/-! ## What freezing leaves -/

mutual

theorem holds_eq_length_flat : ∀ s : Sig V, s.holds = s.flat.length
  | task .. => rfl
  | chain [] _ => rfl
  | chain (_ :: _) _ => rfl
  | group _ ts _ => by rw [holds, flat]; exact holdsAll_eq_length_flatRev ts
  | chord .. => rfl

theorem holdsAll_eq_length_flatRev : ∀ ts : List (Sig V), holdsAll ts = (flatRev ts).length
  | [] => rfl
  | t :: ts => by
    rw [holdsAll, flatRev, List.length_append, holds_eq_length_flat t,
      holdsAll_eq_length_flatRev ts, Nat.add_comm]

end

theorem holdsAll_eq_length_flatMap (ts : List (Sig V)) :
    holdsAll ts = (ts.flatMap flat).length := by
  rw [holdsAll_eq_length_flatRev, flatRev_eq_flatMap]
  exact (ts.reverse_perm.flatMap_right flat).length_eq

section Indexes

variable (through : Bool)

theorem indexes_clone (i : ℕ) (s : Sig V) :
    s.clone.indexes through i = s.indexes through i := by
  cases s with
  | chain ts f => cases ts <;> rfl
  | chord l h hg b f => cases hg <;> rfl
  | _ => rfl

theorem indexesFrom_map_clone (i : ℕ) (ts : List (Sig V)) :
    indexesFrom through i (ts.map clone) = indexesFrom through i ts := by
  induction ts generalizing i with
  | nil => rfl
  | cons t ts ih => rw [List.map_cons, indexesFrom, indexesFrom, indexes_clone, ih]

mutual

/-- What the worklist takes is numbered one by one. -/
theorem indexes_of_mem_flat (i : ℕ) : ∀ s t : Sig V, t ∈ s.flat → t.indexes through i = [i]
  | task .., t, h => by rw [flat, List.mem_singleton] at h; rw [h]; rfl
  | chain [] _, t, h => by simp [flat] at h
  | chain (_ :: _) _, t, h => by
    rw [flat, List.mem_singleton] at h
    rw [h, indexes_clone]
    rfl
  | chord .., t, h => by
    rw [flat, List.mem_singleton] at h
    rw [h, indexes_clone]
    rfl
  | group _ ts _, t, h => indexes_of_mem_flatRev i ts t (by rwa [flat] at h)

theorem indexes_of_mem_flatRev (i : ℕ) : ∀ (ts : List (Sig V)) (t : Sig V),
    t ∈ flatRev ts → t.indexes through i = [i]
  | [], t, h => by simp [flatRev] at h
  | s :: ts, t, h => by
    rw [flatRev, List.mem_append] at h
    exact h.elim (indexes_of_mem_flatRev i ts t) (indexes_of_mem_flat i s t)

end

theorem indexesFrom_eq_range' {ts : List (Sig V)}
    (h : ∀ t ∈ ts, ∀ i, t.indexes through i = [i]) (i : ℕ) :
    indexesFrom through i ts = List.range' i ts.length := by
  induction ts generalizing i with
  | nil => rfl
  | cons t ts ih =>
    obtain ⟨ht, hts⟩ := List.forall_mem_cons.mp h
    rw [indexesFrom, ht i, ih hts (i + 1), List.length_cons, List.range'_succ]
    rfl

/-- The members that a group freezes one by one are numbered as it is published. -/
theorem indexesFrom_memberList (lazy : Bool) (ts : List (Sig V)) :
    indexesFrom through 0 (memberList lazy ts) = headerIndexes through lazy ts := by
  rw [memberList, headerIndexes]
  split_ifs
  · exact indexesFrom_map_clone through 0 ts
  · have hflat : ∀ t ∈ ts.flatMap flat, ∀ i, t.indexes through i = [i] := by
      intro t ht i
      obtain ⟨s, -, hts⟩ := List.mem_flatMap.mp ht
      exact indexes_of_mem_flat through i s t hts
    rw [indexesFrom_eq_range' through hflat, holdsAll_eq_length_flatMap, List.range_eq_range']

theorem indexes_of_isEmptyChain {s : Sig V} (h : s.isEmptyChain = true) (i : ℕ) :
    s.indexes through i = [] := by
  cases s with
  | chain ts f =>
    cases ts with
    | nil => rfl
    | cons => cases h
  | _ => cases h

end Indexes

/-- What freezing does to the index a signature reports under, and to the indexes that it is
going to be published with. -/
structure IndexRel (p : FreezeArgs V) (s s' : Sig V) : Prop where
  reports : ∀ i, p.groupIndex = some i → s'.reportIndex = some i
  indexes : ∀ i, s'.indexes false i = s.indexes true i

section Rule

variable {p : FreezeArgs V}

theorem indexesFrom_of_forall₂ {q : FreezeArgs V} {ts ts' : List (Sig V)}
    (h : List.Forall₂ (fun t t' => if t.isEmptyChain then t' = t else MemberRel IndexRel q t t')
      ts ts') (i : ℕ) : indexesFrom false i ts' = indexesFrom true i ts := by
  induction h generalizing i with
  | nil => rfl
  | @cons t t' ts ts' ht _ ih =>
    rw [indexesFrom, indexesFrom, ih (i + 1)]
    refine congrArg (· ++ _) ?_
    split_ifs at ht with hempty
    · rw [ht, indexes_of_isEmptyChain false hempty, indexes_of_isEmptyChain true hempty]
    · obtain ⟨j, hj⟩ := ht
      exact hj.indexes i

theorem Members.indexesFrom_eq {q : FreezeArgs V} {l : Bool} {ts ts' : List (Sig V)}
    (hm : Members IndexRel q l ts ts') :
    indexesFrom false 0 ts' = headerIndexes true l ts := by
  rw [indexesFrom_of_forall₂ hm, indexesFrom_memberList]

theorem indexRel_task (p : FreezeArgs V) (n : String) (f : Fields V (Sig V)) (tid oid : TaskId) :
    IndexRel p (.task n f) (.task n { f with options := p.taskOptions f.options tid oid }) := by
  refine ⟨fun i hi => ?_, fun i => rfl⟩
  rw [reportIndex, FreezeArgs.taskOptions, hi]
  rfl

theorem indexRel_group (p : FreezeArgs V) (l : Bool) (ts : List (Sig V)) (f : Fields V (Sig V))
    (ts' : List (Sig V)) (gid : TaskId)
    (hm : Members IndexRel (p.member f.options) l ts ts') :
    IndexRel p (.group l ts f)
      (.group l ts' { f with options := p.groupOptions f.options gid }) := by
  refine ⟨fun i hi => ?_, fun i => hm.indexesFrom_eq.trans ?_⟩
  · rw [reportIndex, FreezeArgs.groupOptions, hi]
    rfl
  · rw [headerIndexes, Sig.indexes]
    cases l <;> rfl

theorem indexRel_chord (p : FreezeArgs V) (l : Bool) (h : List (Sig V))
    (hg : Option (Options V (Sig V))) (b : Sig V) (f : Fields V (Sig V)) (b' s' : Sig V)
    (hb : IndexRel { p with parentId := none } b b')
    (hh : HeaderRel IndexRel p l h hg b.truthy b' f s') :
    IndexRel p (.chord l h hg b f) s' := by
  obtain ⟨h', gid, -, rfl⟩ := hh
  exact ⟨hb.reports, fun i => rfl⟩

/-- Steps frozen before others leave the last one the last. -/
theorem Folded.lastReportIndex_eq {c : Prepare V} {l prevs steps : List (Sig V)}
    (hf : Folded IndexRel c l prevs steps) (hne : prevs ≠ []) :
    lastReportIndex steps = lastReportIndex prevs ∧ steps ≠ [] := by
  induction hf with
  | nil steps => exact ⟨rfl, hne⟩
  | last => exact absurd rfl hne
  | @upgrade _ _ _ prevs _ _ prev _ _ hh _ ih =>
    obtain ⟨h', gid, -, rfl⟩ := hh
    obtain ⟨hlast, hsteps⟩ := ih (List.cons_ne_nil _ _)
    refine ⟨hlast.trans ?_, hsteps⟩
    rw [lastReportIndex, lastReportIndex, reportIndex]
  | step _ _ _ ih =>
    obtain ⟨hlast, hsteps⟩ := ih (List.cons_ne_nil _ _)
    exact ⟨hlast, hsteps⟩

theorem indexRel_chain (p : FreezeArgs V) (ts : List (Sig V)) (f : Fields V (Sig V))
    (l steps : List (Sig V)) (tid : TaskId) (hl : takenSteps (p.prepare f) ts = .ok l)
    (hne : l ≠ []) (hf : Folded IndexRel (p.prepare f) l [] steps) :
    IndexRel p (.chain ts f)
      (.chain steps { f with options := { f.options with taskId := some tid } }) := by
  obtain ⟨t', hlast, hsteps, ht⟩ : ∃ t', lastReportIndex steps = reportIndex t' ∧ steps ≠ [] ∧
      ∃ t, IndexRel (p.prepare f).lastArgs t t' := by
    cases hf with
    | nil => exact absurd rfl hne
    | last ht hts =>
      obtain ⟨hlast, hsteps⟩ := hts.lastReportIndex_eq (List.cons_ne_nil _ _)
      exact ⟨_, hlast, hsteps, _, ht⟩
  have hts : ts ≠ [] := by
    rintro rfl
    cases hl
    exact hne rfl
  constructor
  · intro i hi
    obtain ⟨t, ht⟩ := ht
    rw [reportIndex, hlast]
    exact ht.reports i hi
  · intro i
    rw [Sig.indexes, Sig.indexes, if_neg (by simpa using hsteps), if_neg (by simpa using hts)]

theorem freezeRule_indexRel : FreezeRule (IndexRel (V := V)) where
  task := indexRel_task
  group := indexRel_group
  chord := indexRel_chord
  chain := indexRel_chain

end Rule

/-! ## What is published -/

section Run

variable {p : FreezeArgs V} {app app' : App} {steps : Steps V}

/-- The index that each step reports under. -/
def reported (steps : Steps V) : List (Option ℕ) := steps.map fun step => step.1.reportIndex

theorem reported_of_freezeEach {i : ℕ} {s : Sig V}
    (h : freezeEach freeze p i [s] app = .ok (steps, app')) : reported steps = [some i] := by
  obtain ⟨step, app₁, hstep, hrest⟩ := exists_of_bind_ok h
  obtain ⟨rest, app₂, hnil, hpure⟩ := exists_of_bind_ok hrest
  cases hnil
  cases hpure
  have hrel := ((freeze_gives freezeRule_indexRel _ s).of_ok hstep).2
  exact congrArg (fun o => [o]) (hrel.reports i rfl)

mutual

theorem reported_of_prepareMember (i : ℕ) : ∀ (s : Sig V) (app app' : App) (steps : Steps V),
    prepareMember freeze p i s app = .ok (steps, app') →
      reported steps = (s.indexes false i).map some
  | .task .., _, _, _, h => reported_of_freezeEach h
  | .chain [] _, _, _, _, h => by
    cases h
    rfl
  | .chain (_ :: _) _, _, _, _, h => reported_of_freezeEach h
  | .group _ ts _, app, app', steps, h => reported_of_prepareFrom 0 ts app app' steps h
  | .chord .., _, _, _, h => reported_of_freezeEach h

theorem reported_of_prepareFrom : ∀ (i : ℕ) (ts : List (Sig V)) (app app' : App)
    (steps : Steps V), prepareFrom freeze p i ts app = .ok (steps, app') →
      reported steps = (indexesFrom false i ts).map some
  | _, [], _, _, _, h => by
    cases h
    rfl
  | i, t :: ts, app, app', steps, h => by
    obtain ⟨first, app₁, hfirst, hrest⟩ := exists_of_bind_ok h
    obtain ⟨rest, app₂, hrest, hpure⟩ := exists_of_bind_ok hrest
    cases hpure
    rw [indexesFrom, List.map_append, ← reported_of_prepareMember i t _ _ _ hfirst,
      ← reported_of_prepareFrom (i + 1) ts _ _ _ hrest]
    exact List.map_append

end

/-- **The indexes that go out with a header.** -/
theorem publishHeader_reported {through : Bool} {gid : TaskId} {body : Sig V}
    {rootId : Option TaskId} {callRootId : Option (Option TaskId)} {lazy : Bool}
    {header : List (Sig V)} {opts : Options V (Sig V)}
    (h : publishHeader through gid body rootId callRootId lazy header opts app =
      .ok (steps, app')) :
    reported steps = (headerIndexes through lazy header).map some := by
  obtain ⟨⟨opts', tasks⟩, app₁, hfreeze, hprepare⟩ := exists_of_bind_ok h
  have htasks : indexesFrom false 0 tasks = headerIndexes through lazy header := by
    rw [freezeForPublishing] at hfreeze
    split_ifs at hfreeze with hdefer
    · obtain ⟨gid', app₂, -, hpure⟩ := exists_of_bind_ok hfreeze
      cases hpure
      rw [indexesFrom_map_clone, headerIndexes]
      simp_all
    · obtain ⟨⟨opts'', tasks', res⟩, app₂, hgroup, hpure⟩ := exists_of_bind_ok hfreeze
      cases hpure
      have hgives := freezeGroupTasks_gives (fun q s _ => freeze_gives freezeRule_indexRel q s)
        { groupId := some gid, chord := body.ifTruthy, rootId := rootId } lazy header opts le_rfl
      obtain ⟨-, -, hmembers⟩ := hgives.of_ok hgroup
      rw [hmembers.indexesFrom_eq]
      cases lazy <;> simp_all [headerIndexes]
  rw [← htasks]
  exact reported_of_prepareFrom 0 tasks _ _ _ hprepare

end Run

/-! ## Where the indexes increase -/

/-- Where a list of indexes begins and where it ends. -/
def Spans (xs : List ℕ) (span : Option (ℕ × ℕ)) : Prop :=
  xs.head? = span.map Prod.fst ∧ xs.getLast?.map (· + 1) = span.map Prod.snd

theorem spans_nil : Spans [] none := ⟨rfl, rfl⟩

theorem spans_singleton (i : ℕ) : Spans [i] (some (i, i + 1)) := ⟨rfl, rfl⟩

theorem spans_range (n : ℕ) : Spans (List.range n) (if n = 0 then none else some (0, n)) := by
  rw [List.range_eq_range', Spans, List.head?_range', List.getLast?_range']
  split_ifs with hn
  · exact spans_nil
  · refine ⟨rfl, congrArg some ?_⟩
    show 0 + n - 1 + 1 = n
    omega

theorem Spans.append {xs ys : List ℕ} {o o' : Option (ℕ × ℕ)} (hx : Spans xs o)
    (hy : Spans ys o') : Spans (xs ++ ys) (joinSpans o o') := by
  obtain ⟨hxhead, hxlast⟩ := hx
  obtain ⟨hyhead, hylast⟩ := hy
  rw [Spans, List.head?_append, List.getLast?_append, hxhead, hyhead, Option.map_or, hxlast,
    hylast]
  cases o <;> cases o' <;> exact ⟨rfl, rfl⟩

/-- Two increasing lists increase together exactly if the first ends before the second
begins. -/
theorem Spans.isChain_append_iff {xs ys : List ℕ} {o o' : Option (ℕ × ℕ)} (hx : Spans xs o)
    (hy : Spans ys o') :
    (xs ++ ys).IsChain (· < ·) ↔
      xs.IsChain (· < ·) ∧ ys.IsChain (· < ·) ∧ spanBefore o o' = true := by
  rw [List.isChain_append, hy.1]
  have hlast := hx.2
  cases o with
  | none =>
    rw [Option.map_eq_none_iff.mp hlast]
    simp [spanBefore]
  | some s =>
    obtain ⟨x, hx, hs⟩ := Option.map_eq_some_iff.mp hlast
    cases o' with
    | none => simp [spanBefore]
    | some s' =>
      rw [hx]
      simp [spanBefore, ← hs, Nat.succ_le_iff]

mutual

theorem spans_indexes (through : Bool) (i : ℕ) : ∀ s : Sig V,
    Spans (s.indexes through i) (s.span through i)
  | task .. => spans_singleton i
  | chain [] _ => spans_nil
  | chain (_ :: _) _ => spans_singleton i
  | group lazy ts _ => by
    rw [indexes, span]
    split_ifs with hflat hnone
    · simpa [hnone] using spans_nil
    · simpa [hnone] using spans_range (holdsAll ts)
    · exact spans_indexesFrom through 0 ts
  | chord .. => spans_singleton i

theorem spans_indexesFrom (through : Bool) : ∀ (i : ℕ) (ts : List (Sig V)),
    Spans (indexesFrom through i ts) (spanFrom through i ts)
  | _, [] => spans_nil
  | i, t :: ts => (spans_indexes through i t).append (spans_indexesFrom through (i + 1) ts)

end

theorem isChain_range (n : ℕ) : (List.range n).IsChain (· < ·) :=
  List.isChain_iff_pairwise.mpr List.pairwise_lt_range

mutual

theorem isChain_indexes_iff (through : Bool) (i : ℕ) : ∀ s : Sig V,
    (s.indexes through i).IsChain (· < ·) ↔ s.apart through = true
  | task .. => by simp [indexes, apart]
  | chain [] _ => by simp [indexes, apart]
  | chain (_ :: _) _ => by simp [indexes, apart]
  | group lazy ts _ => by
    rw [indexes, apart, Bool.or_eq_true]
    split_ifs with hflat
    · exact iff_of_true (isChain_range _) (Or.inl hflat)
    · rw [or_iff_right hflat]
      exact isChain_indexesFrom_iff through 0 ts
  | chord .. => by simp [indexes, apart]

theorem isChain_indexesFrom_iff (through : Bool) : ∀ (i : ℕ) (ts : List (Sig V)),
    (indexesFrom through i ts).IsChain (· < ·) ↔ apartFrom through i ts = true
  | _, [] => by simp [indexesFrom, apartFrom]
  | i, t :: ts => by
    rw [indexesFrom, apartFrom,
      (spans_indexes through i t).isChain_append_iff (spans_indexesFrom through (i + 1) ts),
      isChain_indexes_iff through i t, isChain_indexesFrom_iff through (i + 1) ts,
      Bool.and_eq_true, Bool.and_eq_true, and_assoc]

end

/-- The indexes are there, and each is greater than those before it. -/
def Increasing (indexes : List (Option ℕ)) : Prop :=
  ∃ is : List ℕ, indexes = is.map some ∧ is.Pairwise (· < ·)

theorem increasing_map_some_iff (is : List ℕ) :
    Increasing (is.map some) ↔ is.IsChain (· < ·) := by
  rw [List.isChain_iff_pairwise]
  constructor
  · rintro ⟨js, heq, hjs⟩
    rwa [List.map_injective_iff.mpr (Option.some_injective _) heq]
  · exact fun h => ⟨is, rfl, h⟩

/-- **The indexes that go out with a chord header are distinct and increase exactly if the
header is a list, or each member with tasks ends before the next one begins.** -/
theorem publishHeader_increases_iff {through : Bool} {gid : TaskId} {body : Sig V}
    {rootId : Option TaskId} {callRootId : Option (Option TaskId)} {lazy : Bool}
    {header : List (Sig V)} {opts : Options V (Sig V)} {app app' : App} {steps : Steps V}
    (h : publishHeader through gid body rootId callRootId lazy header opts app =
      .ok (steps, app')) :
    Increasing (reported steps) ↔ (lazy = true → apartFrom through 0 header = true) := by
  rw [publishHeader_reported h, increasing_map_some_iff, headerIndexes]
  cases lazy with
  | true => simpa using isChain_indexesFrom_iff through 0 header
  | false => simpa using isChain_range (holdsAll header)

/-- A generator that yields `group(a, b)`, then `c`. -/
def groupThenC : List (Sig Unit) := [.group false [.task "a" {}, .task "b" {}] {}, .task "c" {}]

/-- As a list the header goes out with the indexes 0, 1 and 2. -/
theorem groupThenC_increases :
    ∃ steps app', publishHeader false 7 (.task "tsum" {}) none none false groupThenC {} ⟨0, 8⟩ =
      .ok (steps, app') ∧ Increasing (reported steps) := by
  have hruns : ∃ steps app', publishHeader false 7 (.task "tsum" {}) none none false groupThenC {} ⟨0, 8⟩
      = .ok (steps, app') := ⟨_, _, rfl⟩
  obtain ⟨steps, app', h⟩ := hruns
  exact ⟨steps, app', h, (publishHeader_increases_iff h).mpr fun hlazy => by cases hlazy⟩

/-- From the generator, `b` and `c` both go out with the index 1. -/
theorem groupThenC_not_increases :
    ∃ steps app', publishHeader false 7 (.task "tsum" {}) none none true groupThenC {} ⟨0, 8⟩ =
      .ok (steps, app') ∧ reported steps = [some 0, some 1, some 1] ∧
      ¬ Increasing (reported steps) := by
  refine ⟨_, _, rfl, rfl, ?_⟩
  rintro ⟨is, heq, his⟩
  obtain rfl : is = [0, 1, 1] :=
    List.map_injective_iff.mpr (Option.some_injective ℕ) (heq.symm.trans rfl)
  exact absurd his (by decide)

end Canvas
end Celery
