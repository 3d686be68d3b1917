/-
# A failing chain in the header of a chord

A chain that is a member of a chord header reports with its last step.  If a task
fails before, that step never runs, and `mark_as_failure` has to report in its
place: it walks over the rest of the chain, with the bodies of chords, and returns
a part for each element that has a `chord` option (`celery/backends/base.py`,
lines 263-327).

What it returns is one part if the last step, followed through the bodies of
chords, is a task or a group, and none if it is a chain, which has no such option
of its own.  A member of a group at the end reports for itself, and a task in the
header of a step that is a chord reports to that chord.  `_descend` counts each
reporting task, so that the chord gets what it waits for exactly as `ReachesChord`
says (`markAsFailure_partReturnsFor_iff`).
-/

import Celery.Backends.Base
import Celery.Canvas.Rules
import Mathlib.Tactic.FinCases

namespace Celery

open Canvas Sig Outcome

variable {V : Type}

namespace Canvas

mutual

/-- The options of all the nodes of a signature. -/
def nodeOptions : Sig V → List (Options V (Sig V))
  | .task _ f => [f.options]
  | .chain ts f => f.options :: nodeOptionsAll ts
  | .group _ ts f => f.options :: nodeOptionsAll ts
  | .chord _ h _ b f => f.options :: (nodeOptionsAll h ++ nodeOptions b)

def nodeOptionsAll : List (Sig V) → List (Options V (Sig V))
  | [] => []
  | t :: ts => nodeOptions t ++ nodeOptionsAll ts

end

/-- A signature that has not been frozen: no node of it reports anywhere. -/
def Fresh (s : Sig V) : Prop := ∀ o ∈ nodeOptions s, o.groupId = none ∧ o.chord = none

mutual

theorem nodeOptions_clone : ∀ s : Sig V, nodeOptions s.clone = nodeOptions s
  | .task .. => rfl
  | .chain ts _ => by rw [clone, nodeOptions, nodeOptions, nodeOptionsAll_cloneAll ts]
  | .group .. => rfl
  | .chord _ _ (some _) b _ => by rw [clone, nodeOptions, nodeOptions, nodeOptions_clone b]
  | .chord _ h none b _ => by
    rw [clone, nodeOptions, nodeOptions, nodeOptionsAll_cloneAll h, nodeOptions_clone b]

theorem nodeOptionsAll_cloneAll : ∀ ts : List (Sig V),
    nodeOptionsAll (cloneAll ts) = nodeOptionsAll ts
  | [] => rfl
  | t :: ts => by
    rw [cloneAll, nodeOptionsAll, nodeOptionsAll, nodeOptions_clone t, nodeOptionsAll_cloneAll ts]

end

theorem mem_nodeOptionsAll {t : Sig V} {ts : List (Sig V)} (ht : t ∈ ts)
    {o : Options V (Sig V)} (ho : o ∈ nodeOptions t) : o ∈ nodeOptionsAll ts := by
  induction ts with
  | nil => cases ht
  | cons u ts ih =>
    rw [nodeOptionsAll, List.mem_append]
    rcases List.mem_cons.1 ht with rfl | ht
    · exact .inl ho
    · exact .inr (ih ht)

theorem Fresh.body {l : Bool} {h : List (Sig V)} {hg : Option (Options V (Sig V))} {b : Sig V}
    {f : Fields V (Sig V)} (hs : Fresh (.chord l h hg b f)) : Fresh b := by
  intro o ho
  refine hs o ?_
  rw [nodeOptions]
  exact List.mem_cons_of_mem _ (List.mem_append_right _ ho)

theorem Fresh.members {l : Bool} {ts : List (Sig V)} {f : Fields V (Sig V)}
    (hs : Fresh (.group l ts f)) : ∀ t ∈ ts, Fresh t := by
  intro t ht o ho
  refine hs o ?_
  rw [nodeOptions]
  exact List.mem_cons_of_mem _ (mem_nodeOptionsAll ht ho)

theorem Fresh.header {l : Bool} {h : List (Sig V)} {hg : Option (Options V (Sig V))}
    {body : Sig V} {f : Fields V (Sig V)} (hs : Fresh (.chord l h hg body f)) :
    ∀ t ∈ h, Fresh t := by
  intro t ht o ho
  refine hs o ?_
  rw [nodeOptions]
  exact List.mem_cons_of_mem _ (List.mem_append_left _ (mem_nodeOptionsAll ht ho))

theorem Fresh.options {s : Sig V} (hs : Fresh s) :
    s.options.groupId = none ∧ s.options.chord = none := by
  cases s <;> exact hs _ (by simp [nodeOptions, Sig.options, fields])

/-- What holds of the options of all nodes holds of what `prepare_steps` takes apart. -/
theorem hereditary_nodeOptions (P : Options V (Sig V) → Prop) :
    Hereditary fun s : Sig V => ∀ o ∈ nodeOptions s, P o where
  unroll s hs := by
    unfold maybeUnrollGroup
    split
    · intro o ho
      refine hs o ?_
      rw [nodeOptions]
      exact List.mem_cons_of_mem _ (mem_nodeOptionsAll List.mem_cons_self ho)
    · exact hs
  splice ts f hs t ht o ho := by
    refine hs o ?_
    rw [nodeOptions]
    exact List.mem_cons_of_mem _ (mem_nodeOptionsAll ht ho)
  clone s hs := by rwa [nodeOptions_clone]
  receiveArgs args kwargs s hs := by
    cases s with
    | task n f =>
      intro o ho
      rw [receiveArgs, nodeOptions, Fields.merge_options] at ho
      exact hs o ho
    | chord l h hg b f =>
      intro o ho
      rw [receiveArgs, nodeOptions, Fields.merge_options] at ho
      exact hs o ho
    | _ => exact hs
  prependArgs args s hs := by
    cases s <;> exact hs

theorem hereditary_fresh : Hereditary (Fresh (V := V)) :=
  hereditary_nodeOptions fun o => o.groupId = none ∧ o.chord = none

mutual

/-- A flattened member has no other nodes. -/
theorem nodeOptions_of_mem_flat : ∀ s t : Sig V, t ∈ s.flat →
    ∀ o ∈ nodeOptions t, o ∈ nodeOptions s
  | task .., t, ht, o, ho => by
    rw [flat, List.mem_singleton] at ht
    rwa [ht] at ho
  | chain [] _, t, ht, o, ho => by simp [flat] at ht
  | chain (u :: us) f, t, ht, o, ho => by
    rw [flat, List.mem_singleton] at ht
    rwa [ht, nodeOptions_clone] at ho
  | chord l h hg b f, t, ht, o, ho => by
    rw [flat, List.mem_singleton] at ht
    rwa [ht, nodeOptions_clone] at ho
  | group l ts f, t, ht, o, ho => by
    rw [flat] at ht
    rw [nodeOptions]
    exact List.mem_cons_of_mem _ (nodeOptions_of_mem_flatRev ts t ht o ho)

theorem nodeOptions_of_mem_flatRev : ∀ (ts : List (Sig V)) (t : Sig V), t ∈ flatRev ts →
    ∀ o ∈ nodeOptions t, o ∈ nodeOptionsAll ts
  | [], t, ht, o, ho => by simp [flatRev] at ht
  | s :: ts, t, ht, o, ho => by
    rw [flatRev, List.mem_append] at ht
    rw [nodeOptionsAll, List.mem_append]
    exact ht.elim (fun ht => .inr (nodeOptions_of_mem_flatRev ts t ht o ho))
      fun ht => .inl (nodeOptions_of_mem_flat s t ht o ho)

end

/-- What holds of the options of all nodes holds of the members that a group freezes. -/
theorem forall_memberList {P : Options V (Sig V) → Prop} {lazy : Bool} {ts : List (Sig V)}
    (hts : ∀ t ∈ ts, ∀ o ∈ nodeOptions t, P o) :
    ∀ t ∈ memberList lazy ts, ∀ o ∈ nodeOptions t, P o := by
  intro t ht o ho
  unfold memberList at ht
  split at ht
  · obtain ⟨u, hu, rfl⟩ := List.mem_map.1 ht
    rw [nodeOptions_clone] at ho
    exact hts u hu o ho
  · obtain ⟨u, hu, hut⟩ := List.mem_flatMap.1 ht
    exact hts u hu o (nodeOptions_of_mem_flat u t hut o ho)

/-! ### Nodes that report to another group -/

/-- No node of the signature belongs to group `g`. -/
def Foreign (g : TaskId) (s : Sig V) : Prop := ∀ o ∈ nodeOptions s, o.groupId ≠ some g

/-- Freezing for another group adds no node of group `g`. -/
def ForeignRel (g : TaskId) (p : FreezeArgs V) (s s' : Sig V) : Prop :=
  p.groupId ≠ some g → Foreign g s → Foreign g s'

section Foreign

variable {g : TaskId}

theorem Fresh.foreign {s : Sig V} (hs : Fresh s) : Foreign g s := by
  intro o ho
  rw [(hs o ho).1]
  simp

theorem hereditary_foreign : Hereditary (Foreign (V := V) g) :=
  hereditary_nodeOptions fun o => o.groupId ≠ some g

theorem foreign_all_iff {ts : List (Sig V)} :
    (∀ o ∈ nodeOptionsAll ts, o.groupId ≠ some g) ↔ ∀ t ∈ ts, Foreign g t := by
  induction ts with
  | nil => simp [nodeOptionsAll]
  | cons t ts ih =>
    rw [nodeOptionsAll, List.forall_mem_append, List.forall_mem_cons, ih]
    rfl

theorem foreign_group_iff {l : Bool} {ts : List (Sig V)} {f : Fields V (Sig V)} :
    Foreign g (.group l ts f) ↔ f.options.groupId ≠ some g ∧ ∀ t ∈ ts, Foreign g t := by
  rw [Foreign, nodeOptions, List.forall_mem_cons, foreign_all_iff]

theorem foreign_chain_iff {ts : List (Sig V)} {f : Fields V (Sig V)} :
    Foreign g (.chain ts f) ↔ f.options.groupId ≠ some g ∧ ∀ t ∈ ts, Foreign g t := by
  rw [Foreign, nodeOptions, List.forall_mem_cons, foreign_all_iff]

theorem foreign_chord_iff {l : Bool} {h : List (Sig V)} {hg : Option (Options V (Sig V))}
    {b : Sig V} {f : Fields V (Sig V)} :
    Foreign g (.chord l h hg b f) ↔
      f.options.groupId ≠ some g ∧ (∀ t ∈ h, Foreign g t) ∧ Foreign g b := by
  rw [Foreign, nodeOptions, List.forall_mem_cons, List.forall_mem_append, foreign_all_iff]
  rfl

theorem Members.foreign {p : FreezeArgs V} {lazy : Bool} {ts ts' : List (Sig V)}
    (hm : Members (ForeignRel g) p lazy ts ts') (hp : p.groupId ≠ some g)
    (hts : ∀ t ∈ ts, Foreign g t) : ∀ t ∈ ts', Foreign g t := by
  intro t' ht'
  obtain ⟨t, ht, hrel⟩ := hm.exists_of_mem ht'
  have hforeign : Foreign g t := forall_memberList hts t ht
  split at hrel
  · rwa [hrel]
  · obtain ⟨i, hi⟩ := hrel
    exact hi hp hforeign

/-- The tasks of a header are frozen for no group. -/
theorem HeaderRel.foreign {p : FreezeArgs V} {l : Bool} {h : List (Sig V)}
    {hg : Option (Options V (Sig V))} {truthy : Bool} {b' s' : Sig V} {f : Fields V (Sig V)}
    (hh : HeaderRel (ForeignRel g) p l h hg truthy b' f s') (hf : f.options.groupId ≠ some g)
    (ht : ∀ t ∈ h, Foreign g t) (hb : Foreign g b') : Foreign g s' := by
  obtain ⟨h', gid, hm, rfl⟩ := hh
  exact foreign_chord_iff.mpr ⟨hf, hm.foreign (Option.some_ne_none g).symm ht, hb⟩

theorem Folded.foreign {c : Prepare V} {l prevs steps : List (Sig V)}
    (hf : Folded (ForeignRel g) c l prevs steps) (hc : c.groupId ≠ some g)
    (hl : ∀ t ∈ l, Foreign g t) (hprevs : ∀ t ∈ prevs, Foreign g t) :
    ∀ t ∈ steps, Foreign g t := by
  induction hf with
  | nil steps => exact hprevs
  | last ht _ ih =>
    obtain ⟨hhead, hrest⟩ := List.forall_mem_cons.1 hl
    exact ih hrest (List.forall_mem_singleton.2 (ht hc hhead))
  | upgrade _ hh _ ih =>
    obtain ⟨hhead, hrest⟩ := List.forall_mem_cons.1 hl
    obtain ⟨hprev, hprevs⟩ := List.forall_mem_cons.1 hprevs
    refine ih hrest (List.forall_mem_cons.2 ⟨?_, hprevs⟩)
    exact hh.foreign (Option.some_ne_none g).symm (foreign_group_iff.mp hhead).2 hprev
  | step _ ht _ ih =>
    obtain ⟨hhead, hrest⟩ := List.forall_mem_cons.1 hl
    exact ih hrest (List.forall_mem_cons.2 ⟨ht (Option.some_ne_none g).symm hhead, hprevs⟩)

theorem freezeRule_foreignRel (g : TaskId) : FreezeRule (ForeignRel (V := V) g) where
  task p n f tid oid hp hs := by
    rw [Foreign, nodeOptions, List.forall_mem_singleton] at hs ⊢
    show f.options.groupId.or p.groupId ≠ some g
    cases hgroup : f.options.groupId with
    | none => exact hp
    | some i => rwa [hgroup] at hs
  group p l ts f ts' gid hm hp hs := by
    obtain ⟨hf, hts⟩ := foreign_group_iff.mp hs
    refine foreign_group_iff.mpr ⟨?_, hm.foreign hp hts⟩
    show p.groupId.or f.options.groupId ≠ some g
    cases hgroup : p.groupId with
    | none => exact hf
    | some i => rwa [hgroup] at hp
  chord p l h hg b f b' s' hb hh hp hs := by
    obtain ⟨hf, hheader, hbody⟩ := foreign_chord_iff.mp hs
    exact hh.foreign hf hheader (hb hp hbody)
  chain p ts f l steps tid hl _ hf hp hs := by
    obtain ⟨hfields, hts⟩ := foreign_chain_iff.mp hs
    exact foreign_chain_iff.mpr ⟨hfields, hf.foreign hp (hereditary_foreign.of_takenSteps hl hts)
      (List.forall_mem_nil _)⟩

/-- The header of a chord, frozen again for another group as the chord runs. -/
theorem foreign_of_freezeGroupTasks {p : FreezeArgs V} {l : Bool} {h h' : List (Sig V)}
    {o o' : Options V (Sig V)} {res : Result} {app app' : App}
    (hrun : freezeGroupTasks freeze p l h o app = .ok ((o', h', res), app'))
    (hp : p.groupId ≠ some g) (hh : ∀ t ∈ h, Foreign g t) : ∀ t ∈ h', Foreign g t := by
  have hgood : Good (ForeignRel (V := V) g) freeze (weightAll h) :=
    fun p s _ => freeze_gives (freezeRule_foreignRel g) p s
  obtain ⟨-, -, hm⟩ := (freezeGroupTasks_gives hgood p l h o le_rfl).of_ok hrun
  exact hm.foreign hp hh

end Foreign

namespace Sig

/-- Where a signature ends, through the bodies of chords. -/
def endOf : Sig V → Sig V
  | chord _ _ _ b _ => endOf b
  | s => s

end Sig

end Canvas

namespace Backend

/-- The part returns for group `g`. -/
def partReturnsFor (g : TaskId) (cs : List (Call V)) : ℕ :=
  (partReturns cs).countP fun r => r.group == some g

/-- Whether a request returns a part for group `g` itself. -/
def ownCount (g : TaskId) (r : Context V) : ℕ :=
  if r.chord.isSome && r.group == some g then 1 else 0

/-- The parts for group `g` that the walk returns for a chain element. -/
def walkCount (g : TaskId) (s : Sig V) : ℕ :=
  s.reached.countP fun x => x.options.chord.isSome && x.options.groupId == some g

/-- **The parts that a failure returns for group `g`**: the task's own and those
of the walk over the rest of its chain. -/
theorem partReturnsFor_markAsFailure (g taskId : TaskId) (exc : Payload V) (r : Context V)
    (store : Bool) :
    partReturnsFor g (markAsFailure taskId exc (some r) store) =
      ownCount g r + ((r.chain.getD []).map (walkCount g)).sum := by
  have hown : ((if r.chord.isSome then [r] else []).countP fun r => r.group == some g) =
      ownCount g r := by
    unfold ownCount
    cases r.chord.isSome with
    | true => simp [List.countP_cons]
    | false => simp
  have hwalk : ∀ es : List (Sig V),
      ((es.flatMap fun e => if e.options.chord.isSome then [elemCtx e] else []).countP
        fun r => r.group == some g) =
      es.countP fun x => x.options.chord.isSome && x.options.groupId == some g := by
    intro es
    induction es with
    | nil => rfl
    | cons e es ih =>
      rw [List.flatMap_cons, List.countP_append, ih, List.countP_cons, add_comm]
      cases e.options.chord.isSome with
      | true => simp [List.countP_cons, elemCtx]
      | false => simp
  rw [partReturnsFor, (partReturns_markAsFailure taskId exc r store).countP_eq, List.countP_append,
    hown, remaining, hwalk, List.countP_flatMap]
  rfl

/-! ### Where a task of a chain fails -/

/-- The request of a task that runs with `rest` left of its chain, the next step
last. -/
def taskRequest (f : Fields V (Sig V)) (rest : List (Sig V)) : Context V where
  id := f.options.taskId
  group := f.options.groupId
  groupIndex := f.options.groupIndex
  chord := f.options.chord
  chain := some rest
  errbacks := f.options.linkError

/-- Where a task fails: running for a chain that it is in, or in the header of a
chord. -/
inductive Origin where
  | chain
  | header
deriving DecidableEq

/-- What is left of a chain after the signature is also left after a task of it, except in
a header: `_chord.run` does not pass the chain on to the header. -/
def Origin.rest : Origin → List (Sig V) → List (Sig V)
  | .chain, rest => rest
  | .header, _ => []

/-- A task of the signature fails, as the request `r`, with `rest` of a chain left
to run after the signature.  A group runs its members with the rest of the chain, a
chord its body, and a chain its steps one after the other with the later steps before
the rest.  When a chord runs, its header is frozen again, for a group with an id of its
own, and its tasks run without the chain. -/
inductive FailsIn (g : TaskId) : Sig V → List (Sig V) → Origin → Context V → Prop
  | task (n : String) (f : Fields V (Sig V)) (rest : List (Sig V)) :
      FailsIn g (.task n f) rest .chain (taskRequest f rest)
  | member {l : Bool} {ts : List (Sig V)} {t : Sig V} {f : Fields V (Sig V)}
      {rest : List (Sig V)} {o : Origin} {r : Context V} (ht : t ∈ ts) (hr : FailsIn g t rest o r) :
      FailsIn g (.group l ts f) rest o r
  | body {l : Bool} {h : List (Sig V)} {hg : Option (Options V (Sig V))} {b : Sig V}
      {f : Fields V (Sig V)} {rest : List (Sig V)} {o : Origin} {r : Context V}
      (hb : FailsIn g b rest o r) : FailsIn g (.chord l h hg b f) rest o r
  | header {l : Bool} {h h' : List (Sig V)} {hg : Option (Options V (Sig V))} {b t : Sig V}
      {f : Fields V (Sig V)} {rest : List (Sig V)} {o : Origin} {r : Context V}
      {p : FreezeArgs V} {opts : Options V (Sig V)} {res : Result} {app app' : App}
      (hgid : p.groupId ≠ some g)
      (hrun : freezeGroupTasks freeze p l h (hg.getD {}) app = .ok ((opts, h', res), app'))
      (ht : t ∈ h') (hr : FailsIn g t [] o r) : FailsIn g (.chord l h hg b f) rest .header r
  | step {before after : List (Sig V)} {t : Sig V} {f : Fields V (Sig V)} {rest : List (Sig V)}
      {o : Origin} {r : Context V} (ht : FailsIn g t (rest ++ after.reverse) o r) :
      FailsIn g (.chain (before ++ t :: after) f) rest o r

/-- A failure that returns no part for `g`, other than through `rest`. -/
def Unheard (g : TaskId) (rest : List (Sig V)) (r : Context V) : Prop :=
  ownCount g r = 0 ∧ ∃ inner, r.chain = some (rest ++ inner) ∧ ∀ e ∈ inner, walkCount g e = 0

/-- The request has nothing left of its chain, or what is left ends in a task or a group,
through the bodies of chords. -/
def endsInReporter (r : Context V) : Bool :=
  match r.chain.getD [] with
  | [] => true
  | z :: _ => !z.endOf.isChain

/-- A failure that returns one part for `g` if what is left ends in a task or a group, and
none in a header. -/
def Heard (g : TaskId) (o : Origin) (r : Context V) : Prop :=
  ownCount g r + ((r.chain.getD []).map (walkCount g)).sum =
    if o = .chain ∧ endsInReporter r = true then 1 else 0

/-- A step that reports nowhere: neither does it as an element of the rest of a
chain, nor does a failure in it other than through the rest. -/
structure Quiet (g : TaskId) (s : Sig V) : Prop where
  walk : walkCount g s = 0
  fails : ∀ rest o r, FailsIn g s rest o r → Unheard g (o.rest rest) r

/-- The step a chain reports with.  As an element of the rest of a chain it gives one part,
or none if it ends in a chain, and a failure in it is heard. -/
structure Tail (g : TaskId) (s : Sig V) : Prop where
  walk : walkCount g s = if s.endOf.isChain then 0 else 1
  fails : ∀ o r, FailsIn g s [] o r → Heard g o r

section Steps

variable {g : TaskId} {l : Bool} {h : List (Sig V)} {hg : Option (Options V (Sig V))}
  {b : Sig V} {f : Fields V (Sig V)}

theorem walkCount_chord (hf : f.options.chord = none) :
    walkCount g (.chord l h hg b f) = walkCount g b := by
  rw [walkCount, reached, List.countP_cons]
  simp [Sig.options, fields, hf, walkCount]

theorem walkCount_of_not_chord {s : Sig V} (hs : s.body? = none) :
    walkCount g s =
      if s.options.chord.isSome && s.options.groupId == some g then 1 else 0 := by
  cases s with
  | chord => cases hs
  | _ => simp [walkCount, reached, List.countP_cons]

theorem sum_walkCount_eq_zero {es : List (Sig V)} (hes : ∀ e ∈ es, walkCount g e = 0) :
    (es.map (walkCount g)).sum = 0 := by
  refine List.sum_eq_zero fun n hn => ?_
  obtain ⟨e, he, rfl⟩ := List.mem_map.1 hn
  exact hes e he

theorem ownCount_of_chord_none {r : Context V} (hr : r.chord = none) : ownCount g r = 0 := by
  simp [ownCount, hr]

/-- The elements of a chain that have no node of the group return no part for it. -/
theorem walkCount_of_foreign : ∀ {s : Sig V}, Foreign g s → walkCount g s = 0
  | .task n f, hs => by
    have hgroup := hs f.options (by simp [nodeOptions])
    rw [walkCount_of_not_chord rfl]
    simp [Sig.options, fields, hgroup]
  | .chain ts f, hs => by
    have hgroup := (foreign_chain_iff.mp hs).1
    rw [walkCount_of_not_chord rfl]
    simp [Sig.options, fields, hgroup]
  | .group l ts f, hs => by
    have hgroup := (foreign_group_iff.mp hs).1
    rw [walkCount_of_not_chord rfl]
    simp [Sig.options, fields, hgroup]
  | .chord l h hg b f, hs => by
    obtain ⟨hgroup, -, hb⟩ := foreign_chord_iff.mp hs
    have hbody := walkCount_of_foreign hb
    rw [walkCount] at hbody
    rw [walkCount, reached, List.countP_cons, hbody]
    simp [Sig.options, fields, hgroup]

theorem Origin.rest_nil (o : Origin) : o.rest ([] : List (Sig V)) = [] := by
  cases o <;> rfl

/-- **A failure among nodes of other groups is not heard.** -/
theorem unheard_of_foreign {s : Sig V} {rest : List (Sig V)} {o : Origin} {r : Context V}
    (hr : FailsIn g s rest o r) (hs : Foreign g s) : Unheard g (o.rest rest) r := by
  induction hr with
  | task n f rest =>
    have hgroup := hs f.options (by simp [nodeOptions])
    refine ⟨?_, [], ?_, List.forall_mem_nil _⟩
    · simp [ownCount, taskRequest, hgroup]
    · rw [List.append_nil]
      rfl
  | member ht _ ih => exact ih ((foreign_group_iff.mp hs).2 _ ht)
  | body _ ih => exact ih (foreign_chord_iff.mp hs).2.2
  | header hgid hrun ht _ ih =>
    have hheader := foreign_of_freezeGroupTasks hrun hgid (foreign_chord_iff.mp hs).2.1
    have hunheard := ih (hheader _ ht)
    rwa [Origin.rest_nil] at hunheard
  | @step before after t f rest o r _ ih =>
    obtain ⟨-, hsteps⟩ := foreign_chain_iff.mp hs
    rw [List.forall_mem_append, List.forall_mem_cons] at hsteps
    obtain ⟨hown, inner, hchain, hinner⟩ := ih hsteps.2.1
    cases o with
    | chain =>
      refine ⟨hown, after.reverse ++ inner, hchain.trans (congrArg some (List.append_assoc ..)), ?_⟩
      refine List.forall_mem_append.2 ⟨fun e he => ?_, hinner⟩
      exact walkCount_of_foreign (hsteps.2.2 e (List.mem_reverse.1 he))
    | header => exact ⟨hown, inner, hchain, hinner⟩

/-- A failure in the header of a chord whose own nodes are of other groups. -/
theorem unheard_of_header {h' : List (Sig V)} {t : Sig V} {o : Origin} {r : Context V}
    {p : FreezeArgs V} {opts : Options V (Sig V)} {res : Result} {app app' : App}
    (hgid : p.groupId ≠ some g)
    (hrun : freezeGroupTasks freeze p l h (hg.getD {}) app = .ok ((opts, h', res), app'))
    (hh : ∀ t ∈ h, Foreign g t) (ht : t ∈ h') (hr : FailsIn g t [] o r) : Unheard g [] r := by
  have hunheard := unheard_of_foreign hr (foreign_of_freezeGroupTasks hrun hgid hh t ht)
  rwa [Origin.rest_nil] at hunheard

theorem Unheard.sum_eq_zero {r : Context V} (hr : Unheard g [] r) :
    ownCount g r + ((r.chain.getD []).map (walkCount g)).sum = 0 := by
  obtain ⟨hown, inner, hchain, hinner⟩ := hr
  rw [hown, hchain, Option.getD_some, List.nil_append, sum_walkCount_eq_zero hinner]

theorem Quiet.chord (hb : Quiet g b) (hf : f.options.chord = none)
    (hh : ∀ t ∈ h, Foreign g t) : Quiet g (.chord l h hg b f) where
  walk := by rw [walkCount_chord hf, hb.walk]
  fails rest o r hr := by
    cases hr with
    | body hr => exact hb.fails rest o r hr
    | header hgid hrun ht hr => exact unheard_of_header hgid hrun hh ht hr

theorem Tail.chord (hb : Tail g b) (hf : f.options.chord = none) (hh : ∀ t ∈ h, Foreign g t) :
    Tail g (.chord l h hg b f) where
  walk := by rw [walkCount_chord hf, hb.walk, endOf]
  fails o r hr := by
    cases hr with
    | body hr => exact hb.fails o r hr
    | header hgid hrun ht hr =>
      rw [Heard, (unheard_of_header hgid hrun hh ht hr).sum_eq_zero]
      rfl

/-- The first step of a chain fails. -/
theorem FailsIn.first {t : Sig V} {after : List (Sig V)} {o : Origin} {r : Context V}
    (ht : FailsIn g t after.reverse o r) : FailsIn g (.chain (t :: after) f) [] o r :=
  @FailsIn.step V g [] after t f [] o r ht

theorem FailsIn.ne_nil {ts rest : List (Sig V)} {o : Origin} {r : Context V}
    (hr : FailsIn g (.chain ts f) rest o r) : ts ≠ [] := by
  cases hr with
  | step => simp

/-- A failure in a chain of quiet steps and a tail. -/
theorem fails_of_tail {before : List (Sig V)} {z : Sig V} (hbefore : ∀ s ∈ before, Quiet g s)
    (hz : Tail g z) {o : Origin} {r : Context V}
    (hr : FailsIn g (.chain (before ++ [z]) f) [] o r) : Heard g o r := by
  generalize hts : before ++ [z] = ts at hr
  cases hr with
  | @step bs after t _ _ _ _ ht =>
    rw [List.nil_append] at ht
    rcases List.eq_nil_or_concat after with rfl | ⟨mid, y, rfl⟩
    · -- the tail itself fails
      obtain ⟨-, heq⟩ := List.append_inj' hts rfl
      cases heq
      exact hz.fails o r ht
    · -- a step before the tail fails
      rw [List.concat_eq_append, ← List.cons_append, ← List.append_assoc] at hts
      obtain ⟨hbs, hzy⟩ := List.append_inj' hts rfl
      cases hzy
      subst hbs
      rw [List.forall_mem_append, List.forall_mem_cons] at hbefore
      have hunheard := hbefore.2.1.fails _ _ _ ht
      cases o with
      | header =>
        rw [Heard, Unheard.sum_eq_zero hunheard]
        rfl
      | chain =>
        obtain ⟨hown, inner, hchain, hinner⟩ := hunheard
        have hchain' : r.chain = some (z :: (mid.reverse ++ inner)) := by
          rw [hchain, Origin.rest, List.concat_eq_append, List.reverse_append,
            List.reverse_singleton, List.singleton_append, List.cons_append]
        have hrest : ((mid.reverse ++ inner).map (walkCount g)).sum = 0 := by
          refine sum_walkCount_eq_zero (List.forall_mem_append.2 ⟨fun e he => ?_, hinner⟩)
          exact (hbefore.2.2 e (List.mem_reverse.1 he)).walk
        rw [Heard, hown, hchain', Option.getD_some, List.map_cons, List.sum_cons, hrest, hz.walk,
          endsInReporter, hchain', Option.getD_some]
        cases hend : z.endOf.isChain <;> simp [hend]

/-- A failure in a chain of quiet steps. -/
theorem fails_of_quiet {ts : List (Sig V)} (hts : ∀ s ∈ ts, Quiet g s) {rest : List (Sig V)}
    {o : Origin} {r : Context V} (hr : FailsIn g (.chain ts f) rest o r) :
    Unheard g (o.rest rest) r := by
  cases hr with
  | @step bs after t _ _ _ _ ht =>
    rw [List.forall_mem_append, List.forall_mem_cons] at hts
    obtain ⟨hown, inner, hchain, hinner⟩ := hts.2.1.fails _ _ _ ht
    cases o with
    | chain =>
      refine ⟨hown, after.reverse ++ inner, hchain.trans (congrArg some (List.append_assoc ..)), ?_⟩
      refine List.forall_mem_append.2 ⟨fun e he => ?_, hinner⟩
      exact (hts.2.2 e (List.mem_reverse.1 he)).walk
    | header => exact ⟨hown, inner, hchain, hinner⟩

end Steps

/-! ### The steps of a prepared chain -/

/-- What freezing does to the reports of a step to group `g` with body `b`. -/
structure ReportRel (g : TaskId) (b : Sig V) (p : FreezeArgs V) (s s' : Sig V) : Prop where
  foreign : ForeignRel g p s s'
  quiet : p.chord = none → Fresh s → Quiet g s'
  tail : p.groupId = some g → p.chord = some b → Fresh s → Tail g s'

section Rule

variable {g : TaskId} {b : Sig V}

/-- The header of a step that has become a chord has no node of the group. -/
theorem exists_foreign_of_headerRel {p : FreezeArgs V} {l : Bool} {h : List (Sig V)}
    {hg : Option (Options V (Sig V))} {truthy : Bool} {b' s' : Sig V} {f : Fields V (Sig V)}
    (hh : HeaderRel (ReportRel g b) p l h hg truthy b' f s') (hfresh : ∀ t ∈ h, Fresh t) :
    ∃ h' hg' f', s' = .chord l h' hg' b' f' ∧ f'.options.chord = f.options.chord ∧
      ∀ t ∈ h', Foreign g t := by
  obtain ⟨h', gid, hm, rfl⟩ := hh
  refine ⟨h', _, _, rfl, rfl, ?_⟩
  exact (hm.imp fun _ _ _ hr => hr.foreign).foreign (Option.some_ne_none g).symm
    fun t ht => (hfresh t ht).foreign

/-- A prepared chain ends in what its last step was frozen to, possibly as the body
of the chords that the groups before it became; the steps before it are quiet. -/
theorem folded_tail {c : Prepare V} {l prevs steps : List (Sig V)}
    (hf : Folded (ReportRel g b) c l prevs steps) (hl : ∀ t ∈ l, Fresh t)
    (hprevs : ∃ before z, prevs = before ++ [z] ∧ (∀ s ∈ before, Quiet g s) ∧ Tail g z) :
    ∃ before z, steps = before ++ [z] ∧ (∀ s ∈ before, Quiet g s) ∧ Tail g z := by
  induction hf with
  | nil steps => exact hprevs
  | last =>
    obtain ⟨before, z, heq, -⟩ := hprevs
    simp at heq
  | upgrade _ hh _ ih =>
    refine ih (fun t ht => hl t (List.mem_cons_of_mem _ ht)) ?_
    obtain ⟨h', hg', f', rfl, hchord, hh'⟩ :=
      exists_foreign_of_headerRel hh (hl _ List.mem_cons_self).members
    obtain ⟨before, z, heq, hq, hz⟩ := hprevs
    cases before with
    | nil =>
      cases heq
      exact ⟨[], _, rfl, by simp, hz.chord hchord hh'⟩
    | cons q before =>
      cases heq
      rw [List.forall_mem_cons] at hq
      exact ⟨_ :: before, z, rfl, List.forall_mem_cons.2 ⟨hq.1.chord hchord hh', hq.2⟩, hz⟩
  | step _ ht _ ih =>
    refine ih (fun t ht => hl t (List.mem_cons_of_mem _ ht)) ?_
    obtain ⟨before, z, heq, hq, hz⟩ := hprevs
    refine ⟨_ :: before, z, by rw [heq]; rfl, List.forall_mem_cons.2 ⟨?_, hq⟩, hz⟩
    exact ht.quiet rfl (hl _ List.mem_cons_self)

theorem folded_quiet {c : Prepare V} {l prevs steps : List (Sig V)}
    (hf : Folded (ReportRel g b) c l prevs steps) (hc : c.chordBody = none)
    (hl : ∀ t ∈ l, Fresh t) (hprevs : ∀ s ∈ prevs, Quiet g s) : ∀ s ∈ steps, Quiet g s := by
  induction hf with
  | nil steps => exact hprevs
  | last ht _ ih =>
    refine ih (fun t ht => hl t (List.mem_cons_of_mem _ ht)) ?_
    rw [List.forall_mem_singleton]
    exact ht.quiet hc (hl _ List.mem_cons_self)
  | upgrade _ hh _ ih =>
    refine ih (fun t ht => hl t (List.mem_cons_of_mem _ ht)) ?_
    obtain ⟨h', hg', f', rfl, hchord, hh'⟩ :=
      exists_foreign_of_headerRel hh (hl _ List.mem_cons_self).members
    rw [List.forall_mem_cons] at hprevs ⊢
    exact ⟨hprevs.1.chord hchord hh', hprevs.2⟩
  | step _ ht _ ih =>
    refine ih (fun t ht => hl t (List.mem_cons_of_mem _ ht)) ?_
    exact List.forall_mem_cons.2 ⟨ht.quiet rfl (hl _ List.mem_cons_self), hprevs⟩

/-- The same for a whole chain, from the steps that `prepare_steps` takes. -/
theorem exists_tail_of_folded {c : Prepare V} {ts l steps : List (Sig V)}
    (hl : takenSteps c ts = .ok l) (hne : l ≠ []) (hf : Folded (ReportRel g b) c l [] steps)
    (hg : c.groupId = some g) (hb : c.chordBody = some b) (hts : ∀ t ∈ ts, Fresh t) :
    ∃ before z, steps = before ++ [z] ∧ (∀ s ∈ before, Quiet g s) ∧ Tail g z := by
  have hfresh := hereditary_fresh.of_takenSteps hl hts
  cases hf with
  | nil => exact absurd rfl hne
  | @last t t' rest _ ht hrest =>
    have htail : Tail g t' := ht.tail hg hb (hfresh t List.mem_cons_self)
    exact folded_tail hrest (fun u hu => hfresh u (List.mem_cons_of_mem _ hu))
      ⟨[], t', rfl, by simp, htail⟩

theorem fresh_memberList {lazy : Bool} {ts : List (Sig V)} (hts : ∀ t ∈ ts, Fresh t) :
    ∀ t ∈ memberList lazy ts, Fresh t :=
  forall_memberList hts

/-- Nothing runs in an empty chain. -/
theorem not_failsIn_of_isEmptyChain {s : Sig V} (hs : s.isEmptyChain = true)
    {rest : List (Sig V)} {o : Origin} {r : Context V} : ¬ FailsIn g s rest o r := by
  intro hr
  cases hr with
  | step => simp [isEmptyChain] at hs
  | _ => cases hs

theorem freezeRule_reportRel (g : TaskId) (b : Sig V) : FreezeRule (ReportRel g b) where
  task p n f tid oid := by
    refine ⟨(freezeRule_foreignRel g).task p n f tid oid, ?_, ?_⟩
    · intro hp hs
      have hf : (p.taskOptions f.options tid oid).chord = none := by
        have : f.options.chord = none := hs.options.2
        simp [FreezeArgs.taskOptions, hp, this]
      constructor
      · rw [walkCount_of_not_chord rfl]
        simp [Sig.options, fields, hf]
      · intro rest o r hr
        cases hr
        exact ⟨ownCount_of_chord_none hf, [], by simp [taskRequest, Origin.rest], by simp⟩
    · intro hg hb hs
      have hf : (p.taskOptions f.options tid oid).chord = some b := by
        simp [FreezeArgs.taskOptions, hb]
      have hgr : (p.taskOptions f.options tid oid).groupId = some g := by
        have : f.options.groupId = none := hs.options.1
        simp [FreezeArgs.taskOptions, hg, this]
      constructor
      · rw [walkCount_of_not_chord rfl]
        simp [Sig.options, fields, hf, hgr, endOf, isChain]
      · intro o r hr
        cases hr
        simp [Heard, endsInReporter, ownCount, taskRequest, hf, hgr]
  group p l ts f ts' gid hm := by
    refine ⟨(freezeRule_foreignRel g).group p l ts f ts' gid (hm.imp fun _ _ _ hr => hr.foreign),
      ?_, ?_⟩
    · intro hp hs
      have hf : (p.groupOptions f.options gid).chord = none := by
        have : f.options.chord = none := hs.options.2
        simp [FreezeArgs.groupOptions, hp, this]
      constructor
      · rw [walkCount_of_not_chord rfl]
        simp [Sig.options, fields, hf]
      · intro rest o r hr
        cases hr with
        | member ht hr =>
          obtain ⟨t, htl, hrel⟩ := hm.exists_of_mem ht
          have hfresh := fresh_memberList (Fresh.members hs) t htl
          split at hrel
          next hempty => exact absurd hr (not_failsIn_of_isEmptyChain (hrel ▸ hempty))
          next =>
            obtain ⟨i, hi⟩ := hrel
            exact (hi.quiet hp hfresh).fails rest o r hr
    · intro hg hb hs
      constructor
      · rw [walkCount_of_not_chord rfl]
        simp [Sig.options, fields, FreezeArgs.groupOptions, hg, hb, endOf, isChain]
      · intro o r hr
        cases hr with
        | member ht hr =>
          obtain ⟨t, htl, hrel⟩ := hm.exists_of_mem ht
          have hfresh := fresh_memberList (Fresh.members hs) t htl
          split at hrel
          next hempty => exact absurd hr (not_failsIn_of_isEmptyChain (hrel ▸ hempty))
          next =>
            obtain ⟨i, hi⟩ := hrel
            exact (hi.tail hg hb hfresh).fails o r hr
  chord p l h hg body f b' s' hb hh := by
    refine ⟨(freezeRule_foreignRel g).chord p l h hg body f b' s' hb.foreign
      (hh.imp fun _ _ _ hr => hr.foreign), ?_, ?_⟩
    · intro hp hs
      obtain ⟨h', hg', f', rfl, hchord, hh'⟩ := exists_foreign_of_headerRel hh (Fresh.header hs)
      exact (hb.quiet hp hs.body).chord (hchord.trans hs.options.2) hh'
    · intro hpg hpb hs
      obtain ⟨h', hg', f', rfl, hchord, hh'⟩ := exists_foreign_of_headerRel hh (Fresh.header hs)
      exact (hb.tail hpg hpb hs.body).chord (hchord.trans hs.options.2) hh'
  chain p ts f l steps tid hl hne hf := by
    have hwalk : f.options.chord = none →
        walkCount g (.chain steps { f with options := { f.options with taskId := some tid } }) =
          0 := by
      intro hc
      rw [walkCount_of_not_chord rfl]
      simp [Sig.options, fields, hc]
    refine ⟨(freezeRule_foreignRel g).chain p ts f l steps tid hl hne
      (hf.imp fun _ _ _ hr => hr.foreign), ?_, ?_⟩
    · intro hp hs
      have hfresh := hereditary_fresh.of_takenSteps hl (hereditary_fresh.splice ts f hs)
      refine ⟨hwalk hs.options.2, fun rest o r hr => ?_⟩
      exact fails_of_quiet (folded_quiet hf hp hfresh (by simp)) hr
    · intro hg hb hs
      obtain ⟨before, z, rfl, hq, hz⟩ := exists_tail_of_folded hl hne hf hg hb
        (hereditary_fresh.splice ts f hs)
      constructor
      · rw [hwalk hs.options.2]
        rfl
      · exact fun o r hr => fails_of_tail hq hz hr

end Rule

/-- **When the parts that a failure returns are those the chord waits for.**  One part is
returned by a task that runs for the chain, if what is left of the chain that it runs in ends in a
task or a group, and that is right if just one task reports.  None is returned if it ends in a
chain, if the task is in the header of a step, or if the body is an empty group, which nobody
reports to, and that is right if no task reports. -/
def ReachesChord (b c : Sig V) (o : Origin) (r : Context V) : Prop :=
  if b.truthy = true ∧ o = .chain ∧ endsInReporter r = true then c.single = true
  else c.silent = true

/-- **A failure in a chain reaches the chord of group `g` as `ReachesChord`
says.**  The chain `c` is a member of the header, so that its steps are prepared
with the group and the body `b`, and the request `r` of one of its tasks
fails, wherever that task is. -/
theorem markAsFailure_partReturnsFor_iff (g : TaskId) (b : Sig V) (c : Prepare V)
    (ts : List (Sig V)) (f : Fields V (Sig V)) (hg : c.groupId = some g)
    (hb : c.chordBody = b.ifTruthy) (hts : ∀ t ∈ ts, Fresh t) (app app' : App) (steps : Steps V)
    (hok : prepareChain c ts app = .ok (steps, app')) (o : Origin) (r : Context V)
    (hr : FailsIn g (.chain (steps.map Prod.fst) f) [] o r) (taskId : TaskId) (exc : Payload V)
    (store : Bool) :
    partReturnsFor g (markAsFailure taskId exc (some r) store) = (Sig.chain ts f).descend ↔
      ReachesChord b (.chain ts f) o r := by
  obtain ⟨l, hl, -, hf⟩ := folded_of_prepareChain (freezeRule_reportRel g b) hok
  have hcount : partReturnsFor g (markAsFailure taskId exc (some r) store) =
      if b.truthy = true ∧ o = .chain ∧ endsInReporter r = true then 1 else 0 := by
    rw [partReturnsFor_markAsFailure]
    unfold ifTruthy at hb
    split at hb
    next htruthy =>
      -- the last step reports for the chain
      have hne : l ≠ [] := by
        rintro rfl
        exact hr.ne_nil hf.eq_of_nil
      obtain ⟨before, z, hsteps, hq, hz⟩ := exists_tail_of_folded hl hne hf hg hb hts
      rw [hsteps] at hr
      have hheard : Heard g o r := fails_of_tail hq hz hr
      rw [hheard]
      simp only [htruthy, true_and]
    next htruthy =>
      -- nobody reports
      have hfresh := hereditary_fresh.of_takenSteps hl hts
      have hunheard := fails_of_quiet (folded_quiet hf hb hfresh (by simp)) hr
      rw [Origin.rest_nil] at hunheard
      rw [hunheard.sum_eq_zero, if_neg fun hall => htruthy hall.1]
  rw [hcount, ReachesChord]
  split
  · rw [← descend_eq_one_iff, eq_comm]
  · rw [← descend_eq_zero_iff, eq_comm]

/-- How `_chain.run` prepares a member of the header of group `7` with body
`tsum`. -/
def inHeader : Prepare Unit where
  groupId := some 7
  chordBody := (Sig.task "tsum" {}).ifTruthy

/-- A group, whose members run for the chain that ends in it. -/
def addThenGroup : List (Sig Unit) :=
  [.task "add" {}, .group false [.task "mul" {}, .task "mul" {}] {}]

/-- The first of two tasks fails: the second, which reports for the chain, returns
the part. -/
theorem twoTasks_partReturnsFor : ∃ steps app' r,
    prepareChain inHeader [.task "add" {}, .task "mul" {}] ⟨0, 8⟩ = .ok (steps, app') ∧
    FailsIn 7 (.chain (steps.map Prod.fst) {}) [] .chain r ∧
    partReturnsFor 7 (markAsFailure 8 (.exc (.other ())) (some r)) =
      (Sig.chain [.task "add" {}, .task "mul" {}] ({} : Fields Unit (Sig Unit))).descend := by
  have hts : ∀ t ∈ [Sig.task "add" {}, Sig.task "mul" ({} : Fields Unit (Sig Unit))], Fresh t := by
    intro t ht o ho
    fin_cases ht <;> rw [List.mem_singleton.1 ho] <;> exact ⟨rfl, rfl⟩
  refine ⟨_, _, _, rfl, .first (.task _ _ _), ?_⟩
  exact (markAsFailure_partReturnsFor_iff 7 (.task "tsum" {}) inHeader _ {} rfl rfl hts _ _ _ rfl
    .chain _ (.first (.task _ _ _)) _ _ _).2 rfl

/-- `chain(add, group(mul, mul))` in the header of a chord: `add` fails, the walk
finds the chord in the options of the group and returns one part, and the chord
waits for two. -/
theorem taskThenGroup_partReturnsFor : ∃ steps app' r,
    prepareChain inHeader addThenGroup ⟨0, 8⟩ = .ok (steps, app') ∧
    FailsIn 7 (.chain (steps.map Prod.fst) {}) [] .chain r ∧
    partReturnsFor 7 (markAsFailure 8 (.exc (.other ())) (some r)) ≠
      (Sig.chain addThenGroup ({} : Fields Unit (Sig Unit))).descend := by
  refine ⟨_, _, _, rfl, .first (.task _ _ _), ?_⟩
  rw [partReturnsFor_markAsFailure]
  decide

end Backend
end Celery
