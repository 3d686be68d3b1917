/-
# What freezing does to a signature

`freeze` goes through worklists, and through itself, on fuel.  This file says
once what comes out, in a form without loops: `freeze` returns exactly on the
shapes of `Freezes`, and what it returns is in every relation that is closed
under the four rules of `FreezeRule`, one for each kind of signature
(`freeze_gives`).  `Members` is what the two ways to freeze a group do to its
members and `Folded` what `prepare_steps` makes of the steps it takes
(`prepareSteps_gives`).  Everything about frozen signatures is proved as such a
relation.
-/

import Celery.Canvas.Steps
import Celery.Library.Outcome

namespace Celery
namespace Canvas

open Sig Outcome

variable {V : Type}

/-! ### The members of a group -/

/-- A group has the property if its members have it, empty chains aside. -/
def Memberwise (Q : Shape → Prop) : Prop :=
  ∀ l ts f, Q (.group l ts f) ↔ ∀ t ∈ ts, t.isEmptyChain = false → Q t

mutual

/-- All that the worklist takes from a member has a memberwise property exactly if
the member has. -/
theorem flat_forall_iff {Q : Shape → Prop} (hQ : Memberwise Q) : ∀ s : Sig V,
    (∀ t ∈ s.flat, Q t.shape) ↔ (s.isEmptyChain = false → Q s.shape)
  | task n f => by simp [flat, isEmptyChain]
  | chain [] f => by simp [flat, isEmptyChain]
  | chain (t :: ts) f => by rw [flat]; simp [isEmptyChain]
  | chord l h hg b f => by rw [flat]; simp [isEmptyChain]
  | group l ts f => by
    have hne : (group l ts f).isEmptyChain = false := rfl
    rw [flat, flatRev_forall_iff hQ ts, shape, hQ, shapeAll_eq_map]
    simp [hne]

theorem flatRev_forall_iff {Q : Shape → Prop} (hQ : Memberwise Q) : ∀ ts : List (Sig V),
    (∀ t ∈ flatRev ts, Q t.shape) ↔ ∀ t ∈ ts, t.isEmptyChain = false → Q t.shape
  | [] => by simp [flatRev]
  | t :: ts => by
    rw [flatRev, List.forall_mem_append, flatRev_forall_iff hQ ts, flat_forall_iff hQ t,
      List.forall_mem_cons, and_comm]

end

mutual

theorem isEmptyChain_of_mem_flat : ∀ s t : Sig V, t ∈ s.flat → t.isEmptyChain = false
  | task .., t, h => by rw [flat, List.mem_singleton] at h; rw [h]; rfl
  | chain [] _, t, h => by simp [flat] at h
  | chain (_ :: _) _, t, h => by
    rw [flat, List.mem_singleton] at h
    rw [h, isEmptyChain_clone]
    rfl
  | chord .., t, h => by
    rw [flat, List.mem_singleton] at h
    rw [h, isEmptyChain_clone]
    rfl
  | group _ ts _, t, h => isEmptyChain_of_mem_flatRev ts t (by rwa [flat] at h)

theorem isEmptyChain_of_mem_flatRev : ∀ (ts : List (Sig V)) (t : Sig V),
    t ∈ flatRev ts → t.isEmptyChain = false
  | [], t, h => by simp [flatRev] at h
  | s :: ts, t, h => by
    rw [flatRev, List.mem_append] at h
    exact h.elim (isEmptyChain_of_mem_flatRev ts t) (isEmptyChain_of_mem_flat s t)

end

theorem isEmptyChain_of_mem_flatMap (ts : List (Sig V)) :
    ∀ t ∈ ts.flatMap flat, t.isEmptyChain = false := by
  intro t ht
  obtain ⟨s, -, hts⟩ := List.mem_flatMap.1 ht
  exact isEmptyChain_of_mem_flat s t hts

mutual

theorem descendGroup_flat : ∀ s : Sig V, descendGroup s.flat = s.descend
  | task .. => rfl
  | chain [] _ => rfl
  | chain (t :: ts) f => by
    rw [flat, descendGroup, descendGroup, add_zero, ← descend_shape, shape_clone, descend_shape]
  | chord l h hg b f => by
    rw [flat, descendGroup, descendGroup, add_zero, ← descend_shape, shape_clone, descend_shape]
  | group _ ts _ => by rw [flat, descend]; exact descendGroup_flatRev ts

theorem descendGroup_flatRev : ∀ ts : List (Sig V), descendGroup (flatRev ts) = descendGroup ts
  | [] => rfl
  | t :: ts => by
    rw [flatRev, descendGroup_eq_sum, List.map_append, List.sum_append, ← descendGroup_eq_sum,
      ← descendGroup_eq_sum, descendGroup_flatRev ts, descendGroup_flat t, descendGroup, add_comm]

end

theorem flatMap_forall_iff {Q : Shape → Prop} (hQ : Memberwise Q) (ts : List (Sig V)) :
    (∀ t ∈ ts.flatMap flat, Q t.shape) ↔ ∀ t ∈ ts, t.isEmptyChain = false → Q t.shape := by
  have := flatRev_forall_iff hQ ts.reverse
  rw [flatRev_eq_flatMap, List.reverse_reverse] at this
  rw [this]
  simp

theorem members_forall_iff {Q : Shape → Prop} (hQ : Memberwise Q) (l : Bool) (ts : List (Sig V))
    (f : Fields V (Sig V)) :
    (∀ t ∈ ts, t.isEmptyChain = false → Q t.shape) ↔ Q (Sig.group l ts f).shape := by
  rw [shape, hQ, shapeAll_eq_map]
  simp

/-- The members that a group freezes one by one: those of a list are flattened,
those of a generator stay where they are. -/
def memberList (lazy : Bool) (ts : List (Sig V)) : List (Sig V) :=
  if lazy then ts.map clone else ts.flatMap flat

theorem memberList_forall_iff {Q : Shape → Prop} (hQ : Memberwise Q) (lazy : Bool)
    (ts : List (Sig V)) :
    (∀ t ∈ memberList lazy ts, t.isEmptyChain = false → Q t.shape) ↔
      ∀ t ∈ ts, t.isEmptyChain = false → Q t.shape := by
  unfold memberList
  split_ifs
  · simp [isEmptyChain_clone]
  · have hne : ∀ t ∈ ts.flatMap flat, t.isEmptyChain = false := isEmptyChain_of_mem_flatMap ts
    rw [← flatMap_forall_iff hQ ts]
    exact ⟨fun h t ht => h t ht (hne t ht), fun h t ht _ => h t ht⟩

theorem leavesAll_memberList_perm (lazy : Bool) (ts : List (Sig V)) :
    (leavesAll (memberList lazy ts)).Perm (leavesAll ts) := by
  unfold memberList
  split_ifs
  · rw [← cloneAll_eq_map, leavesAll_cloneAll]
  · have := leavesAll_flatRev_perm ts.reverse
    rw [flatRev_eq_flatMap, List.reverse_reverse] at this
    refine this.trans ?_
    rw [leavesAll_eq_flatMap, leavesAll_eq_flatMap]
    exact ts.reverse_perm.flatMap_right _

theorem descendGroup_memberList (lazy : Bool) (ts : List (Sig V)) :
    descendGroup (memberList lazy ts) = descendGroup ts := by
  unfold memberList
  split_ifs
  · rw [← cloneAll_eq_map, ← (descend_shapeAll _).1, shapeAll_cloneAll, (descend_shapeAll _).1]
  · have := descendGroup_flatRev ts.reverse
    rw [flatRev_eq_flatMap, List.reverse_reverse] at this
    rw [this, descendGroup_eq_sum, descendGroup_eq_sum, List.map_reverse, List.sum_reverse]

/-! ### The rules -/

section Rules

variable (R : FreezeArgs V → Sig V → Sig V → Prop)

/-- A member of a group and what it is frozen to. -/
def MemberRel (p : FreezeArgs V) (t t' : Sig V) : Prop :=
  ∃ i, R { p with groupIndex := some i } t t'

/-- The members of a group and what they are frozen to.  An empty chain is left
alone. -/
def Members (p : FreezeArgs V) (lazy : Bool) (ts ts' : List (Sig V)) : Prop :=
  List.Forall₂ (fun t t' => if t.isEmptyChain then t' = t else MemberRel R p t t')
    (memberList lazy ts) ts'

/-- A chord frozen with the body `b'`. -/
def HeaderRel (p : FreezeArgs V) (l : Bool) (h : List (Sig V))
    (hg : Option (Options V (Sig V))) (truthy : Bool) (b' : Sig V) (f : Fields V (Sig V))
    (s' : Sig V) : Prop :=
  ∃ h' gid,
    let q : FreezeArgs V := { rootId := p.rootId, parentId := p.parentId,
                              chord := if truthy then some b' else none }
    Members R (q.member (hg.getD {})) l h h' ∧
    s' = .chord l h' (some (q.groupOptions (hg.getD {}) gid)) b'
      { f with options := { f.options with taskId := some gid } }

/-- What `prepare_steps` makes of the steps it takes: from the steps still to be
frozen, the last one first, and those prepared, to all. -/
inductive Folded (c : Prepare V) : List (Sig V) → List (Sig V) → List (Sig V) → Prop
  | nil (steps : List (Sig V)) : Folded c [] steps steps
  | last {t t' : Sig V} {ts steps : List (Sig V)} (ht : R c.lastArgs t t')
      (hts : Folded c ts [t'] steps) : Folded c (t :: ts) [] steps
  | upgrade {l : Bool} {us ts prevs steps : List (Sig V)} {f : Fields V (Sig V)} {prev t' : Sig V}
      (hprev : prev.truthy = true)
      (ht : HeaderRel R { rootId := c.rootId } l us none true prev
        { options := { rootId := some c.rootId } } t')
      (hts : Folded c ts (t' :: prevs) steps) :
      Folded c (.group l us f :: ts) (prev :: prevs) steps
  | step {t t' prev : Sig V} {ts prevs steps : List (Sig V)}
      (hprev : (t.isGroup && prev.truthy) = false) (ht : R { rootId := c.rootId } t t')
      (hts : Folded c ts (t' :: prev :: prevs) steps) : Folded c (t :: ts) (prev :: prevs) steps

/-- How `_chain.freeze` calls `prepare_steps`. -/
def FreezeArgs.prepare (p : FreezeArgs V) (f : Fields V (Sig V)) : Prepare V where
  clone := false
  args := f.args
  kwargs := f.kwargs
  lastTaskId := p.id
  rootId := p.rootId
  groupId := p.groupId
  chordBody := p.chord
  groupIndex := p.groupIndex

/-- A relation between a signature, frozen with `p`, and the outcome, closed under
what `freeze` does to each kind of signature. -/
structure FreezeRule : Prop where
  task : ∀ p n f tid oid,
    R p (.task n f) (.task n { f with options := p.taskOptions f.options tid oid })
  group : ∀ p l ts f ts' gid, Members R (p.member f.options) l ts ts' →
    R p (.group l ts f) (.group l ts' { f with options := p.groupOptions f.options gid })
  chord : ∀ p l h hg b f b' s', R { p with parentId := none } b b' →
    HeaderRel R p l h hg b.truthy b' f s' → R p (.chord l h hg b f) s'
  chain : ∀ p ts f l steps tid, takenSteps (p.prepare f) ts = .ok l → l ≠ [] →
    Folded R (p.prepare f) l [] steps →
    R p (.chain ts f) (.chain steps { f with options := { f.options with taskId := some tid } })

variable {R} {S : FreezeArgs V → Sig V → Sig V → Prop}

theorem MemberRel.imp (h : ∀ p s s', R p s s' → S p s s') {p : FreezeArgs V} {t t' : Sig V} :
    MemberRel R p t t' → MemberRel S p t t' := by
  rintro ⟨i, hi⟩
  exact ⟨i, h _ _ _ hi⟩

theorem Members.imp (h : ∀ p s s', R p s s' → S p s s') {p : FreezeArgs V} {lazy : Bool}
    {ts ts' : List (Sig V)} (hm : Members R p lazy ts ts') : Members S p lazy ts ts' := by
  refine List.Forall₂.imp (fun t t' ht => ?_) hm
  split_ifs at ht ⊢
  · exact ht
  · exact ht.imp h

/-- Every member of a frozen group comes from one that it freezes. -/
theorem Members.exists_of_mem {p : FreezeArgs V} {lazy : Bool} {ts ts' : List (Sig V)}
    (hm : Members R p lazy ts ts') {t' : Sig V} (ht' : t' ∈ ts') :
    ∃ t ∈ memberList lazy ts, if t.isEmptyChain then t' = t else MemberRel R p t t' := by
  unfold Members at hm
  generalize memberList lazy ts = us at hm ⊢
  induction hm with
  | nil => cases ht'
  | cons hr _ ih =>
    rcases List.mem_cons.1 ht' with rfl | ht'
    · exact ⟨_, List.mem_cons_self, hr⟩
    · obtain ⟨t, ht, htr⟩ := ih ht'
      exact ⟨t, List.mem_cons_of_mem _ ht, htr⟩

/-- A frozen group is true if something is left of its members. -/
theorem Members.truthy_eq {p : FreezeArgs V} {lazy : Bool} {ts ts' : List (Sig V)}
    (hm : Members R p lazy ts ts') (f f' : Fields V (Sig V)) :
    (Sig.group lazy ts' f').truthy = (Sig.group lazy ts f).staysTruthy := by
  have hlen := hm.length_eq
  rw [truthy]
  cases lazy with
  | true =>
    rw [memberList, if_pos rfl, List.length_map] at hlen
    rw [staysTruthy]
    cases ts <;> cases ts' <;> first | rfl | cases hlen
  | false =>
    rw [memberList, if_neg Bool.false_ne_true] at hlen
    have hnil := flatRev_eq_nil_iff ts.reverse
    rw [flatRev_eq_flatMap, List.reverse_reverse, bearingAny_eq_any, List.any_reverse,
      ← bearingAny_eq_any] at hnil
    rw [staysTruthy]
    cases hb : bearingAny ts with
    | false =>
      rw [hnil.2 hb, List.length_nil, eq_comm, List.length_eq_zero_iff] at hlen
      rw [hlen]
      rfl
    | true =>
      have : ts' ≠ [] := by
        rintro rfl
        rw [hnil.1 (List.length_eq_zero_iff.1 hlen)] at hb
        cases hb
      simpa using this

theorem HeaderRel.imp (h : ∀ p s s', R p s s' → S p s s') {p : FreezeArgs V} {l : Bool}
    {hd : List (Sig V)} {hg : Option (Options V (Sig V))} {truthy : Bool} {b' s' : Sig V}
    {f : Fields V (Sig V)} (hm : HeaderRel R p l hd hg truthy b' f s') :
    HeaderRel S p l hd hg truthy b' f s' := by
  obtain ⟨h', gid, hmem, hs'⟩ := hm
  exact ⟨h', gid, hmem.imp h, hs'⟩

theorem Folded.imp (h : ∀ p s s', R p s s' → S p s s') {c : Prepare V}
    {l prevs steps : List (Sig V)} (hf : Folded R c l prevs steps) : Folded S c l prevs steps := by
  induction hf with
  | nil steps => exact .nil steps
  | last ht _ ih => exact .last (h _ _ _ ht) ih
  | upgrade hprev ht _ ih => exact .upgrade hprev (ht.imp h) ih
  | step hprev ht _ ih => exact .step hprev (h _ _ _ ht) ih

end Rules

/-! ### The loops -/

theorem getDM_uuid_gives (o : Option TaskId) : GivesIff True (o.getDM uuid) fun _ => True := by
  refine ⟨fun _ app => ?_, fun h => absurd trivial h⟩
  cases o with
  | none => exact ⟨_, _, rfl, trivial⟩
  | some i => exact ⟨i, app, rfl, trivial⟩

theorem freezeTask_gives (p : FreezeArgs V) (n : String) (f : Fields V (Sig V)) :
    GivesIff True (freezeTask p n f) fun r =>
      ∃ tid oid, r.1 = .task n { f with options := p.taskOptions f.options tid oid } := by
  have hget : GivesIff True (get : FreezeM App) fun _ => True :=
    ⟨fun _ app => ⟨app, app, rfl, trivial⟩, fun h => absurd trivial h⟩
  refine ((getDM_uuid_gives _).bind fun _ tid _ => hget.bind fun _ app _ =>
    GivesIff.pure ⟨tid, app.threadOid, rfl⟩).congr (by simp) fun _ r hr => hr

section Loops

variable {R : FreezeArgs V → Sig V → Sig V → Prop} {fr : Freezer V} {N : ℕ}

/-- What is known of `freeze` on lighter signatures. -/
def Good (R : FreezeArgs V → Sig V → Sig V → Prop) (fr : Freezer V) (N : ℕ) : Prop :=
  ∀ p s, s.weight ≤ N → GivesIff (Freezes s.shape) (fr p s) fun r => R p s r.1

theorem freezeTasks_gives (hfr : Good R fr N) (p : FreezeArgs V) (ts : List (Sig V)) (i : ℕ)
    (hN : weightAll ts ≤ N) :
    GivesIff (∀ t ∈ ts, t.isEmptyChain = false → Freezes t.shape) (freezeTasks fr p ts i) fun r =>
      Members R p true ts r.1 := by
  induction ts generalizing i with
  | nil =>
    exact (GivesIff.pure (by simp [Members, memberList])).congr (by simp) fun _ _ h => h
  | cons t ts ih =>
    rw [weightAll] at hN
    rw [freezeTasks]
    cases ht : t.isEmptyChain with
    | true =>
      have htc : t.clone.isEmptyChain = true := by rw [isEmptyChain_clone, ht]
      simp only [htc, if_true]
      refine ((ih (i + 1) (by omega)).bind fun _ r hr => GivesIff.pure ?_).congr ?_ fun _ r h => h
      · simp only [Members, memberList, if_true, List.map_cons, List.forall₂_cons, htc,
          true_and] at hr ⊢
        exact hr
      · simp [ht]
    | false =>
      have htc : t.clone.isEmptyChain = false := by rw [isEmptyChain_clone, ht]
      simp only [htc, Bool.false_eq_true, if_false]
      have hw : t.clone.weight ≤ N := by
        rw [weight_of_shape_eq t.shape_clone]
        omega
      refine ((hfr _ _ hw).bind fun _ r hr => (ih (i + 1) (by omega)).bind fun _ rs hrs =>
        GivesIff.pure ?_).congr ?_ fun _ r h => h
      · simp only [Members, memberList, if_true, List.map_cons, List.forall₂_cons, htc,
          Bool.false_eq_true, if_false] at hrs ⊢
        exact ⟨⟨i, hr⟩, hrs⟩
      · simp [ht]

theorem freezeUnroll_gives (hfr : Good R fr N) (p : FreezeArgs V) (n : ℕ) (stack : List (Sig V))
    (i : ℕ) (hn : weightAll stack ≤ n) (hN : weightAll stack ≤ N) :
    GivesIff (∀ t ∈ stack.flatMap flat, Freezes t.shape) (freezeUnroll fr p n stack i) fun steps =>
      List.Forall₂ (MemberRel R p) (stack.flatMap flat) (steps.map Prod.fst) := by
  induction n generalizing stack i with
  | zero =>
    cases stack with
    | nil => exact (GivesIff.pure (by simp)).congr (by simp) fun _ _ h => h
    | cons s stack =>
      have := s.weight_pos
      rw [weightAll] at hn
      omega
  | succ n ih =>
    cases stack with
    | nil => exact (GivesIff.pure (by simp)).congr (by simp) fun _ _ h => h
    | cons s stack =>
      have hpos := s.weight_pos
      rw [weightAll] at hn hN
      -- a member that is frozen on its own
      have hone : ∀ t : Sig V, s.flat = [t] → t.weight ≤ N →
          GivesIff (∀ t ∈ (s :: stack).flatMap flat, Freezes t.shape)
            (do
              let step ← fr { p with groupIndex := some i } t
              let steps ← freezeUnroll fr p n stack (i + 1)
              pure (step :: steps))
            fun steps => List.Forall₂ (MemberRel R p) ((s :: stack).flatMap flat)
              (steps.map Prod.fst) := by
        intro t hflat hw
        refine ((hfr _ _ hw).bind fun _ r hr =>
          (ih stack (i + 1) (by omega) (by omega)).bind fun _ rs hrs =>
            GivesIff.pure ?_).congr ?_ fun _ r h => h
        · rw [List.flatMap_cons, hflat]
          exact List.Forall₂.cons ⟨i, hr⟩ hrs
        · rw [List.flatMap_cons, hflat]
          simp
      have hwc : s.clone.weight ≤ N := by
        rw [weight_of_shape_eq s.shape_clone]
        omega
      match s with
      | .task m f => exact hone _ rfl hwc
      | .chord l h hg b f =>
        have := hone _ rfl hwc
        cases hg <;> exact this
      | .chain [] f => exact ih stack i (by omega) (by omega)
      | .chain (t :: ts) f => exact hone _ rfl hwc
      | .group l ts f =>
        rw [weight] at hn hN hpos
        have := ih (ts.reverse ++ stack) i (by rw [weightAll_append, weightAll_reverse]; omega)
          (by rw [weightAll_append, weightAll_reverse]; omega)
        rw [List.flatMap_append, ← flatRev_eq_flatMap] at this
        rw [List.flatMap_cons, flat]
        exact this

theorem memberwise_freezes : Memberwise Freezes := by
  intro l ts f
  constructor
  · intro h
    cases h with
    | group _ _ _ hall => exact hall
  · exact .group l ts f

theorem freezeGroupTasks_gives (hfr : Good R fr N) (p : FreezeArgs V) (l : Bool)
    (ts : List (Sig V)) (o : Options V (Sig V)) (hN : weightAll ts ≤ N) :
    GivesIff (∀ t ∈ ts, t.isEmptyChain = false → Freezes t.shape) (freezeGroupTasks fr p l ts o)
      fun r => (∃ gid, r.1 = p.groupOptions o gid) ∧ Members R (p.member o) l ts r.2.1 := by
  rw [freezeGroupTasks]
  refine ((getDM_uuid_gives _).bind fun _ gid _ => ?_).congr (by rw [true_and]) fun _ r h => h
  cases l with
  | true =>
    refine ((freezeTasks_gives hfr (p.member o) ts 0 hN).bind fun _ r hr =>
      GivesIff.pure ⟨⟨gid, rfl⟩, hr⟩).congr (by rw [and_true]) fun _ r h => h
  | false =>
    refine ((freezeUnroll_gives hfr (p.member o) _ ts 0 le_rfl hN).bind fun _ r hr =>
      GivesIff.pure ⟨⟨gid, rfl⟩, ?_⟩).congr ?_ fun _ r h => h
    · rw [and_true, flatMap_forall_iff memberwise_freezes]
    · have hne := isEmptyChain_of_mem_flatMap ts
      rw [Members, memberList, if_neg Bool.false_ne_true]
      refine ((List.forall₂_and_left _ _).2 ⟨hne, hr⟩).imp fun t t' ht => ?_
      rw [if_neg (by rw [ht.1]; exact Bool.false_ne_true)]
      exact ht.2

theorem freezeHeader_gives (hfr : Good R fr N) (p : FreezeArgs V) (l : Bool) (h : List (Sig V))
    (hg : Option (Options V (Sig V))) (truthy : Bool) (b' : Sig V) (f : Fields V (Sig V))
    (hN : weightAll h ≤ N) :
    GivesIff (∀ t ∈ h, t.isEmptyChain = false → Freezes t.shape)
      (freezeHeader fr p l h hg truthy b' f) fun s' => HeaderRel R p l h hg truthy b' f s' := by
  refine ((freezeGroupTasks_gives hfr _ l h _ hN).bind fun _ r hr => ?_).congr
    (by rw [and_true]) fun _ r h => h
  obtain ⟨⟨gid, hgid⟩, hm⟩ := hr
  refine GivesIff.pure ⟨r.2.1, gid, hm, ?_⟩
  rw [hgid]
  rfl

theorem freezeStep_gives (hfr : Good R fr N) (htr : ∀ p s s', R p s s' → s'.truthy = s.staysTruthy)
    (c : Prepare V) (t : Sig V) (steps : Steps V) (hN : t.weight ≤ N) :
    GivesIff (Freezes t.shape) (freezeStep fr c t steps) fun steps' =>
      prevTruthy steps' = (prevTruthy steps || t.staysTruthy) ∧
      ∀ ts out, Folded R c ts (steps'.map Prod.fst) out →
        Folded R c (t :: ts) (steps.map Prod.fst) out := by
  cases steps with
  | nil =>
    refine ((hfr _ _ hN).bind fun _ r hr => GivesIff.pure ⟨?_, fun ts out h => .last hr h⟩).congr
      (by rw [and_true]) fun _ r h => h
    simp [prevTruthy, htr _ _ _ hr]
  | cons prev steps =>
    obtain ⟨prev, res⟩ := prev
    by_cases hup : (t.isGroup && prev.truthy) = true
    · rw [Bool.and_eq_true] at hup
      cases t with
      | group l us f =>
        rw [weight] at hN
        have hhead := freezeHeader_gives hfr { rootId := c.rootId } l us none true prev
          { options := { rootId := some c.rootId } } (by omega)
        rw [members_forall_iff memberwise_freezes l us f] at hhead
        simp only [freezeStep, hup.2]
        refine (hhead.bind fun _ r hr => GivesIff.pure
          ⟨?_, fun ts out h => .upgrade hup.2 hr h⟩).congr (by rw [and_true]) fun _ r h => h
        obtain ⟨h', gid, -, rfl⟩ := hr
        show true = (prev.truthy || staysTruthy _)
        rw [hup.2, Bool.true_or]
      | _ => cases hup.1
    · rw [Bool.not_eq_true] at hup
      have hplain : freezeStep fr c t ((prev, res) :: steps) = (do
          let step ← fr { rootId := c.rootId } t
          pure (step :: (prev, res) :: steps)) := by
        rw [freezeStep]
        rintro l us f rfl htr
        rw [htr] at hup
        cases hup
      rw [hplain]
      refine ((hfr _ _ hN).bind fun _ r hr => GivesIff.pure
        ⟨?_, fun ts out h => .step hup hr h⟩).congr (by rw [and_true]) fun _ r h => h
      have hr := htr _ _ _ hr
      have hkeep : prev.truthy = true → t.staysTruthy = true := by
        intro hp
        rw [hp, Bool.and_true] at hup
        cases t with
        | group l us f => cases hup
        | _ => rfl
      cases hp : prev.truthy with
      | false => simp [prevTruthy, hr, hp]
      | true => simp [prevTruthy, hr, hp, hkeep hp]

/-- **The second loop of `prepare_steps`**: it returns exactly if every step it
takes freezes. -/
theorem prepareLoop_gives (hfr : Good R fr N) (htr : ∀ p s s', R p s s' → s'.truthy = s.staysTruthy)
    {c : Prepare V} {n : ℕ} {prev : Bool} {st l : List (Sig V)} {steps : Steps V}
    (hN : weightAll st ≤ N) (hl : taken c n prev st = .ok l) (hprev : prevTruthy steps = prev) :
    GivesIff (∀ t ∈ l, Freezes t.shape) (prepareLoop fr c n st steps) fun out =>
      Folded R c l (steps.map Prod.fst) (out.map Prod.fst) := by
  induction n generalizing prev st l steps with
  | zero =>
    cases st with
    | nil =>
      cases hl
      exact (GivesIff.pure (.nil _)).congr (by simp) fun _ _ h => h
    | cons s st => cases hl
  | succ n ih =>
    cases st with
    | nil =>
      cases hl
      exact (GivesIff.pure (.nil _)).congr (by simp) fun _ _ h => h
    | cons s st =>
      rw [weightAll] at hN
      subst hprev
      rw [prepareLoop]
      rcases taken_cons_ok hl with
        ⟨hs, hl⟩ | ⟨hs, ⟨ts, f, hr, hl⟩ | ⟨t, rest, hr, hch, hrest, rfl⟩⟩
      · rw [skipped] at hs
        simp only [hs, if_true]
        exact ih (by omega) hl rfl
      · have hw := c.weight_of_receive hr
        rw [weight] at hw
        rw [skipped] at hs
        simp only [hs, Bool.false_eq_true, if_false, hr]
        exact ih (by rw [weightAll_append, weightAll_reverse]; omega) hl rfl
      · have hw := c.weight_of_receive hr
        have hstep := ((freezeStep_gives hfr htr c t steps (by omega)).bind
          fun _ steps' hst => (ih (by omega) hrest hst.1).congr Iff.rfl fun _ out hout =>
            hst.2 rest _ hout).congr
          (List.forall_mem_cons (p := fun u : Sig V => Freezes u.shape)).symm fun _ _ h => h
        rw [skipped] at hs
        simp only [hs, Bool.false_eq_true, if_false, hr]
        cases t with
        | chain ts f => cases hch
        | _ => exact hstep

/-- Where the arguments cannot be received `prepare_steps` raises, if not
earlier. -/
theorem prepareLoop_fails (hfr : Good R fr N) (htr : ∀ p s s', R p s s' → s'.truthy = s.staysTruthy)
    {c : Prepare V} {n : ℕ} {prev : Bool} {st : List (Sig V)} {e : PyError} {steps : Steps V}
    (hN : weightAll st ≤ N) (he : taken c n prev st = .error e) (hprev : prevTruthy steps = prev) :
    Fails (prepareLoop fr c n st steps) := by
  induction n generalizing prev st steps with
  | zero =>
    cases st with
    | nil => cases he
    | cons s st => exact fun app => ⟨_, rfl⟩
  | succ n ih =>
    cases st with
    | nil => cases he
    | cons s st =>
      rw [weightAll] at hN
      subst hprev
      rw [prepareLoop]
      cases hs : skipped (prevTruthy steps) s st with
      | true =>
        rw [taken_skip hs] at he
        rw [skipped] at hs
        simp only [hs, if_true]
        exact ih (by omega) he rfl
      | false =>
        have hs' := hs
        rw [skipped] at hs'
        simp only [hs', Bool.false_eq_true, if_false]
        cases hr : c.receive st.isEmpty s.maybeUnrollGroup with
        | error e => exact fun app => ⟨e, rfl⟩
        | ok t =>
          have hw := c.weight_of_receive hr
          by_cases ht : t.isChain
          · cases t with
            | chain ts f =>
              rw [taken_splice hs hr] at he
              rw [weight] at hw
              exact ih (by rw [weightAll_append, weightAll_reverse]; omega) he rfl
            | _ => cases ht
          · rw [Bool.not_eq_true] at ht
            rw [taken_take hs hr ht] at he
            have he : taken c n (prevTruthy steps || t.staysTruthy) st = .error e := by
              cases hrest : taken c n (prevTruthy steps || t.staysTruthy) st with
              | error e' => rw [hrest] at he; cases he; rfl
              | ok rest => rw [hrest] at he; cases he
            have hstep : Fails (freezeStep fr c t steps >>= prepareLoop fr c n st) := by
              by_cases hf : Freezes t.shape
              · exact ((freezeStep_gives hfr htr c t steps (by omega)).gives hf).bind_fails
                  fun steps' hst => ih (by omega) he hst.1
              · exact ((freezeStep_gives hfr htr c t steps (by omega)).fails hf).bind
            cases t with
            | chain ts f => cases ht
            | _ => exact hstep

/-- **`prepare_steps` returns exactly if every step it takes freezes.** -/
theorem prepareSteps_gives (hfr : Good R fr N)
    (htr : ∀ p s s', R p s s' → s'.truthy = s.staysTruthy) {c : Prepare V} {ts l : List (Sig V)}
    (hN : weightAll ts ≤ N) (hl : takenSteps c ts = .ok l) :
    GivesIff (∀ t ∈ l, Freezes t.shape) (prepareSteps fr c ts) fun out =>
      Folded R c l [] (out.map Prod.fst) := by
  refine prepareLoop_gives hfr htr ?_ hl rfl
  rw [weightAll_reverse]
  exact (weightAll_normaliseHead_le _ _ ts).trans hN

theorem prepareSteps_fails (hfr : Good R fr N)
    (htr : ∀ p s s', R p s s' → s'.truthy = s.staysTruthy) {c : Prepare V} {ts : List (Sig V)}
    {e : PyError} (hN : weightAll ts ≤ N) (he : takenSteps c ts = .error e) :
    Fails (prepareSteps fr c ts) := by
  refine prepareLoop_fails hfr htr ?_ he rfl
  rw [weightAll_reverse]
  exact (weightAll_normaliseHead_le _ _ ts).trans hN

theorem Folded.ne_nil {c : Prepare V} {l prevs steps : List (Sig V)}
    (hf : Folded R c l prevs steps) (h : l ≠ [] ∨ prevs ≠ []) : steps ≠ [] := by
  induction hf with
  | nil steps => exact h.resolve_left fun hne => hne rfl
  | last _ _ ih => exact ih (.inr (List.cons_ne_nil _ _))
  | upgrade _ _ _ ih => exact ih (.inr (List.cons_ne_nil _ _))
  | step _ _ _ ih => exact ih (.inr (List.cons_ne_nil _ _))

theorem Folded.eq_of_nil {c : Prepare V} {prevs steps : List (Sig V)}
    (hf : Folded R c [] prevs steps) : steps = prevs := by
  cases hf
  rfl

theorem freezes_chain_iff {c : Prepare V} {ts l : List (Sig V)} {f : Fields Unit Shape}
    (hl : takenSteps c ts = .ok l) :
    Freezes (.chain (shapeAll ts) f) ↔ (∀ t ∈ l, Freezes t.shape) ∧ l ≠ [] := by
  have hsurv := survivors_of_takenSteps hl
  constructor
  · intro h
    cases h with
    | chain _ _ hne hall =>
      rw [hsurv] at hne hall
      exact ⟨fun t ht => hall _ (List.mem_map_of_mem ht), by simpa using hne⟩
  · rintro ⟨hall, hne⟩
    refine .chain _ _ (by rw [hsurv]; simpa using hne) fun t ht => ?_
    rw [hsurv] at ht
    obtain ⟨u, hu, rfl⟩ := List.mem_map.1 ht
    exact hall u hu

theorem freezeChain_gives (hfr : Good R fr N)
    (htr : ∀ p s s', R p s s' → s'.truthy = s.staysTruthy) (p : FreezeArgs V) (ts : List (Sig V))
    (f : Fields V (Sig V)) (hN : weightAll ts ≤ N) :
    GivesIff (Freezes (Sig.chain ts f).shape) (freezeChain fr p ts f) fun r =>
      ∃ l steps tid, takenSteps (p.prepare f) ts = .ok l ∧ l ≠ [] ∧
        Folded R (p.prepare f) l [] steps ∧
        r.1 = .chain steps { f with options := { f.options with taskId := some tid } } := by
  obtain ⟨l, hl⟩ := takenSteps_ok (c := p.prepare f) rfl ts
  have hfreezes : Freezes (Sig.chain ts f).shape ↔ (∀ t ∈ l, Freezes t.shape) ∧ l ≠ [] :=
    freezes_chain_iff hl
  refine ((prepareSteps_gives hfr htr hN hl).bind fun hall out hout => ?_).congr hfreezes.symm
    fun _ r h => h
  cases hout' : out.getLast? with
  | none =>
    rw [List.getLast?_eq_none_iff] at hout'
    subst hout'
    exact GivesIff.raise fun hne => hout.ne_nil (.inl hne) rfl
  | some last =>
    have hne : l ≠ [] := by
      rintro rfl
      rw [List.map_eq_nil_iff.1 hout.eq_of_nil] at hout'
      cases hout'
    refine (GivesIff.pure ?_).congr (iff_of_true trivial hne) fun _ _ h => h
    exact ⟨l, _, last.2.id, hl, hne, hout, rfl⟩

end Loops

/-- **What freezing does**, as far as a relation can tell: with fuel for its
weight a signature is frozen, if its shape is in `Freezes`, to something in every
relation that keeps the rules; otherwise `freeze` raises. -/
theorem freezeFuel_gives {R : FreezeArgs V → Sig V → Sig V → Prop} (hR : FreezeRule R) (n : ℕ) :
    Good (fun p s s' => R p s s' ∧ s'.truthy = s.staysTruthy) (freezeFuel n) n := by
  have himp : ∀ p s s', (R p s s' ∧ s'.truthy = s.staysTruthy) → R p s s' := fun _ _ _ h => h.1
  induction n with
  | zero =>
    intro p s hw
    have := s.weight_pos
    omega
  | succ n ih =>
    intro p s hw
    cases s with
    | task m f =>
      refine (freezeTask_gives p m f).congr (iff_of_true trivial (.task _ _)) ?_
      rintro - r ⟨tid, oid, hr⟩
      rw [hr]
      exact ⟨hR.task p m f tid oid, rfl⟩
    | chain ts f =>
      rw [weight] at hw
      refine (freezeChain_gives ih (fun _ _ _ h => h.2) p ts f (by omega)).congr Iff.rfl ?_
      rintro - r ⟨l, steps, tid, hl, hne, hfold, hr⟩
      rw [hr]
      exact ⟨hR.chain p ts f l steps tid hl hne (hfold.imp himp), rfl⟩
    | group l ts f =>
      rw [weight] at hw
      refine ((freezeGroupTasks_gives ih p l ts f.options (by omega)).bind fun _ r hr =>
        GivesIff.pure ?_).congr (by rw [and_true, members_forall_iff memberwise_freezes l ts f]) fun _ r h => h
      obtain ⟨⟨gid, hgid⟩, hm⟩ := hr
      rw [hgid]
      exact ⟨hR.group p l ts f _ gid (hm.imp himp), hm.truthy_eq _ _⟩
    | chord l h hg b f =>
      rw [weight] at hw
      have hcond : (Freezes b.shape ∧ ∀ t ∈ h, t.isEmptyChain = false → Freezes t.shape) ↔
          Freezes (Sig.chord l h hg b f).shape := by
        rw [shape]
        constructor
        · rintro ⟨hb, hh⟩
          refine .chord _ _ _ _ _ (fun t ht => ?_) hb
          rw [shapeAll_eq_map] at ht
          obtain ⟨u, hu, rfl⟩ := List.mem_map.1 ht
          rw [isEmptyChain_shape]
          exact hh u hu
        · intro hc
          cases hc with
          | chord _ _ _ _ _ hh hb =>
            rw [shapeAll_eq_map] at hh
            exact ⟨hb, fun t ht hne => hh _ (List.mem_map_of_mem ht) (by rwa [isEmptyChain_shape])⟩
      refine ((ih { p with parentId := none } b (by omega)).bind fun _ r hr =>
        ((freezeHeader_gives ih p l h hg b.truthy r.1 f (by omega)).bind fun _ s' hs' =>
          GivesIff.pure ?_).congr (by rw [and_true]) fun _ _ h => h).congr hcond fun _ _ h => h
      refine ⟨hR.chord p l h hg b f r.1 s' hr.1 (hs'.imp himp), ?_⟩
      obtain ⟨h', gid, -, rfl⟩ := hs'
      rfl

/-- **What `sig.freeze(...)` does.** -/
theorem freeze_gives {R : FreezeArgs V → Sig V → Sig V → Prop} (hR : FreezeRule R)
    (p : FreezeArgs V) (s : Sig V) :
    GivesIff (Freezes s.shape) (freeze p s) fun r => R p s r.1 :=
  (freezeFuel_gives hR s.weight p s le_rfl).congr Iff.rfl fun _ _ h => h.1

/-- **What `prepare_steps` does** with steps it can take. -/
theorem prepareChain_gives {R : FreezeArgs V → Sig V → Sig V → Prop} (hR : FreezeRule R)
    {c : Prepare V} {ts l : List (Sig V)} (hl : takenSteps c ts = .ok l) :
    GivesIff (∀ t ∈ l, Freezes t.shape) (prepareChain c ts) fun out =>
      Folded R c l [] (out.map Prod.fst) :=
  (prepareSteps_gives (freezeFuel_gives hR (weightAll ts)) (fun _ _ _ h => h.2) le_rfl hl).congr
    Iff.rfl fun _ _ hf => hf.imp fun _ _ _ h => h.1

/-- **What `prepare_steps` returns.** -/
theorem folded_of_prepareChain {R : FreezeArgs V → Sig V → Sig V → Prop} (hR : FreezeRule R)
    {c : Prepare V} {ts : List (Sig V)} {app app' : App} {steps : Steps V}
    (hok : prepareChain c ts app = .ok (steps, app')) :
    ∃ l, takenSteps c ts = .ok l ∧ (∀ t ∈ l, Freezes t.shape) ∧
      Folded R c l [] (steps.map Prod.fst) := by
  cases hl : takenSteps c ts with
  | error e =>
    obtain ⟨e', he⟩ := prepareSteps_fails (freezeFuel_gives hR (weightAll ts)) (fun _ _ _ h => h.2)
      le_rfl hl app
    rw [prepareChain, he] at hok
    cases hok
  | ok l =>
    have hgives := prepareChain_gives hR hl
    have hall : ∀ t ∈ l, Freezes t.shape := by
      by_contra hall
      obtain ⟨e, he⟩ := hgives.fails hall app
      rw [he] at hok
      cases hok
    obtain ⟨steps', app'', hok', hf⟩ := hgives.gives hall app
    rw [hok'] at hok
    cases hok
    exact ⟨l, rfl, hall, hf⟩

end Canvas
end Celery
