/-
# The size of a chord and the tasks that report to it

`group._apply_tasks` adds `_descend` of each header member to the number of parts
the backend waits for (`celery/canvas.py`, lines 1854-1870), and it is `freeze`
that tells tasks to report, by the `group_id` and the `chord` in their options.
The two agree, one tagged task for each part, exactly on the signatures of
`Counted` (`freeze_tagCount_eq_descend_iff`).

They differ on chains.  `_descend` takes the last element with a part in it, and
`freeze` tags the last step that survives; an element may survive without a part,
such as a group of empty groups or a chord with an empty group as its body.  Then
the chord waits for a part of a task that was never told to report.  A chain of
which no step survives cannot be frozen at all.
-/

import Celery.Canvas.Rules
import Mathlib.Tactic.FinCases

namespace Celery
namespace Canvas

open Sig Outcome

variable {V : Type}

open Classical in
/-- The tasks in a signature that carry `group_id=g` and `chord=b`. -/
noncomputable def tagCount (g : TaskId) (b : Sig V) (s : Sig V) : ℕ :=
  (leafOptions s).countP fun o => decide (o.groupId = some g ∧ o.chord = some b)

/-- A signature that has not been frozen: none of its tasks reports anywhere. -/
def Unfrozen (s : Sig V) : Prop := ∀ o ∈ leafOptions s, o.groupId = none ∧ o.chord = none

/-- None of the tasks is in a group. -/
def Ungrouped (s : Sig V) : Prop := ∀ o ∈ leafOptions s, o.groupId = none

/-- **Where the tags agree with the count.**  All but the chains only pass it on.
The last step of a chain to survive has to be the one `_descend` counts: nothing
may report in it only if nothing reports in the chain. -/
inductive Counted : Shape → Prop
  | task (name : String) (f : Fields Unit Shape) : Counted (.task name f)
  | chain (ts rest : List Shape) (t : Shape) (f : Fields Unit Shape)
      (hlast : survivors ts = t :: rest) (ht : Counted t)
      (hsilent : t.silent = true → silentAll ts = true) : Counted (.chain ts f)
  | group (l : Bool) (ts : List Shape) (f : Fields Unit Shape)
      (hall : ∀ t ∈ ts, t.isEmptyChain = false → Counted t) : Counted (.group l ts f)
  | chord (l : Bool) (h : List Shape) (hg : Option (Options Unit Shape)) (b : Shape)
      (f : Fields Unit Shape) (hb : Counted b) : Counted (.chord l h hg b f)

theorem memberwise_counted : Memberwise Counted := by
  intro l ts f
  constructor
  · intro h
    cases h with
    | group _ _ _ hall => exact hall
  · exact .group l ts f

/-! ### Counting tags -/

theorem leafOptions_group (l : Bool) (ts : List (Sig V)) (f : Fields V (Sig V)) :
    leafOptions (.group l ts f) = ts.flatMap leafOptions := leafOptions_chain ts f

theorem leafOptions_chord (l : Bool) (h : List (Sig V)) (hg : Option (Options V (Sig V)))
    (b : Sig V) (f : Fields V (Sig V)) :
    leafOptions (.chord l h hg b f) = h.flatMap leafOptions ++ leafOptions b := by
  rw [leafOptions, leaves, List.map_append, leavesAll_eq_flatMap, List.map_flatMap]
  rfl

/-- The options in the members of a group are those in the members that it freezes
one by one. -/
theorem mem_leafOptions_memberList {lazy : Bool} {ts : List (Sig V)} {t : Sig V}
    (ht : t ∈ memberList lazy ts) {o : Options V (Sig V)} (ho : o ∈ leafOptions t) :
    o ∈ ts.flatMap leafOptions := by
  obtain ⟨x, hx, rfl⟩ := List.mem_map.1 ho
  have hmem : x ∈ leavesAll (memberList lazy ts) := by
    rw [leavesAll_eq_flatMap]
    exact List.mem_flatMap_of_mem ht hx
  have := (leavesAll_memberList_perm lazy ts).mem_iff.1 hmem
  rw [leavesAll_eq_flatMap] at this
  obtain ⟨u, hu, hxu⟩ := List.mem_flatMap.1 this
  exact List.mem_flatMap_of_mem hu (List.mem_map_of_mem hxu)

section Count

variable (g : TaskId) (b : Sig V)

/-- The tags in a list of signatures. -/
noncomputable def tagCountAll (ts : List (Sig V)) : ℕ := (ts.map (tagCount g b)).sum

open Classical in
theorem countP_flatMap_leafOptions (ts : List (Sig V)) :
    ((ts.flatMap leafOptions).countP fun o => decide (o.groupId = some g ∧ o.chord = some b)) =
      tagCountAll g b ts := by
  rw [List.countP_flatMap]
  rfl

theorem tagCount_chain (ts : List (Sig V)) (f : Fields V (Sig V)) :
    tagCount g b (.chain ts f) = tagCountAll g b ts := by
  rw [tagCount, leafOptions_chain, countP_flatMap_leafOptions]

theorem tagCount_group (l : Bool) (ts : List (Sig V)) (f : Fields V (Sig V)) :
    tagCount g b (.group l ts f) = tagCountAll g b ts := by
  rw [tagCount, leafOptions_group, countP_flatMap_leafOptions]

theorem tagCount_chord (l : Bool) (h : List (Sig V)) (hg : Option (Options V (Sig V)))
    (body : Sig V) (f : Fields V (Sig V)) :
    tagCount g b (.chord l h hg body f) = tagCountAll g b h + tagCount g b body := by
  rw [tagCount, leafOptions_chord, List.countP_append, countP_flatMap_leafOptions, tagCount]

variable {g b}

theorem tagCount_of_ungrouped {s : Sig V} (h : Ungrouped s) : tagCount g b s = 0 := by
  rw [tagCount, List.countP_eq_zero]
  intro o ho htag
  simp [h o ho] at htag

theorem tagCountAll_of_ungrouped {ts : List (Sig V)} (h : ∀ t ∈ ts, Ungrouped t) :
    tagCountAll g b ts = 0 := by
  refine List.sum_eq_zero fun n hn => ?_
  obtain ⟨t, ht, rfl⟩ := List.mem_map.1 hn
  exact tagCount_of_ungrouped (h t ht)

end Count

/-- Sums of pairwise smaller numbers are equal only if the numbers are. -/
theorem sum_le_and_eq_iff {α β : Type} {f : α → ℕ} {g : β → ℕ} {P : α → Prop} {xs : List α}
    {ys : List β} (h : List.Forall₂ (fun x y => g y ≤ f x ∧ (g y = f x ↔ P x)) xs ys) :
    (ys.map g).sum ≤ (xs.map f).sum ∧ ((ys.map g).sum = (xs.map f).sum ↔ ∀ x ∈ xs, P x) := by
  induction h with
  | nil => simp
  | cons hxy _ ih =>
    obtain ⟨hle, heq⟩ := ih
    rw [List.map_cons, List.map_cons, List.sum_cons, List.sum_cons, List.forall_mem_cons, ← heq,
      ← hxy.2]
    omega

/-! ### The tags of a frozen signature -/

/-- What freezing does to the tags of group `g` with body `b`. -/
structure TagRel (g : TaskId) (b : Sig V) (p : FreezeArgs V) (s s' : Sig V) : Prop where
  ungrouped : p.groupId = none → Ungrouped s → Ungrouped s'
  count_le : p.groupId = some g → p.chord = some b → Unfrozen s → tagCount g b s' ≤ s.descend
  count_eq_iff : p.groupId = some g → p.chord = some b → Unfrozen s →
    (tagCount g b s' = s.descend ↔ Counted s.shape)
  count_zero : p.groupId = some g → p.chord = none → Unfrozen s → tagCount g b s' = 0

section Rule

variable {g : TaskId} {b : Sig V}

theorem Unfrozen.ungrouped {s : Sig V} (h : Unfrozen s) : Ungrouped s := fun o ho => (h o ho).1

/-- The members of a group that is told no group stay in none. -/
theorem Members.ungrouped {p : FreezeArgs V} {l : Bool} {ts ts' : List (Sig V)}
    (hm : Members (TagRel g b) p l ts ts') (hp : p.groupId = none)
    (hts : ∀ o ∈ ts.flatMap leafOptions, o.groupId = none) : ∀ t' ∈ ts', Ungrouped t' := by
  have hus : ∀ u ∈ memberList l ts, Ungrouped u := fun u hu o ho =>
    hts o (mem_leafOptions_memberList hu ho)
  intro t' ht'
  obtain ⟨u, hu, hrel⟩ := hm.exists_of_mem ht'
  split_ifs at hrel
  · rw [hrel]
    exact hus u hu
  · obtain ⟨i, hi⟩ := hrel
    exact hi.ungrouped hp (hus u hu)

/-- The header of a frozen chord is in no group it was not in before. -/
theorem HeaderRel.exists_eq {p : FreezeArgs V} {l truthy : Bool} {h : List (Sig V)}
    {hg : Option (Options V (Sig V))} {b' s' : Sig V} {f : Fields V (Sig V)}
    (hh : HeaderRel (TagRel g b) p l h hg truthy b' f s')
    (hts : ∀ o ∈ h.flatMap leafOptions, o.groupId = none) :
    ∃ h' hg' f', s' = .chord l h' hg' b' f' ∧ ∀ t ∈ h', Ungrouped t := by
  obtain ⟨h', gid, hm, rfl⟩ := hh
  exact ⟨h', _, _, rfl, hm.ungrouped rfl hts⟩

theorem Ungrouped.of_chord {l : Bool} {h : List (Sig V)} {hg : Option (Options V (Sig V))}
    {b' : Sig V} {f : Fields V (Sig V)} (hh : ∀ t ∈ h, Ungrouped t) (hb : Ungrouped b') :
    Ungrouped (.chord l h hg b' f) := by
  intro o ho
  rw [leafOptions_chord, List.mem_append, List.mem_flatMap] at ho
  rcases ho with ⟨t, ht, ho⟩ | ho
  · exact hh t ht o ho
  · exact hb o ho

/-- Steps frozen before others carry no tag, and an upgrade keeps those of the
body. -/
theorem Folded.tagCountAll_eq {c : Prepare V} {l prevs steps : List (Sig V)}
    (hf : Folded (TagRel g b) c l prevs steps) (hne : prevs ≠ []) (hl : ∀ t ∈ l, Ungrouped t) :
    tagCountAll g b steps = tagCountAll g b prevs := by
  induction hf with
  | nil steps => rfl
  | last => exact absurd rfl hne
  | upgrade _ hh _ ih =>
    rw [ih (List.cons_ne_nil _ _) fun t ht => hl t (List.mem_cons_of_mem _ ht)]
    obtain ⟨h', hg', f', rfl, hh'⟩ := hh.exists_eq fun o ho =>
      hl _ List.mem_cons_self o (by rwa [leafOptions_group])
    rw [tagCountAll, List.map_cons, List.sum_cons, tagCount_chord, tagCountAll_of_ungrouped hh',
      zero_add]
    rfl
  | step _ ht _ ih =>
    rw [ih (List.cons_ne_nil _ _) fun t ht => hl t (List.mem_cons_of_mem _ ht)]
    have := ht.ungrouped rfl (hl _ List.mem_cons_self)
    simp [tagCountAll, tagCount_of_ungrouped this]

theorem Folded.ungrouped {c : Prepare V} {l prevs steps : List (Sig V)}
    (hf : Folded (TagRel g b) c l prevs steps) (hc : c.groupId = none)
    (hl : ∀ t ∈ l, Ungrouped t) (hprevs : ∀ t ∈ prevs, Ungrouped t) :
    ∀ t ∈ steps, Ungrouped t := by
  induction hf with
  | nil steps => exact hprevs
  | last ht _ ih =>
    refine ih (fun t ht => hl t (List.mem_cons_of_mem _ ht)) ?_
    rw [List.forall_mem_singleton]
    exact ht.ungrouped hc (hl _ List.mem_cons_self)
  | upgrade _ hh _ ih =>
    rw [List.forall_mem_cons] at hprevs
    refine ih (fun t ht => hl t (List.mem_cons_of_mem _ ht))
      (List.forall_mem_cons.2 ⟨?_, hprevs.2⟩)
    obtain ⟨h', hg', f', rfl, hh'⟩ := hh.exists_eq fun o ho =>
      hl _ List.mem_cons_self o (by rwa [leafOptions_group])
    exact .of_chord hh' hprevs.1
  | step _ ht _ ih =>
    exact ih (fun t ht => hl t (List.mem_cons_of_mem _ ht))
      (List.forall_mem_cons.2 ⟨ht.ungrouped rfl (hl _ List.mem_cons_self), hprevs⟩)

theorem leafOptions_task (n : String) (f : Fields V (Sig V)) :
    leafOptions (.task n f) = [f.options] := rfl

theorem tagRel_task (p : FreezeArgs V) (n : String) (f : Fields V (Sig V)) (tid oid : TaskId) :
    TagRel g b p (.task n f) (.task n { f with options := p.taskOptions f.options tid oid }) := by
  constructor
  · intro hp h o ho
    rw [leafOptions_task, List.mem_singleton] at ho
    subst ho
    simp only [FreezeArgs.taskOptions, hp, Option.or_none]
    exact h _ List.mem_cons_self
  · intro hg hb h
    exact List.countP_le_length
  · intro hg hb h
    have h : f.options.groupId = none := (h _ List.mem_cons_self).1
    refine iff_of_true ?_ (.task _ _)
    rw [tagCount, leafOptions_task, List.countP_singleton, if_pos]
    · rfl
    · simp [FreezeArgs.taskOptions, hg, hb, h]
  · intro hg hb h
    have h : f.options.chord = none := (h _ List.mem_cons_self).2
    rw [tagCount, leafOptions_task, List.countP_singleton, if_neg]
    simp [FreezeArgs.taskOptions, hb, h]

theorem tagRel_group (p : FreezeArgs V) (l : Bool) (ts : List (Sig V)) (f : Fields V (Sig V))
    (ts' : List (Sig V)) (gid : TaskId)
    (hm : Members (TagRel g b) (p.member f.options) l ts ts') :
    TagRel g b p (.group l ts f) (.group l ts' { f with options := p.groupOptions f.options gid }) := by
  have hus : Unfrozen (.group l ts f) → ∀ u ∈ memberList l ts, Unfrozen u := by
    intro h u hu o ho
    refine h o ?_
    rw [leafOptions_group]
    exact mem_leafOptions_memberList hu ho
  -- member by member: the tags are no more than the parts, and equal where counted
  have hcount : p.groupId = some g → p.chord = some b → Unfrozen (.group l ts f) →
      tagCountAll g b ts' ≤ (Sig.group l ts f).descend ∧
      (tagCountAll g b ts' = (Sig.group l ts f).descend ↔ Counted (Sig.group l ts f).shape) := by
    intro hg hb h
    have hsum := sum_le_and_eq_iff (f := descend) (g := tagCount g b)
      (P := fun u => u.isEmptyChain = false → Counted u.shape)
      (((List.forall₂_and_left _ _).2 ⟨hus h, hm⟩).imp ?_)
    · rw [← descendGroup_eq_sum, descendGroup_memberList, memberList_forall_iff memberwise_counted,
        members_forall_iff memberwise_counted l ts f] at hsum
      exact hsum
    · rintro u t' ⟨hu, hrel⟩
      split_ifs at hrel with hec
      · rw [hrel]
        clear hrel
        cases u with
        | chain us f => cases us with
          | nil => simp [tagCount_chain, tagCountAll, descend, descendChain, isEmptyChain]
          | cons => cases hec
        | _ => cases hec
      · obtain ⟨i, hi⟩ := hrel
        refine ⟨hi.count_le hg hb hu, (hi.count_eq_iff hg hb hu).trans ?_⟩
        simp [hec]
  constructor
  · intro hp h o ho
    rw [leafOptions_group, List.mem_flatMap] at ho
    obtain ⟨t', ht', ho⟩ := ho
    exact hm.ungrouped hp (fun o ho => h o (by rwa [leafOptions_group])) t' ht' o ho
  · intro hg hb h
    rw [tagCount_group]
    exact (hcount hg hb h).1
  · intro hg hb h
    rw [tagCount_group]
    exact (hcount hg hb h).2
  · intro hg hb h
    rw [tagCount_group]
    refine List.sum_eq_zero fun n hn => ?_
    obtain ⟨t', ht', rfl⟩ := List.mem_map.1 hn
    obtain ⟨u, hu, hrel⟩ := hm.exists_of_mem ht'
    split_ifs at hrel with hec
    · rw [hrel]
      exact tagCount_of_ungrouped (hus h u hu).ungrouped
    · obtain ⟨i, hi⟩ := hrel
      exact hi.count_zero hg hb (hus h u hu)

theorem tagRel_chord (p : FreezeArgs V) (l : Bool) (h : List (Sig V))
    (hg : Option (Options V (Sig V))) (body : Sig V) (f : Fields V (Sig V)) (b' s' : Sig V)
    (hb : TagRel g b { p with parentId := none } body b')
    (hh : HeaderRel (TagRel g b) p l h hg body.truthy b' f s') :
    TagRel g b p (.chord l h hg body f) s' := by
  have hbody : Unfrozen (.chord l h hg body f) → Unfrozen body := by
    intro hu o ho
    exact hu o (by rw [leafOptions_chord]; exact List.mem_append_right _ ho)
  have hhead : Ungrouped (.chord l h hg body f) →
      ∃ h' hg' f', s' = .chord l h' hg' b' f' ∧ ∀ t ∈ h', Ungrouped t := by
    intro hu
    refine hh.exists_eq fun o ho => hu o ?_
    rw [leafOptions_chord]
    exact List.mem_append_left _ ho
  have hcount : Unfrozen (.chord l h hg body f) → tagCount g b s' = tagCount g b b' := by
    intro hu
    obtain ⟨h', hg', f', rfl, hh'⟩ := hhead hu.ungrouped
    rw [tagCount_chord, tagCountAll_of_ungrouped hh', zero_add]
  constructor
  · intro hp hu
    obtain ⟨h', hg', f', rfl, hh'⟩ := hhead hu
    refine .of_chord hh' (hb.ungrouped hp fun o ho => hu o ?_)
    rw [leafOptions_chord]
    exact List.mem_append_right _ ho
  · intro hpg hpb hu
    rw [hcount hu, descend]
    exact hb.count_le hpg hpb (hbody hu)
  · intro hpg hpb hu
    rw [hcount hu, descend, hb.count_eq_iff hpg hpb (hbody hu), shape]
    constructor
    · exact .chord _ _ _ _ _
    · intro hc
      cases hc with
      | chord _ _ _ _ _ hb => exact hb
  · intro hpg hpb hu
    rw [hcount hu]
    exact hb.count_zero hpg hpb (hbody hu)

theorem tagRel_chain (p : FreezeArgs V) (ts : List (Sig V)) (f : Fields V (Sig V))
    (l steps : List (Sig V)) (tid : TaskId) (hl : takenSteps (p.prepare f) ts = .ok l)
    (hne : l ≠ []) (hf : Folded (TagRel g b) (p.prepare f) l [] steps) :
    TagRel g b p (.chain ts f)
      (.chain steps { f with options := { f.options with taskId := some tid } }) := by
  have hopts : ∀ t ∈ l, ∀ o ∈ leafOptions t, o ∈ leafOptions (.chain ts f) := by
    rw [leafOptions_chain]
    exact (hereditary_leafOptions _).of_takenSteps hl fun t ht o ho => List.mem_flatMap_of_mem ht ho
  -- the last step is frozen first, and the others add no tag
  obtain ⟨t, rest, rfl⟩ := List.exists_cons_of_ne_nil hne
  have hsurv := survivors_of_takenSteps hl
  rw [List.map_cons] at hsurv
  obtain ⟨t', ht, hcount⟩ : ∃ t', TagRel g b (p.prepare f).lastArgs t t' ∧
      (Unfrozen (.chain ts f) → tagCountAll g b steps = tagCount g b t') := by
    cases hf with
    | last ht hts =>
      refine ⟨_, ht, fun hu => ?_⟩
      rw [hts.tagCountAll_eq (List.cons_ne_nil _ _) fun u hmem o ho =>
        (hu o (hopts u (List.mem_cons_of_mem _ hmem) o ho)).1]
      simp [tagCountAll]
  have htu : Unfrozen (.chain ts f) → Unfrozen t := fun hu o ho =>
    hu o (hopts t List.mem_cons_self o ho)
  have hsil : t.silent = true ↔ t.descend = 0 := (descend_eq_zero_iff t).symm
  have hpos : 0 < t.descend → (Sig.chain ts f).descend = t.descend := by
    intro hpos
    rw [descend]
    exact descendChain_of_takenSteps hl hpos
  constructor
  · intro hp hu o ho
    rw [leafOptions_chain, List.mem_flatMap] at ho
    obtain ⟨u, hu', ho⟩ := ho
    refine hf.ungrouped hp (fun v hv o ho => hu o (hopts v hv o ho)) (by simp) u hu' o ho
  · intro hpg hpb hu
    rw [tagCount_chain, hcount hu]
    have hle := ht.count_le hpg hpb (htu hu)
    rcases Nat.eq_zero_or_pos t.descend with h0 | h0
    · omega
    · rw [hpos h0]
      exact hle
  · intro hpg hpb hu
    rw [tagCount_chain, hcount hu]
    have hle := ht.count_le hpg hpb (htu hu)
    have hiff := ht.count_eq_iff hpg hpb (htu hu)
    rw [shape]
    rcases Nat.eq_zero_or_pos t.descend with h0 | h0
    · have hcounted : Counted t.shape := hiff.1 (by omega)
      have hzero : tagCount g b t' = 0 := by omega
      rw [hzero, eq_comm, descend_eq_zero_iff, silent]
      constructor
      · intro hs
        refine .chain _ _ _ _ hsurv hcounted fun _ => ?_
        rwa [silentAll_shapeAll]
      · intro hc
        cases hc with
        | chain _ rest' u _ hlast _ hsilent =>
          rw [hsurv, List.cons.injEq] at hlast
          rw [silentAll_shapeAll, ← hlast.1, silent_shape] at hsilent
          exact hsilent (hsil.2 h0)
    · rw [hpos h0, hiff]
      constructor
      · intro hcounted
        refine .chain _ _ _ _ hsurv hcounted fun hs => ?_
        rw [silent_shape, hsil] at hs
        omega
      · intro hc
        cases hc with
        | chain _ rest' u _ hlast hu _ =>
          rw [hsurv, List.cons.injEq] at hlast
          rw [hlast.1]
          exact hu
  · intro hpg hpb hu
    rw [tagCount_chain, hcount hu]
    exact ht.count_zero hpg hpb (htu hu)

theorem freezeRule_tagRel (g : TaskId) (b : Sig V) : FreezeRule (TagRel g b) where
  task := tagRel_task
  group := tagRel_group
  chord := tagRel_chord
  chain := tagRel_chain

/-- The tags of what is frozen to report to `b`.  A body that is an empty group is no
body to `freeze`, and then nothing is tagged. -/
theorem TagRel.count_eq_descend_iff {p : FreezeArgs V} {s s' : Sig V} (hrel : TagRel g b p s s')
    (hg : p.groupId = some g) (hb : p.chord = b.ifTruthy) (hs : Unfrozen s) :
    tagCount g b s' = s.descend ↔ if b.truthy then Counted s.shape else s.silent = true := by
  unfold ifTruthy at hb
  split_ifs at hb ⊢
  · exact hrel.count_eq_iff hg hb hs
  · rw [hrel.count_zero hg hb hs, eq_comm, descend_eq_zero_iff]

end Rule

/-- `s.freeze(group_id=g, chord=b)` returns, and as many tasks carry the tag
afterwards as `_descend` counts. -/
def FreezesToSize (g : TaskId) (b s : Sig V) (app : App) : Prop :=
  ∃ s' r app', freeze { groupId := some g, chord := b.ifTruthy } s app = .ok ((s', r), app') ∧
    tagCount g b s' = s.descend

/-- **The tasks that report are as many as the chord waits for exactly where the
tags agree with the count**: the signature freezes and is `Counted`.  A body that
is an empty group is no body to `freeze`, and then nothing is tagged. -/
theorem freeze_tagCount_eq_descend_iff (g : TaskId) (b s : Sig V) (app : App) (hs : Unfrozen s) :
    FreezesToSize g b s app ↔
      Freezes s.shape ∧ if b.truthy then Counted s.shape else s.silent = true := by
  have hgives := freeze_gives (freezeRule_tagRel g b)
    { groupId := some g, chord := b.ifTruthy } s
  constructor
  · rintro ⟨s', r, app', hok, heq⟩
    have hf : Freezes s.shape := by
      by_contra hf
      obtain ⟨e, he⟩ := hgives.fails hf app
      rw [hok] at he
      cases he
    obtain ⟨⟨s'', r'⟩, app'', hok', hrel⟩ := hgives.gives hf app
    rw [hok] at hok'
    cases hok'
    exact ⟨hf, (hrel.count_eq_descend_iff rfl rfl hs).1 heq⟩
  · rintro ⟨hf, hc⟩
    obtain ⟨⟨s', r⟩, app', hok, hrel⟩ := hgives.gives hf app
    exact ⟨s', r, app', hok, (hrel.count_eq_descend_iff rfl rfl hs).2 hc⟩

/-- `chain(group(add, add), mul)`, the body of which is the step that reports. -/
def groupThenTask : Sig Unit :=
  .chain [.group false [.task "add" {}, .task "add" {}] {}, .task "mul" {}] {}

theorem groupThenTask_freezesToSize :
    Unfrozen groupThenTask ∧ FreezesToSize 7 (.task "tsum" {}) groupThenTask ⟨0, 1⟩ := by
  have hs : Unfrozen groupThenTask := by
    intro o ho
    fin_cases ho <;> exact ⟨rfl, rfl⟩
  refine ⟨hs, (freeze_tagCount_eq_descend_iff _ _ _ _ hs).2 ⟨?_, ?_⟩⟩
  · have hadd : ∀ t ∈ [Sig.task "" {}, Sig.task "" ({} : Fields Unit Shape)],
        t.isEmptyChain = false → Freezes t := by
      intro t ht _
      fin_cases ht <;> exact .task _ _
    refine .chain _ _ (by decide) fun t ht => ?_
    fin_cases ht
    · exact .task _ _
    · exact .group _ _ _ hadd
  · exact .chain _ _ _ _ rfl (.task _ _) fun h => by cases h

/-- `chain(add, group(group(), group()))`. -/
def taskThenEmptyGroups : Sig Unit :=
  .chain [.task "add" {}, .group false [.group false [] {}, .group false [] {}] {}] {}

/-- The group of empty groups survives as the last step and takes the tags to
nowhere, while `_descend` counts the task before it: the chord waits for one part
and no task reports. -/
theorem taskThenEmptyGroups_not_freezesToSize :
    ¬ FreezesToSize 7 (.task "tsum" {}) taskThenEmptyGroups ⟨0, 1⟩ := by
  rintro ⟨s', r, app', hok, heq⟩
  cases hok
  rw [tagCount_of_ungrouped] at heq
  · cases heq
  · intro o ho
    rw [List.mem_singleton.1 ho]
    rfl

end Canvas
end Celery
