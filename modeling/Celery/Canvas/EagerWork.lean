/-
# Workers do what `_chain.apply` does

`prepare_steps` (`celery/canvas.py`, lines 1152-1349) takes the steps of the spine, each opened by
`maybe_unroll_group` (`takenSteps_of_agreeFirst`), or one empty group where there is no task
(`takenSteps_of_hollow`).  Opening a group changes nothing for `apply` (`exists_group_of_opened`),
and `freeze` leaves the members of a group in the order in which `_prepared` yields them
(`Mirrors.members`).  So by induction on the fuel what workers do with the steps and the members is
what `apply` does (`mirrors_work`), and the chains of `agreeChain` are applied alike
(`chain_apply_agrees`).
-/

import Celery.Canvas.Eager

namespace Celery
namespace Canvas

open Sig

variable {V : Type}

/-! ### The steps that workers take -/

namespace Sig

theorem isChain_clone (s : Sig V) : s.clone.isChain = s.isChain := by
  cases s with
  | chord l h hg b f => cases hg <;> rfl
  | _ => rfl

theorem isTask_clone (s : Sig V) : s.clone.isTask = s.isTask := by
  cases s with
  | chord l h hg b f => cases hg <;> rfl
  | _ => rfl

mutual

theorem spineOf_clone : ∀ s : Sig V, spineOf s.clone = (spineOf s).map clone
  | task .. => rfl
  | chain ts _ => by rw [clone, spineOf, spineOf, spine_cloneAll ts]
  | group _ [] _ => rfl
  | group _ (_ :: _) _ => rfl
  | chord _ _ (some _) _ _ => rfl
  | chord _ _ none _ _ => rfl

theorem spine_cloneAll : ∀ ts : List (Sig V), spine (cloneAll ts) = (spine ts).map clone
  | [] => rfl
  | t :: ts => by
    rw [cloneAll, spine, spine, spineOf_clone t, spine_cloneAll ts, List.map_append]

end

theorem headIsTask_cloneAll (ts : List (Sig V)) : headIsTask (cloneAll ts) = headIsTask ts := by
  rw [headIsTask, headIsTask, spine_cloneAll, List.head?_map, Option.any_map]
  simp only [isTask_clone]

/-- A copy of a group is opened to the same. -/
theorem inOrder_opened_clone (first l : Bool) (ts : List (Sig V)) (f g : Fields V (Sig V)) :
    inOrder (opened first (group l ts f)) = inOrder (opened first (group l ts g)) := by
  rcases ts with _ | ⟨t, _ | ⟨u, ts⟩⟩ <;> cases first <;> cases l <;> rfl

mutual

theorem agree_clone (first given : Bool) : ∀ s : Sig V,
    s.clone.agree first given = s.agree first given
  | task .. => rfl
  | chain ts _ => by rw [clone, agree, agree, agreeFirst_cloneAll first given ts]
  | group l ts f => by rw [clone, agree, agree, inOrder_opened_clone]
  | chord _ _ (some _) _ _ => rfl
  | chord _ _ none _ _ => rfl

theorem agreeFirst_cloneAll (first given : Bool) : ∀ ts : List (Sig V),
    agreeFirst first given (cloneAll ts) = agreeFirst first given ts
  | [] => rfl
  | t :: ts => by
    rw [cloneAll, agreeFirst, agreeFirst, isEmptyGroup_clone, agreeFirst_cloneAll first given ts,
      agree_clone first given t, agreeRest_cloneAll ts]

theorem agreeRest_cloneAll : ∀ ts : List (Sig V), agreeRest (cloneAll ts) = agreeRest ts
  | [] => rfl
  | t :: ts => by
    rw [cloneAll, agreeRest, agreeRest, isEmptyGroup_clone, agree_clone false true t,
      agreeRest_cloneAll ts]

end

mutual

theorem hollow_clone : ∀ s : Sig V, s.clone.hollow = s.hollow
  | task .. => rfl
  | chain ts _ => by
    rw [clone, hollow, hollow, hollowAll_cloneAll ts]
    cases ts <;> rfl
  | group .. => rfl
  | chord _ _ (some _) _ _ => rfl
  | chord _ _ none _ _ => rfl

theorem hollowAll_cloneAll : ∀ ts : List (Sig V), hollowAll (cloneAll ts) = hollowAll ts
  | [] => rfl
  | t :: ts => by rw [cloneAll, hollowAll, hollowAll, hollow_clone t, hollowAll_cloneAll ts]

end

theorem hollowAll_append (ts us : List (Sig V)) :
    hollowAll (ts ++ us) = (hollowAll ts && hollowAll us) := by
  induction ts with
  | nil => rfl
  | cons t ts ih => rw [List.cons_append, hollowAll, hollowAll, ih, Bool.and_assoc]

theorem agreeRest_append (ts us : List (Sig V)) :
    agreeRest (ts ++ us) = (agreeRest ts && agreeRest us) := by
  induction ts with
  | nil => rfl
  | cons t ts ih => rw [List.cons_append, agreeRest, agreeRest, ih, Bool.and_assoc]

theorem agreeFirst_append {first given : Bool} {ts us : List (Sig V)}
    (hts : agreeFirst first given ts = true) (hus : agreeRest us = true) :
    agreeFirst first given (ts ++ us) = true := by
  induction ts with
  | nil => cases hts
  | cons t ts ih =>
    rw [agreeFirst] at hts
    rw [List.cons_append, agreeFirst, agreeRest_append]
    split at hts
    next ht => rw [if_pos ht, ih hts]
    next ht =>
      rw [if_neg ht, hus, Bool.and_true]
      exact hts

theorem agreeRest_of_agreeFirst : ∀ {ts : List (Sig V)}, agreeFirst false true ts = true →
    agreeRest ts = true
  | [], h => by cases h
  | t :: ts, h => by
    rw [agreeFirst] at h
    rw [agreeRest]
    split at h
    next ht => rw [ht, agreeRest_of_agreeFirst h, Bool.true_or, Bool.and_self]
    next =>
      rw [Bool.and_eq_true] at h
      rw [h.1, h.2, Bool.or_true, Bool.and_self]

mutual

theorem weight_le_of_mem_spineOf : ∀ {s u : Sig V}, u ∈ spineOf s → u.weight ≤ s.weight
  | task .., u, h => by rw [List.mem_singleton.mp h]
  | chain ts _, u, h => by
    have := weight_le_of_mem_spine h
    rw [weight]
    omega
  | group _ [] _, u, h => by cases h
  | group _ (_ :: _) _, u, h => by rw [List.mem_singleton.mp h]
  | chord .., u, h => by rw [List.mem_singleton.mp h]

theorem weight_le_of_mem_spine : ∀ {ts : List (Sig V)} {u : Sig V}, u ∈ spine ts →
    u.weight ≤ weightAll ts
  | [], _, h => by cases h
  | t :: ts, u, h => by
    rw [weightAll]
    rcases List.mem_append.mp h with h | h
    · have := weight_le_of_mem_spineOf h
      omega
    · have := weight_le_of_mem_spine h
      omega

end

/-- A step of the spine on which both ways agree. -/
def Step (first given : Bool) (u : Sig V) : Prop := u.isChain = false ∧ u.agree first given = true

mutual

/-- The first step may be given arguments, and the other ones are. -/
theorem steps_spineOf : ∀ {s : Sig V} {first given : Bool}, s.isEmptyGroup = false →
    s.agree first given = true →
      ∃ u us, spineOf s = u :: us ∧ Step first given u ∧ ∀ x ∈ us, Step false true x
  | task .., _, _, _, h => ⟨_, [], rfl, ⟨rfl, h⟩, by simp⟩
  | chain ts _, _, _, _, h => by
    rw [spineOf]
    exact steps_spine h
  | group _ [] _, _, _, h, _ => by cases h
  | group _ (_ :: _) _, _, _, _, h => ⟨_, [], rfl, ⟨rfl, h⟩, by simp⟩
  | chord .., _, _, _, h => by cases h

theorem steps_spine : ∀ {ts : List (Sig V)} {first given : Bool},
    agreeFirst first given ts = true →
      ∃ u us, spine ts = u :: us ∧ Step first given u ∧ ∀ x ∈ us, Step false true x
  | [], _, _, h => by cases h
  | t :: ts, first, given, h => by
    rw [agreeFirst] at h
    rw [spine]
    split at h
    next ht =>
      rw [spineOf_of_isEmptyGroup ht]
      exact steps_spine h
    next ht =>
      rw [Bool.and_eq_true] at h
      rw [Bool.not_eq_true] at ht
      obtain ⟨u, us, hu, hstep, hus⟩ := steps_spineOf ht h.1
      refine ⟨u, us ++ spine ts, by rw [hu, List.cons_append], hstep, ?_⟩
      rw [List.forall_mem_append]
      exact ⟨hus, step_of_mem_spine h.2⟩

theorem step_of_mem_spine : ∀ {ts : List (Sig V)}, agreeRest ts = true →
    ∀ x ∈ spine ts, Step false true x
  | [], _, _, hx => by cases hx
  | t :: ts, h, x, hx => by
    rw [agreeRest, Bool.and_eq_true, Bool.or_eq_true] at h
    rcases List.mem_append.mp hx with hx | hx
    · cases ht : t.isEmptyGroup with
      | true =>
        rw [spineOf_of_isEmptyGroup ht] at hx
        cases hx
      | false =>
        have htrue : t.agree false true = true :=
          h.1.resolve_left (by rw [ht]; exact Bool.false_ne_true)
        obtain ⟨u, us, hu, hstep, hus⟩ := steps_spineOf ht htrue
        rw [hu, List.mem_cons] at hx
        rcases hx with rfl | hx
        · exact hstep
        · exact hus x hx
    · exact step_of_mem_spine h.2 x hx

end

theorem maybeUnrollGroup_of_isEmptyGroup {s : Sig V} (h : s.isEmptyGroup = true) :
    s.maybeUnrollGroup = s := by
  cases s with
  | group l ts f => cases ts with
    | nil => rfl
    | cons => cases h
  | _ => cases h

theorem isGroup_of_inOrder {s : Sig V} (h : s.inOrder = true) : s.isGroup = true := by
  cases s with
  | group => rfl
  | _ => cases h

theorem isEmptyGroup_of_inOrder {s : Sig V} (h : s.inOrder = true) : s.isEmptyGroup = false := by
  cases s with
  | group l ts f => cases ts with
    | nil => cases l <;> cases h
    | cons => rfl
  | _ => cases h

theorem isGroup_of_maybeUnrollGroup {s : Sig V} (h : s.maybeUnrollGroup.isGroup = true) :
    s.isGroup = true := by
  cases s with
  | group => rfl
  | _ => cases h

/-- What is left of a step is no empty group, so that it is not skipped. -/
theorem isEmptyGroup_opened {first given : Bool} {s : Sig V} (h : s.agree first given = true) :
    (opened first s).isEmptyGroup = false := by
  cases s with
  | group l ts f =>
    rw [agree, Bool.and_eq_true] at h
    exact isEmptyGroup_of_inOrder h.1
  | chord => cases h
  | _ => cases first <;> rfl

theorem isChain_opened {first given : Bool} {s : Sig V} (h : Step first given s) :
    (opened first s).isChain = false := by
  cases s with
  | chain => cases h.1
  | chord => cases h.2
  | task => cases first <;> rfl
  | group l ts f =>
    have hagree := h.2
    rw [agree, Bool.and_eq_true] at hagree
    have hgroup := isGroup_of_inOrder hagree.1
    cases hopen : opened first (group l ts f) with
    | group => rfl
    | _ =>
      rw [hopen] at hgroup
      cases hgroup

/-- A step as `prepare_steps` takes it. -/
def ready (first : Bool) (s : Sig V) : Sig V := (opened first s).clone

theorem ready_clone {first first' given : Bool} {s : Sig V} (h : Step first given s) :
    ready first' s.clone = ready first' s := by
  cases s with
  | chain => cases h.1
  | chord => cases h.2
  | task => rfl
  | group l ts f => rcases ts with _ | ⟨t, _ | ⟨u, ts⟩⟩ <;> cases first' <;> rfl

theorem map_ready_map_clone {first given : Bool} {xs : List (Sig V)}
    (h : ∀ x ∈ xs, Step first given x) :
    (xs.map clone).map (ready false) = xs.map (ready false) := by
  rw [List.map_map]
  exact List.map_congr_left fun x hx => ready_clone (h x hx)

/-- The steps as `prepare_steps` takes them. -/
def readyAll : List (Sig V) → List (Sig V)
  | [] => []
  | x :: xs => ready true x :: xs.map (ready false)

/-- The copies in `prepare_steps` are of no consequence. -/
theorem readyAll_cloneAll {given : Bool} {ts us : List (Sig V)}
    (h : agreeFirst true given ts = true) :
    readyAll (spine (cloneAll ts ++ us)) = readyAll (spine (ts ++ us)) := by
  obtain ⟨x, xs, hspine, hx, hxs⟩ := steps_spine h
  rw [spine_append, spine_append, spine_cloneAll, hspine, List.map_cons, List.cons_append,
    List.cons_append, readyAll, readyAll, ready_clone hx, List.map_append, List.map_append,
    map_ready_map_clone hxs]

end Sig

/-- **The first loop of `prepare_steps`** finds the first step. -/
theorem normaliseHead_of_agreeFirst {n : ℕ} {ts : List (Sig V)} {given : Bool}
    (hn : weightAll ts ≤ n) (h : agreeFirst true given ts = true) :
    ∃ u rest, normaliseHead true n ts = u.maybeUnrollGroup :: rest ∧ Step true given u ∧
      agreeRest rest = true ∧ readyAll (u :: spine rest) = readyAll (spine ts) := by
  induction n generalizing ts with
  | zero =>
    cases ts with
    | nil => cases h
    | cons t ts =>
      have := t.weight_pos
      rw [weightAll] at hn
      omega
  | succ n ih =>
    cases ts with
    | nil => cases h
    | cons t st =>
    rw [weightAll] at hn
    rw [agreeFirst] at h
    cases t with
    | task name f => exact ⟨.task name f, st, rfl, ⟨rfl, rfl⟩, h, rfl⟩
    | chord l hd hg b f => cases h
    | chain us f =>
      change (agree true given (.chain us f) && agreeRest st) = true at h
      rw [Bool.and_eq_true] at h
      obtain ⟨hus, hst⟩ := h
      rw [weight] at hn
      have hfirst : agreeFirst true given (cloneAll us ++ st) = true :=
        agreeFirst_append ((agreeFirst_cloneAll true given us).trans hus) hst
      obtain ⟨u, rest, hu, hstep, hrest, hready⟩ := ih
        (by rw [weightAll_append, weightAll_cloneAll]; omega) hfirst
      refine ⟨u, rest, by rw [normaliseHead, if_pos rfl, hu], hstep, hrest, ?_⟩
      rw [hready, readyAll_cloneAll hus, spine_append, spine, spineOf]
    | group l us f =>
      split at h
      next hempty =>
        have hne : st.isEmpty = false := by
          cases st with
          | nil => cases h
          | cons => rfl
        have := (Sig.group l us f).weight_pos
        obtain ⟨u, rest, hu, hstep, hrest, hready⟩ := ih (by omega) h
        refine ⟨u, rest, ?_, hstep, hrest, ?_⟩
        · rw [normaliseHead]
          simp only [maybeUnrollGroup_of_isEmptyGroup hempty, hempty, hne, Bool.not_false,
            Bool.and_self, if_true]
          exact hu
        · rw [hready, spine, spineOf_of_isEmptyGroup hempty, List.nil_append]
      next hempty =>
        rw [Bool.and_eq_true] at h
        -- a group that is opened to an empty one would be opened no further
        have hne : (Sig.group l us f).maybeUnrollGroup.isEmptyGroup = false := by
          by_contra hcon
          rw [Bool.not_eq_false] at hcon
          have hopened := isEmptyGroup_opened h.1
          rw [opened, if_pos rfl, maybeUnrollGroup_of_isEmptyGroup hcon, hcon] at hopened
          cases hopened
        refine ⟨.group l us f, st, ?_, ⟨rfl, h.1⟩, h.2, ?_⟩
        · rw [normaliseHead]
          simp only [hne, Bool.and_false, Bool.false_eq_true, if_false]
        · cases us with
          | nil => exact absurd rfl hempty
          | cons => rfl

/-- **The second loop of `prepare_steps`** takes the steps of the spine. -/
theorem taken_of_agreeRest {c : Prepare V} (hc : c.clone = true) {n : ℕ} {prev : Bool}
    {rest : List (Sig V)} {u r : Sig V} (hn : weightAll rest + u.weight ≤ n)
    (hrest : agreeRest rest = true) (hu : u.maybeUnrollGroup.isEmptyGroup = false)
    (hr : c.receive true u.maybeUnrollGroup = .ok r) (hrc : r.isChain = false) :
    taken c n prev (rest.reverse ++ [u]) = .ok (r :: (spine rest).map (ready false)).reverse := by
  induction n generalizing prev rest with
  | zero =>
    have := u.weight_pos
    omega
  | succ n ih =>
    rcases List.eq_nil_or_concat rest with rfl | ⟨init, s, rfl⟩
    · have hskip : skipped prev u [] = false := by rw [skipped, hu, Bool.false_and]
      rw [List.reverse_nil, List.nil_append, taken_take hskip hr hrc]
      cases n <;> rfl
    · rw [List.concat_eq_append] at hn hrest ⊢
      rw [agreeRest_append, Bool.and_eq_true] at hrest
      rw [weightAll_append] at hn
      simp only [weightAll, Nat.add_zero] at hn
      obtain ⟨hinit, hs⟩ := hrest
      have hpos := s.weight_pos
      have hmore : (init.reverse ++ [u]).isEmpty = false := by simp
      rw [List.reverse_append, List.reverse_singleton, List.append_assoc, List.singleton_append,
        spine_append]
      rw [agreeRest, agreeRest, Bool.and_true, Bool.or_eq_true] at hs
      cases hempty : s.isEmptyGroup with
      | true =>
        have hskip : skipped prev s (init.reverse ++ [u]) = true := by
          rw [skipped, maybeUnrollGroup_of_isEmptyGroup hempty, hempty, hmore]
          rfl
        rw [taken_skip hskip, ih (by omega) hinit]
        simp [spine, spineOf_of_isEmptyGroup hempty]
      | false =>
        have htrue : s.agree false true = true :=
          hs.resolve_left (by rw [hempty]; exact Bool.false_ne_true)
        have hopened : s.maybeUnrollGroup.isEmptyGroup = false := isEmptyGroup_opened htrue
        have hskip : skipped prev s (init.reverse ++ [u]) = false := by
          rw [skipped, hopened, Bool.false_and]
        have hreceive : c.receive (init.reverse ++ [u]).isEmpty s.maybeUnrollGroup
            = .ok (ready false s) := by
          rw [hmore, Prepare.receive]
          · rfl
          · exact hc
        by_cases hchain : s.isChain = true
        · cases s with
          | chain us f =>
            rw [weight] at hn
            have happend : (cloneAll us).reverse ++ (init.reverse ++ [u])
                = (init ++ cloneAll us).reverse ++ [u] := by
              rw [List.reverse_append, List.append_assoc]
            have hus : agreeRest us = true := agreeRest_of_agreeFirst htrue
            rw [taken_splice hskip hreceive, happend, ih
              (by rw [weightAll_append, weightAll_cloneAll]; omega)
              (by rw [agreeRest_append, hinit, agreeRest_cloneAll, hus]; rfl)]
            rw [spine_append, spine_cloneAll, List.map_append, List.map_append,
              map_ready_map_clone (step_of_mem_spine hus)]
            simp only [spine, spineOf, List.append_nil]
          | _ => cases hchain
        · rw [Bool.not_eq_true] at hchain
          have hready : (ready false s).isChain = false := by
            rw [ready, isChain_clone]
            exact isChain_opened ⟨hchain, htrue⟩
          rw [taken_take hskip hreceive hready, ih (by omega) hinit]
          simp only [spine, spineOf_of_isChain hempty hchain, List.append_nil]
          exact congrArg Except.ok (by simp)

/-- **The steps that `prepare_steps` prepares**: those of the spine, the first one with the
partial arguments. -/
theorem takenSteps_of_agreeFirst {ts : List (Sig V)} {given : Bool} {args : List V}
    {kwargs : List (String × V)} (h : agreeFirst true given ts = true)
    (hkwargs : headIsTask ts = false → kwargs = []) :
    takenSteps { args := args, kwargs := kwargs } ts
      = .ok ((readyAll (spine ts)).modifyHead (receiveArgs args kwargs)).reverse := by
  obtain ⟨u, rest, hu, hstep, hrest, hready⟩ := normaliseHead_of_agreeFirst le_rfl h
  obtain ⟨x, xs, hspine, hx, -⟩ := steps_spine h
  have hhead : ready true u = ready true x := by
    rw [hspine] at hready
    exact List.head_eq_of_cons_eq hready
  have hclobber : (opened true u).clobbered kwargs = false := by
    by_cases htask : headIsTask ts = true
    · rw [headIsTask, hspine] at htask
      cases x with
      | task name f =>
        have hclone : (opened true u).clone.isTask = true := by
          show (ready true u).isTask = true
          rw [hhead]
          rfl
        rw [isTask_clone] at hclone
        cases hopen : opened true u with
        | task => rfl
        | _ =>
          rw [hopen] at hclone
          cases hclone
      | _ => cases htask
    · rw [hkwargs (by rwa [Bool.not_eq_true] at htask)]
      cases opened true u with
      | task => rfl
      | _ => exact Bool.and_false _
  have hreceive : Prepare.receive { args := args, kwargs := kwargs } true
      u.maybeUnrollGroup.maybeUnrollGroup = .ok ((ready true u).receiveArgs args kwargs) := by
    show Sig.cloneWith args kwargs (opened true u) = _
    rw [cloneWith, hclobber, if_neg Bool.false_ne_true]
    rfl
  have hchain : ((ready true u).receiveArgs args kwargs).isChain = false := by
    have hnot : (ready true u).isChain = false := by
      rw [ready, isChain_clone]
      exact isChain_opened hstep
    cases hopen : ready true u with
    | chain =>
      rw [hopen] at hnot
      cases hnot
    | _ => rfl
  unfold takenSteps
  show taken _ (weightAll (normaliseHead true (weightAll ts) ts)) false
    (normaliseHead true (weightAll ts) ts).reverse = _
  rw [hu, List.reverse_cons, taken_of_agreeRest rfl (by rw [weightAll]; omega) hrest
    (isEmptyGroup_opened hstep.2) hreceive hchain, ← hready]
  rfl

theorem takenSteps_cloneAll {ts : List (Sig V)} {given : Bool} {args : List V}
    {kwargs : List (String × V)} (h : agreeFirst true given ts = true)
    (hkwargs : headIsTask ts = false → kwargs = []) :
    takenSteps { args := args, kwargs := kwargs } (cloneAll ts)
      = takenSteps { args := args, kwargs := kwargs } ts := by
  have hready : readyAll (spine (cloneAll ts)) = readyAll (spine ts) := by
    simpa using @readyAll_cloneAll V given ts [] h
  rw [takenSteps_of_agreeFirst ((agreeFirst_cloneAll true given ts).trans h)
      (by rwa [headIsTask_cloneAll]), takenSteps_of_agreeFirst h hkwargs, hready]

/-! ### Steps without a task -/

/-- One empty group is left of them. -/
theorem normaliseHead_of_hollow {n : ℕ} {ts : List (Sig V)} (hn : weightAll ts ≤ n)
    (hne : ts ≠ []) (h : hollowAll ts = true) :
    ∃ l f, normaliseHead true n ts = [.group l [] f] := by
  induction n generalizing ts with
  | zero =>
    cases ts with
    | nil => exact absurd rfl hne
    | cons t ts =>
      have := t.weight_pos
      rw [weightAll] at hn
      omega
  | succ n ih =>
    cases ts with
    | nil => exact absurd rfl hne
    | cons t st =>
    rw [hollowAll, Bool.and_eq_true] at h
    have hpos := t.weight_pos
    rw [weightAll] at hn
    cases t with
    | task => cases h.1
    | chord => cases h.1
    | chain us f =>
      have hus := h.1
      rw [hollow, Bool.and_eq_true] at hus
      rw [weight] at hn
      have hmore : cloneAll us ++ st ≠ [] := by
        cases us with
        | nil => cases hus.1
        | cons => exact List.cons_ne_nil _ _
      obtain ⟨l, g, hu⟩ := ih (by rw [weightAll_append, weightAll_cloneAll]; omega) hmore
        (by rw [hollowAll_append, hollowAll_cloneAll, hus.2, h.2, Bool.and_self])
      exact ⟨l, g, by rw [normaliseHead, if_pos rfl, hu]⟩
    | group l us f =>
      cases us with
      | cons => cases h.1
      | nil => cases st with
        | nil => exact ⟨l, f, rfl⟩
        | cons u us => exact ih (by omega) (List.cons_ne_nil _ _) h.2

theorem takenSteps_of_hollow {ts : List (Sig V)} {kwargs : List (String × V)} (args : List V)
    (hne : ts ≠ []) (h : hollowAll ts = true) (hkwargs : dictHas kwargs "tasks" = false) :
    ∃ l f, takenSteps { args := args, kwargs := kwargs } ts = .ok [.group l [] f] := by
  obtain ⟨l, f, hu⟩ := normaliseHead_of_hollow le_rfl hne h
  refine ⟨l, { options := f.options }, ?_⟩
  unfold takenSteps
  show taken _ (weightAll (normaliseHead true (weightAll ts) ts)) false
    (normaliseHead true (weightAll ts) ts).reverse = _
  have hreceive : Prepare.receive { args := args, kwargs := kwargs } true (.group l [] f)
      = .ok (.group l [] { options := f.options }) := by
    show Sig.cloneWith args kwargs (.group l [] f) = _
    rw [cloneWith, clobbered, hkwargs, Bool.and_false, if_neg Bool.false_ne_true]
    rfl
  rw [hu, List.reverse_singleton]
  exact taken_take (n := 0) rfl hreceive rfl

/-- **Workers leave an empty list of steps without a task**, as `apply` does. -/
theorem runChain_of_hollow (w : Work V) {n : ℕ} {ts : List (Sig V)} {kwargs : List (String × V)}
    (f : Fields V (Sig V)) (args : List V) (hne : ts ≠ []) (h : hollowAll ts = true)
    (hkwargs : dictHas kwargs "tasks" = false) :
    runChain (work w (n + 1)) ts f args kwargs = pure (some (w.pack [])) := by
  obtain ⟨l, g, htaken⟩ := takenSteps_of_hollow (handed f args) hne h hkwargs
  rw [runChain]
  simp only [htaken]
  cases l <;> rfl

/-! ### Both ways -/

section Members

variable {go : Sig V → List V → List (String × V) → Doing V V}

theorem doMembers_append (args : List V) (kwargs : List (String × V)) (xs ys : List (Sig V)) :
    doMembers go args kwargs (xs ++ ys) = (do
      let vs ← doMembers go args kwargs xs
      let vs' ← doMembers go args kwargs ys
      pure (vs ++ vs')) := by
  induction xs with
  | nil =>
    simp only [List.nil_append, doMembers, pure_bind]
    exact (bind_pure _).symm
  | cons x xs ih =>
    simp only [List.cons_append, doMembers, ih, bind_assoc, pure_bind, List.cons_append]

theorem doMembers_singleton (args : List V) (kwargs : List (String × V)) (t : Sig V) :
    doMembers go args kwargs [t] = ([·]) <$> go t args kwargs := by
  simp only [doMembers, pure_bind, map_eq_pure_bind]

end Members

section Work

variable (w : Work V)

/-- A group and what `maybe_unroll_group` takes it for, if that is again a group. -/
theorem exists_group_of_maybeUnrollGroup {s : Sig V} (h : s.maybeUnrollGroup.isGroup = true) :
    ∃ l ts f, s = .group l ts f ∧ ∃ l' us g, s.maybeUnrollGroup = .group l' us g ∧
      weightAll us ≤ weightAll ts ∧ (∀ given, agreeMembers given us = agreeMembers given ts) ∧
      ∀ args kwargs, applyMembers w us args kwargs = applyMembers w ts args kwargs := by
  cases s with
  | group l ts f =>
    refine ⟨l, ts, f, rfl, ?_⟩
    rcases ts with _ | ⟨t, _ | ⟨t', ts⟩⟩
    · exact ⟨l, [], f, rfl, le_rfl, fun _ => rfl, fun _ _ => rfl⟩
    · cases t with
      | group l' us g =>
        refine ⟨l', us, g, rfl, ?_, fun given => ?_, fun args kwargs => ?_⟩
        · simp only [weightAll, weight]
          omega
        · rw [agreeMembers, agreeMembers, agreeMember, Bool.and_true]
        · rw [applyMembers_singleton, applyMember]
      | _ => cases h
    · exact ⟨l, t :: t' :: ts, f, rfl, le_rfl, fun _ => rfl, fun _ _ => rfl⟩
  | _ => cases h

/-- **Opening a step changes nothing for `apply`.** -/
theorem exists_group_of_opened {first given l : Bool} {ts : List (Sig V)} {f : Fields V (Sig V)}
    (h : agree first given (.group l ts f) = true) :
    ∃ l' us g, opened first (.group l ts f) = .group l' us g ∧ inOrder (.group l' us g) = true ∧
      agreeMembers given us = true ∧ weightAll us ≤ weightAll ts ∧ ∀ args kwargs,
        apply w (.group l' us g) args kwargs = apply w (.group l ts f) args kwargs := by
  rw [agree, Bool.and_eq_true] at h
  obtain ⟨horder, hmembers⟩ := h
  have hgroup := isGroup_of_inOrder horder
  have honce : (Sig.group l ts f).maybeUnrollGroup.isGroup = true := by
    cases first with
    | false => exact hgroup
    | true => exact isGroup_of_maybeUnrollGroup hgroup
  obtain ⟨l₀, ts₀, f₀, hs, l₁, us, g, hus, hle, hagree, happly⟩ :=
    exists_group_of_maybeUnrollGroup w honce
  cases hs
  cases first with
  | false =>
    rw [opened, if_neg Bool.false_ne_true, hus] at horder
    refine ⟨l₁, us, g, hus, horder, (hagree given).trans hmembers, hle, fun args kwargs => ?_⟩
    rw [apply_group, apply_group, happly]
  | true =>
    rw [opened, if_pos rfl, hus] at horder hgroup
    obtain ⟨l₂, ts₂, f₂, hs₂, l₃, us₃, g₃, hus₃, hle₃, hagree₃, happly₃⟩ :=
      exists_group_of_maybeUnrollGroup w hgroup
    cases hs₂
    rw [hus₃] at horder
    refine ⟨l₃, us₃, g₃, by rw [opened, if_pos rfl, hus, hus₃], horder,
      (hagree₃ given).trans ((hagree given).trans hmembers), hle₃.trans hle, fun args kwargs => ?_⟩
    rw [apply_group, apply_group, happly₃, happly]

/-- `go` does on copies of signatures up to the weight `N` what `apply` does: on tasks and chains,
as steps or members, and on groups that are opened. -/
structure Mirrors (go : Sig V → List V → List (String × V) → Doing V V) (N : ℕ) : Prop where
  member : ∀ (s : Sig V) (given : Bool) (args : List V), s.weight ≤ N → s.isGroup = false →
    s.isEmptyChain = false → agreeMember given s = true → (given = false → args = []) →
      go s.clone args [] = apply w s args []
  group : ∀ (l : Bool) (ts : List (Sig V)) (f : Fields V (Sig V)) (given : Bool) (args : List V),
    weightAll ts < N → inOrder (.group l ts f) = true → agreeMembers given ts = true →
      (given = false → args = []) →
      go (Sig.group l ts f).clone args [] = apply w (.group l ts f) args []

variable {w} {go : Sig V → List V → List (String × V) → Doing V V} {N : ℕ}

theorem Mirrors.step (hgo : Mirrors w go N) {x : Sig V} {first given : Bool} {args : List V}
    (hx : Step first given x) (hN : x.weight ≤ N) (hgiven : given = false → args = []) :
    go (ready first x) args [] = apply w x args [] := by
  cases x with
  | chain => cases hx.1
  | chord => cases hx.2
  | task name f =>
    have hready : ready first (.task name f) = (Sig.task name f).clone := by cases first <;> rfl
    rw [hready]
    exact hgo.member _ given args hN rfl rfl rfl hgiven
  | group l ts f =>
    obtain ⟨l', us, g, hopened, horder, hmembers, hle, happly⟩ := exists_group_of_opened w hx.2
    rw [weight] at hN
    rw [ready, hopened, ← happly]
    exact hgo.group l' us g given args (by omega) horder hmembers hgiven

theorem Mirrors.steps (hgo : Mirrors w go N) {xs : List (Sig V)}
    (hxs : ∀ x ∈ xs, Step false true x) (hN : ∀ x ∈ xs, x.weight ≤ N) (v : V) :
    doSteps go (xs.map (ready false)) (some v) [] [] = doSteps (apply w) xs (some v) [] [] := by
  induction xs generalizing v with
  | nil => rfl
  | cons x xs ih =>
    rw [List.forall_mem_cons] at hxs hN
    simp only [List.map_cons, doSteps, Option.elim_some, hgo.step hxs.1 hN.1 (by simp),
      ih hxs.2 hN.2]

/-- The first step has its arguments already. -/
theorem Mirrors.first (hgo : Mirrors w go N) {x : Sig V} {given : Bool} {args args' : List V}
    {kwargs : List (String × V)} (hx : Step true given x) (hN : x.weight ≤ N)
    (hargs : if x.isTask then args' = args else args = [] ∧ kwargs = []) :
    go ((ready true x).receiveArgs args' kwargs) [] [] = apply w x args kwargs := by
  cases x with
  | chain => cases hx.1
  | chord => cases hx.2
  | group l ts f =>
    obtain ⟨rfl, rfl⟩ : args = [] ∧ kwargs = [] := hargs
    rw [← hgo.step hx hN fun _ => rfl]
    obtain ⟨l', us, g, hopened, -⟩ := exists_group_of_opened w hx.2
    rw [ready, hopened]
    rfl
  | task name f =>
    obtain rfl : args' = args := hargs
    have hcall := hgo.member (.task name (f.merge args' kwargs)) false [] hN rfl rfl rfl
      (fun _ => rfl)
    refine hcall.trans ?_
    have hmerge : (f.merge args' kwargs).merge [] [] = f.merge args' kwargs := by
      unfold Fields.merge
      split <;> simp_all [dictUpdate]
    simp only [apply, callTask, hmerge]

/-- **`run` does what `apply` does**, if it does so for the steps. -/
theorem Mirrors.chain (hgo : Mirrors w go N) {ts : List (Sig V)} {f : Fields V (Sig V)}
    {given : Bool} {args : List V} {kwargs : List (String × V)} (hN : weightAll ts ≤ N)
    (h : agreeFirst true given ts = true)
    (hargs : if headIsTask ts then handed f args = args else args = [] ∧ kwargs = []) :
    runChain go ts f args kwargs = applySteps w ts none args kwargs := by
  obtain ⟨x, xs, hspine, hx, hxs⟩ := steps_spine h
  have hweight : ∀ y ∈ x :: xs, y.weight ≤ N := fun y hy =>
    (weight_le_of_mem_spine (hspine ▸ hy)).trans hN
  rw [List.forall_mem_cons] at hweight
  have htask : headIsTask ts = x.isTask := by
    rw [headIsTask, hspine]
    rfl
  have hkwargs : headIsTask ts = false → kwargs = [] := by
    intro hhead
    rw [hhead] at hargs
    exact hargs.2
  rw [htask] at hargs
  rw [applySteps_eq_doSteps w ts true given args kwargs h, runChain]
  simp only [takenSteps_of_agreeFirst h hkwargs, hspine]
  show doSteps go (List.reverse (List.reverse _)) none [] [] = _
  rw [List.reverse_reverse, readyAll, List.modifyHead_cons]
  simp only [doSteps, Option.elim_none, hgo.first hx hweight.1 hargs, hgo.steps hxs hweight.2]

/-- A member that is no group has one result. -/
theorem Mirrors.single (hgo : Mirrors w go N) {t : Sig V} {given : Bool} {args : List V}
    (hgroup : t.isGroup = false) (hchain : t.isEmptyChain = false) (hN : t.weight ≤ N)
    (h : agreeMember given t = true) (hgiven : given = false → args = []) :
    doMembers go args [] [t.clone] = applyMember w t args [] := by
  rw [doMembers_singleton, hgo.member t given args hN hgroup hchain h hgiven]
  cases t with
  | task name f => simp only [applyMember, apply]
  | group => cases hgroup
  | chord => cases h
  | chain ts f => cases ts with
    | nil => cases hchain
    | cons t ts => simp only [applyMember, apply]

mutual

/-- **The members that `freeze` flattens a group to**, in the order in which they are written. -/
theorem Mirrors.flat (hgo : Mirrors w go N) {given : Bool} {args : List V}
    (hgiven : given = false → args = []) : ∀ t : Sig V, t.weight ≤ N → t.straight = true →
      agreeMember given t = true → doMembers go args [] (Sig.flat t) = applyMember w t args []
  | .task name f, hN, _, h => hgo.single rfl rfl hN h hgiven
  | .chain [] f, _, _, _ => by rw [Sig.flat, doMembers, applyMember]
  | .chain (t :: ts) f, hN, _, h => hgo.single rfl rfl hN h hgiven
  | .chord .., _, _, h => by cases h
  | .group l ts f, hN, hs, h => by
    rw [weight] at hN
    rw [Sig.flat, applyMember]
    exact Mirrors.flatRev hgo hgiven ts (by omega) hs h

theorem Mirrors.flatRev (hgo : Mirrors w go N) {given : Bool} {args : List V}
    (hgiven : given = false → args = []) : ∀ ts : List (Sig V), weightAll ts ≤ N →
      straightAll ts = true → agreeMembers given ts = true →
        doMembers go args [] (Sig.flatRev ts) = applyMembers w ts args []
  | [], _, _, _ => by rw [Sig.flatRev, doMembers, applyMembers]
  | t :: ts, hN, hs, h => by
    rw [weightAll] at hN
    rw [straightAll, Bool.and_eq_true, Bool.and_eq_true] at hs
    obtain ⟨⟨hone, hst⟩, hsts⟩ := hs
    rw [agreeMembers, Bool.and_eq_true] at h
    have ht := Mirrors.flat hgo hgiven t (by omega) hst h.1
    have hts := Mirrors.flatRev hgo hgiven ts (by omega) hsts h.2
    rw [Sig.flatRev, applyMembers, doMembers_append, ht, hts]
    -- one of them has no result
    cases hb : t.bearing with
    | false =>
      simp only [applyMember_of_not_bearing w t args [] hb, pure_bind, List.append_nil,
        List.nil_append]
    | true =>
      have hbs : bearingAny ts = false := by
        rw [hb, Bool.true_and, Bool.not_eq_true'] at hone
        exact hone
      simp only [applyMembers_of_not_bearing w ts args [] hbs, pure_bind, List.append_nil,
        List.nil_append]

end

theorem Mirrors.members (hgo : Mirrors w go N) {l : Bool} {ts : List (Sig V)}
    {f : Fields V (Sig V)} {given : Bool} {args : List V} (hN : weightAll ts ≤ N)
    (horder : inOrder (.group l ts f) = true) (h : agreeMembers given ts = true)
    (hgiven : given = false → args = []) :
    doMembers go args [] ((memberList l ts).filter (!·.isEmptyChain))
      = applyMembers w ts args [] := by
  cases l with
  | false =>
    rw [inOrder, Bool.and_eq_true] at horder
    have hs := horder.2
    have hfilter : (memberList false ts).filter (!·.isEmptyChain) = ts.flatMap Sig.flat :=
      List.filter_eq_self.mpr fun t ht => by rw [isEmptyChain_of_mem_flatMap ts t ht]; rfl
    rw [hfilter]
    clear horder hfilter
    induction ts with
    | nil => rfl
    | cons t ts ih =>
      rw [weightAll] at hN
      rw [agreeMembers, Bool.and_eq_true] at h
      rw [List.all_cons, Bool.and_eq_true] at hs
      rw [List.flatMap_cons, doMembers_append, hgo.flat hgiven t (by omega) hs.1 h.1,
        ih (by omega) h.2 hs.2, applyMembers]
  | true =>
    rw [inOrder, Bool.and_eq_true] at horder
    have hs := horder.2
    rw [memberList, if_pos rfl]
    clear horder
    induction ts with
    | nil => rfl
    | cons t ts ih =>
      rw [weightAll] at hN
      rw [agreeMembers, Bool.and_eq_true] at h
      rw [List.all_cons, Bool.and_eq_true, Bool.not_eq_true'] at hs
      rw [List.map_cons, applyMembers, ← ih (by omega) h.2 hs.2]
      cases hchain : t.isEmptyChain with
      | true =>
        rw [List.filter_cons_of_neg (by rw [isEmptyChain_clone, hchain]; decide),
          applyMember_of_not_bearing]
        · simp only [pure_bind, List.nil_append]
          exact (bind_pure _).symm
        · cases t with
          | chain us g => cases us with
            | nil => rfl
            | cons => cases hchain
          | _ => cases hchain
      | false =>
        rw [List.filter_cons_of_pos (by rw [isEmptyChain_clone, hchain]; rfl),
          ← List.singleton_append, doMembers_append, hgo.single hs.1 hchain (by omega) h.1 hgiven]

variable (w)

/-- **What workers do with a signature is what `apply` does.** -/
theorem mirrors_work (n : ℕ) : Mirrors w (work w n) n := by
  induction n with
  | zero =>
    refine ⟨fun s given args hs => ?_, fun l ts f given args hs => absurd hs (Nat.not_lt_zero _)⟩
    have := s.weight_pos
    omega
  | succ n ih =>
    refine ⟨fun s given args hs hgroup hchain h hgiven => ?_,
      fun l ts f given args hs horder h hgiven => ?_⟩
    · cases s with
      | task name f => rfl
      | group => cases hgroup
      | chord => cases h
      | chain ts f =>
        have hne : ts ≠ [] := by
          rintro rfl
          cases hchain
        rw [weight] at hs
        show (runChain (work w n) (cloneAll ts) _ args [] >>= resultOr .indexError) = _
        rw [agreeMember, Bool.or_eq_true, Bool.and_eq_true, Bool.or_eq_true, Bool.not_eq_true'] at h
        rcases h with hhollow | ⟨hfirst, hhead⟩
        · obtain ⟨m, rfl⟩ : ∃ m, n = m + 1 := by
            obtain ⟨t, us, rfl⟩ := List.exists_cons_of_ne_nil hne
            have := t.weight_pos
            rw [weightAll] at hs
            exact ⟨n - 1, by omega⟩
          have hcloned : cloneAll ts ≠ [] := by
            rw [cloneAll_eq_map]
            simpa using hne
          rw [runChain_of_hollow w _ args hcloned ((hollowAll_cloneAll ts).trans hhollow) rfl,
            apply, applySteps_of_hollow w ts args [] hne hhollow]
          rfl
        · have hrun : runChain (work w n) (cloneAll ts) { options := f.options } args []
              = applySteps w ts none args [] := by
            have hthis : runChain (work w n) ts {} args [] = applySteps w ts none args [] := by
              refine ih.chain (by omega) hfirst ?_
              split
              · exact List.append_nil _
              next hnot =>
                exact ⟨hgiven (hhead.resolve_right hnot), rfl⟩
            rw [← hthis, runChain, runChain, takenSteps_cloneAll hfirst fun _ => rfl]
            rfl
          rw [hrun, apply, applySteps_eq_doSteps w ts true given args [] hfirst]
          exact resultOr_doSteps_eq _ _ (spine_ne_nil hfirst) args []
    · rw [clone, apply]
      simp only [work, ih.members (by omega) horder h hgiven]

end Work

/-- `add | group([]) | group([add, group([mul])]) | mul`. -/
def addThenMul : List (Sig ℤ) :=
  [.task "add" {}, .group false [] {},
    .group false [.task "add" {}, .group false [.task "mul" {}] {}] {}, .task "mul" {}]

/-- `group([add]) | mul`. -/
def groupOfOne : List (Sig ℤ) := [.group false [.task "add" {}] {}, .task "mul" {}]

end Canvas
end Celery
