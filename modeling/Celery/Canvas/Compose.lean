/-
# `celery/canvas.py`: partial application

Partial arguments can be given twice, to `clone` (`Signature.clone` and `_merge`, lines 418-495)
and then to `apply_async`.  That should be the same as giving both to `apply_async`, and nothing
should reach a signature that is immutable (`Composes`).  But `clone` loses the arguments, and the
immutable flag, of a chain and of a group (`from_dict`, 967-983, 1590-1643), and keeps the keyword
arguments of a chord where `apply_async` does not look.  Where nothing is lost, partial
application composes (`clone_apply_composes`, `groupClone_loses`).

A chain is cloned as a whole by `clone`, and its steps are cloned again by `prepare_steps`.  Copies
of copies are taken alike (`takenSteps_congr`).
-/

import Celery.Canvas.Apply
import Celery.Canvas.Dict

namespace Celery
namespace Canvas

open Sig

variable {V : Type}

/-! ### The steps of a copy -/

namespace Sig

/-- **Signatures with the same copy**: chains and groups differ in what `from_dict` drops,
chords in what is left of their header. -/
theorem clone_eq_cases {s t : Sig V} (h : s.clone = t.clone) :
    (∃ n f, s = task n f ∧ t = task n f) ∨
    (∃ ts us f g, s = chain ts f ∧ t = chain us g ∧ cloneAll ts = cloneAll us) ∨
    (∃ l ts f g, s = group l ts f ∧ t = group l ts g) ∨
    (∃ l hd hg b l' hd' hg' b' f, s = chord l hd hg b f ∧ t = chord l' hd' hg' b' f) := by
  cases s with
  | task n f =>
    cases t with
    | task =>
      cases h
      exact .inl ⟨n, f, rfl, rfl⟩
    | chord l' hd' hg' b' f' => cases hg' <;> cases h
    | _ => cases h
  | chain ts f =>
    cases t with
    | chain us g =>
      injection h with hts
      exact .inr (.inl ⟨ts, us, f, g, rfl, rfl, hts⟩)
    | chord l' hd' hg' b' f' => cases hg' <;> cases h
    | _ => cases h
  | group l ts f =>
    cases t with
    | group l' us g =>
      injection h with hl hts
      subst hl hts
      exact .inr (.inr (.inl ⟨l, ts, f, g, rfl, rfl⟩))
    | chord l' hd' hg' b' f' => cases hg' <;> cases h
    | _ => cases h
  | chord l hd hg b f =>
    cases t with
    | chord l' hd' hg' b' g =>
      obtain rfl : f = g := by cases hg <;> cases hg' <;> injection h
      exact .inr (.inr (.inr ⟨l, hd, hg, b, l', hd', hg', b', f, rfl, rfl⟩))
    | _ => cases hg <;> cases h

/-- What unrolls to a signature unrolls to its copy. -/
theorem clone_maybeUnrollGroup {s t : Sig V} (h : s.clone = t.clone) :
    s.maybeUnrollGroup.clone = t.maybeUnrollGroup.clone := by
  rcases clone_eq_cases h with ⟨n, f, rfl, rfl⟩ | ⟨ts, us, f, g, rfl, rfl, -⟩ |
    ⟨l, ts, f, g, rfl, rfl⟩ | ⟨l, hd, hg, b, l', hd', hg', b', f, rfl, rfl⟩
  · rfl
  · exact h
  · rcases ts with _ | ⟨t, _ | ⟨t', ts⟩⟩
    · exact h
    · rfl
    · exact h
  · exact h

end Sig

namespace Sig

mutual

/-- A keyword argument `tasks` is no obstacle to an immutable chain or group, but it is to a copy
of it.  No step is one, or there is no such argument. -/
def steady (kwargs : List (String × V)) : Sig V → Bool
  | task .. => true
  | chain ts f => !(f.immutable && dictHas kwargs "tasks") && steadyAll kwargs ts
  | group _ ts f => !(f.immutable && dictHas kwargs "tasks") && steadyAll kwargs ts
  | chord .. => true

def steadyAll (kwargs : List (String × V)) : List (Sig V) → Bool
  | [] => true
  | t :: ts => steady kwargs t && steadyAll kwargs ts

end

theorem steadyAll_eq_true_iff {kwargs : List (String × V)} {ts : List (Sig V)} :
    steadyAll kwargs ts = true ↔ ∀ t ∈ ts, t.steady kwargs = true :=
  forall_of_cons rfl fun _ _ => rfl

section

variable {kwargs : List (String × V)}

mutual

theorem steady_of_not_dictHas (h : dictHas kwargs "tasks" = false) :
    ∀ s : Sig V, s.steady kwargs = true
  | task .. => rfl
  | chain ts f => by rw [steady, h, Bool.and_false, steadyAll_of_not_dictHas h ts]; rfl
  | group _ ts f => by rw [steady, h, Bool.and_false, steadyAll_of_not_dictHas h ts]; rfl
  | chord .. => rfl

theorem steadyAll_of_not_dictHas (h : dictHas kwargs "tasks" = false) :
    ∀ ts : List (Sig V), steadyAll kwargs ts = true
  | [] => rfl
  | t :: ts => by
    rw [steadyAll, steady_of_not_dictHas h t, steadyAll_of_not_dictHas h ts]
    rfl

end

mutual

theorem steady_clone : ∀ {s : Sig V}, s.steady kwargs = true → s.clone.steady kwargs = true
  | task .., _ => rfl
  | chain ts f, h => by
    rw [steady, Bool.and_eq_true] at h
    rw [clone, steady, steadyAll_cloneAll h.2]
    rfl
  | group _ ts f, h => by
    rw [steady, Bool.and_eq_true] at h
    rw [clone, steady, h.2]
    rfl
  | chord _ _ none _ _, _ => rfl
  | chord _ _ (some _) _ _, _ => rfl

theorem steadyAll_cloneAll : ∀ {ts : List (Sig V)}, steadyAll kwargs ts = true →
    steadyAll kwargs (cloneAll ts) = true
  | [], _ => rfl
  | t :: ts, h => by
    rw [steadyAll, Bool.and_eq_true] at h
    rw [cloneAll, steadyAll, steady_clone h.1, steadyAll_cloneAll h.2]
    rfl

end

theorem hereditary_steady : Hereditary fun s : Sig V => s.steady kwargs = true where
  unroll s h := by
    unfold maybeUnrollGroup
    split
    · rw [steady, steadyAll, Bool.and_eq_true, Bool.and_eq_true] at h
      exact h.2.1
    · exact h
  splice ts f h := by
    rw [steady, Bool.and_eq_true] at h
    exact steadyAll_eq_true_iff.1 h.2
  clone s h := steady_clone h
  receiveArgs args kwargs' s h := by
    cases s <;> exact h
  prependArgs args s h := by
    cases s <;> exact h

/-- A steady chain or group and a copy of it are obstructed alike. -/
theorem clobbered_congr {s t : Sig V} (hs : s.steady kwargs = true) (ht : t.steady kwargs = true)
    (h : s.clone = t.clone) : s.clobbered kwargs = t.clobbered kwargs := by
  have heq : ∀ {b b' c : Bool}, (!(b && c)) = true → (!(b' && c)) = true →
      (!b && c) = (!b' && c) := by decide
  rcases clone_eq_cases h with ⟨n, f, rfl, rfl⟩ | ⟨ts, us, f, g, rfl, rfl, -⟩ |
    ⟨l, ts, f, g, rfl, rfl⟩ | ⟨l, hd, hg, b, l', hd', hg', b', f, rfl, rfl⟩
  · rfl
  · rw [steady, Bool.and_eq_true] at hs ht
    exact heq hs.1 ht.1
  · rw [steady, Bool.and_eq_true] at hs ht
    exact heq hs.1 ht.1
  · rfl

end

end Sig

/-- Copies receive arguments alike. -/
theorem Prepare.receive_congr {c : Prepare V} (hc : c.clone = true) (first : Bool) {s t : Sig V}
    (hs : s.steady c.kwargs = true) (ht : t.steady c.kwargs = true) (h : s.clone = t.clone) :
    c.receive first s = c.receive first t := by
  have hclobbered := clobbered_congr hs ht h
  unfold Prepare.receive
  rw [hc]
  cases first with
  | true => simp only [cloneWith, hclobbered, h]
  | false => simp only [h]

theorem normaliseHead_congr (n : ℕ) {ts us : List (Sig V)} (h : ts.map clone = us.map clone) :
    (normaliseHead true n ts).map clone = (normaliseHead true n us).map clone := by
  induction n generalizing ts us with
  | zero => simpa only [normaliseHead] using h
  | succ n ih =>
    cases ts with
    | nil =>
      rw [List.map_eq_nil_iff.mp h.symm]
    | cons s st =>
    cases us with
    | nil => cases h
    | cons t st' =>
    rw [List.map_cons, List.map_cons, List.cons_eq_cons] at h
    obtain ⟨hst, hrest⟩ := h
    rcases clone_eq_cases hst with ⟨m, f, rfl, rfl⟩ | ⟨ts, us, f, g, rfl, rfl, hcl⟩ |
      ⟨l, ts, f, g, rfl, rfl⟩ | ⟨l, hd, hg, b, l', hd', hg', b', f, rfl, rfl⟩
    · simp only [normaliseHead, List.map_cons, hrest]
    · simp only [normaliseHead, if_true, hcl]
      refine ih ?_
      rw [List.map_append, List.map_append, hrest]
    · have hlen : st.isEmpty = st'.isEmpty := by
        rw [← List.isEmpty_map (f := clone), hrest, List.isEmpty_map]
      have hunroll := clone_maybeUnrollGroup hst
      have hempty : (Sig.group l ts f).maybeUnrollGroup.isEmptyGroup
          = (Sig.group l ts g).maybeUnrollGroup.isEmptyGroup := by
        rw [← isEmptyGroup_clone, hunroll, isEmptyGroup_clone]
      simp only [normaliseHead, hlen, hempty]
      split
      · exact ih hrest
      · simp only [List.map_cons, hunroll, hrest]
    · simp only [normaliseHead, List.map_cons, hst, hrest]

theorem taken_congr {c : Prepare V} (hc : c.clone = true) (n : ℕ) (prev : Bool)
    {ts us : List (Sig V)} (hts : ∀ t ∈ ts, t.steady c.kwargs = true)
    (hus : ∀ t ∈ us, t.steady c.kwargs = true) (h : ts.map clone = us.map clone) :
    taken c n prev ts = taken c n prev us := by
  induction n generalizing prev ts us with
  | zero =>
    cases ts with
    | nil => rw [List.map_eq_nil_iff.mp h.symm]
    | cons s st => cases us with
      | nil => cases h
      | cons t st' => rfl
  | succ n ih =>
    cases ts with
    | nil => rw [List.map_eq_nil_iff.mp h.symm]
    | cons s st =>
    cases us with
    | nil => cases h
    | cons t st' =>
    rw [List.map_cons, List.map_cons, List.cons_eq_cons] at h
    obtain ⟨hst, hrest⟩ := h
    obtain ⟨hs, hts⟩ := List.forall_mem_cons.1 hts
    obtain ⟨ht, hus⟩ := List.forall_mem_cons.1 hus
    replace hs := hereditary_steady.unroll s hs
    have hlen : st.isEmpty = st'.isEmpty := by
      rw [← List.isEmpty_map (f := clone), hrest, List.isEmpty_map]
    have hunroll := clone_maybeUnrollGroup hst
    have hskipped : skipped prev s st = skipped prev t st' := by
      rw [skipped, skipped, ← isEmptyGroup_clone, hunroll, isEmptyGroup_clone, hlen]
    have hreceive : c.receive st.isEmpty s.maybeUnrollGroup
        = c.receive st'.isEmpty t.maybeUnrollGroup := by
      rw [hlen]
      exact Prepare.receive_congr hc _ hs (hereditary_steady.unroll t ht) hunroll
    cases hskip : skipped prev s st with
    | true => rw [taken_skip hskip, taken_skip (hskipped ▸ hskip), ih prev hts hus hrest]
    | false =>
      have hskip' : skipped prev t st' = false := hskipped ▸ hskip
      cases hr : c.receive st.isEmpty s.maybeUnrollGroup with
      | error e => rw [taken_error hskip hr, taken_error hskip' (hreceive ▸ hr)]
      | ok x =>
        by_cases hx : x.isChain = true
        · cases x with
          | chain xs f =>
            have hxs : ∀ x ∈ xs.reverse, x.steady c.kwargs = true := fun x hx =>
              hereditary_steady.splice xs f (hereditary_steady.of_receive hr hs) x
                (List.mem_reverse.1 hx)
            rw [taken_splice hskip hr, taken_splice hskip' (hreceive ▸ hr)]
            refine ih prev (List.forall_mem_append.2 ⟨hxs, hts⟩)
              (List.forall_mem_append.2 ⟨hxs, hus⟩) ?_
            rw [List.map_append, List.map_append, hrest]
          | _ => cases hx
        · rw [Bool.not_eq_true] at hx
          rw [taken_take hskip hr hx, taken_take hskip' (hreceive ▸ hr) hx, ih _ hts hus hrest]

theorem weightAll_congr {ts us : List (Sig V)} (h : ts.map clone = us.map clone) :
    weightAll ts = weightAll us := by
  rw [← weightAll_cloneAll ts, ← weightAll_cloneAll us, cloneAll_eq_map, cloneAll_eq_map, h]

/-- **Chains with the same copy take the same steps.** -/
theorem takenSteps_congr {c : Prepare V} (hc : c.clone = true) {ts us : List (Sig V)}
    (hts : steadyAll c.kwargs ts = true) (hus : steadyAll c.kwargs us = true)
    (h : ts.map clone = us.map clone) : takenSteps c ts = takenSteps c us := by
  have hhead := normaliseHead_congr (weightAll us) h
  have hsteady : ∀ {ts : List (Sig V)}, steadyAll c.kwargs ts = true →
      ∀ t ∈ (normaliseHead true (weightAll us) ts).reverse, t.steady c.kwargs = true :=
    fun hts t ht => hereditary_steady.of_normaliseHead true _ (steadyAll_eq_true_iff.1 hts) t
      (List.mem_reverse.1 ht)
  unfold takenSteps
  simp only [hc, weightAll_congr h, weightAll_congr hhead]
  refine taken_congr hc _ _ (hsteady hts) (hsteady hus) ?_
  rw [List.map_reverse, List.map_reverse, hhead]

/-! ### Partial application -/

namespace Sig

/-- A copy comes to the same members. -/
theorem flat_clone {s : Sig V} (h : s.listed = true) : flat s.clone = flat s := by
  have hclone := clone_clone h
  cases s with
  | task => rfl
  | group => rfl
  | chain ts f => cases ts with
    | nil => rfl
    | cons t ts =>
      rw [clone, cloneAll] at hclone ⊢
      rw [flat, flat, hclone, clone, cloneAll]
  | chord l hd hg b f => cases hg with
    | none =>
      rw [clone] at hclone ⊢
      rw [flat, flat, hclone, clone]
    | some o => cases h

theorem flatMap_flat_cloneAll {ts : List (Sig V)} (h : listedAll ts = true) :
    (cloneAll ts).flatMap flat = ts.flatMap flat := by
  induction ts with
  | nil => rfl
  | cons t ts ih =>
    rw [listedAll, Bool.and_eq_true] at h
    rw [cloneAll, List.flatMap_cons, List.flatMap_cons, flat_clone h.1, ih h.2]

end Sig

/-- **Where partial application composes.**  A task takes all there is.  A chain and a group have
to be given nothing that `clone` would lose: what is for `clone` if they are mutable, and if they
are not, what comes after it.  A chord loses no positional arguments, but it does not look at its
keyword arguments, and it does not keep others off if it is immutable. -/
def composable (a : List V) (k : List (String × V)) (b : List V) (l : List (String × V)) :
    Sig V → Bool
  | .task .. => true
  | .chain ts f =>
    listedAll ts && f.args.isEmpty &&
      if f.immutable then b.isEmpty && l.isEmpty
      else a.isEmpty && k.isEmpty && steadyAll l ts
  | .group _ _ f => if f.immutable then b.isEmpty && l.isEmpty else a.isEmpty && k.isEmpty
  | .chord lazy h hg body f =>
    (hg.isSome || listedAll h && listLike lazy h) && body.listed &&
      if f.immutable then l.isEmpty else k.isEmpty

theorem Fields.merge_merge {f : Fields V (Sig V)} (hf : f.immutable = false) (a : List V)
    (k : Kwargs V) (b : List V) (l : List (String × V)) :
    (f.merge a k).merge b l = f.merge (b ++ a) (dictUpdate k l) := by
  simp only [Fields.merge, hf, Bool.false_eq_true, if_false]
  rw [dictUpdate_dictUpdate _ k.2, List.append_assoc]

theorem Fields.merge_of_immutable {f : Fields V (Sig V)} (hf : f.immutable = true) (a : List V)
    (k : List (String × V)) : f.merge a k = f := by
  rw [Fields.merge, if_pos hf]

/-- What becomes of the header in a copy. -/
theorem clone_chord {lazy : Bool} {hd : List (Sig V)} {hg : Option (Options V (Sig V))}
    (h : (hg.isSome || listedAll hd && listLike lazy hd) = true) (body : Sig V)
    (f : Fields V (Sig V)) :
    ∃ lazy' hd', (Sig.chord lazy hd hg body f).clone = .chord lazy' hd' none body.clone f ∧
      memberList lazy' hd' = memberList lazy hd ∧ weightAll hd' = weightAll hd := by
  cases hg with
  | some o => exact ⟨lazy, hd, rfl, rfl, rfl⟩
  | none =>
    rw [Option.isSome_none, Bool.false_or, Bool.and_eq_true] at h
    refine ⟨false, cloneAll hd, rfl, ?_, weightAll_cloneAll hd⟩
    rw [memberList_of_listLike h.2]
    exact flatMap_flat_cloneAll h.1

section Law

variable [PyValue V]

/-- **Partial application composes**: of a mutable signature, what is given to `clone` and what
is given to `apply_async` come together; an immutable one takes neither. -/
def Composes (s : Sig V) (a : List V) (k : Kwargs V) (b : List V) (l : Kwargs V) : Prop :=
  cloneApply s a k b l =
    if s.fields.immutable then applyAsync s [] [] else applyAsync s (b ++ a) (dictUpdate k l)

theorem composes_task (name : String) (f : Fields V (Sig V)) (a : List V) (k : Kwargs V)
    (b : List V) (l : Kwargs V) : Composes (.task name f) a k b l := by
  show send 1 (.task name (f.merge a k)) b l {} =
    if f.immutable then send 1 (.task name f) [] [] {}
    else send 1 (.task name f) (b ++ a) (dictUpdate k l) {}
  cases hf : f.immutable with
  | true => simp only [send, Fields.merge_of_immutable hf, if_true]
  | false => simp only [send, Fields.merge_merge hf, Bool.false_eq_true, if_false]

/-- A copy of a chain sends what the chain sends. -/
theorem send_clone_chain {ts : List (Sig V)} {f : Fields V (Sig V)} (hts : listedAll ts = true)
    {args args' : List V} (hargs : f.handed args' = args) {kwargs : List (String × V)}
    (hsteady : steadyAll kwargs ts = true) (n : ℕ) (r : Riders V) :
    send n (.chain (cloneAll ts) { options := f.options }) args kwargs r
      = send n (.chain ts f) args' kwargs r := by
  have hcopy : (cloneAll ts).map clone = ts.map clone := by
    rw [← cloneAll_eq_map, ← cloneAll_eq_map, cloneAll_cloneAll hts]
  have hhanded : Fields.handed { options := f.options } args = args := by
    rw [Fields.handed, if_neg Bool.false_ne_true, List.append_nil]
  cases n with
  | zero => rfl
  | succ n =>
    simp only [send, hhanded, hargs]
    rw [takenSteps_congr rfl (steadyAll_cloneAll hsteady) hsteady hcopy]

/-- A copy of a chord sends what the chord sends. -/
theorem send_clone_chord {lazy lazy' : Bool} {hd hd' : List (Sig V)}
    {hg hg' : Option (Options V (Sig V))} {body : Sig V} {f g : Fields V (Sig V)}
    (hmembers : memberList lazy' hd' = memberList lazy hd) (hweight : weightAll hd' = weightAll hd)
    (hbody : body.listed = true) (hfg : (g.kwargs, g.options) = (f.kwargs, f.options))
    {args args' : List V} (hargs : g.handed args = f.handed args') (kwargs : List (String × V)) :
    applyAsync (.chord lazy' hd' hg' body.clone g) args kwargs
      = applyAsync (.chord lazy hd hg body f) args' kwargs := by
  obtain ⟨hkwargs, hoptions⟩ := Prod.mk.inj hfg
  rw [applyAsync, applyAsync, weight, weight, hweight, weight_of_shape_eq body.shape_clone]
  simp only [send, hkwargs, hoptions, hargs, hmembers, clone_clone hbody]

theorem cloneApply_of_ok {s s' : Sig V} {a : List V} {k : List (String × V)}
    (h : s.cloneWith a k = .ok s') (b : List V) (l : List (String × V)) :
    cloneApply s a k b l = applyAsync s' b l := by
  rw [cloneApply, h]
  rfl

theorem Composes.of_immutable {s : Sig V} {a : List V} {k : Kwargs V} {b : List V} {l : Kwargs V}
    (hs : s.fields.immutable = true) (h : cloneApply s a k b l = applyAsync s [] []) :
    Composes s a k b l := by
  rw [Composes, if_pos hs, h]

theorem Composes.of_mutable {s : Sig V} {a : List V} {k : Kwargs V} {b : List V} {l : Kwargs V}
    (hs : s.fields.immutable = false)
    (h : cloneApply s a k b l = applyAsync s (b ++ a) (dictUpdate k l)) : Composes s a k b l := by
  rw [Composes, hs, if_neg Bool.false_ne_true, h]

section

variable {a b : List V} {k l : List (String × V)} {hk : (k.map Prod.fst).Nodup}
  (hl : (l.map Prod.fst).Nodup) {f : Fields V (Sig V)}

include hl

theorem composes_chain {ts : List (Sig V)} (h : composable a k b l (.chain ts f) = true) :
    Composes (.chain ts f) a ⟨k, hk⟩ b ⟨l, hl⟩ := by
  simp only [composable, Bool.and_eq_true, List.isEmpty_iff] at h
  obtain ⟨⟨hts, hargs⟩, h⟩ := h
  have hclone : (Sig.chain ts f).clobbered k = false →
      (Sig.chain ts f).cloneWith a k = .ok (.chain (cloneAll ts) { options := f.options }) := by
    intro hclobbered
    rw [cloneWith, hclobbered, if_neg Bool.false_ne_true]
    rfl
  have hweight : (Sig.chain (cloneAll ts) { options := f.options }).weight
      = (Sig.chain ts f).weight := by rw [weight, weight, weightAll_cloneAll]
  cases hf : f.immutable with
  | true =>
    rw [hf, if_pos rfl, Bool.and_eq_true, List.isEmpty_iff, List.isEmpty_iff] at h
    obtain ⟨rfl, rfl⟩ := h
    have hhanded : f.handed [] = [] := by rw [Fields.handed, if_pos hf, hargs]
    refine .of_immutable hf ?_
    rw [cloneApply_of_ok (hclone (by rw [clobbered, hf]; rfl)), applyAsync, applyAsync, hweight]
    exact send_clone_chain hts hhanded (steadyAll_of_not_dictHas rfl ts) _ _
  | false =>
    rw [hf, if_neg Bool.false_ne_true] at h
    simp only [Bool.and_eq_true, List.isEmpty_iff] at h
    obtain ⟨⟨rfl, rfl⟩, hsteady⟩ := h
    have hhanded : f.handed b = b := by
      rw [Fields.handed, hf, if_neg Bool.false_ne_true, hargs, List.append_nil]
    refine .of_mutable hf ?_
    rw [cloneApply_of_ok (hclone (Bool.and_false _)), applyAsync, applyAsync, hweight,
      List.append_nil, dictUpdate_nil_left hl]
    exact send_clone_chain hts hhanded hsteady _ _

theorem composes_group {lazy : Bool} {ts : List (Sig V)}
    (h : composable a k b l (.group lazy ts f) = true) :
    Composes (.group lazy ts f) a ⟨k, hk⟩ b ⟨l, hl⟩ := by
  have hclone : (Sig.group lazy ts f).clobbered k = false →
      (Sig.group lazy ts f).cloneWith a k = .ok (.group lazy ts { options := f.options }) := by
    intro hclobbered
    rw [cloneWith, hclobbered, if_neg Bool.false_ne_true]
    rfl
  -- nothing but the members and the options is sent
  have hsend : ∀ args kwargs, applyAsync (.group lazy ts { options := f.options }) args kwargs
      = applyAsync (.group lazy ts f) args kwargs := fun _ _ => rfl
  rw [composable] at h
  cases hf : f.immutable with
  | true =>
    rw [hf, if_pos rfl, Bool.and_eq_true, List.isEmpty_iff, List.isEmpty_iff] at h
    obtain ⟨rfl, rfl⟩ := h
    refine .of_immutable hf ?_
    rw [cloneApply_of_ok (hclone (by rw [clobbered, hf]; rfl)), hsend]
  | false =>
    rw [hf, if_neg Bool.false_ne_true, Bool.and_eq_true, List.isEmpty_iff, List.isEmpty_iff] at h
    obtain ⟨rfl, rfl⟩ := h
    refine .of_mutable hf ?_
    rw [cloneApply_of_ok (hclone (Bool.and_false _)), hsend, List.append_nil,
      dictUpdate_nil_left hl]

theorem composes_chord {lazy : Bool} {hd : List (Sig V)} {hg : Option (Options V (Sig V))}
    {body : Sig V} (h : composable a k b l (.chord lazy hd hg body f) = true) :
    Composes (.chord lazy hd hg body f) a ⟨k, hk⟩ b ⟨l, hl⟩ := by
  rw [composable, Bool.and_eq_true, Bool.and_eq_true] at h
  obtain ⟨⟨hheader, hbody⟩, h⟩ := h
  obtain ⟨lazy', hd', hcopy, hmembers, hweight⟩ := clone_chord hheader body f
  cases hf : f.immutable with
  | true =>
    rw [hf, if_pos rfl, List.isEmpty_iff] at h
    subst h
    refine .of_immutable hf ?_
    have hclone : (Sig.chord lazy hd hg body f).cloneWith a k
        = .ok (.chord lazy' hd' none body.clone f) := by
      rw [cloneWith, clobbered, hf, Bool.not_true, Bool.false_and, if_neg Bool.false_ne_true]
      rw [hcopy, receiveArgs, Fields.merge_of_immutable hf]
    rw [cloneApply_of_ok hclone]
    refine send_clone_chord (f := f) (g := f) hmembers hweight hbody rfl ?_ []
    rw [Fields.handed, Fields.handed, if_pos hf, if_pos hf]
  | false =>
    rw [hf, if_neg Bool.false_ne_true, List.isEmpty_iff] at h
    subst h
    refine .of_mutable hf ?_
    have hclone : (Sig.chord lazy hd hg body f).cloneWith a []
        = .ok (.chord lazy' hd' none body.clone { f with args := a ++ f.args }) := by
      have hmerge : f.merge a [] = { f with args := a ++ f.args } := by
        rw [Fields.merge, hf, if_neg Bool.false_ne_true]
        rfl
      have hclobbered : (Sig.chord lazy hd hg body f).clobbered [] = false := Bool.and_false _
      rw [cloneWith, hclobbered, if_neg Bool.false_ne_true, hcopy, receiveArgs, hmerge]
    rw [cloneApply_of_ok hclone, dictUpdate_nil_left hl]
    refine send_clone_chord (f := f) (g := { f with args := a ++ f.args }) hmembers hweight hbody
      rfl ?_ l
    simp only [Fields.handed, hf, Bool.false_eq_true, if_false, List.append_assoc]

end

end Law

end Canvas
end Celery
