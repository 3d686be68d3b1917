/-
# The order in which a frozen signature runs its tasks

Freezing keeps the tasks of a signature with their arguments, and keeps their
order where nothing turns it around.  What does is the worklist of
`_freeze_unroll`: a group that is a member of a group made from a list puts its
members on it one after the other, so that they come off in reverse
(`unreversed`).  `Ordered` says that this shows nowhere in a signature.

`Settles` is the outcome for a signature and the labels of what it is frozen to:
the same labels up to their order, in the same order if the signature is
`Ordered`, and, if the names tell the tasks apart, in the same order only then.
It is a relation that keeps the rules of `FreezeRule` (`freezeRule_labelRel`).
-/

import Celery.Canvas.Labels
import Celery.Canvas.Rules

namespace Celery
namespace Canvas

open Sig

variable {V : Type}

namespace Sig

mutual

/-- The worklist keeps the order of the tasks in a member of a group: of the
members of a nested group at most one has tasks, and keeps their order. -/
def unreversed : Sig V → Bool
  | task .. => true
  | chain .. => true
  | group _ ts _ => unreversedRev ts
  | chord .. => true

def unreversedRev : List (Sig V) → Bool
  | [] => true
  | t :: ts => silent t && unreversedRev ts || silentAll ts && unreversed t

end

mutual

/-- Whether the worklist reverses anything depends on the nesting alone. -/
theorem unreversed_shape : ∀ s : Sig V, s.shape.unreversed = s.unreversed
  | task .. => rfl
  | chain .. => rfl
  | group _ ts _ => by rw [shape, unreversed, unreversed, unreversedRev_shapeAll ts]
  | chord .. => rfl

theorem unreversedRev_shapeAll : ∀ ts : List (Sig V), unreversedRev (shapeAll ts) = unreversedRev ts
  | [] => rfl
  | t :: ts => by
    rw [shapeAll, unreversedRev, unreversedRev, silent_shape, silentAll_shapeAll,
      unreversed_shape t, unreversedRev_shapeAll ts]

end

mutual

/-- The nesting of a signature is its own copy. -/
@[simp] theorem clone_shape : ∀ s : Sig V, s.shape.clone = s.shape
  | task .. => rfl
  | chain ts _ => by rw [shape, clone, cloneAll_shapeAll ts]
  | group .. => rfl
  | chord _ h _ b _ => by rw [shape, clone, cloneAll_shapeAll h, clone_shape b]

@[simp] theorem cloneAll_shapeAll : ∀ ts : List (Sig V), cloneAll (shapeAll ts) = shapeAll ts
  | [] => rfl
  | t :: ts => by rw [shapeAll, cloneAll, clone_shape t, cloneAll_shapeAll ts]

end

mutual

/-- The worklist works on the nesting as on the signature. -/
theorem flat_shape : ∀ s : Sig V, s.shape.flat = s.flat.map shape
  | task .. => rfl
  | chain [] _ => rfl
  | chain (t :: ts) f => by
    show [(chain (t :: ts) f).shape.clone] = [(chain (t :: ts) f).clone.shape]
    rw [clone_shape, shape_clone]
  | chord l h hg b f => by
    show [(chord l h hg b f).shape.clone] = [(chord l h hg b f).clone.shape]
    rw [clone_shape, shape_clone]
  | group _ ts _ => by rw [shape, flat, flat, flatRev_shapeAll ts]

theorem flatRev_shapeAll : ∀ ts : List (Sig V), flatRev (shapeAll ts) = (flatRev ts).map shape
  | [] => rfl
  | t :: ts => by
    rw [shapeAll, flatRev, flatRev, List.map_append, flat_shape t, flatRev_shapeAll ts]

end

end Sig

/-- So does the choice between a list and a generator. -/
theorem memberList_shapeAll (lazy : Bool) (ts : List (Sig V)) :
    memberList lazy (shapeAll ts) = (memberList lazy ts).map shape := by
  unfold memberList
  split_ifs
  · rw [← cloneAll_eq_map, cloneAll_shapeAll, shapeAll_eq_map, List.map_map]
    exact List.map_congr_left fun t _ => (shape_clone t).symm
  · rw [shapeAll_eq_map, List.flatMap_map, List.map_flatMap]
    exact List.flatMap_congr fun t _ => flat_shape t

/-- **Where freezing keeps the order of the tasks.**  In a group made from a list
no nested group has two members with tasks; one made from a generator keeps its
members where they are. -/
inductive Ordered : Shape → Prop
  | task (name : String) (f : Fields Unit Shape) : Ordered (.task name f)
  | chain (ts : List Shape) (f : Fields Unit Shape) (hall : ∀ t ∈ survivors ts, Ordered t) :
      Ordered (.chain ts f)
  | group (l : Bool) (ts : List Shape) (f : Fields Unit Shape)
      (hrev : l = false → ∀ t ∈ ts, t.unreversed = true)
      (hall : ∀ t ∈ memberList l ts, Ordered t) : Ordered (.group l ts f)

/-- A chain is in order if the steps that survive are. -/
theorem ordered_chain_iff {c : Prepare V} {ts l : List (Sig V)} {f : Fields Unit Shape}
    (hl : takenSteps c ts = .ok l) :
    Ordered (.chain (shapeAll ts) f) ↔ ∀ t ∈ l, Ordered t.shape := by
  have hsurv := survivors_of_takenSteps hl
  constructor
  · intro h t ht
    cases h with
    | chain _ _ hall => exact hall _ (by rw [hsurv]; exact List.mem_map_of_mem ht)
  · intro h
    refine .chain _ _ fun t ht => ?_
    rw [hsurv] at ht
    obtain ⟨u, hu, rfl⟩ := List.mem_map.1 ht
    exact h u hu

/-- A group is in order if the worklist reverses nothing in its members and they are in order. -/
theorem ordered_group_iff (l : Bool) (ts : List (Sig V)) (f : Fields V (Sig V)) :
    Ordered (Sig.group l ts f).shape ↔
      (l = false → ∀ t ∈ ts, t.unreversed = true) ∧ ∀ t ∈ memberList l ts, Ordered t.shape := by
  rw [shape]
  constructor
  · intro h
    cases h with
    | group _ _ _ hrev hall =>
      refine ⟨fun hl t ht => ?_, fun t ht => hall _ ?_⟩
      · rw [← unreversed_shape]
        exact hrev hl _ (by rw [shapeAll_eq_map]; exact List.mem_map_of_mem ht)
      · rw [memberList_shapeAll]
        exact List.mem_map_of_mem ht
  · rintro ⟨hrev, hall⟩
    refine .group _ _ _ (fun hl t ht => ?_) fun t ht => ?_
    · rw [shapeAll_eq_map] at ht
      obtain ⟨u, hu, rfl⟩ := List.mem_map.1 ht
      rw [unreversed_shape]
      exact hrev hl u hu
    · rw [memberList_shapeAll] at ht
      obtain ⟨u, hu, rfl⟩ := List.mem_map.1 ht
      exact hall u hu

/-! ### Settled labels -/

/-- The labels `xs` of what `s` is frozen to. -/
structure Settles (s : Sig V) (xs : List (Label V)) : Prop where
  perm : xs.Perm s.labels
  eq : Ordered s.shape → xs = s.labels
  ordered : (names s.labels).Nodup → names xs = names s.labels → Ordered s.shape

/-- The labels of what the signatures are frozen to, one after the other. -/
inductive SettlesAll : List (Sig V) → List (Label V) → Prop
  | nil : SettlesAll [] []
  | cons {t : Sig V} {ts : List (Sig V)} {xs ys : List (Label V)} (ht : Settles t xs)
      (hts : SettlesAll ts ys) : SettlesAll (t :: ts) (xs ++ ys)

/-- Lists of the same labels that come in the same order can be split alike. -/
theorem names_append_inj {xs ys us vs : List (Label V)} (hp : xs.Perm us)
    (h : names (xs ++ ys) = names (us ++ vs)) : names xs = names us ∧ names ys = names vs := by
  rw [names_append, names_append] at h
  exact List.append_inj h (by rw [length_names, length_names, hp.length_eq])

namespace SettlesAll

variable {ts us : List (Sig V)} {xs ys zs : List (Label V)}

theorem append (hts : SettlesAll ts xs) (hus : SettlesAll us ys) :
    SettlesAll (ts ++ us) (xs ++ ys) := by
  induction hts with
  | nil => exact hus
  | cons ht _ ih =>
    rw [List.cons_append, List.append_assoc]
    exact .cons ht ih

theorem exists_of_append (h : SettlesAll (ts ++ us) zs) :
    ∃ xs ys, zs = xs ++ ys ∧ SettlesAll ts xs ∧ SettlesAll us ys := by
  induction ts generalizing zs with
  | nil => exact ⟨[], zs, rfl, .nil, h⟩
  | cons t ts ih =>
    cases h with
    | cons ht hts =>
      obtain ⟨xs, ys, rfl, hxs, hys⟩ := ih hts
      exact ⟨_, ys, (List.append_assoc _ _ _).symm, .cons ht hxs, hys⟩

/-- **Whatever the order, no label is lost and none is made.** -/
theorem perm (h : SettlesAll ts xs) : xs.Perm (labelsAll ts) := by
  induction h with
  | nil => exact .refl _
  | cons ht _ ih =>
    rw [labelsAll_cons]
    exact ht.perm.append ih

/-- Members in order settle in the order of their labels. -/
theorem eq (h : SettlesAll ts xs) (hts : ∀ t ∈ ts, Ordered t.shape) : xs = labelsAll ts := by
  induction h with
  | nil => rfl
  | cons ht _ ih =>
    obtain ⟨hhead, htail⟩ := List.forall_mem_cons.1 hts
    rw [labelsAll_cons, ht.eq hhead, ih htail]

/-- Members that settle in the order of their labels are in order, if the labels differ. -/
theorem ordered (h : SettlesAll ts xs) (hnd : (names (labelsAll ts)).Nodup)
    (hxs : names xs = names (labelsAll ts)) : ∀ t ∈ ts, Ordered t.shape := by
  induction h with
  | nil => simp
  | cons ht _ ih =>
    rw [labelsAll_cons] at hnd hxs
    obtain ⟨hhead, htail⟩ := names_append_inj ht.perm hxs
    rw [names_append, List.nodup_append] at hnd
    exact List.forall_mem_cons.2 ⟨ht.ordered hnd.1 hhead, ih hnd.2.1 htail⟩

end SettlesAll

/-- The worklist loses no label. -/
theorem labelsAll_flat_perm (s : Sig V) : (labelsAll s.flat).Perm s.labels :=
  (leavesAll_flat_perm s).map _

theorem labelsAll_flatRev_perm (ts : List (Sig V)) :
    (labelsAll (flatRev ts)).Perm (labelsAll ts) :=
  (leavesAll_flatRev_perm ts).map _

mutual

/-- Where the worklist does not turn the tasks of a member around, they are as
they were. -/
theorem labelsAll_flat_eq : ∀ {s : Sig V}, s.plain = true → s.unreversed = true →
    labelsAll s.flat = s.labels
  | task .., _, _ => rfl
  | chain [] _, _, _ => rfl
  | chain (t :: ts) f, _, _ => by
    rw [flat, labelsAll_cons, labels_clone]
    exact List.append_nil _
  | chord .., h, _ => by cases h
  | group _ ts _, h, hrev => by
    rw [plain] at h
    rw [unreversed] at hrev
    rw [flat, labels_group]
    exact labelsAll_flatRev_eq h hrev

theorem labelsAll_flatRev_eq : ∀ {ts : List (Sig V)}, plainAll ts = true →
    unreversedRev ts = true → labelsAll (flatRev ts) = labelsAll ts
  | [], _, _ => rfl
  | t :: ts, h, hrev => by
    rw [plainAll, Bool.and_eq_true] at h
    rw [unreversedRev, Bool.or_eq_true, Bool.and_eq_true, Bool.and_eq_true,
      ← labels_eq_nil_iff h.1, ← labelsAll_eq_nil_iff h.2] at hrev
    rw [flatRev, labelsAll_append, labelsAll_cons]
    -- one of the two sides has no task, so that it does not matter which is first
    rcases hrev with ⟨hnil, hrev⟩ | ⟨hnil, hrev⟩
    · have hflat := labelsAll_flat_perm t
      rw [hnil, List.perm_nil] at hflat
      rw [hnil, hflat, labelsAll_flatRev_eq h.2 hrev, List.append_nil, List.nil_append]
    · have hflat := labelsAll_flatRev_perm ts
      rw [hnil, List.perm_nil] at hflat
      rw [hnil, hflat, labelsAll_flat_eq h.1 hrev, List.append_nil, List.nil_append]

end

mutual

/-- If the names tell the tasks apart and come off the worklist in order, nothing
was turned around. -/
theorem unreversed_of_settlesAll : ∀ {s : Sig V} {xs : List (Label V)}, s.plain = true →
    SettlesAll s.flat xs → (names s.labels).Nodup → names xs = names s.labels →
    s.unreversed = true
  | task .., _, _, _, _, _ => rfl
  | chain .., _, _, _, _, _ => rfl
  | chord .., _, _, _, _, _ => rfl
  | group _ ts _, _, h, hxs, hnd, heq => by
    rw [flat] at hxs
    rw [plain] at h
    rw [labels_group] at hnd heq
    exact unreversedRev_of_settlesAll h hxs hnd heq

theorem unreversedRev_of_settlesAll : ∀ {ts : List (Sig V)} {xs : List (Label V)},
    plainAll ts = true → SettlesAll (flatRev ts) xs → (names (labelsAll ts)).Nodup →
    names xs = names (labelsAll ts) → unreversedRev ts = true
  | [], _, _, _, _, _ => rfl
  | t :: ts, xs, h, hxs, hnd, heq => by
    rw [plainAll, Bool.and_eq_true] at h
    rw [flatRev] at hxs
    obtain ⟨ys, zs, rfl, hys, hzs⟩ := hxs.exists_of_append
    have hyp := hys.perm.trans (labelsAll_flatRev_perm ts)
    have hzp := hzs.perm.trans (labelsAll_flat_perm t)
    rw [labelsAll_cons, names_append] at hnd heq
    rw [names_append] at heq
    obtain ⟨hnd1, hnd2, hdisj⟩ := List.nodup_append.1 hnd
    rw [unreversedRev, Bool.or_eq_true, Bool.and_eq_true, Bool.and_eq_true,
      ← labels_eq_nil_iff h.1, ← labelsAll_eq_nil_iff h.2]
    by_cases ht : t.labels = []
    · rw [ht, List.perm_nil] at hzp
      rw [ht, hzp] at heq
      exact .inl ⟨ht, unreversedRev_of_settlesAll h.2 hys hnd2 (by simpa [names] using heq)⟩
    · by_cases hts : labelsAll ts = []
      · rw [hts, List.perm_nil] at hyp
        rw [hts, hyp] at heq
        exact .inr ⟨hts, unreversed_of_settlesAll h.1 hzs hnd1 (by simpa [names] using heq)⟩
      · -- the first name is one of `t` and one of `ts`
        obtain ⟨x, xs, hx⟩ := List.exists_cons_of_ne_nil ht
        obtain ⟨y, ys', hy⟩ : ∃ y ys', ys = y :: ys' := by
          refine List.exists_cons_of_ne_nil ?_
          rintro rfl
          exact hts (List.nil_perm.1 hyp)
        have hxy : y.name = x.name := by
          rw [hx, hy] at heq
          exact (List.cons.inj heq).1
        have hymem : y ∈ labelsAll ts := hyp.subset (by rw [hy]; exact List.mem_cons_self)
        exact absurd hxy.symm (hdisj _ (by rw [hx]; exact List.mem_cons_self) _
          (List.mem_map_of_mem hymem))

end

/-- The same of the members of a group, which are flattened one by one. -/
theorem labelsAll_flatMap_flat_eq {ts : List (Sig V)} (h : ∀ t ∈ ts, t.plain = true)
    (hrev : ∀ t ∈ ts, t.unreversed = true) : labelsAll (ts.flatMap flat) = labelsAll ts := by
  induction ts with
  | nil => rfl
  | cons t ts ih =>
    obtain ⟨ht, hts⟩ := List.forall_mem_cons.1 h
    obtain ⟨hrt, hrts⟩ := List.forall_mem_cons.1 hrev
    rw [List.flatMap_cons, labelsAll_append, labelsAll_cons, labelsAll_flat_eq ht hrt, ih hts hrts]

theorem unreversed_of_settlesAll_flatMap {ts : List (Sig V)} {xs : List (Label V)}
    (h : ∀ t ∈ ts, t.plain = true) (hxs : SettlesAll (ts.flatMap flat) xs)
    (hnd : (names (labelsAll ts)).Nodup) (heq : names xs = names (labelsAll ts)) :
    ∀ t ∈ ts, t.unreversed = true := by
  induction ts generalizing xs with
  | nil => simp
  | cons t ts ih =>
    obtain ⟨ht, hts⟩ := List.forall_mem_cons.1 h
    rw [List.flatMap_cons] at hxs
    obtain ⟨ys, zs, rfl, hys, hzs⟩ := hxs.exists_of_append
    rw [labelsAll_cons] at hnd heq
    obtain ⟨hhead, htail⟩ := names_append_inj (hys.perm.trans (labelsAll_flat_perm t)) heq
    rw [names_append, List.nodup_append] at hnd
    exact List.forall_mem_cons.2
      ⟨unreversed_of_settlesAll ht hys hnd.1 hhead, ih hts hzs hnd.2.1 htail⟩

/-- **The members of a group settle the group.** -/
theorem SettlesAll.settles_group {l : Bool} {ts : List (Sig V)} {xs : List (Label V)}
    (hxs : SettlesAll (memberList l ts) xs) (h : plainAll ts = true) (f : Fields V (Sig V)) :
    Settles (.group l ts f) xs := by
  have hts := plainAll_eq_true_iff.1 h
  have hlazy : l = true → labelsAll (memberList l ts) = labelsAll ts := by
    intro hl
    rw [memberList, if_pos hl, ← cloneAll_eq_map, labelsAll_cloneAll]
  constructor
  · exact hxs.perm.trans ((leavesAll_memberList_perm l ts).map _)
  · intro hord
    obtain ⟨hrev, hall⟩ := (ordered_group_iff l ts f).1 hord
    rw [hxs.eq hall]
    cases l with
    | true => exact hlazy rfl
    | false => exact labelsAll_flatMap_flat_eq hts (hrev rfl)
  · intro hnd heq
    rw [labels_group] at hnd heq
    have hrev : l = false → ∀ t ∈ ts, t.unreversed = true := by
      rintro rfl
      exact unreversed_of_settlesAll_flatMap hts hxs hnd heq
    have hmem : labelsAll (memberList l ts) = labelsAll ts := by
      cases l with
      | true => exact hlazy rfl
      | false => exact labelsAll_flatMap_flat_eq hts (hrev rfl)
    exact (ordered_group_iff l ts f).2 ⟨hrev, hxs.ordered (by rwa [hmem]) (by rwa [hmem])⟩

/-! ### The rules -/

/-- A chain that brings no arguments of its own, as every cloned chain. -/
def Bare : Sig V → Prop
  | .chain _ f => f.args = []
  | _ => True

theorem bare_clone (s : Sig V) : Bare s.clone := by
  cases s with
  | task => trivial
  | chain => rfl
  | group => trivial
  | chord l h hg b f => cases hg <;> trivial

mutual

/-- What comes off the worklist is plain, and the worklist has nothing more to do with it. -/
theorem bare_of_mem_flat : ∀ {s t : Sig V}, s.plain = true → t ∈ s.flat → t.plain = true ∧ Bare t
  | task .., t, h, ht => by rw [flat, List.mem_singleton] at ht; rw [ht]; exact ⟨h, trivial⟩
  | chain [] _, t, _, ht => by simp [flat] at ht
  | chain (_ :: _) _, t, h, ht => by
    rw [flat, List.mem_singleton] at ht
    rw [ht]
    exact ⟨plain_clone h, bare_clone _⟩
  | chord .., t, h, _ => by cases h
  | group _ ts _, t, h, ht => by
    rw [flat] at ht
    rw [plain] at h
    exact bare_of_mem_flatRev h ht

theorem bare_of_mem_flatRev : ∀ {ts : List (Sig V)} {t : Sig V}, plainAll ts = true →
    t ∈ flatRev ts → t.plain = true ∧ Bare t
  | [], t, _, ht => by simp [flatRev] at ht
  | s :: ts, t, h, ht => by
    rw [plainAll, Bool.and_eq_true] at h
    rw [flatRev, List.mem_append] at ht
    exact ht.elim (bare_of_mem_flatRev h.2) (bare_of_mem_flat h.1)

end

/-- The same of the members of a group. -/
theorem bare_of_mem_memberList {l : Bool} {ts : List (Sig V)} (h : plainAll ts = true) :
    ∀ t ∈ memberList l ts, t.plain = true ∧ Bare t := by
  have hts := plainAll_eq_true_iff.1 h
  unfold memberList
  split_ifs
  · rw [List.forall_mem_map]
    exact fun t ht => ⟨plain_clone (hts t ht), bare_clone t⟩
  · intro t ht
    obtain ⟨s, hs, hst⟩ := List.mem_flatMap.1 ht
    exact bare_of_mem_flat (hts s hs) hst

/-- What a plain signature is frozen to has the labels it settles to. -/
def LabelRel (_ : FreezeArgs V) (s s' : Sig V) : Prop :=
  s.plain = true → Bare s → Settles s s'.labels

/-- An empty chain has no label to settle. -/
theorem settles_of_isEmptyChain {s : Sig V} (h : s.isEmptyChain = true) : Settles s s.labels := by
  refine ⟨.refl _, fun _ => rfl, fun _ _ => ?_⟩
  cases s with
  | chain ts f => cases ts with
    | nil => exact .chain _ _ fun t ht => by cases ht
    | cons => cases h
  | _ => cases h

/-- The members of a group settle as the worklist brings them. -/
theorem Members.settlesAll {p : FreezeArgs V} {l : Bool} {ts ts' : List (Sig V)}
    (hm : Members LabelRel p l ts ts') (h : plainAll ts = true) :
    SettlesAll (memberList l ts) (labelsAll ts') := by
  have hready := bare_of_mem_memberList (l := l) h
  unfold Members at hm
  generalize memberList l ts = us at hm hready
  induction hm with
  | nil => exact .nil
  | cons hr _ ih =>
    obtain ⟨⟨hplain, hbare⟩, hready⟩ := List.forall_mem_cons.1 hready
    rw [labelsAll_cons]
    refine .cons ?_ (ih hready)
    split_ifs at hr with hec
    · rw [hr]
      exact settles_of_isEmptyChain hec
    · obtain ⟨i, hi⟩ := hr
      exact hi hplain hbare

/-- **The prepared steps run the labels of the steps taken**, before those of the
steps prepared already.  An upgraded group is a header, which runs before its
body. -/
theorem Folded.settlesAll {c : Prepare V} {l prevs steps : List (Sig V)}
    (hf : Folded LabelRel c l prevs steps) (hl : ∀ t ∈ l, t.plain = true ∧ Bare t) :
    ∃ xs, SettlesAll l.reverse xs ∧ labelsAll steps = xs ++ labelsAll prevs := by
  -- one more step in front of those prepared
  have hstep : ∀ {t : Sig V} {ts : List (Sig V)} {ys zs out : List (Label V)}, Settles t ys →
      (∃ xs, SettlesAll ts.reverse xs ∧ out = xs ++ (ys ++ zs)) →
      ∃ xs, SettlesAll (t :: ts).reverse xs ∧ out = xs ++ zs := by
    rintro t ts ys zs out ht ⟨xs, hxs, rfl⟩
    refine ⟨xs ++ ys, ?_, (List.append_assoc _ _ _).symm⟩
    rw [List.reverse_cons, ← List.append_nil ys]
    exact hxs.append (.cons ht .nil)
  induction hf with
  | nil steps => exact ⟨[], .nil, rfl⟩
  | last ht _ ih =>
    obtain ⟨⟨hplain, hbare⟩, hl⟩ := List.forall_mem_cons.1 hl
    have ih := ih hl
    rw [labelsAll_cons] at ih
    exact hstep (ht hplain hbare) ih
  | upgrade _ hh _ ih =>
    obtain ⟨⟨hplain, -⟩, hl⟩ := List.forall_mem_cons.1 hl
    obtain ⟨h', gid, hm, rfl⟩ := hh
    have ih := ih hl
    rw [labelsAll_cons, labels_chord, List.append_assoc, ← labelsAll_cons] at ih
    exact hstep ((hm.settlesAll hplain).settles_group hplain _) ih
  | step _ ht _ ih =>
    obtain ⟨⟨hplain, hbare⟩, hl⟩ := List.forall_mem_cons.1 hl
    have ih := ih hl
    rw [labelsAll_cons] at ih
    exact hstep (ht hplain hbare) ih

/-- No step that `prepare_steps` takes is a chain. -/
theorem Takes.isChain_eq_false {c : Prepare V} {prev : Bool} {st l : List (Sig V)}
    (h : Takes c prev st l) : ∀ t ∈ l, t.isChain = false := by
  induction h with
  | nil prev => simp
  | skip hs h ih => exact ih
  | splice hs hr h ih => exact ih
  | take hs hr hch h ih => exact List.forall_mem_cons.2 ⟨hch, ih⟩

/-- The steps that `prepare_steps` takes are as the worklist leaves them. -/
theorem bare_of_mem_takenSteps {c : Prepare V} {ts l : List (Sig V)}
    (h : takenSteps c ts = .ok l) (hts : plainAll ts = true) :
    ∀ t ∈ l, t.plain = true ∧ Bare t := by
  intro t ht
  refine ⟨hereditary_plain.of_takenSteps h (plainAll_eq_true_iff.1 hts) t ht, ?_⟩
  have hch := (takes_of_taken h).isChain_eq_false t ht
  cases t with
  | chain => cases hch
  | _ => trivial

/-- A chain that is frozen step by step settles as its steps do. -/
theorem labelRel_chain (p : FreezeArgs V) (ts : List (Sig V)) (f : Fields V (Sig V))
    (l steps : List (Sig V)) (tid : TaskId) (hl : takenSteps (p.prepare f) ts = .ok l)
    (hf : Folded LabelRel (p.prepare f) l [] steps) :
    LabelRel p (.chain ts f)
      (.chain steps { f with options := { f.options with taskId := some tid } }) := by
  intro hplain hbare
  obtain ⟨xs, hxs, hsteps⟩ := hf.settlesAll (bare_of_mem_takenSteps hl hplain)
  have hlab : labelsAll l.reverse = labelsAll ts := takenSteps_labels_eq hl hplain rfl hbare
  have hord : Ordered (Sig.chain ts f).shape ↔ ∀ t ∈ l.reverse, Ordered t.shape := by
    rw [shape, ordered_chain_iff hl]
    simp
  rw [labels_chain, hsteps, labelsAll_nil, List.append_nil]
  constructor
  · rw [labels_chain, ← hlab]
    exact hxs.perm
  · intro h
    rw [labels_chain, ← hlab]
    exact hxs.eq (hord.1 h)
  · intro hnd heq
    rw [labels_chain, ← hlab] at hnd heq
    exact hord.2 (hxs.ordered hnd heq)

/-- **`freeze` settles every plain signature**: the rule that it follows is this relation. -/
theorem freezeRule_labelRel : FreezeRule (LabelRel (V := V)) where
  task p n f tid oid _ _ := ⟨.refl _, fun _ => rfl, fun _ _ => .task _ _⟩
  group p l ts f ts' gid hm hplain _ := (hm.settlesAll hplain).settles_group hplain f
  chord p l h hg b f b' s' _ _ hplain _ := by cases hplain
  chain p ts f l steps tid hl _ hf := labelRel_chain p ts f l steps tid hl hf

end Canvas
end Celery
