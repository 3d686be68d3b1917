/-
# What a chain takes apart

A chain on the left of `|` takes the other operand apart: the steps of a chain become steps
of its own, a group of one is unrolled, and an empty group is dropped (`_chain.__or__`,
`celery/canvas.py`, lines 989-1038).  `unpacked` is what is left of the operand then.  With a
chain on the left `self | other` feeds `self` to what is left of `other` (`absorbs_orSig`),
unless the chain ends in a group with less than two members, which would become the header of
a chord, where it is not unrolled any more.
-/

import Celery.Canvas.Or

namespace Celery
namespace Canvas

open Sig

variable {V : Type}

namespace Sig

/-- A group with less than two members. -/
def isSmall : Sig V → Bool
  | group _ ts _ => decide (ts.length < 2)
  | _ => false

/-- A chain with steps. -/
def isLong : Sig V → Bool
  | chain ts _ => !ts.isEmpty
  | _ => false

mutual

/-- **What a chain makes of an operand** that it takes apart. -/
def unpacked : Sig V → Sig V
  | task n f => task n f
  | chain ts f => chain (unpackedAll ts) f
  | group _ [] f => chain [] f
  | group _ [t] _ => t
  | group l (t :: u :: ts) f => group l (t :: u :: ts) f
  | chord l h hg b f => chord l h hg b f

def unpackedAll : List (Sig V) → List (Sig V)
  | [] => []
  | t :: ts => unpacked t :: unpackedAll ts

end

/-- Nothing is left to be taken apart after that. -/
def tame (s : Sig V) : Bool := s.unpacked.solid

/-- What comes next does not make a chord of a group with less than two members. -/
def closed : Sig V → Bool
  | chain ts _ => !ts.getLast?.any isSmall
  | s => !s.isSmall

mutual

/-- Taken apart, it begins with a group. -/
def startsGroup : Sig V → Bool
  | task .. => false
  | chain ts _ => startsGroupAll ts
  | group _ ts _ => decide (2 ≤ ts.length)
  | chord .. => false

def startsGroupAll : List (Sig V) → Bool
  | [] => false
  | t :: _ => startsGroup t

end

mutual

/-- Taken apart, it begins with a task or a chord. -/
def startsCall : Sig V → Bool
  | task .. => true
  | chain ts _ => startsCallAll ts
  | group _ [t] _ => !t.isGroup && startsCall t
  | group .. => false
  | chord .. => true

def startsCallAll : List (Sig V) → Bool
  | [] => false
  | t :: _ => startsCall t

end

theorem unpackedAll_eq_map (ts : List (Sig V)) : unpackedAll ts = ts.map unpacked :=
  map_of_cons rfl (fun _ _ => rfl) ts

@[simp] theorem unpackedAll_append (ts us : List (Sig V)) :
    unpackedAll (ts ++ us) = unpackedAll ts ++ unpackedAll us := by
  simp only [unpackedAll_eq_map, List.map_append]

mutual

/-- There is nothing to take apart in what is solid. -/
theorem unpacked_of_solid : ∀ s : Sig V, s.solid = true → s.unpacked = s
  | task .., _ => rfl
  | chain ts f, h => by rw [unpacked, unpackedAll_of_solid ts h]
  | group _ [] _, h => by cases h
  | group _ [_] _, h => by cases h
  | group _ (_ :: _ :: _) _, _ => rfl
  | chord .., _ => rfl

theorem unpackedAll_of_solid : ∀ ts : List (Sig V), solidAll ts = true → unpackedAll ts = ts
  | [], _ => rfl
  | t :: ts, h => by
    rw [solidAll, Bool.and_eq_true] at h
    rw [unpackedAll, unpacked_of_solid t h.1, unpackedAll_of_solid ts h.2]

end

theorem tame_of_solid {s : Sig V} (h : s.solid = true) : s.tame = true := by
  rw [tame, unpacked_of_solid s h, h]

theorem tame_chain {ts : List (Sig V)} {f : Fields V (Sig V)} :
    (chain ts f).tame = true ↔ ∀ t ∈ ts, t.tame = true := by
  rw [tame, unpacked, solid, solidAll_iff, unpackedAll_eq_map, List.forall_mem_map]
  rfl

mutual

theorem tame_clone : ∀ s : Sig V, s.clone.tame = s.tame
  | task .. => rfl
  | chain ts _ => by
    rw [clone, tame, tame, unpacked, unpacked, solid, solid, solidAll_unpackedAll_cloneAll ts]
  | group _ [] _ => rfl
  | group _ [_] _ => rfl
  | group _ (_ :: _ :: _) _ => rfl
  | chord _ _ (some _) _ _ => rfl
  | chord _ _ none _ _ => rfl

theorem solidAll_unpackedAll_cloneAll : ∀ ts : List (Sig V),
    solidAll (unpackedAll (cloneAll ts)) = solidAll (unpackedAll ts)
  | [] => rfl
  | t :: ts => by
    have ht := tame_clone t
    rw [tame, tame] at ht
    rw [cloneAll, unpackedAll, unpackedAll, solidAll, solidAll, ht,
      solidAll_unpackedAll_cloneAll ts]

end

theorem isSmall_clone (s : Sig V) : s.clone.isSmall = s.isSmall := by
  cases s with
  | chord l h hg b f => cases hg <;> rfl
  | _ => rfl

mutual

theorem startsGroup_clone : ∀ s : Sig V, s.clone.startsGroup = s.startsGroup
  | task .. => rfl
  | chain ts _ => by rw [clone, startsGroup, startsGroup, startsGroupAll_cloneAll ts]
  | group .. => rfl
  | chord _ _ (some _) _ _ => rfl
  | chord _ _ none _ _ => rfl

theorem startsGroupAll_cloneAll : ∀ ts : List (Sig V),
    startsGroupAll (cloneAll ts) = startsGroupAll ts
  | [] => rfl
  | t :: ts => by rw [cloneAll, startsGroupAll, startsGroupAll, startsGroup_clone t]

end

mutual

theorem startsCall_clone : ∀ s : Sig V, s.clone.startsCall = s.startsCall
  | task .. => rfl
  | chain ts _ => by rw [clone, startsCall, startsCall, startsCallAll_cloneAll ts]
  | group _ [] _ => rfl
  | group _ [_] _ => rfl
  | group _ (_ :: _ :: _) _ => rfl
  | chord _ _ (some _) _ _ => rfl
  | chord _ _ none _ _ => rfl

theorem startsCallAll_cloneAll :
    ∀ ts : List (Sig V), startsCallAll (cloneAll ts) = startsCallAll ts
  | [] => rfl
  | t :: _ => startsCall_clone t

end

theorem getLast?_cloneAll (ts : List (Sig V)) :
    (cloneAll ts).getLast? = ts.getLast?.map clone := by
  rw [cloneAll_eq_map, List.getLast?_map]

theorem isEmpty_cloneAll (ts : List (Sig V)) : (cloneAll ts).isEmpty = ts.isEmpty := by
  rw [cloneAll_eq_map, List.isEmpty_map]

/-- A chain and its copy end alike. -/
theorem any_isSmall_cloneAll (ts : List (Sig V)) :
    (cloneAll ts).getLast?.any isSmall = ts.getLast?.any isSmall := by
  rw [getLast?_cloneAll, Option.any_map]
  exact congrArg (ts.getLast?.any ·) (funext isSmall_clone)

theorem not_isSmall_of_solid {s : Sig V} (h : s.solid = true) : s.isSmall = false := by
  cases s with
  | group l ts f =>
    rw [solid, decide_eq_true_iff] at h
    rw [isSmall, decide_eq_false_iff_not]
    omega
  | _ => rfl

theorem closed_of_solid {s : Sig V} (h : s.solid = true) : s.closed = true := by
  cases s with
  | chain ts f =>
    rw [solid, solidAll_iff] at h
    rw [closed, Bool.not_eq_true', Option.any_eq_false]
    exact fun t ht => Bool.not_eq_true _ ▸ not_isSmall_of_solid (h t (List.mem_of_getLast? ht))
  | group l ts f => exact (congrArg Bool.not (not_isSmall_of_solid h)).trans rfl
  | _ => rfl

theorem mapLast_snoc (g : Sig V → Sig V) (ts : List (Sig V)) (t : Sig V) :
    mapLast g (ts ++ [t]) = ts ++ [g t] := by
  rw [mapLast, List.getLast?_concat]
  simp only [List.dropLast_concat]

theorem exists_snoc_of_lastIsChord {ts : List (Sig V)} (h : lastIsChord ts = true) :
    ∃ init t, ts = init ++ [t] ∧ t.isChord = true := by
  unfold lastIsChord at h
  cases ht : ts.getLast? with
  | none =>
    rw [ht] at h
    cases h
  | some t =>
    rw [ht, Option.any_some] at h
    exact ⟨ts.dropLast, t, (List.dropLast_append_getLast? t ht).symm, h⟩

theorem isChord_mapBody (g : Sig V → Sig V) {s : Sig V} (h : s.isChord = true) :
    (s.mapBody g).isChord = true := by
  cases s with
  | chord => rfl
  | _ => cases h

theorem unpacked_of_isChord {s : Sig V} (h : s.isChord = true) : s.unpacked = s := by
  cases s with
  | chord => rfl
  | _ => cases h

theorem not_isSmall_of_isChord {s : Sig V} (h : s.isChord = true) : s.isSmall = false := by
  cases s with
  | chord => rfl
  | _ => cases h

theorem solid_of_isChord {s : Sig V} (h : s.isChord = true) : s.solid = true := by
  cases s with
  | chord => rfl
  | _ => cases h

end Sig

section

variable {D : Type} {m : Meaning V D}

mutual

theorem denote_unpacked_clone : ∀ (s : Sig V) (x : D),
    denote m s.clone.unpacked x = denote m s.unpacked x
  | task .., _ => rfl
  | chain ts _, x => by
    rw [clone, unpacked, unpacked, denote, denote, denoteChain_unpackedAll_cloneAll ts]
  | group _ [] _, _ => rfl
  | group _ [_] _, _ => rfl
  | group _ (_ :: _ :: _) _, _ => rfl
  | chord l h hg b f, x => by
    rw [unpacked_of_isChord (isChord_clone _), denote_clone]
    rfl

theorem denoteChain_unpackedAll_cloneAll : ∀ (ts : List (Sig V)) (x : D),
    denoteChain m (unpackedAll (cloneAll ts)) x = denoteChain m (unpackedAll ts) x
  | [], _ => rfl
  | t :: ts, x => by
    rw [cloneAll, unpackedAll, unpackedAll, denoteChain, denoteChain, denote_unpacked_clone t,
      denoteChain_unpackedAll_cloneAll ts]

end

theorem denoteChain_unpackedAll_snoc (ts : List (Sig V)) (t : Sig V) (x : D) :
    denoteChain m (unpackedAll (ts ++ [t])) x
      = denote m t.unpacked (denoteChain m (unpackedAll ts) x) := by
  rw [unpackedAll_append, denoteChain_append]
  rfl

variable (m) in
/-- The steps `us` become `vs` as `other` is chained to them. -/
structure StepsAbsorb (us : List (Sig V)) (other : Sig V) (vs : List (Sig V)) : Prop where
  ne : vs ≠ []
  closed : vs.getLast?.any isSmall = false
  tame : (∀ u ∈ us, u.tame = true) → ∀ v ∈ vs, v.tame = true
  solid : (∀ u ∈ us, u.solid = true) → ∀ v ∈ vs, v.solid = true
  denote : ∀ x, denoteChain m (unpackedAll vs) x
    = denote m other.unpacked (denoteChain m (unpackedAll us) x)

variable (m) in
/-- **A chain `s` becomes the chain `r` as it takes `other` apart**: it feeds what it made of its
own steps to what is left of `other`. -/
structure Absorbs (s other r : Sig V) : Prop where
  isLong : r.isLong = true
  closed : r.closed = true
  tame : s.tame = true → r.tame = true
  solid : s.solid = true → r.solid = true
  denote : ∀ x, denote m r.unpacked x = denote m other.unpacked (denote m s.unpacked x)

/-- The steps are copied first. -/
theorem StepsAbsorb.absorbs {ts vs : List (Sig V)} {other : Sig V}
    (h : StepsAbsorb m (cloneAll ts) other vs) (f fs : Fields V (Sig V)) :
    Absorbs m (.chain ts f) other (.chain vs fs) where
  isLong := by
    rw [isLong, Bool.not_eq_true', List.isEmpty_eq_false_iff]
    exact h.ne
  closed := by rw [Sig.closed, h.closed, Bool.not_false]
  tame hts := by
    rw [tame_chain] at hts ⊢
    refine h.tame ?_
    rw [cloneAll_eq_map, List.forall_mem_map]
    exact fun t ht => (tame_clone t).trans (hts t ht)
  solid hts := by
    rw [Sig.solid, ← solidAll_cloneAll, solidAll_iff] at hts
    rw [Sig.solid, solidAll_iff]
    exact h.solid hts
  denote x := by
    rw [unpacked, unpacked, Canvas.denote, Canvas.denote, h.denote,
      denoteChain_unpackedAll_cloneAll]

/-- A step more. -/
theorem stepsAbsorb_snoc (us : List (Sig V)) {other : Sig V} (ho : other.solid = true) :
    StepsAbsorb m us other (us ++ [other]) where
  ne := List.concat_ne_nil _ _
  closed := by
    rw [List.getLast?_concat, Option.any_some]
    exact not_isSmall_of_solid ho
  tame hus := List.forall_mem_append.mpr ⟨hus, List.forall_mem_singleton.mpr (tame_of_solid ho)⟩
  solid hus := List.forall_mem_append.mpr ⟨hus, List.forall_mem_singleton.mpr ho⟩
  denote x := denoteChain_unpackedAll_snoc us other x

/-- More for the body of the chord at the end. -/
theorem stepsAbsorb_mapLast {us : List (Sig V)} {other : Sig V} (g : Sig V → Sig V)
    (hlast : lastIsChord us = true) (ho : other.solid = true)
    (hg : ∀ u ∈ us, ∀ b, u.body? = some b → ∀ x, denote m (g b) x = denote m other (denote m b x)) :
    StepsAbsorb m us other (mapLast (mapBody g) us) := by
  obtain ⟨init, t, rfl, ht⟩ := exists_snoc_of_lastIsChord hlast
  have hchord := isChord_mapBody g ht
  rw [mapLast_snoc]
  refine ⟨List.concat_ne_nil _ _, ?_, fun hus => ?_, fun hus => ?_, fun x => ?_⟩
  · rw [List.getLast?_concat, Option.any_some]
    exact not_isSmall_of_isChord hchord
  · rw [List.forall_mem_append] at hus ⊢
    exact ⟨hus.1, List.forall_mem_singleton.mpr (tame_of_solid (solid_of_isChord hchord))⟩
  · rw [List.forall_mem_append] at hus ⊢
    exact ⟨hus.1, List.forall_mem_singleton.mpr (solid_of_isChord hchord)⟩
  · rw [denoteChain_unpackedAll_snoc, denoteChain_unpackedAll_snoc, unpacked_of_isChord hchord,
      unpacked_of_isChord ht, unpacked_of_solid other ho]
    exact denote_mapBody ht (hg t (List.mem_append_right _ (List.mem_singleton_self t))) _

/-- The group at the end becomes the header of a chord, whose body is `other`. -/
theorem stepsAbsorb_upgrade {init : List (Sig V)} {l : Bool} {gs : List (Sig V)}
    {f : Fields V (Sig V)} {other : Sig V} (g : Sig V → Sig V)
    (hgs : (group l gs f).isSmall = false) (ho : other.solid = true)
    (hg : ∀ u ∈ init, ∀ b, u.body? = some b →
      ∀ x, denote m (g b) x = denote m (.chord l gs none other {}) (denote m b x)) :
    StepsAbsorb m (init ++ [.group l gs f]) other
      (if lastIsChord init then mapLast (mapBody g) init
      else init ++ [.chord l gs none other {}]) := by
  have hgroup : (group l gs f).unpacked = .group l gs f := by
    refine unpacked_of_solid _ ?_
    rw [isSmall, decide_eq_false_iff_not] at hgs
    rw [Sig.solid, decide_eq_true_iff]
    omega
  have hchord : StepsAbsorb m init (.chord l gs none other {})
      (if lastIsChord init then mapLast (mapBody g) init
      else init ++ [.chord l gs none other {}]) := by
    split
    next hlast => exact stepsAbsorb_mapLast g hlast rfl hg
    next => exact stepsAbsorb_snoc init rfl
  refine ⟨hchord.ne, hchord.closed, fun hus => hchord.tame (List.forall_mem_append.mp hus).1,
    fun hus => hchord.solid (List.forall_mem_append.mp hus).1, fun x => ?_⟩
  rw [hchord.denote, denoteChain_unpackedAll_snoc, hgroup, unpacked_of_solid other ho, unpacked,
    denote, denote]

theorem Absorbs.trans {s o r o' r' q : Sig V} (h : Absorbs m s o r) (h' : Absorbs m r o' r')
    (hq : ∀ x, Canvas.denote m q.unpacked x
      = Canvas.denote m o'.unpacked (Canvas.denote m o.unpacked x)) :
    Absorbs m s q r' where
  isLong := h'.isLong
  closed := h'.closed
  tame hs := h'.tame (h.tame hs)
  solid hs := h'.solid (h.solid hs)
  denote x := by rw [h'.denote, h.denote, hq]

/-- Nothing is absorbed. -/
theorem Absorbs.refl {s o : Sig V} (hlong : s.isLong = true) (hclosed : s.closed = true)
    (ho : ∀ x, Canvas.denote m o.unpacked x = x) : Absorbs m s o s where
  isLong := hlong
  closed := hclosed
  tame hs := hs
  solid hs := hs
  denote x := by rw [ho]

/-- A chain absorbs one step after the other. -/
theorem absorbs_foldl {g : Sig V → Sig V → Sig V} {vs : List (Sig V)}
    (hg : ∀ v ∈ vs, ∀ s, s.isLong = true → (s.closed = true ∨ v.startsGroup = true) →
      Absorbs m s v (g s v)) {s : Sig V} (hs : s.isLong = true)
    (hend : s.closed = true ∨ startsGroupAll vs = true) :
    Absorbs m s (.chain vs {}) (vs.foldl g s) := by
  induction vs generalizing s with
  | nil => exact .refl hs (hend.resolve_right Bool.false_ne_true) fun x => rfl
  | cons v vs ih =>
    rw [List.forall_mem_cons] at hg
    have hfirst := hg.1 s hs hend
    exact hfirst.trans (ih hg.2 hfirst.isLong (.inl hfirst.closed)) fun x => rfl

/-- **A chain absorbs what it does not take apart.** -/
theorem absorbs_orAtom {n : ℕ} {ts : List (Sig V)} {f : Fields V (Sig V)} {other : Sig V}
    (hn : (chain ts f).weight ≤ n) (hne : ts ≠ []) (ho : other.solid = true)
    (hend : (chain ts f).closed = true ∨ other.isGroup = true) :
    Absorbs m (chain ts f) other (orAtom n (chain ts f) other) := by
  obtain ⟨n, rfl⟩ : ∃ k, n = k + 1 := ⟨n - 1, by have := (chain ts f).weight_pos; omega⟩
  rw [weight] at hn
  have hempty := isEmptyGroup_of_solid ho
  have hbody : ∀ other : Sig V, other.isEmptyGroup = false → ∀ t ∈ cloneAll ts, ∀ b,
      t.body? = some b → ∀ x, denote m (orAtom n b other) x = denote m other (denote m b x) := by
    intro other hother t ht b hb x
    have hlt := weight_lt_of_body ht hb
    rw [weightAll_cloneAll] at hlt
    exact denote_orAtom n b other (by omega) hother x
  simp only [orAtom, hempty, Bool.false_eq_true, if_false]
  split
  next =>
    rw [isEmpty_cloneAll, if_neg (by rwa [List.isEmpty_iff])]
    split
    next hlast => exact (stepsAbsorb_mapLast _ hlast ho (hbody other hempty)).absorbs f {}
    next => exact (stepsAbsorb_snoc _ ho).absorbs f {}
  next hgroup =>
    split
    next l gs fs hlast =>
      have hsnoc : cloneAll ts = (cloneAll ts).dropLast ++ [.group l gs fs] :=
        (List.dropLast_append_getLast? _ hlast).symm
      have hsmall : (group l gs fs).isSmall = false := by
        have hclosed := hend.resolve_right hgroup
        rwa [Sig.closed, ← any_isSmall_cloneAll, hlast, Option.any_some,
          Bool.not_eq_true'] at hclosed
      have hupgrade := stepsAbsorb_upgrade (m := m) (orAtom n · (.chord l gs none other {}))
        hsmall ho fun t ht => hbody _ rfl t (List.dropLast_subset _ ht)
      rw [← hsnoc] at hupgrade
      split
      next hchord =>
        rw [if_pos hchord] at hupgrade
        exact hupgrade.absorbs f _
      next hchord =>
        rw [if_neg hchord] at hupgrade
        exact hupgrade.absorbs f _
    next =>
      split
      next hlast =>
        rw [Bool.and_eq_true] at hlast
        exact (stepsAbsorb_mapLast _ hlast.1 ho (hbody other hempty)).absorbs f _
      next => exact (stepsAbsorb_snoc _ ho).absorbs f {}

/-- **A chain takes apart what is chained to it.** -/
theorem absorbs_orFuel (n : ℕ) {s other : Sig V} (hn : other.weight ≤ n) (hs : s.isLong = true)
    (ho : other.tame = true) (hend : s.closed = true ∨ other.startsGroup = true) :
    Absorbs m s other (orFuel n s other) := by
  induction n generalizing s other with
  | zero =>
    have := other.weight_pos
    omega
  | succ n ih =>
    cases s with
    | chain us f =>
      have hne : us ≠ [] := by
        rintro rfl
        cases hs
      have hatom : other.solid = true → ((chain us f).closed = true ∨ other.isGroup = true) →
          Absorbs m (chain us f) other (orAtom (chain us f).weight (chain us f) other) :=
        absorbs_orAtom le_rfl hne
      cases other with
      | task => exact hatom rfl (.inl (hend.resolve_right (by simp [startsGroup])))
      | chord => exact hatom rfl (.inl (hend.resolve_right (by simp [startsGroup])))
      | group l ts fs =>
        cases ts with
        | nil =>
          -- an empty group is dropped
          have hsame : orFuel (n + 1) (chain us f) (.group l [] fs) = chain us f := by
            rw [orFuel.eq_def]
            obtain ⟨k, hk⟩ : ∃ k, (chain us f).weight = k + 1 :=
              ⟨(chain us f).weight - 1, by have := (chain us f).weight_pos; omega⟩
            simp only [hk, orAtom, isEmptyGroup, if_true]
          rw [hsame]
          exact .refl hs (hend.resolve_right (by simp [startsGroup])) fun x => rfl
        | cons t ts => cases ts with
          | cons u ts => exact hatom rfl (.inr rfl)
          | nil =>
            have ht : t.solid = true := ho
            have hclosed : (chain us f).closed = true := hend.resolve_right Bool.false_ne_true
            have hweight : t.weight ≤ n := by
              simp only [weight, weightAll] at hn
              omega
            have hgroup : ∀ {r : Sig V}, Absorbs m (chain us f) t r →
                Absorbs m (chain us f) (.group l [t] fs) r := fun h =>
              ⟨h.isLong, h.closed, h.tame, h.solid, fun x => by
                rw [h.denote, unpacked_of_solid t ht]
                rfl⟩
            simp only [orFuel]
            split
            · exact hgroup (ih hweight hs (tame_of_solid ht) (.inl hclosed))
            rw [isEmpty_cloneAll, if_neg (by rwa [List.isEmpty_iff])]
            split
            next hlast =>
              exact hgroup <| (stepsAbsorb_mapLast _ hlast ht
                fun _ _ b _ => denote_orFuel n b t hweight ht).absorbs f {}
            next => exact hgroup ((stepsAbsorb_snoc _ ht).absorbs f {})
      | chain ts fs =>
        have hts : ∀ t ∈ cloneAll ts, t.tame = true ∧ t.weight ≤ n := by
          intro t ht
          have hle := weight_le_weightAll ht
          rw [weightAll_cloneAll] at hle
          rw [weight] at hn
          refine ⟨?_, by omega⟩
          rw [← tame_clone, clone, tame_chain] at ho
          exact ho t ht
        have hstart : (chain us f).closed = true ∨ startsGroupAll (cloneAll ts) = true := by
          rwa [startsGroupAll_cloneAll]
        have h : Absorbs m (chain us f) (.chain (cloneAll ts) {}) _ :=
          absorbs_foldl (fun t ht s hs hend => ih (hts t ht).2 hs (hts t ht).1 hend) hs hstart
        simp only [orFuel]
        refine ⟨h.isLong, h.closed, h.tame, h.solid, fun x => ?_⟩
        rw [h.denote, unpacked, denote, denoteChain_unpackedAll_cloneAll]
        rfl
    | _ => cases hs

theorem absorbs_orSig {s other : Sig V} (hs : s.isLong = true) (ho : other.tame = true)
    (hend : s.closed = true ∨ other.startsGroup = true) : Absorbs m s other (orSig s other) :=
  absorbs_orFuel _ le_rfl hs ho hend

/-- **An empty chain takes apart what begins with a task or a chord.** -/
theorem solid_orFuel_nil (n : ℕ) {other : Sig V} (f : Fields V (Sig V)) (hn : other.weight ≤ n)
    (ho : other.tame = true) (hstart : other.startsCall = true) :
    (orFuel n (.chain [] f) other).isLong = true ∧ (orFuel n (.chain [] f) other).solid = true ∧
      ∀ x, denote m (orFuel n (.chain [] f) other) x = denote m other.unpacked x := by
  induction n generalizing other with
  | zero =>
    have := other.weight_pos
    omega
  | succ n ih =>
    cases other with
    | task => exact ⟨rfl, rfl, fun x => rfl⟩
    | chord => exact ⟨rfl, rfl, fun x => rfl⟩
    | group l ts g =>
      rcases ts with _ | ⟨t, _ | _⟩
      · cases hstart
      · rw [startsCall, Bool.and_eq_true, Bool.not_eq_true'] at hstart
        have ht : t.solid = true := ho
        simp only [weight, weightAll] at hn
        simp only [orFuel, hstart.1, Bool.not_false, if_true]
        have h := ih (by omega) (tame_of_solid ht) hstart.2
        rwa [unpacked_of_solid t ht] at h
      · cases hstart
    | chain ts g => cases ts with
      | nil => cases hstart
      | cons t ts =>
        rw [tame_chain, List.forall_mem_cons] at ho
        simp only [weight, weightAll] at hn
        have hweight : t.clone.weight + weightAll (cloneAll ts) = t.weight + weightAll ts :=
          weightAll_cloneAll (t :: ts)
        have htame : t.clone.tame = true := (tame_clone t).trans ho.1
        obtain ⟨hlong, hsolid, hdenote⟩ :=
          ih (by omega) htame ((startsCall_clone t).trans hstart)
        have hts : ∀ u ∈ cloneAll ts, u.tame = true ∧ u.weight ≤ n := by
          intro u hu
          have hle := weight_le_weightAll hu
          rw [cloneAll_eq_map, List.mem_map] at hu
          obtain ⟨v, hv, rfl⟩ := hu
          exact ⟨(tame_clone v).trans (ho.2 v hv), by omega⟩
        have h : Absorbs m (orFuel n (.chain [] f) t.clone) (.chain (cloneAll ts) {}) _ :=
          absorbs_foldl (fun u hu s hs hend => absorbs_orFuel n (hts u hu).2 hs (hts u hu).1 hend)
            hlong (.inl (closed_of_solid hsolid))
        refine ⟨h.isLong, h.solid hsolid, fun x => ?_⟩
        have hstep := h.denote x
        rw [unpacked_of_solid _ (h.solid hsolid), unpacked_of_solid _ hsolid, hdenote,
          denote_unpacked_clone, unpacked, denote, denoteChain_unpackedAll_cloneAll] at hstep
        exact hstep

/-- There is fuel. -/
theorem orSig_eq (s other : Sig V) : orSig s other = orFuel (other.weight - 1 + 1) s other := by
  rw [Nat.sub_add_cancel other.weight_pos, orSig]

/-- What is chained to a chord goes to its body, or comes behind it. -/
theorem orAtom_chord {s : Sig V} (other : Sig V) (hs : s.isChord = true) :
    orAtom s.weight s other = if other.isGroup then .chain [s, other] {}
      else s.clone.mapBody (orAtom (s.weight - 1) · other) := by
  obtain ⟨n, hn⟩ : ∃ n, s.weight = n + 1 := ⟨s.weight - 1, by have := s.weight_pos; omega⟩
  cases s with
  | chord => rw [hn]; rfl
  | _ => cases hs

/-- A chord passes its result on to what its body is chained to. -/
theorem denote_clone_mapBody {s other : Sig V} (g : Sig V → Sig V) (hs : s.isChord = true)
    (hg : ∀ b, s.body? = some b → ∀ x, denote m (g b.clone) x = denote m other (denote m b x))
    (x : D) : denote m (s.clone.mapBody g) x = denote m other (denote m s x) := by
  have hbody : ∀ b, s.clone.body? = some b →
      ∀ y, denote m (g b) y = denote m other (denote m b y) := by
    intro b hb y
    obtain ⟨b', hb', rfl⟩ := Option.map_eq_some_iff.mp ((body?_clone s).symm.trans hb)
    rw [hg b' hb', denote_clone]
  rw [denote_mapBody ((isChord_clone s).trans hs) hbody x, denote_clone]

variable (m) in
/-- **What a task or a chord makes of `other`**, which is not taken apart: a chain may still take
apart the steps that it becomes. -/
structure Feeds (s other r : Sig V) : Prop where
  closed : other.closed = true → r.closed = true
  tame : r.tame = true
  denote : ∀ x, denote m r.unpacked x = denote m other.unpacked (denote m s x)

/-- The steps come behind the task or chord. -/
theorem feeds_chain {s other : Sig V} {us : List (Sig V)}
    (hs : s.isTask = true ∨ s.isChord = true) (hus : ∀ u ∈ us, u.tame = true)
    (hclosed : other.closed = true → us.getLast?.any isSmall = false)
    (hdenote : ∀ x, denoteChain m (unpackedAll us) x = denote m other.unpacked x) :
    Feeds m s other (.chain (s :: us) {}) := by
  have hsolid : s.solid = true := by
    cases s with
    | task => rfl
    | chord => rfl
    | _ => simp [isTask, isChord] at hs
  refine ⟨fun ho => ?_, ?_, fun x => ?_⟩
  · have hlast : (s :: us).getLast?.any isSmall = false := by
      cases us with
      | nil => exact not_isSmall_of_solid hsolid
      | cons u us => exact hclosed ho
    rw [Sig.closed, hlast, Bool.not_false]
  · rw [tame_chain, List.forall_mem_cons]
    exact ⟨tame_of_solid hsolid, hus⟩
  · rw [unpacked, Canvas.denote, unpackedAll, denoteChain, unpacked_of_solid s hsolid, hdenote]

/-- The body of the chord is chained to it. -/
theorem feeds_mapBody {s other : Sig V} (g : Sig V → Sig V) (hs : s.isChord = true)
    (hg : ∀ b, s.body? = some b →
      ∀ x, denote m (g b.clone) x = denote m other.unpacked (denote m b x)) :
    Feeds m s other (s.clone.mapBody g) := by
  have hchord : (s.clone.mapBody g).isChord = true :=
    isChord_mapBody g ((isChord_clone s).trans hs)
  have hsolid := solid_of_isChord hchord
  refine ⟨fun _ => ?_, tame_of_solid hsolid, fun x => ?_⟩
  · generalize s.clone.mapBody g = r at hchord
    cases r with
    | chord => rfl
    | _ => cases hchord
  · rw [unpacked_of_isChord hchord]
    exact denote_clone_mapBody g hs hg x

theorem feeds_orSig {s other : Sig V} (hs : s.isTask = true ∨ s.isChord = true)
    (ho : other.tame = true) : Feeds m s other (orSig s other) := by
  -- what is no chain is one step
  have hsingle : other.isChain = false → Feeds m s other (.chain [s, other] {}) := by
    intro hother
    refine feeds_chain hs (List.forall_mem_singleton.mpr ho) (fun hclosed => ?_) fun x => rfl
    cases other with
    | chain => cases hother
    | _ => exact Bool.eq_false_of_not_eq_true' hclosed
  rw [orSig_eq]
  cases other with
  | chain ts f =>
    have hchain : orFuel ((chain ts f).weight - 1 + 1) s (.chain ts f)
        = .chain (s :: cloneAll ts) {} := by
      cases s with
      | task => rfl
      | chord => rfl
      | _ => simp [isTask, isChord] at hs
    rw [hchain]
    rw [← tame_clone, clone, tame_chain] at ho
    refine feeds_chain hs ho (fun hclosed => ?_) fun x => ?_
    · rw [Sig.closed, Bool.not_eq_true'] at hclosed
      rwa [any_isSmall_cloneAll]
    · rw [denoteChain_unpackedAll_cloneAll]
      rfl
  | group l ts f =>
    cases s with
    | task name fs =>
      cases ts with
      | nil => exact hsingle rfl
      | cons t ts => cases ts with
        | cons u ts => exact hsingle rfl
        | nil =>
          have ht : t.solid = true := ho
          refine feeds_chain hs (List.forall_mem_singleton.mpr (tame_of_solid ht)) (fun _ => ?_)
            fun x => ?_
          · exact not_isSmall_of_solid ht
          · rw [unpackedAll, unpacked_of_solid t ht]
            rfl
    | chord l' h hg b fs =>
      have hgroup : Feeds m (chord l' h hg b fs) (.group l ts f)
          (orAtom (chord l' h hg b fs).weight (.chord l' h hg b fs) (.group l ts f)) := by
        rw [orAtom_chord _ rfl]
        exact hsingle rfl
      cases ts with
      | nil => exact hgroup
      | cons t ts => cases ts with
        | cons u ts => exact hgroup
        | nil =>
          have ht : t.solid = true := ho
          refine feeds_mapBody _ rfl fun b' _ x => ?_
          rw [denote_orFuel _ _ t ?_ ht, denote_clone]
          · rfl
          · simp only [weight, weightAll]
            omega
    | _ => simp [isTask, isChord] at hs
  | _ =>
    cases s with
    | task name fs => exact hsingle rfl
    | chord l' h hg b fs =>
      rw [orFuel, orAtom_chord _ rfl, if_neg (by simp [isGroup])]
      · refine feeds_mapBody _ rfl fun b' hb' x => ?_
        cases hb'
        rw [denote_orAtom _ _ _ ?_ rfl, denote_clone]
        · rfl
        · rw [weight_of_shape_eq b.shape_clone, weight]
          omega
      all_goals simp
    | _ => simp [isTask, isChord] at hs

end

/-! ### Groups of one, and empty ones -/

namespace Sig

/-- `group([t])`, which all but groups unroll. -/
def unrolls : Sig V → Bool
  | group _ [t] _ => t.solid
  | _ => false

/-- `group([])`, which groups and chains drop. -/
def dropped : Sig V → Bool
  | group false [] _ => true
  | _ => false

/-- A group of one. -/
def isOne : Sig V → Bool
  | group _ [_] _ => true
  | _ => false

/-- A chain with two steps or more. -/
def severalSteps : Sig V → Bool
  | chain (_ :: _ :: _) _ => true
  | _ => false

theorem exists_of_unrolls {z : Sig V} (h : z.unrolls = true) :
    ∃ l t f, z = group l [t] f ∧ t.solid = true := by
  cases z with
  | group l ts f =>
    rcases ts with _ | ⟨t, _ | _⟩
    · cases h
    · exact ⟨l, t, f, rfl, h⟩
    · cases h
  | _ => cases h

theorem not_dropped_cons {l : Bool} {t : Sig V} {ts : List (Sig V)} {f : Fields V (Sig V)} :
    (group l (t :: ts) f).dropped = false := by
  cases l <;> rfl

theorem not_dropped_of_solid {z : Sig V} (h : z.solid = true) : z.dropped = false := by
  cases z with
  | group l ts f =>
    cases ts with
    | nil => cases h
    | cons => exact not_dropped_cons
  | _ => rfl

theorem exists_of_dropped {z : Sig V} (h : z.dropped = true) : ∃ f, z = group false [] f := by
  cases z with
  | group l ts f =>
    cases l with
    | true => cases ts <;> cases h
    | false =>
      cases ts with
      | nil => exact ⟨f, rfl⟩
      | cons => cases h
  | _ => cases h

end Sig

section

variable {D : Type} {m : Meaning V D}

/-- **All but groups unroll a group of one.** -/
theorem denote_orSig_unrolls {s t : Sig V} {l : Bool} {f : Fields V (Sig V)}
    (hs : s.isGroup = false) (ht : t.solid = true) :
    (∀ x, denote m (orSig s (.group l [t] f)) x = denote m t (denote m s x)) ∧
      (s.solid = true → (orSig s (.group l [t] f)).solid = true) := by
  have hweight : t.weight ≤ (Sig.group l [t] f).weight - 1 := by simp [weight, weightAll]
  have hdenote := fun s x => denote_orFuel (m := m) _ s t hweight ht x
  rw [orSig_eq]
  cases s with
  | task name g =>
    refine ⟨fun x => rfl, fun _ => ?_⟩
    simp [orFuel, solid, solidAll, ht]
  | group => cases hs
  | chord l' h hg b g =>
    refine ⟨fun x => ?_, fun _ => solid_mapBody _ ((solid_clone _).trans rfl)⟩
    exact denote_clone_mapBody (orFuel _ · t) rfl (fun b' _ y => by rw [hdenote, denote_clone]) x
  | chain us g =>
    have hsnoc : ∀ x, denote m (.chain (cloneAll us ++ [t]) {}) x
        = denote m t (denote m (.chain us g) x) := fun x => by
      rw [denote, denoteChain_append, denoteChain_cloneAll]
      rfl
    have hsolid : (Sig.chain us g).solid = true → ∀ u ∈ cloneAll us, u.solid = true := fun h => by
      rwa [← solidAll_iff, solidAll_cloneAll]
    simp only [orFuel]
    split
    · exact ⟨hdenote _, fun h => solid_orFuel _ h ht⟩
    split
    next hempty =>
      rw [isEmpty_cloneAll, List.isEmpty_iff] at hempty
      subst hempty
      exact ⟨fun x => rfl, fun _ => ht⟩
    split
    next hlast =>
      refine ⟨fun x => ?_, fun h => ?_⟩
      · rw [denote, denoteChain_mapLast hlast (fun _ _ b _ y => hdenote b y),
          denoteChain_cloneAll]
        rfl
      · rw [solid, solidAll_iff]
        exact solid_mapLast _ (hsolid h)
    next =>
      refine ⟨hsnoc, fun h => ?_⟩
      rw [solid, solidAll_iff, List.forall_mem_append, List.forall_mem_singleton]
      exact ⟨hsolid h, ht⟩

/-- A chain drops an empty group. -/
theorem orSig_chain_of_isEmptyGroup (ts : List (Sig V)) (f : Fields V (Sig V)) {z : Sig V}
    (hz : z.isEmptyGroup = true) : orSig (.chain ts f) z = .chain ts f := by
  cases z with
  | group l gs g =>
    cases gs with
    | nil => rfl
    | cons => cases hz
  | _ => cases hz

/-- A group feeds its results to whatever comes next, solid or not, as its body. -/
theorem denote_group_orSig {l : Bool} {gs : List (Sig V)} {f : Fields V (Sig V)} {other : Sig V}
    (ho : other.dropped = false) (x : D) :
    denote m (orSig (.group l gs f) other) x = denote m other (denote m (.group l gs f) x) := by
  have hatom : other.isEmptyGroup = false → _ := fun h =>
    denote_orAtom (m := m) (Sig.group l gs f).weight (.group l gs f) other le_rfl h x
  rw [orSig_eq]
  cases other with
  | task => exact hatom rfl
  | chord => exact hatom rfl
  | chain => simp only [orFuel, denote]
  | group l' ts g =>
    rcases ts with _ | ⟨t, _ | _⟩
    · cases l' with
      | false => cases ho
      | true => rfl
    · simp only [orFuel, denote]
    · exact hatom rfl

/-- What is dropped does nothing to the input. -/
theorem denote_unpacked_dropped {z : Sig V} (hz : z.dropped = true) (x : D) :
    denote m z.unpacked x = x := by
  obtain ⟨g, rfl⟩ := exists_of_dropped hz
  rfl

theorem denoteChain_unpackedAll_dropped {zs : List (Sig V)} (hzs : zs.all dropped = true) (x : D) :
    denoteChain m (unpackedAll zs) x = x := by
  induction zs generalizing x with
  | nil => rfl
  | cons z zs ih =>
    rw [List.all_cons, Bool.and_eq_true] at hzs
    rw [unpackedAll, denoteChain, denote_unpacked_dropped hzs.1, ih hzs.2]

end

end Canvas
end Celery
