/-
# `celery/canvas.py`: the chaining operator

The four `__or__` methods: of a signature (lines 785-806), a chain (989-1038), a
group (1664-1673) and a chord (2154-2169), and `chain.__new__` (1436-1448), which is
their fold.  `orSig` is `self | other`.  What an operand is decides what becomes of
it: a chain on the right is taken apart step by step, a group of one is unrolled, and
what comes after a group makes it the header of a chord.

The operators recurse into the right operand, which `orFuel` has fuel for, and, with
what is left of it, into the bodies of the chords the left operand ends in, which
`orAtom` has fuel for.  The callbacks of a chain, which `unchain_tasks` hands on to its
steps, are left out.

Under the meaning that the docs give to signatures (`denote`) `self | other` should
feed the result of `self` to `other`.  It does if `other` is solid, that is neither a group
with less than two members nor a chain with such a step (`denote_orSig`): these are unrolled
or dropped by some of the methods, and kept by others.
-/

import Celery.Canvas.Steps

namespace Celery
namespace Canvas

open Sig

variable {V : Type}

namespace Sig

/-- `isinstance(sig, chord)`. -/
def isChord : Sig V → Bool
  | chord .. => true
  | _ => false

/-- The members are a `_regen`. -/
def isLazy : Sig V → Bool
  | group l _ _ => l
  | chord l _ _ _ _ => l
  | _ => false

/-- `sig.body = f(sig.body)`, of a chord. -/
def mapBody (f : Sig V → Sig V) : Sig V → Sig V
  | chord l h hg b fs => chord l h hg (f b) fs
  | s => s

/-- `tasks[-1]`, changed in place. -/
def mapLast (f : Sig V → Sig V) (ts : List (Sig V)) : List (Sig V) :=
  match ts.getLast? with
  | none => []
  | some t => ts.dropLast ++ [f t]

/-- `isinstance(tasks[-1], chord)`. -/
def lastIsChord (ts : List (Sig V)) : Bool := ts.getLast?.any isChord

end Sig

/-- `self | other`, where `other` is a task, a chord, or a group that does not have just
one member. -/
def orAtom : ℕ → Sig V → Sig V → Sig V
  | 0, s, _ => s
  | n + 1, s, other =>
    match s with
    | .task .. => .chain [s, other] {}
    | .group l ts _ =>
      if other.isEmptyGroup && !other.isLazy then s else .chord l ts none other {}
    | .chord .. =>
      if other.isGroup then .chain [s, other] {} else s.clone.mapBody (orAtom n · other)
    | .chain ts f =>
      let tasks := cloneAll ts
      if other.isEmptyGroup then s
      else if other.isGroup then
        if tasks.isEmpty then other
        else if lastIsChord tasks then .chain (mapLast (mapBody (orAtom n · other)) tasks) {}
        else .chain (tasks ++ [other]) {}
      else match tasks.getLast? with
        | some (.group l gs _) =>
          -- two chords in a row: the second one goes into the body of the first
          let init := tasks.dropLast
          let last := .chord l gs none other {}
          if lastIsChord init then
            .chain (mapLast (mapBody (orAtom n · last)) init) { options := f.options }
          else .chain (init ++ [last]) { options := f.options }
        | _ =>
          if lastIsChord tasks && !other.isChord then
            .chain (mapLast (mapBody (orAtom n · other)) tasks) { options := f.options }
          else .chain (tasks ++ [other]) {}

/-- `self | other`, with fuel for `other`. -/
def orFuel : ℕ → Sig V → Sig V → Sig V
  | 0, s, _ => s
  | n + 1, s, other =>
    match other, s with
    | .chain _ _, .group l gs _ => .chord l gs none other {}
    | .chain ts _, .chain _ _ => (cloneAll ts).foldl (orFuel n) s
    | .chain ts _, _ => .chain (s :: cloneAll ts) {}
    | .group _ [_] _, .group l gs _ => .chord l gs none other {}
    | .group _ [t] _, .task .. => .chain [s, t] {}
    | .group _ [t] _, .chord .. => s.clone.mapBody (orFuel n · t)
    | .group _ [t] _, .chain ts _ =>
      let tasks := cloneAll ts
      -- a group in a group of one is not unrolled again
      if !t.isGroup then orFuel n s t
      else if tasks.isEmpty then t
      else if lastIsChord tasks then .chain (mapLast (mapBody (orFuel n · t)) tasks) {}
      else .chain (tasks ++ [t]) {}
    | _, _ => orAtom s.weight s other

/-- **`self | other`.** -/
def orSig (s other : Sig V) : Sig V := orFuel other.weight s other

/-- `chain(*tasks)`: a single task makes a chain of one. -/
def chainNew : List (Sig V) → Sig V
  | [t] => .chain [t] {}
  | ts => ts.foldl orSig (.chain [] {})

/-! ### What signatures mean -/

/-- What tasks do, and what a list of results is as a value. -/
structure Meaning (V D : Type) where
  task : String → List V → List (String × V) → Bool → D → D
  pack : List D → D

section

variable {D : Type} (m : Meaning V D)

mutual

/-- **What a signature means**: a task maps its input to its result, a group maps it to
the list of the results of its members, a chord passes that list to its body, and a
chain feeds each result to the next step. -/
def denote : Sig V → D → D
  | .task n f, x => m.task n f.args f.kwargs f.immutable x
  | .chain ts _, x => denoteChain ts x
  | .group _ ts _, x => m.pack (denoteAll ts x)
  | .chord _ h _ b _, x => denote b (m.pack (denoteAll h x))

/-- Step after step. -/
def denoteChain : List (Sig V) → D → D
  | [], x => x
  | t :: ts, x => denoteChain ts (denote t x)

/-- All on the same input. -/
def denoteAll : List (Sig V) → D → List D
  | [], _ => []
  | t :: ts, x => denote t x :: denoteAll ts x

end

theorem denoteChain_append (ts us : List (Sig V)) (x : D) :
    denoteChain m (ts ++ us) x = denoteChain m us (denoteChain m ts x) := by
  induction ts generalizing x with
  | nil => rfl
  | cons t ts ih => rw [List.cons_append, denoteChain, denoteChain, ih]

mutual

/-- Copies mean the same. -/
theorem denote_clone : ∀ (s : Sig V) (x : D), denote m s.clone x = denote m s x
  | .task .., _ => rfl
  | .chain ts f, x => by rw [clone, denote, denote, denoteChain_cloneAll ts x]
  | .group .., _ => by rw [clone, denote, denote]
  | .chord l h (some o) b f, x => by rw [clone, denote, denote, denote_clone b]
  | .chord l h none b f, x => by
    rw [clone, denote, denote, denote_clone b, denoteAll_cloneAll h x]

theorem denoteChain_cloneAll : ∀ (ts : List (Sig V)) (x : D),
    denoteChain m (cloneAll ts) x = denoteChain m ts x
  | [], _ => rfl
  | t :: ts, x => by
    rw [cloneAll, denoteChain, denoteChain, denote_clone t, denoteChain_cloneAll ts]

theorem denoteAll_cloneAll : ∀ (ts : List (Sig V)) (x : D),
    denoteAll m (cloneAll ts) x = denoteAll m ts x
  | [], _ => rfl
  | t :: ts, x => by rw [cloneAll, denoteAll, denoteAll, denote_clone t, denoteAll_cloneAll ts]

end

theorem denoteChain_of_getLast? {ts : List (Sig V)} {t : Sig V} (h : ts.getLast? = some t) (x : D) :
    denoteChain m ts x = denote m t (denoteChain m ts.dropLast x) := by
  have hts : ts = ts.dropLast ++ [t] := (List.dropLast_append_getLast? t h).symm
  conv_lhs => rw [hts]
  rw [denoteChain_append, denoteChain, denoteChain]

variable {m}

/-- What is fed to the body of a chord is fed to the chord. -/
theorem denote_mapBody {g : Sig V → Sig V} {other s : Sig V} (hs : s.isChord = true)
    (hg : ∀ b, s.body? = some b → ∀ x, denote m (g b) x = denote m other (denote m b x)) (x : D) :
    denote m (s.mapBody g) x = denote m other (denote m s x) := by
  cases s with
  | chord l h hdr b f =>
    rw [mapBody, denote, denote]
    exact hg b rfl _
  | _ => cases hs

/-- What is fed to the body of the chord a chain ends in is fed to the chain. -/
theorem denoteChain_mapLast {g : Sig V → Sig V} {other : Sig V} {ts : List (Sig V)}
    (hlast : lastIsChord ts = true)
    (hg : ∀ t ∈ ts, ∀ b, t.body? = some b → ∀ x, denote m (g b) x = denote m other (denote m b x))
    (x : D) :
    denoteChain m (mapLast (mapBody g) ts) x = denote m other (denoteChain m ts x) := by
  unfold lastIsChord at hlast
  unfold mapLast
  cases ht : ts.getLast? with
  | none =>
    rw [ht] at hlast
    cases hlast
  | some t =>
    rw [ht, Option.any_some] at hlast
    rw [denoteChain_append, denoteChain, denoteChain, denoteChain_of_getLast? m ht]
    exact denote_mapBody hlast (hg t (List.mem_of_getLast? ht)) _

theorem isChord_clone (s : Sig V) : s.clone.isChord = s.isChord := by
  cases s with
  | chord l h hg b f => cases hg <;> rfl
  | _ => rfl

theorem body?_clone (s : Sig V) : s.clone.body? = s.body?.map clone := by
  cases s with
  | chord l h hg b f => cases hg <;> rfl
  | _ => rfl

/-- The bodies of the chords in a chain are lighter than the chain. -/
theorem weight_lt_of_body {ts : List (Sig V)} {t b : Sig V} (ht : t ∈ ts) (hb : t.body? = some b) :
    b.weight < weightAll ts := by
  have hle := weight_le_weightAll ht
  cases t with
  | chord l h hg b' f =>
    cases hb
    rw [weight] at hle
    omega
  | _ => cases hb

/-- **`self | other` feeds `self` to `other`**, where `other` is not taken apart. -/
theorem denote_orAtom (n : ℕ) (s other : Sig V) (hn : s.weight ≤ n)
    (hother : other.isEmptyGroup = false) (x : D) :
    denote m (orAtom n s other) x = denote m other (denote m s x) := by
  induction n generalizing s other x with
  | zero =>
    have := s.weight_pos
    omega
  | succ n ih =>
    cases s with
    | task name f => simp only [orAtom, denote, denoteChain]
    | group l ts f =>
      simp only [orAtom, hother, Bool.false_and, Bool.false_eq_true, if_false, denote]
    | chord l h hg b f =>
      rw [weight] at hn
      simp only [orAtom]
      split
      · simp only [denote, denoteChain]
      · rw [← denote_clone m (.chord l h hg b f)]
        refine denote_mapBody (isChord_clone _) (fun b' hb' y => ?_) x
        obtain ⟨_, hb, rfl⟩ := Option.map_eq_some_iff.mp ((body?_clone _).symm.trans hb')
        cases hb
        refine ih _ other ?_ hother y
        rw [weight_of_shape_eq b.shape_clone]
        omega
    | chain ts f =>
      have hbody : ∀ other : Sig V, other.isEmptyGroup = false → ∀ t ∈ cloneAll ts, ∀ b,
          t.body? = some b → ∀ y,
            denote m (orAtom n b other) y = denote m other (denote m b y) := by
        intro other hother t ht b hb y
        have hlt := weight_lt_of_body ht hb
        rw [weight] at hn
        rw [weightAll_cloneAll] at hlt
        exact ih b other (by omega) hother y
      rw [denote, ← denoteChain_cloneAll]
      simp only [orAtom, hother, Bool.false_eq_true, if_false]
      split
      next =>
        split
        next hempty =>
          rw [List.isEmpty_iff] at hempty
          rw [hempty, denoteChain]
        next =>
          split
          next hlast => exact denoteChain_mapLast hlast (hbody other hother) x
          next => rw [denote, denoteChain_append, denoteChain, denoteChain]
      next =>
        split
        next l gs fs hgroup =>
          have hchord : ∀ y, denote m (.chord l gs none other {}) y
              = denote m other (denote m (.group l gs fs) y) := fun y => by simp only [denote]
          rw [denoteChain_of_getLast? m hgroup, ← hchord]
          split
          next hlast =>
            refine denoteChain_mapLast hlast (fun t ht => ?_) x
            exact hbody _ rfl t (List.dropLast_subset _ ht)
          next => rw [denote, denoteChain_append, denoteChain, denoteChain]
        next =>
          split
          next hlast =>
            rw [Bool.and_eq_true] at hlast
            exact denoteChain_mapLast hlast.1 (hbody other hother) x
          next => rw [denote, denoteChain_append, denoteChain, denoteChain]

end

namespace Sig

mutual

/-- Neither a group with less than two members, nor a chain with such a step. -/
def solid : Sig V → Bool
  | task .. => true
  | chain ts _ => solidAll ts
  | group _ ts _ => decide (2 ≤ ts.length)
  | chord .. => true

def solidAll : List (Sig V) → Bool
  | [] => true
  | t :: ts => solid t && solidAll ts

end

theorem solidAll_iff {ts : List (Sig V)} : solidAll ts = true ↔ ∀ t ∈ ts, t.solid = true :=
  forall_of_cons rfl fun _ _ => rfl

mutual

theorem solid_clone : ∀ s : Sig V, s.clone.solid = s.solid
  | task .. => rfl
  | chain ts _ => by rw [clone, solid, solid, solidAll_cloneAll ts]
  | group .. => rfl
  | chord _ _ (some _) _ _ => rfl
  | chord _ _ none _ _ => rfl

theorem solidAll_cloneAll : ∀ ts : List (Sig V), solidAll (cloneAll ts) = solidAll ts
  | [] => rfl
  | t :: ts => by rw [cloneAll, solidAll, solidAll, solid_clone t, solidAll_cloneAll ts]

end

theorem isEmptyGroup_of_solid {s : Sig V} (h : s.solid = true) : s.isEmptyGroup = false := by
  cases s with
  | group l ts f => cases ts with
    | nil => cases h
    | cons => rfl
  | _ => rfl

/-- What a chord is changed to is a chord. -/
theorem solid_mapBody (g : Sig V → Sig V) {s : Sig V} (h : s.solid = true) :
    (s.mapBody g).solid = true := by
  cases s with
  | chord => rfl
  | _ => exact h

theorem solid_mapLast (g : Sig V → Sig V) {ts : List (Sig V)} (h : ∀ t ∈ ts, t.solid = true) :
    ∀ t ∈ mapLast (mapBody g) ts, t.solid = true := by
  unfold mapLast
  cases ht : ts.getLast? with
  | none => simp
  | some t =>
    intro u hu
    rcases List.mem_append.mp hu with hu | hu
    · exact h u (List.dropLast_subset _ hu)
    · rw [List.mem_singleton.mp hu]
      exact solid_mapBody g (h t (List.mem_of_getLast? ht))

end Sig

/-- Everything that solid signatures are chained to is solid. -/
theorem solid_orAtom (n : ℕ) {s other : Sig V} (hs : s.solid = true) (ho : other.solid = true) :
    (orAtom n s other).solid = true := by
  have hpair : (Sig.chain [s, other] {}).solid = true := by simp [solid, solidAll, hs, ho]
  cases n with
  | zero => exact hs
  | succ n =>
    cases s with
    | task name f => exact hpair
    | group l ts f =>
      simp only [orAtom]
      split
      · exact hs
      · rfl
    | chord l h hg b f =>
      simp only [orAtom]
      split
      · exact hpair
      · exact solid_mapBody _ (by rw [solid_clone]; rfl)
    | chain ts f =>
      have hts : ∀ t ∈ cloneAll ts, t.solid = true := by
        rw [← solidAll_iff, solidAll_cloneAll]
        exact hs
      have happend : ∀ (us : List (Sig V)) (u : Sig V) (fs : Fields V (Sig V)),
          (∀ t ∈ us, t.solid = true) → u.solid = true →
            (Sig.chain (us ++ [u]) fs).solid = true := by
        intro us u fs hus hu
        rw [solid, solidAll_iff, List.forall_mem_append, List.forall_mem_singleton]
        exact ⟨hus, hu⟩
      have hmap : ∀ (g : Sig V → Sig V) (us : List (Sig V)) (fs : Fields V (Sig V)),
          (∀ t ∈ us, t.solid = true) → (Sig.chain (mapLast (mapBody g) us) fs).solid = true := by
        intro g us fs hus
        rw [solid, solidAll_iff]
        exact solid_mapLast g hus
      have hinit : ∀ t ∈ (cloneAll ts).dropLast, t.solid = true := fun t ht =>
        hts t (List.dropLast_subset _ ht)
      simp only [orAtom]
      split
      · exact hs
      split
      · split
        · exact ho
        split
        · exact hmap _ _ _ hts
        · exact happend _ _ _ hts ho
      · split
        · split
          · exact hmap _ _ _ hinit
          · exact happend _ _ _ hinit rfl
        · split
          · exact hmap _ _ _ hts
          · exact happend _ _ _ hts ho

theorem solid_orFuel (n : ℕ) {s other : Sig V} (hs : s.solid = true) (ho : other.solid = true) :
    (orFuel n s other).solid = true := by
  induction n generalizing s other with
  | zero => exact hs
  | succ n ih =>
    have hatom := solid_orAtom s.weight hs ho
    cases other with
    | task name f => cases s <;> exact hatom
    | chord l h hg b f => cases s <;> exact hatom
    | group l ts f =>
      cases ts with
      | nil => cases ho
      | cons t ts => cases ts with
        | nil => cases ho
        | cons u ts => cases s <;> exact hatom
    | chain ts f =>
      have hts : ∀ t ∈ cloneAll ts, t.solid = true := by
        rw [← solidAll_iff, solidAll_cloneAll]
        exact ho
      have hcons : (Sig.chain (s :: cloneAll ts) {}).solid = true := by
        rw [solid, solidAll_iff, List.forall_mem_cons]
        exact ⟨hs, hts⟩
      cases s with
      | task name f => exact hcons
      | chord l h hg b f => exact hcons
      | group l gs f => rfl
      | chain us f =>
        simp only [orFuel]
        generalize cloneAll ts = ys at hts
        generalize Sig.chain us f = acc at hs
        clear hcons hatom ho
        induction ys generalizing acc with
        | nil => exact hs
        | cons y ys ih' =>
          rw [List.forall_mem_cons] at hts
          exact ih' hts.2 _ (ih hs hts.1)

section

variable {D : Type} {m : Meaning V D}

/-- **`self | other` feeds `self` to `other`**, if `other` is solid. -/
theorem denote_orFuel (n : ℕ) (s other : Sig V) (hn : other.weight ≤ n) (ho : other.solid = true)
    (x : D) : denote m (orFuel n s other) x = denote m other (denote m s x) := by
  induction n generalizing s other x with
  | zero =>
    have := other.weight_pos
    omega
  | succ n ih =>
    have hatom := denote_orAtom (m := m) s.weight s other le_rfl (isEmptyGroup_of_solid ho) x
    cases other with
    | task name f => cases s <;> exact hatom
    | chord l h hg b f => cases s <;> exact hatom
    | group l ts f =>
      cases ts with
      | nil => cases ho
      | cons t ts => cases ts with
        | nil => cases ho
        | cons u ts => cases s <;> exact hatom
    | chain ts f =>
      have hcons : denote m (.chain (s :: cloneAll ts) {}) x
          = denote m (.chain ts f) (denote m s x) := by
        simp only [denote, denoteChain, denoteChain_cloneAll]
      cases s with
      | task name f => exact hcons
      | chord l h hg b f => exact hcons
      | group l gs f => simp only [orFuel, denote]
      | chain us f =>
        have hts : ∀ t ∈ cloneAll ts, t.solid = true ∧ t.weight ≤ n := by
          intro t ht
          have hle := weight_le_weightAll ht
          rw [weightAll_cloneAll] at hle
          rw [weight] at hn
          refine ⟨?_, by omega⟩
          rw [solid, ← solidAll_cloneAll, solidAll_iff] at ho
          exact ho t ht
        simp only [orFuel]
        rw [denote, ← denoteChain_cloneAll]
        -- one step after the other, from what is there so far
        generalize cloneAll ts = ys at hts
        generalize Sig.chain us f = acc
        clear hcons hatom hn ho
        induction ys generalizing acc with
        | nil => rfl
        | cons y ys ih' =>
          rw [List.forall_mem_cons] at hts
          rw [List.foldl_cons, ih' hts.2, denoteChain, ih acc y hts.1.2 hts.1.1]

theorem denote_orSig (s : Sig V) {other : Sig V} (ho : other.solid = true) (x : D) :
    denote m (orSig s other) x = denote m other (denote m s x) :=
  denote_orFuel _ s other le_rfl ho x

end

/-! ### What counts in `self | other` -/

namespace Sig

mutual

/-- Something reports at the very end of the signature.  A chain may have steps in which
nothing does after the one that `_descend` counts. -/
def tells : Sig V → Bool
  | task .. => true
  | chain ts _ => tellsLast ts
  | group _ ts _ => if ts.length = 1 then tellsLast ts else !silentAll ts
  | chord _ _ _ b _ => !silent b

def tellsLast : List (Sig V) → Bool
  | [] => false
  | t :: ts => if ts.isEmpty then tells t else tellsLast ts

end

theorem tellsLast_snoc (ts : List (Sig V)) (t : Sig V) : tellsLast (ts ++ [t]) = t.tells := by
  induction ts with
  | nil => rfl
  | cons u ts ih => simp [tellsLast, ih]

theorem descend_pos_iff (s : Sig V) : 0 < s.descend ↔ s.silent = false := by
  rw [Nat.pos_iff_ne_zero, ne_eq, descend_eq_zero_iff, Bool.not_eq_true]

mutual

theorem silent_of_tells : ∀ s : Sig V, s.tells = true → s.silent = false
  | task .., _ => rfl
  | chain ts _, h => by
    rw [silent]
    exact silentAll_of_tellsLast ts h
  | group _ ts _, h => by
    rw [tells] at h
    rw [silent]
    split at h
    · exact silentAll_of_tellsLast ts h
    · rwa [Bool.not_eq_true'] at h
  | chord _ _ _ b _, h => by rwa [tells, Bool.not_eq_true'] at h

theorem silentAll_of_tellsLast : ∀ ts : List (Sig V), tellsLast ts = true → silentAll ts = false
  | [], h => by cases h
  | t :: ts, h => by
    rw [tellsLast] at h
    rw [silentAll, Bool.and_eq_false_iff]
    split at h
    · exact .inl (silent_of_tells t h)
    · exact .inr (silentAll_of_tellsLast ts h)

end

theorem silent_clone (s : Sig V) : s.clone.silent = s.silent := by
  rw [← silent_shape, shape_clone, silent_shape]

mutual

theorem tells_clone : ∀ s : Sig V, s.clone.tells = s.tells
  | task .. => rfl
  | chain ts _ => by rw [clone, tells, tells, tellsLast_cloneAll ts]
  | group .. => rfl
  | chord _ _ (some _) b _ => by rw [clone, tells, tells, silent_clone b]
  | chord _ _ none b _ => by rw [clone, tells, tells, silent_clone b]

theorem tellsLast_cloneAll : ∀ ts : List (Sig V), tellsLast (cloneAll ts) = tellsLast ts
  | [] => rfl
  | t :: ts => by
    rw [cloneAll, tellsLast, tellsLast, tells_clone t, tellsLast_cloneAll ts, cloneAll_eq_map,
      List.isEmpty_map]

end

/-- The last step counts if something reports in it. -/
theorem descendChain_snoc (ts : List (Sig V)) {t : Sig V} (ht : 0 < t.descend) :
    descendChain (ts ++ [t]) = t.descend := by
  simp [descendChain_append, descendChain, ht]

theorem descend_mapBody {g : Sig V → Sig V} {n : ℕ} {s : Sig V} (hs : s.isChord = true)
    (hg : ∀ b, s.body? = some b → (g b).descend = n) : (s.mapBody g).descend = n := by
  cases s with
  | chord l h hdr b f =>
    rw [mapBody, descend]
    exact hg b rfl
  | _ => cases hs

theorem descendChain_mapLast {g : Sig V → Sig V} {n : ℕ} (hn : 0 < n) {ts : List (Sig V)}
    (hlast : lastIsChord ts = true)
    (hg : ∀ t ∈ ts, ∀ b, t.body? = some b → (g b).descend = n) :
    descendChain (mapLast (mapBody g) ts) = n := by
  unfold lastIsChord at hlast
  unfold mapLast
  cases ht : ts.getLast? with
  | none =>
    rw [ht] at hlast
    cases hlast
  | some t =>
    rw [ht, Option.any_some] at hlast
    have hbody : (t.mapBody g).descend = n := descend_mapBody hlast (hg t (List.mem_of_getLast? ht))
    exact (descendChain_snoc _ (hbody.symm ▸ hn)).trans hbody

end Sig

/-- **What counts in `self | other` is what counts in `other`**, where it is not taken
apart. -/
theorem descend_orAtom (n : ℕ) (s other : Sig V) (hn : s.weight ≤ n) (ho : 0 < other.descend) :
    (orAtom n s other).descend = other.descend := by
  induction n generalizing s other with
  | zero =>
    have := s.weight_pos
    omega
  | succ n ih =>
    have hempty : other.isEmptyGroup = false := by
      cases h : other.isEmptyGroup
      · rfl
      · rw [descend_of_isEmptyGroup h] at ho
        omega
    have hpair : (Sig.chain [s, other] {}).descend = other.descend := by
      rw [descend]
      exact descendChain_snoc [s] ho
    cases s with
    | task name f => exact hpair
    | group l ts f =>
      simp only [orAtom, hempty, Bool.false_and, Bool.false_eq_true, if_false, descend]
    | chord l h hg b f =>
      rw [weight] at hn
      simp only [orAtom]
      split
      · exact hpair
      · refine descend_mapBody (isChord_clone _) fun b' hb' => ?_
        obtain ⟨_, hb, rfl⟩ := Option.map_eq_some_iff.mp ((body?_clone _).symm.trans hb')
        cases hb
        refine ih _ other ?_ ho
        rw [weight_of_shape_eq b.shape_clone]
        omega
    | chain ts f =>
      have hbody : ∀ other : Sig V, 0 < other.descend → ∀ t ∈ cloneAll ts, ∀ b,
          t.body? = some b → (orAtom n b other).descend = other.descend := by
        intro other ho t ht b hb
        have hlt := weight_lt_of_body ht hb
        rw [weight] at hn
        rw [weightAll_cloneAll] at hlt
        exact ih b other (by omega) ho
      simp only [orAtom, hempty, Bool.false_eq_true, if_false]
      split
      next =>
        split
        next => rfl
        next =>
          split
          next hlast => exact descendChain_mapLast ho hlast (hbody other ho)
          next => exact descendChain_snoc _ ho
      next =>
        split
        next l gs fs hgroup =>
          split
          next hlast =>
            refine descendChain_mapLast ho hlast fun t ht => ?_
            exact hbody (.chord l gs none other {}) ho t (List.dropLast_subset _ ht)
          next => exact descendChain_snoc _ (t := .chord l gs none other {}) ho
        next =>
          split
          next hlast =>
            rw [Bool.and_eq_true] at hlast
            exact descendChain_mapLast ho hlast.1 (hbody other ho)
          next => exact descendChain_snoc _ ho

/-- **What counts in `self | other` is what counts in `other`**, if it tells. -/
theorem descend_orFuel (n : ℕ) (s other : Sig V) (hn : other.weight ≤ n)
    (ho : other.tells = true) : (orFuel n s other).descend = other.descend := by
  induction n generalizing s other with
  | zero =>
    have := other.weight_pos
    omega
  | succ n ih =>
    have hpos : 0 < other.descend := (descend_pos_iff other).mpr (silent_of_tells other ho)
    have hatom := descend_orAtom s.weight s other le_rfl hpos
    cases other with
    | task name f => cases s <;> exact hatom
    | chord l h hg b f => cases s <;> exact hatom
    | group l ts f =>
      cases ts with
      | nil => cases ho
      | cons t ts => cases ts with
        | cons u ts => cases s <;> exact hatom
        | nil =>
          -- the only member is what is chained, and it counts for the group
          have ht : t.tells = true := ho
          have hdesc : (Sig.group l [t] f).descend = t.descend := by
            simp [descend, descendGroup]
          have hweight : t.weight ≤ n := by
            simp only [weight, weightAll] at hn
            omega
          rw [hdesc] at hpos ⊢
          cases s with
          | task name f => exact descendChain_snoc [_] hpos
          | group l gs f => exact hdesc
          | chord l h hg b f =>
            exact descend_mapBody (isChord_clone _) fun b' _ => ih b' t hweight ht
          | chain us f =>
            simp only [orFuel]
            split
            · exact ih _ t hweight ht
            split
            · rfl
            split
            next hlast => exact descendChain_mapLast hpos hlast fun _ _ b _ => ih b t hweight ht
            next => exact descendChain_snoc _ hpos
    | chain ts f =>
      obtain ⟨init, t, rfl⟩ : ∃ init t, ts = init ++ [t] := by
        cases h : ts.getLast? with
        | none =>
          rw [List.getLast?_eq_none_iff.mp h] at ho
          cases ho
        | some t => exact ⟨ts.dropLast, t, (List.dropLast_append_getLast? t h).symm⟩
      have ht : t.clone.tells = true := by
        rw [tells, tellsLast_snoc] at ho
        rw [tells_clone, ho]
      have hdesc : (Sig.chain (init ++ [t]) f).descend = t.clone.descend := by
        rw [descend_of_shape_eq t.shape_clone, descend]
        rw [tells_clone] at ht
        exact descendChain_snoc init ((descend_pos_iff t).mpr (silent_of_tells t ht))
      have hclone : cloneAll (init ++ [t]) = cloneAll init ++ [t.clone] := by
        simp [cloneAll_eq_map]
      rw [hdesc] at hpos
      have hcons : ∀ s : Sig V, (Sig.chain (s :: cloneAll (init ++ [t])) {}).descend
          = (Sig.chain (init ++ [t]) f).descend := by
        intro s
        rw [hdesc, descend, hclone, ← List.cons_append]
        exact descendChain_snoc _ hpos
      cases s with
      | task name f => exact hcons _
      | chord l h hg b f => exact hcons _
      | group l gs f => rfl
      | chain us f =>
        simp only [orFuel]
        rw [hclone, List.foldl_append, List.foldl_cons, List.foldl_nil, hdesc]
        refine ih _ _ ?_ ht
        rw [weight_of_shape_eq t.shape_clone]
        have hle := weight_le_weightAll (List.mem_append_right init (List.mem_singleton_self t))
        rw [weight] at hn
        omega

theorem descend_orSig (s : Sig V) {other : Sig V} (ho : other.tells = true) :
    (orSig s other).descend = other.descend := descend_orFuel _ s other le_rfl ho

end Canvas
end Celery
