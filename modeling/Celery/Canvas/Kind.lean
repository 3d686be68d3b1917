/-
# Kinds of operands

Which `__or__` is called, and which of its branches is taken, depends on the kinds of the two
operands.  The kind of `self | other` can be told from the kind of `self` and from `other`
(`kind_orSig`), and so can what becomes of an `other` that is not solid: a task, a chord and an
empty chain unroll a group of one, a group drops an empty group, and a chain takes apart
whatever it gets (`orSig_of_takes`).
-/

import Celery.Canvas.Unpack

namespace Celery
namespace Canvas

open Sig

variable {V : Type}

/-- What decides how `|` treats the operand on its right. -/
inductive Kind where
  | task
  | chord
  | group
  | chain
  | empty
  deriving DecidableEq

/-- A chain without steps is a kind of its own. -/
def Sig.kind : Sig V → Kind
  | task .. => .task
  | chain [] _ => .empty
  | chain (_ :: _) _ => .chain
  | group .. => .group
  | chord .. => .chord

namespace Sig

theorem kind_eq_task {s : Sig V} : s.kind = .task ↔ s.isTask = true := by
  cases s with
  | chain ts => cases ts <;> simp [kind, isTask]
  | _ => simp [kind, isTask]

theorem kind_eq_chord {s : Sig V} : s.kind = .chord ↔ s.isChord = true := by
  cases s with
  | chain ts => cases ts <;> simp [kind, isChord]
  | _ => simp [kind, isChord]

theorem kind_eq_group {s : Sig V} : s.kind = .group ↔ s.isGroup = true := by
  cases s with
  | chain ts => cases ts <;> simp [kind, isGroup]
  | _ => simp [kind, isGroup]

theorem kind_eq_chain {s : Sig V} : s.kind = .chain ↔ s.isLong = true := by
  cases s with
  | chain ts => cases ts <;> simp [kind, isLong]
  | _ => simp [kind, isLong]

theorem kind_eq_empty {s : Sig V} : s.kind = .empty ↔ s.isEmptyChain = true := by
  cases s with
  | chain ts => cases ts <;> simp [kind, isEmptyChain]
  | _ => simp [kind, isEmptyChain]

end Sig

namespace Kind

mutual

/-- The kind of `self | other`. -/
def or : Kind → Sig V → Kind
  | task, _ => chain
  | chain, _ => chain
  | group, .group false [] _ => group
  | group, _ => chord
  | chord, .task .. => chord
  | chord, .chord .. => chord
  | chord, .group _ [_] _ => chord
  | chord, _ => chain
  | empty, .task .. => chain
  | empty, .chord .. => chain
  | empty, .chain ts _ => orAll empty ts
  | empty, .group _ [] _ => empty
  | empty, .group _ [t] _ => if t.isGroup then group else or empty t
  | empty, .group .. => group

/-- One after the other. -/
def orAll : Kind → List (Sig V) → Kind
  | k, [] => k
  | k, t :: ts => orAll (or k t) ts

end

theorem or_task (s : Sig V) : or task s = chain := by
  unfold or
  cases s <;> rfl

theorem or_chain (s : Sig V) : or chain s = chain := by
  unfold or
  cases s <;> rfl

/-- Only a group that drops the other operand stays a group, and an empty chain may become one. -/
theorem or_eq_group {k : Kind} {s : Sig V} (h : or k s = group) :
    (k = group ∧ s.dropped = true) ∨ k = empty := by
  cases k with
  | task => rw [or_task] at h; cases h
  | chain => rw [or_chain] at h; cases h
  | empty => exact .inr rfl
  | chord =>
    cases s with
    | group l ts f => rcases ts with _ | ⟨_, _ | _⟩ <;> cases h
    | _ => cases h
  | group =>
    cases s with
    | group l ts f =>
      cases l with
      | true => cases ts <;> cases h
      | false =>
        cases ts with
        | nil => exact .inl ⟨rfl, rfl⟩
        | cons => cases h
    | _ => cases h

theorem or_eq_empty {k : Kind} {s : Sig V} (h : or k s = empty) : k = empty := by
  cases k with
  | task => rw [or_task] at h; cases h
  | chain => rw [or_chain] at h; cases h
  | empty => rfl
  | chord =>
    cases s with
    | group l ts f => rcases ts with _ | ⟨_, _ | _⟩ <;> cases h
    | _ => cases h
  | group =>
    cases s with
    | group l ts f => cases l <;> cases ts <;> cases h
    | _ => cases h

theorem orAll_chain (ts : List (Sig V)) : orAll chain ts = chain := by
  induction ts with
  | nil => rfl
  | cons t ts ih => rw [orAll, or_chain, ih]

theorem or_empty_of_startsCall : ∀ s : Sig V, s.startsCall = true → or empty s = chain
  | .task .., _ => rfl
  | .chord .., _ => rfl
  | .group _ [] _, h => by cases h
  | .group _ [t] _, h => by
    simp only [startsCall, Bool.and_eq_true, Bool.not_eq_true'] at h
    rw [or, if_neg (by simp [h.1]), or_empty_of_startsCall t h.2]
  | .group _ (_ :: _ :: _) _, h => by cases h
  | .chain [] _, h => by cases h
  | .chain (t :: ts) _, h => by rw [or, orAll, or_empty_of_startsCall t h, orAll_chain]

mutual

theorem or_clone (k : Kind) : ∀ s : Sig V, or k s.clone = or k s
  | .task .. => by cases k <;> rfl
  | .chain ts _ => by
    cases k with
    | empty => rw [clone, or, or, orAll_cloneAll empty ts]
    | _ => rfl
  | .group l [] _ => by cases k <;> cases l <;> rfl
  | .group l [_] _ => by cases k <;> cases l <;> rfl
  | .group l (_ :: _ :: _) _ => by cases k <;> cases l <;> rfl
  | .chord _ _ (some _) _ _ => by cases k <;> rfl
  | .chord _ _ none _ _ => by cases k <;> rfl

theorem orAll_cloneAll (k : Kind) : ∀ ts : List (Sig V), orAll k (cloneAll ts) = orAll k ts
  | [] => rfl
  | t :: ts => by rw [cloneAll, orAll, orAll, or_clone k t, orAll_cloneAll _ ts]

end

end Kind

theorem kind_chain {ts : List (Sig V)} (h : ts ≠ []) (f : Fields V (Sig V)) :
    (Sig.chain ts f).kind = .chain := by
  cases ts with
  | nil => exact absurd rfl h
  | cons => rfl

theorem kind_clone_mapBody (g : Sig V → Sig V) {s : Sig V} (h : s.isChord = true) :
    (s.clone.mapBody g).kind = .chord :=
  kind_eq_chord.mpr (isChord_mapBody g ((isChord_clone s).trans h))

theorem mapLast_ne_nil (g : Sig V → Sig V) {ts : List (Sig V)} (h : ts ≠ []) :
    mapLast g ts ≠ [] := by
  obtain ⟨init, t, rfl⟩ := List.eq_nil_or_concat ts |>.resolve_left h
  rw [List.concat_eq_append, mapLast_snoc]
  exact List.concat_ne_nil _ _

theorem cloneAll_ne_nil {ts : List (Sig V)} (h : ts ≠ []) : cloneAll ts ≠ [] := by
  rw [cloneAll_eq_map]
  simpa using h

/-- A chain with steps is a chain with steps after that. -/
theorem kind_orAtom_chain {n : ℕ} {ts : List (Sig V)} (f : Fields V (Sig V)) (other : Sig V)
    (h : ts ≠ []) : (orAtom n (.chain ts f) other).kind = .chain := by
  have hne := cloneAll_ne_nil h
  cases n with
  | zero => exact kind_chain h f
  | succ n =>
    simp only [orAtom]
    split
    · exact kind_chain h f
    split
    · rw [if_neg (by rwa [List.isEmpty_iff])]
      split
      · exact kind_chain (mapLast_ne_nil _ hne) _
      · exact kind_chain (List.concat_ne_nil _ _) _
    split
    next =>
      split
      next hlast =>
        obtain ⟨init, t, hsnoc, -⟩ := exists_snoc_of_lastIsChord hlast
        rw [hsnoc, mapLast_snoc]
        exact kind_chain (List.concat_ne_nil _ _) _
      next => exact kind_chain (List.concat_ne_nil _ _) _
    next =>
      split
      · exact kind_chain (mapLast_ne_nil _ hne) _
      · exact kind_chain (List.concat_ne_nil _ _) _

/-- **The kind of `self | other`.** -/
theorem kind_orFuel (n : ℕ) (s other : Sig V) (hn : other.weight ≤ n) :
    (orFuel n s other).kind = s.kind.or other := by
  induction n generalizing s other with
  | zero =>
    have := other.weight_pos
    omega
  | succ n ih =>
    have hsteps : ∀ (ts : List (Sig V)) (acc : Sig V), weightAll ts ≤ n →
        (ts.foldl (orFuel n) acc).kind = acc.kind.orAll ts := by
      intro ts
      induction ts with
      | nil => exact fun acc _ => rfl
      | cons t ts ih' =>
        intro acc hts
        rw [weightAll] at hts
        rw [List.foldl_cons, ih' _ (by omega), ih acc t (by omega), Kind.orAll]
    cases s with
    | task name f => cases other with
      | group l ts fs => rcases ts with _ | ⟨_, _ | _⟩ <;> rfl
      | _ => rfl
    | group l gs f => cases other with
      | group l' ts fs => cases l' <;> rcases ts with _ | ⟨_, _ | _⟩ <;> rfl
      | _ => rfl
    | chord l h hg b f => cases other with
      | group l' ts fs =>
        rcases ts with _ | ⟨_, _ | _⟩
        · rfl
        · exact kind_clone_mapBody _ rfl
        · rfl
      | chain => rfl
      | task => exact kind_clone_mapBody _ rfl
      | chord => exact kind_clone_mapBody _ rfl
    | chain us f => cases us with
      | nil => cases other with
        | task => rfl
        | chord => rfl
        | chain ts fs =>
          rw [weight] at hn
          have h := hsteps (cloneAll ts) (.chain [] f) (by rw [weightAll_cloneAll]; omega)
          rwa [Kind.orAll_cloneAll] at h
        | group l ts fs =>
          rcases ts with _ | ⟨t, _ | _⟩
          · rfl
          · simp only [weight, weightAll] at hn
            have h := ih (.chain [] f) t (by omega)
            rw [kind] at h
            rw [kind, Kind.or]
            simp only [orFuel, cloneAll, List.isEmpty_nil, if_true]
            cases hgroup : t.isGroup with
            | false => exact h
            | true =>
              cases t with
              | group => rfl
              | _ => cases hgroup
          · rfl
      | cons u us =>
        have hatom := kind_orAtom_chain (n := (Sig.chain (u :: us) f).weight) f other
          (List.cons_ne_nil u us)
        cases other with
        | task => exact hatom
        | chord => exact hatom
        | chain ts fs =>
          rw [weight] at hn
          have h := hsteps (cloneAll ts) (.chain (u :: us) f) (by rw [weightAll_cloneAll]; omega)
          rw [orFuel, h]
          exact Kind.orAll_chain _
        | group l ts fs =>
          rcases ts with _ | ⟨t, _ | _⟩
          · exact hatom
          · simp only [weight, weightAll] at hn
            have hne := cloneAll_ne_nil (List.cons_ne_nil u us)
            simp only [orFuel]
            rw [kind, Kind.or_chain]
            split
            · exact (ih (.chain (u :: us) f) t (by omega)).trans (Kind.or_chain t)
            rw [if_neg (by rwa [List.isEmpty_iff])]
            split
            · exact kind_chain (mapLast_ne_nil _ hne) _
            · exact kind_chain (List.concat_ne_nil _ _) _
          · exact hatom

theorem kind_orSig (s other : Sig V) : (orSig s other).kind = s.kind.or other :=
  kind_orFuel _ s other le_rfl

theorem solid_of_kind_empty {s : Sig V} (h : s.kind = .empty) : s.solid = true := by
  cases s with
  | chain ts f => cases ts with
    | nil => rfl
    | cons => cases h
  | _ => cases h

theorem or_group_of_not_dropped {s : Sig V} (h : s.dropped = false) :
    Kind.or .group s = .chord := by
  cases s with
  | group l ts f =>
    cases l with
    | true => rfl
    | false =>
      cases ts with
      | nil => cases h
      | cons => rfl
  | _ => rfl

/-- The kind of the values with the operand that is kept in them. -/
theorem or_of_kind {k : Kind} (hk : k = .chord ∨ k = .task ∨ k = .group) {other : Sig V}
    (ho : k = .group → other.dropped = false) :
    k.or other = .chain ∨ k.or other = .chord := by
  rcases hk with rfl | rfl | rfl
  · cases other with
    | group l ts f =>
      rcases ts with _ | ⟨_, _ | _⟩
      · exact .inl rfl
      · exact .inr rfl
      · exact .inl rfl
    | chain => exact .inl rfl
    | task => exact .inr rfl
    | chord => exact .inr rfl
  · exact .inl (Kind.or_task other)
  · exact .inr (or_group_of_not_dropped (ho rfl))

/-- Chains and groups drop `group([])`. -/
def Kind.drops : Kind → Bool
  | .group | .chain | .empty => true
  | .task | .chord => false

theorem orSig_of_dropped {s z : Sig V} (hs : s.kind.drops = true) (hz : z.dropped = true) :
    orSig s z = s := by
  obtain ⟨g, rfl⟩ := exists_of_dropped hz
  cases s with
  | group => rfl
  | chain ts f => exact orSig_chain_of_isEmptyGroup ts f rfl
  | _ => cases hs

/-- What an operand of this kind takes as it is, or takes apart for good. -/
def Kind.takes : Kind → Sig V → Bool
  | .chain, z => z.tame
  | .group, z => z.solid || z.dropped
  | .task, z => z.solid || z.unrolls
  | .chord, z => z.solid || z.unrolls
  | .empty, z => z.solid || z.unrolls || z.isEmptyGroup || z.tame && z.startsCall

theorem Kind.takes_of_solid (k : Kind) {z : Sig V} (h : z.solid = true) : k.takes z = true := by
  cases k <;> simp [takes, h, tame_of_solid h]

/-- One after the other, from what has this kind. -/
def Kind.folds : Kind → List (Sig V) → Bool
  | _, [] => true
  | k, z :: zs => k.takes z && folds (k.or z) zs

section

variable {D : Type} {m : Meaning V D}

/-- A task, a chord or a group passes its result to a chain or a chord as it is. -/
theorem denote_orSig_of_kind {s other : Sig V}
    (hs : s.kind = .chord ∨ s.kind = .task ∨ s.kind = .group)
    (ho : other.kind = .chain ∨ other.kind = .chord) (x : D) :
    denote m (orSig s other) x = denote m other (denote m s x) := by
  rw [kind_eq_chain, kind_eq_chord] at ho
  rcases ho with ho | ho
  · cases other with
    | chain ts f =>
      cases s with
      | task => simp [orSig_eq, orFuel, denote, denoteChain, denoteChain_cloneAll]
      | chord => simp [orSig_eq, orFuel, denote, denoteChain, denoteChain_cloneAll]
      | group => exact denote_group_orSig rfl x
      | chain ts => cases ts <;> simp [kind] at hs
    | _ => cases ho
  · exact denote_orSig _ (solid_of_isChord ho) x

/-- **Nothing of what is taken so is left to be taken apart**. -/
theorem orSig_of_takes {s z : Sig V} (hs : s.solid = true) (h : s.kind.takes z = true) :
    (orSig s z).solid = true ∧
      ∀ x, denote m (orSig s z) x = denote m z.unpacked (denote m s x) := by
  have hsolid : z.solid = true → (orSig s z).solid = true ∧
      ∀ x, denote m (orSig s z) x = denote m z.unpacked (denote m s x) := fun hz =>
    ⟨solid_orFuel _ hs hz, fun x => by rw [denote_orSig _ hz, unpacked_of_solid z hz]⟩
  have hunrolls : s.kind ≠ .group → z.unrolls = true → (orSig s z).solid = true ∧
      ∀ x, denote m (orSig s z) x = denote m z.unpacked (denote m s x) := by
    intro hgroup hunrolls
    rw [ne_eq, kind_eq_group, Bool.not_eq_true] at hgroup
    obtain ⟨l, t, f, rfl, ht⟩ := exists_of_unrolls hunrolls
    obtain ⟨hdenote, hsolid⟩ := denote_orSig_unrolls (m := m) (l := l) (f := f) hgroup ht
    exact ⟨hsolid hs, hdenote⟩
  cases hk : s.kind with
  | group =>
    rw [hk, Kind.takes, Bool.or_eq_true] at h
    refine h.elim hsolid fun h => ?_
    rw [orSig_of_dropped (by rw [hk]; rfl) h]
    exact ⟨hs, fun x => (denote_unpacked_dropped h _).symm⟩
  | chain =>
    rw [hk, Kind.takes] at h
    have habsorbs := absorbs_orSig (m := m) (kind_eq_chain.mp hk) h (.inl (closed_of_solid hs))
    have hsolid := habsorbs.solid hs
    refine ⟨hsolid, fun x => ?_⟩
    have hdenote := habsorbs.denote x
    rwa [unpacked_of_solid _ hsolid, unpacked_of_solid _ hs] at hdenote
  | task | chord =>
    rw [hk, Kind.takes, Bool.or_eq_true] at h
    exact h.elim hsolid (hunrolls (by rw [hk]; exact Kind.noConfusion))
  | empty =>
    rw [hk, Kind.takes, Bool.or_eq_true, Bool.or_eq_true, Bool.or_eq_true, Bool.and_eq_true] at h
    rcases h with ((h | h) | h) | ⟨htame, hstart⟩
    · exact hsolid h
    · exact hunrolls (by rw [hk]; exact Kind.noConfusion) h
    · -- an empty group is dropped
      cases s with
      | chain ts f =>
        rw [orSig_chain_of_isEmptyGroup ts f h]
        refine ⟨hs, fun x => ?_⟩
        cases z with
        | group l gs g => cases gs with
          | nil => rfl
          | cons => cases h
        | _ => cases h
      | _ => cases hk
    · cases s with
      | chain ts f => cases ts with
        | nil =>
          obtain ⟨-, hor, hdenote⟩ := solid_orFuel_nil (m := m) _ f le_rfl htame hstart
          exact ⟨hor, hdenote⟩
        | cons => cases hk
      | _ => cases hk

theorem foldl_of_folds {s : Sig V} {zs : List (Sig V)} (hs : s.solid = true)
    (h : s.kind.folds zs = true) (x : D) :
    denote m (zs.foldl orSig s) x = denoteChain m (unpackedAll zs) (denote m s x) := by
  induction zs generalizing s with
  | nil => rfl
  | cons z zs ih =>
    rw [Kind.folds, Bool.and_eq_true, ← kind_orSig] at h
    obtain ⟨hsolid, hdenote⟩ := orSig_of_takes (m := m) hs h.1
    rw [List.foldl_cons, ih hsolid h.2, hdenote]
    rfl

end

/-- A chain that begins with a group, which is not its last step. -/
def Leads (s : Sig V) : Prop :=
  ∃ t u ts f, s = .chain (t :: u :: ts) f ∧ t.startsGroup = true

theorem leads_iff {s : Sig V} :
    Leads s ↔ s.startsGroup = true ∧ s.severalSteps = true := by
  constructor
  · rintro ⟨t, u, ts, f, rfl, ht⟩
    exact ⟨ht, rfl⟩
  · rintro ⟨hs, hsteps⟩
    cases s with
    | chain ts f =>
      rcases ts with _ | ⟨t, _ | ⟨u, ts⟩⟩
      · cases hsteps
      · cases hsteps
      · exact ⟨t, u, ts, f, rfl, hs⟩
    | _ => cases hsteps

theorem leads_snoc {t : Sig V} (us : List (Sig V)) (v : Sig V) (f : Fields V (Sig V))
    (ht : t.startsGroup = true) : Leads (.chain (t :: us ++ [v]) f) := by
  cases us with
  | nil => exact ⟨t, v, [], f, rfl, ht⟩
  | cons u us => exact ⟨t, u, us ++ [v], f, rfl, ht⟩

theorem leads_mapLast (g : Sig V → Sig V) {t u : Sig V} (us : List (Sig V)) (f : Fields V (Sig V))
    (ht : t.startsGroup = true) : Leads (.chain (mapLast g (t :: u :: us)) f) := by
  obtain ⟨init, v, hsnoc⟩ := (List.eq_nil_or_concat (u :: us)).resolve_left (List.cons_ne_nil u us)
  rw [List.concat_eq_append] at hsnoc
  rw [hsnoc, ← List.cons_append, mapLast_snoc]
  exact leads_snoc init (g v) f ht

/-- The first step of a chain stays where it is, if it is no chord. -/
theorem leads_orAtom (n : ℕ) {s : Sig V} (other : Sig V) (hs : Leads s) :
    Leads (orAtom n s other) := by
  cases n with
  | zero => exact hs
  | succ n =>
    obtain ⟨t₀, u₀, ts₀, f, rfl, ht₀⟩ := id hs
    obtain ⟨t, u, ts, hclone, ht⟩ : ∃ t u ts, cloneAll (t₀ :: u₀ :: ts₀) = t :: u :: ts ∧
        t.startsGroup = true := ⟨_, _, _, rfl, (startsGroup_clone t₀).trans ht₀⟩
    simp only [orAtom]
    generalize cloneAll (t₀ :: u₀ :: ts₀) = tasks at hclone
    subst hclone
    have hsnoc := fun v f => leads_snoc (u :: ts) v f ht
    have hlast := fun g f => leads_mapLast g (u := u) ts f ht
    split
    · exact hs
    rw [List.isEmpty_cons, if_neg Bool.false_ne_true]
    split
    · split
      · exact hlast _ _
      · exact hsnoc _ _
    split
    next =>
      rw [List.dropLast_cons_of_ne_nil (List.cons_ne_nil _ _)]
      split
      next hchord =>
        cases hinit : (u :: ts).dropLast with
        | nil =>
          rw [hinit, lastIsChord, List.getLast?_singleton, Option.any_some] at hchord
          cases t with
          | chord => cases ht
          | _ => cases hchord
        | cons v vs => exact leads_mapLast _ vs _ ht
      next => exact leads_snoc _ _ _ ht
    next =>
      split
      · exact hlast _ _
      · exact hsnoc _ _

theorem leads_orFuel (n : ℕ) {s : Sig V} (other : Sig V) (hs : Leads s) :
    Leads (orFuel n s other) := by
  induction n generalizing s other with
  | zero => exact hs
  | succ n ih =>
    have hatom := leads_orAtom s.weight other hs
    obtain ⟨t₀, u₀, ts₀, f, rfl, ht₀⟩ := id hs
    cases other with
    | task => exact hatom
    | chord => exact hatom
    | chain us g =>
      simp only [orFuel]
      exact List.foldlRecOn (cloneAll us) _ (motive := Leads) hs fun s hs u _ => ih u hs
    | group l us g =>
      rcases us with _ | ⟨v, _ | _⟩
      · exact hatom
      · obtain ⟨t, u, ts, hclone, ht⟩ : ∃ t u ts, cloneAll (t₀ :: u₀ :: ts₀) = t :: u :: ts ∧
            t.startsGroup = true := ⟨_, _, _, rfl, (startsGroup_clone t₀).trans ht₀⟩
        simp only [orFuel]
        generalize cloneAll (t₀ :: u₀ :: ts₀) = tasks at hclone
        subst hclone
        split
        · exact ih v hs
        rw [List.isEmpty_cons, if_neg Bool.false_ne_true]
        split
        · exact leads_mapLast _ _ _ ht
        · exact leads_snoc (u :: ts) v _ ht
      · exact hatom

/-- A step more, or a longer body of the last chord. -/
theorem leads_orAtom_group {n : ℕ} {s : Sig V} {l : Bool} {u v : Sig V} {us : List (Sig V)}
    {f : Fields V (Sig V)} (hlong : s.isLong = true) (hs : s.startsGroup = true) :
    Leads (orAtom (n + 1) s (.group l (u :: v :: us) f)) := by
  cases s with
  | chain ts g =>
    obtain ⟨t₀, ts₀, rfl⟩ := List.exists_cons_of_ne_nil fun h : ts = [] => by
      rw [h] at hlong
      cases hlong
    obtain ⟨t, ts, hclone, ht⟩ : ∃ t ts, cloneAll (t₀ :: ts₀) = t :: ts ∧ t.startsGroup = true :=
      ⟨_, _, rfl, (startsGroup_clone t₀).trans hs⟩
    simp only [orAtom, isEmptyGroup, isGroup, hclone, List.isEmpty_cons, if_true]
    rw [if_neg Bool.false_ne_true, if_neg Bool.false_ne_true]
    split
    next hchord =>
      cases ts with
      | nil =>
        rw [lastIsChord, List.getLast?_singleton, Option.any_some] at hchord
        cases t with
        | chord => cases ht
        | _ => cases hchord
      | cons w ws => exact leads_mapLast _ ws _ ht
    next => exact leads_snoc ts _ _ ht
  | _ => cases hlong

/-- A chain that begins with a group begins with it whatever else that does is chained to it. -/
theorem leads_orFuel_of_startsGroup (n : ℕ) {s other : Sig V} (hn : other.weight ≤ n)
    (hlong : s.isLong = true) (hs : s.startsGroup = true) (ho : other.startsGroup = true) :
    Leads (orFuel n s other) := by
  induction n generalizing other with
  | zero =>
    have := other.weight_pos
    omega
  | succ n ih =>
    cases other with
    | task => cases ho
    | chord => cases ho
    | group l us g =>
      rcases us with _ | ⟨u, _ | ⟨v, us⟩⟩
      · cases ho
      · cases ho
      · obtain ⟨k, hk⟩ : ∃ k, s.weight = k + 1 :=
          ⟨s.weight - 1, by have := s.weight_pos; omega⟩
        rw [orFuel.eq_def]
        simp only [hk]
        exact leads_orAtom_group hlong hs
    | chain us g =>
      cases us with
      | nil => cases ho
      | cons u us =>
        cases s with
        | chain ts f =>
          simp only [weight, weightAll] at hn
          have hweight : u.clone.weight + weightAll (cloneAll us) = u.weight + weightAll us :=
            weightAll_cloneAll (u :: us)
          have hfirst := ih (by omega) ((startsGroup_clone u).trans ho)
          exact List.foldlRecOn (cloneAll us) _ (motive := Leads) hfirst
            fun s hs u _ => leads_orFuel n u hs
        | _ => cases hlong

/-! ### What begins with a task or a chord -/

theorem startsCall_mapBody (g : Sig V → Sig V) {s : Sig V} (h : s.startsCall = true) :
    (s.mapBody g).startsCall = true := by
  cases s with
  | chord => rfl
  | _ => exact h

theorem startsCallAll_append {ts : List (Sig V)} (us : List (Sig V)) (h : startsCallAll ts = true) :
    startsCallAll (ts ++ us) = true := by
  cases ts with
  | nil => cases h
  | cons => exact h

theorem startsCallAll_mapLast (g : Sig V → Sig V) {ts : List (Sig V)}
    (h : startsCallAll ts = true) : startsCallAll (mapLast (mapBody g) ts) = true := by
  rcases ts.eq_nil_or_concat with rfl | ⟨init, t, rfl⟩
  · cases h
  · rw [List.concat_eq_append] at h ⊢
    rw [mapLast_snoc]
    cases init with
    | nil => exact startsCall_mapBody g h
    | cons => exact h

theorem startsCallAll_dropLast {ts : List (Sig V)} (h : startsCallAll ts = true) :
    ts.dropLast = [] ∨ startsCallAll ts.dropLast = true := by
  cases ts with
  | nil => exact .inl rfl
  | cons t ts => cases ts with
    | nil => exact .inl rfl
    | cons => exact .inr h

theorem startsCall_orAtom (n : ℕ) {s : Sig V} (other : Sig V) (hs : s.startsCall = true) :
    (orAtom n s other).startsCall = true := by
  cases n with
  | zero => exact hs
  | succ n =>
    cases s with
    | task => rfl
    | group =>
      simp only [orAtom]
      split
      · exact hs
      · rfl
    | chord l h hg b f =>
      simp only [orAtom]
      split
      · rfl
      · exact startsCall_mapBody _ ((startsCall_clone _).trans rfl)
    | chain ts f =>
      have hts : startsCallAll (cloneAll ts) = true := (startsCallAll_cloneAll ts).trans hs
      simp only [orAtom]
      generalize cloneAll ts = tasks at hts
      split
      · exact hs
      split
      · split
        next hempty =>
          rw [List.isEmpty_iff] at hempty
          rw [hempty] at hts
          cases hts
        split
        · exact startsCallAll_mapLast _ hts
        · exact startsCallAll_append _ hts
      split
      next =>
        rcases startsCallAll_dropLast hts with hinit | hinit
        · rw [hinit]
          rfl
        split
        · exact startsCallAll_mapLast _ hinit
        · exact startsCallAll_append _ hinit
      next =>
        split
        · exact startsCallAll_mapLast _ hts
        · exact startsCallAll_append _ hts

/-- **What begins with a task or a chord begins with it** whatever is chained to it. -/
theorem startsCall_orFuel (n : ℕ) {s : Sig V} (other : Sig V) (hs : s.startsCall = true) :
    (orFuel n s other).startsCall = true := by
  induction n generalizing s other with
  | zero => exact hs
  | succ n ih =>
    have hatom := startsCall_orAtom s.weight other hs
    cases s with
    | group => cases other with
      | group l ts g =>
        rcases ts with _ | ⟨_, _ | _⟩
        · exact hatom
        · rfl
        · exact hatom
      | chain => rfl
      | _ => exact hatom
    | task => cases other with
      | group l ts g =>
        rcases ts with _ | ⟨_, _ | _⟩
        · exact hatom
        · rfl
        · exact hatom
      | chain => rfl
      | _ => exact hatom
    | chord => cases other with
      | group l ts g =>
        rcases ts with _ | ⟨_, _ | _⟩
        · exact hatom
        · exact startsCall_mapBody _ ((startsCall_clone _).trans rfl)
        · exact hatom
      | chain => rfl
      | _ => exact hatom
    | chain us f => cases other with
      | task => exact hatom
      | chord => exact hatom
      | chain ts g =>
        simp only [orFuel]
        exact List.foldlRecOn (cloneAll ts) _ (motive := fun s => startsCall s = true) hs
          fun s hs t _ => ih t hs
      | group l ts g =>
        rcases ts with _ | ⟨t, _ | _⟩
        · exact hatom
        · have hus : startsCallAll (cloneAll us) = true := (startsCallAll_cloneAll us).trans hs
          simp only [orFuel]
          split
          · exact ih t hs
          split
          next hempty =>
            rw [List.isEmpty_iff] at hempty
            rw [hempty] at hus
            cases hus
          split
          · exact startsCallAll_mapLast _ hus
          · exact startsCallAll_append _ hus
        · exact hatom

end Canvas
end Celery
