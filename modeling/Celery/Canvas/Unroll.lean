/-
# `celery/canvas.py`: the order in which a group is unrolled

A group is unrolled twice.  `_freeze_unroll` (lines 1986-2024) goes through a group made from
a list when it is frozen, on a worklist; `_prepared` (1780-1832) goes through it when it is
published, by recursion.  Both open nested groups and pass over empty chains.  A nested group
puts its members on the worklist one after the other, each in front of those before it, so
they come off in reverse.

To tell equal members apart, each has the place at which it is written: its index in the
group it is in, after the place of that group.  `unrolled` is the worklist and `written` the
recursion, with places: what is frozen, and in which order, is `unrolled`
(`freezeUnroll_eq_freezeEach`), and what is published is `written` (`preparedAll_eq_map`).
The members are frozen in the order in which they are written exactly if no nested group has
two of them that hold a task (`freezeUnroll_writtenOrder_iff`).
-/

import Celery.Canvas.Apply

namespace Celery
namespace Canvas

open Sig

variable {V : Type}

/-- A member with the place at which it is written. -/
abbrev Placed (V : Type) := List ℕ × Sig V

/-- The members of a group at the place `p`, from the index `i` on. -/
def placeFrom (p : List ℕ) : ℕ → List (Sig V) → List (Placed V)
  | _, [] => []
  | i, t :: ts => (p ++ [i], t) :: placeFrom p (i + 1) ts

/-- The worklist of `_freeze_unroll`, its members with their places. -/
def unrollFrom : ℕ → List (Placed V) → List (Placed V)
  | _, [] => []
  | 0, _ :: _ => []
  | n + 1, (p, s) :: stack =>
    match s with
    | .group _ ts _ => unrollFrom n ((placeFrom p 0 ts).reverse ++ stack)
    | s => if s.isEmptyChain then unrollFrom n stack else (p, s) :: unrollFrom n stack

/-- What `_freeze_unroll` freezes, in this order. -/
def unrolled (ts : List (Sig V)) : List (Placed V) := unrollFrom (weightAll ts) (placeFrom [] 0 ts)

namespace Sig

mutual

/-- What `_prepared` yields for a member at the place `p`. -/
def writtenAt (p : List ℕ) : Sig V → List (Placed V)
  | task n f => [(p, task n f)]
  | chain [] _ => []
  | chain (t :: ts) f => [(p, chain (t :: ts) f)]
  | group _ ts _ => writtenFrom p 0 ts
  | chord l h hg b f => [(p, chord l h hg b f)]

def writtenFrom (p : List ℕ) : ℕ → List (Sig V) → List (Placed V)
  | _, [] => []
  | i, t :: ts => writtenAt (p ++ [i]) t ++ writtenFrom p (i + 1) ts

end

mutual

/-- What becomes of a member at the place `p` on the worklist. -/
def turnedAt (p : List ℕ) : Sig V → List (Placed V)
  | task n f => [(p, task n f)]
  | chain [] _ => []
  | chain (t :: ts) f => [(p, chain (t :: ts) f)]
  | group _ ts _ => turnedFrom p 0 ts
  | chord l h hg b f => [(p, chord l h hg b f)]

def turnedFrom (p : List ℕ) : ℕ → List (Sig V) → List (Placed V)
  | _, [] => []
  | i, t :: ts => turnedFrom p (i + 1) ts ++ turnedAt (p ++ [i]) t

end

mutual

/-- The worklist keeps what is in a member in order: of the members of a nested group one at
most holds anything to freeze. -/
def straight : Sig V → Bool
  | task .. => true
  | chain .. => true
  | group _ ts _ => straightAll ts
  | chord .. => true

def straightAll : List (Sig V) → Bool
  | [] => true
  | t :: ts => !(bearing t && bearingAny ts) && straight t && straightAll ts

end

end Sig

/-- The members of the group that hold something to freeze, in the order in which they are
written. -/
def written (ts : List (Sig V)) : List (Placed V) := writtenFrom [] 0 ts

/-- The signatures are frozen one by one, with the indexes from `i` on. -/
def freezeEach (freeze : Freezer V) (p : FreezeArgs V) : ℕ → List (Sig V) → FreezeM (Steps V)
  | _, [] => pure []
  | i, s :: ss => do
    let step ← freeze { p with groupIndex := some i } s
    let steps ← freezeEach freeze p (i + 1) ss
    pure (step :: steps)

/-! ## The worklist -/

theorem placeFrom_map_snd (p : List ℕ) (i : ℕ) (ts : List (Sig V)) :
    (placeFrom p i ts).map Prod.snd = ts := by
  induction ts generalizing i with
  | nil => rfl
  | cons t ts ih => rw [placeFrom, List.map_cons, ih]

theorem freezeUnroll_eq_freezeEach_flat (fr : Freezer V) (p : FreezeArgs V) (n : ℕ)
    (stack : List (Sig V)) (hn : weightAll stack ≤ n) (i : ℕ) :
    freezeUnroll fr p n stack i = freezeEach fr p i (stack.flatMap flat) := by
  induction n generalizing stack i with
  | zero =>
    cases stack with
    | nil => rfl
    | cons s stack =>
      rw [weightAll] at hn
      have := s.weight_pos
      omega
  | succ n ih =>
    cases stack with
    | nil => rfl
    | cons s stack =>
      rw [weightAll] at hn
      have hpos := s.weight_pos
      -- a member that is frozen on its own
      have hone : ∀ t : Sig V, s.flat = [t] →
          (do
            let step ← fr { p with groupIndex := some i } t
            let steps ← freezeUnroll fr p n stack (i + 1)
            pure (step :: steps)) = freezeEach fr p i ((s :: stack).flatMap flat) := by
        intro t hflat
        rw [List.flatMap_cons, hflat, List.singleton_append, freezeEach,
          ih stack (by omega) (i + 1)]
      match s with
      | .task m f => exact hone _ rfl
      | .chord l h hg b f =>
        have := hone _ rfl
        cases hg <;> exact this
      | .chain [] f => exact ih stack (by omega) i
      | .chain (t :: ts) f => exact hone _ rfl
      | .group l ts f =>
        rw [weight] at hn hpos
        have := ih (ts.reverse ++ stack) (by rw [weightAll_append, weightAll_reverse]; omega) i
        rw [List.flatMap_append, ← flatRev_eq_flatMap] at this
        rw [List.flatMap_cons, flat]
        exact this

theorem turnedFrom_eq_flatMap (p : List ℕ) (i : ℕ) (ts : List (Sig V)) :
    turnedFrom p i ts = (placeFrom p i ts).reverse.flatMap fun m => turnedAt m.1 m.2 := by
  induction ts generalizing i with
  | nil => rfl
  | cons t ts ih =>
    rw [turnedFrom, placeFrom, List.reverse_cons, List.flatMap_append, ← ih,
      List.flatMap_singleton]

theorem writtenFrom_eq_flatMap (p : List ℕ) (i : ℕ) (ts : List (Sig V)) :
    writtenFrom p i ts = (placeFrom p i ts).flatMap fun m => writtenAt m.1 m.2 := by
  induction ts generalizing i with
  | nil => rfl
  | cons t ts ih => rw [writtenFrom, placeFrom, List.flatMap_cons, ← ih]

/-- What is left of the worklist in the end. -/
theorem unrollFrom_eq_flatMap (n : ℕ) (stack : List (Placed V))
    (hn : weightAll (stack.map Prod.snd) ≤ n) :
    unrollFrom n stack = stack.flatMap fun m => turnedAt m.1 m.2 := by
  induction n generalizing stack with
  | zero =>
    cases stack with
    | nil => rfl
    | cons m stack =>
      rw [List.map_cons, weightAll] at hn
      have := m.2.weight_pos
      omega
  | succ n ih =>
    match stack with
    | [] => rfl
    | (q, s) :: stack =>
      have hcons : s.weight + weightAll (stack.map Prod.snd) ≤ n + 1 := hn
      have hpos := s.weight_pos
      have hrest := ih stack (by omega)
      match s with
      | .task m f => exact congrArg (_ :: ·) hrest
      | .chord l h hg b f => exact congrArg (_ :: ·) hrest
      | .chain [] f => exact hrest
      | .chain (t :: ts) f => exact congrArg (_ :: ·) hrest
      | .group l ts f =>
        rw [weight] at hcons hpos
        rw [List.flatMap_cons, turnedAt, turnedFrom_eq_flatMap, ← List.flatMap_append]
        refine ih _ ?_
        rw [List.map_append, List.map_reverse, placeFrom_map_snd, weightAll_append,
          weightAll_reverse]
        omega

theorem unrolled_eq_flatMap (ts : List (Sig V)) :
    unrolled ts = (placeFrom [] 0 ts).flatMap fun m => turnedAt m.1 m.2 :=
  unrollFrom_eq_flatMap _ _ (by rw [placeFrom_map_snd])

mutual

theorem turnedAt_map_clone (p : List ℕ) : ∀ s : Sig V,
    (turnedAt p s).map (fun m => m.2.clone) = s.flat
  | task .. => rfl
  | chain [] _ => rfl
  | chain (_ :: _) _ => rfl
  | group _ ts _ => by rw [turnedAt, flat]; exact turnedFrom_map_clone p 0 ts
  | chord .. => rfl

theorem turnedFrom_map_clone (p : List ℕ) : ∀ (i : ℕ) (ts : List (Sig V)),
    (turnedFrom p i ts).map (fun m => m.2.clone) = flatRev ts
  | _, [] => rfl
  | i, t :: ts => by
    rw [turnedFrom, flatRev, List.map_append, turnedFrom_map_clone p (i + 1) ts,
      turnedAt_map_clone _ t]

end

mutual

theorem writtenAt_map_clone (p : List ℕ) : ∀ s : Sig V,
    (writtenAt p s).map (fun m => m.2.clone) = s.prepared
  | task .. => rfl
  | chain [] _ => rfl
  | chain (_ :: _) _ => rfl
  | group _ ts _ => by rw [writtenAt, prepared]; exact writtenFrom_map_clone p 0 ts
  | chord .. => rfl

/-- **`_prepared` yields what is written**, in this order. -/
theorem writtenFrom_map_clone (p : List ℕ) : ∀ (i : ℕ) (ts : List (Sig V)),
    (writtenFrom p i ts).map (fun m => m.2.clone) = preparedAll ts
  | _, [] => rfl
  | i, t :: ts => by
    rw [writtenFrom, preparedAll, List.map_append, writtenFrom_map_clone p (i + 1) ts,
      writtenAt_map_clone _ t]

end

/-- **`_freeze_unroll` freezes what is unrolled**, one by one. -/
theorem freezeUnroll_eq_freezeEach (fr : Freezer V) (p : FreezeArgs V) (ts : List (Sig V)) :
    freezeUnroll fr p (weightAll ts) ts 0 =
      freezeEach fr p 0 ((unrolled ts).map fun m => m.2.clone) := by
  have hflat : (unrolled ts).map (fun m => m.2.clone) = ts.flatMap flat := by
    rw [unrolled_eq_flatMap, List.map_flatMap,
      List.flatMap_congr fun m _ => turnedAt_map_clone m.1 m.2, ← List.flatMap_map,
      placeFrom_map_snd]
  rw [hflat]
  exact freezeUnroll_eq_freezeEach_flat fr p _ ts le_rfl 0

/-! ## The order -/

mutual

/-- What is under a member lies at places under its own. -/
theorem prefix_of_mem_writtenAt (p : List ℕ) : ∀ (s : Sig V) (m : Placed V),
    m ∈ writtenAt p s → p <+: m.1
  | task .., m, h => by
    obtain rfl : m = _ := by simpa [writtenAt] using h
    exact List.prefix_rfl
  | chain [] _, m, h => by simp [writtenAt] at h
  | chain (_ :: _) _, m, h => by
    obtain rfl : m = _ := by simpa [writtenAt] using h
    exact List.prefix_rfl
  | group _ ts _, m, h => by
    obtain ⟨j, -, hj⟩ := exists_prefix_of_mem_writtenFrom p 0 ts m (by rwa [writtenAt] at h)
    exact (List.prefix_append p [j]).trans hj
  | chord .., m, h => by
    obtain rfl : m = _ := by simpa [writtenAt] using h
    exact List.prefix_rfl

theorem exists_prefix_of_mem_writtenFrom (p : List ℕ) : ∀ (i : ℕ) (ts : List (Sig V))
    (m : Placed V), m ∈ writtenFrom p i ts → ∃ j, i ≤ j ∧ p ++ [j] <+: m.1
  | _, [], m, h => by simp [writtenFrom] at h
  | i, t :: ts, m, h => by
    rw [writtenFrom, List.mem_append] at h
    rcases h with h | h
    · exact ⟨i, le_rfl, prefix_of_mem_writtenAt _ t m h⟩
    · obtain ⟨j, hj, hpre⟩ := exists_prefix_of_mem_writtenFrom p (i + 1) ts m h
      exact ⟨j, by omega, hpre⟩

end

mutual

/-- The worklist loses nothing and adds nothing. -/
theorem turnedAt_perm (p : List ℕ) : ∀ s : Sig V, (turnedAt p s).Perm (writtenAt p s)
  | task .. => .refl _
  | chain [] _ => .refl _
  | chain (_ :: _) _ => .refl _
  | group _ ts _ => by rw [turnedAt, writtenAt]; exact turnedFrom_perm p 0 ts
  | chord .. => .refl _

theorem turnedFrom_perm (p : List ℕ) : ∀ (i : ℕ) (ts : List (Sig V)),
    (turnedFrom p i ts).Perm (writtenFrom p i ts)
  | _, [] => .refl _
  | i, t :: ts => by
    rw [turnedFrom, writtenFrom]
    exact ((turnedFrom_perm p (i + 1) ts).append (turnedAt_perm _ t)).trans
      List.perm_append_comm

end

mutual

theorem writtenAt_eq_nil_iff (p : List ℕ) : ∀ s : Sig V, writtenAt p s = [] ↔ s.bearing = false
  | task .. => by simp [writtenAt, bearing]
  | chain [] _ => by simp [writtenAt, bearing]
  | chain (_ :: _) _ => by simp [writtenAt, bearing]
  | group _ ts _ => by rw [writtenAt, bearing]; exact writtenFrom_eq_nil_iff p 0 ts
  | chord .. => by simp [writtenAt, bearing]

theorem writtenFrom_eq_nil_iff (p : List ℕ) : ∀ (i : ℕ) (ts : List (Sig V)),
    writtenFrom p i ts = [] ↔ bearingAny ts = false
  | _, [] => by simp [writtenFrom, bearingAny]
  | i, t :: ts => by
    rw [writtenFrom, bearingAny, List.append_eq_nil_iff, Bool.or_eq_false_iff,
      writtenAt_eq_nil_iff _ t, writtenFrom_eq_nil_iff p (i + 1) ts]

end

/-- Two members that both hold something to freeze do not stay in order. -/
theorem turnedFrom_append_ne {p : List ℕ} {i : ℕ} {t : Sig V} {ts : List (Sig V)}
    (ht : t.bearing = true) (hts : bearingAny ts = true) :
    turnedFrom p (i + 1) ts ++ turnedAt (p ++ [i]) t ≠
      writtenAt (p ++ [i]) t ++ writtenFrom p (i + 1) ts := by
  have hfirst : writtenAt (p ++ [i]) t ≠ [] :=
    fun hnil => by simp [(writtenAt_eq_nil_iff _ t).mp hnil] at ht
  have hrest : writtenFrom p (i + 1) ts ≠ [] :=
    fun hnil => by simp [(writtenFrom_eq_nil_iff p _ ts).mp hnil] at hts
  have hturned : turnedFrom p (i + 1) ts ≠ [] := fun hnil =>
    hrest (List.nil_perm.mp (hnil ▸ turnedFrom_perm p (i + 1) ts))
  obtain ⟨m, ms, hm⟩ := List.exists_cons_of_ne_nil hfirst
  obtain ⟨m', ms', hm'⟩ := List.exists_cons_of_ne_nil hturned
  intro heq
  rw [hm, hm', List.cons_append, List.cons_append] at heq
  obtain rfl : m' = m := (List.cons.inj heq).1
  have hplace : p ++ [i] <+: m'.1 := prefix_of_mem_writtenAt _ t m' (by simp [hm])
  obtain ⟨j, hj, hplace'⟩ := exists_prefix_of_mem_writtenFrom p (i + 1) ts m'
    ((turnedFrom_perm p (i + 1) ts).subset (by simp [hm']))
  have hsame := List.prefix_of_prefix_length_le hplace hplace' (by simp)
  have : i = j := by simpa using hsame.eq_of_length (by simp)
  omega

mutual

/-- **A member is kept in order exactly if it is straight.** -/
theorem turnedAt_eq_writtenAt_iff (p : List ℕ) : ∀ s : Sig V,
    turnedAt p s = writtenAt p s ↔ s.straight = true
  | task .. => by simp [turnedAt, writtenAt, straight]
  | chain [] _ => by simp [turnedAt, writtenAt, straight]
  | chain (_ :: _) _ => by simp [turnedAt, writtenAt, straight]
  | group _ ts _ => by
    rw [turnedAt, writtenAt, straight]
    exact turnedFrom_eq_writtenFrom_iff p 0 ts
  | chord .. => by simp [turnedAt, writtenAt, straight]

theorem turnedFrom_eq_writtenFrom_iff (p : List ℕ) : ∀ (i : ℕ) (ts : List (Sig V)),
    turnedFrom p i ts = writtenFrom p i ts ↔ straightAll ts = true
  | _, [] => by simp [turnedFrom, writtenFrom, straightAll]
  | i, t :: ts => by
    have ht := turnedAt_eq_writtenAt_iff (p ++ [i]) t
    have hts := turnedFrom_eq_writtenFrom_iff p (i + 1) ts
    rw [turnedFrom, writtenFrom, straightAll]
    cases hbt : t.bearing with
    | false =>
      have hwritten := (writtenAt_eq_nil_iff (p ++ [i]) t).mpr hbt
      have hturned := List.perm_nil.mp (hwritten ▸ turnedAt_perm (p ++ [i]) t)
      have hstraight := ht.mp (hturned.trans hwritten.symm)
      rw [hwritten, hturned, List.append_nil, List.nil_append, hts, hstraight]
      simp
    | true =>
      cases hbts : bearingAny ts with
      | false =>
        have hwritten := (writtenFrom_eq_nil_iff p (i + 1) ts).mpr hbts
        have hturned := List.perm_nil.mp (hwritten ▸ turnedFrom_perm p (i + 1) ts)
        have hstraight := hts.mp (hturned.trans hwritten.symm)
        rw [hwritten, hturned, List.append_nil, List.nil_append, ht, hstraight]
        simp
      | true =>
        simp [turnedFrom_append_ne hbt hbts]

end

/-- **A group made from a list is frozen in the order in which it is written exactly if no
nested group has two members that hold something to freeze.**  What `_freeze_unroll` freezes,
and what `_prepared` yields, are the members at the places `unrolled` and `written`. -/
theorem freezeUnroll_writtenOrder_iff (ts : List (Sig V)) :
    (∀ (fr : Freezer V) (p : FreezeArgs V), freezeUnroll fr p (weightAll ts) ts 0 =
        freezeEach fr p 0 ((unrolled ts).map fun m => m.2.clone)) ∧
      preparedAll ts = (written ts).map (fun m => m.2.clone) ∧
      (unrolled ts = written ts ↔ ∀ t ∈ ts, t.straight = true) := by
  refine ⟨fun fr p => freezeUnroll_eq_freezeEach fr p ts, (writtenFrom_map_clone [] 0 ts).symm, ?_⟩
  rw [unrolled_eq_flatMap, written, writtenFrom_eq_flatMap]
  have hsnd := placeFrom_map_snd [] 0 ts
  generalize placeFrom [] 0 ts = placed at hsnd
  subst hsnd
  induction placed with
  | nil => simp
  | cons m placed ih =>
    rw [List.flatMap_cons, List.flatMap_cons, List.map_cons, List.forall_mem_cons]
    refine Iff.trans ⟨fun h => ?_, fun h => ?_⟩
      (and_congr (turnedAt_eq_writtenAt_iff m.1 m.2) ih)
    · exact List.append_inj h (turnedAt_perm m.1 m.2).length_eq
    · rw [h.1, h.2]

/-- `group(group(a, b))`. -/
def groupOfPair : List (Sig Unit) := [.group false [.task "a" {}, .task "b" {}] {}]

/-- It is written as `a`, `b` and frozen as `b`, `a`. -/
theorem groupOfPair_turned :
    unrolled groupOfPair ≠ written groupOfPair ∧
      names (labelsAll (preparedAll groupOfPair)) = ["a", "b"] ∧
      (freezeUnroll freeze {} (weightAll groupOfPair) groupOfPair 0 ⟨0, 0⟩).toOption.map
        (fun r => names (labelsAll (r.1.map Prod.fst))) = some ["b", "a"] := by
  refine ⟨fun heq => ?_, rfl, rfl⟩
  have hplaces : (unrolled groupOfPair).map Prod.fst = (written groupOfPair).map Prod.fst := by
    rw [heq]
  exact absurd hplaces (by decide)

end Canvas
end Celery
