/-
# Operands that parentheses make no difference to

Conditions on the operands `X1, ..., Xn`, by which it can be told whether one that is not solid
is treated alike however they are put in parentheses.  With the parentheses to the right such an
operand meets the operand before it, with the parentheses to the left all that is before it.

It is taken apart in all of them if there is a chain behind which it comes with nothing but tasks
and chords in between, or if it is the last operand and each that it can meet unrolls or drops it
(`anchored`, and `loose` behind a chain).  It is kept in all of them if no chain can come of what
is before it (`kept`).  And any number of `group([])` is dropped behind operands that nothing but a
chain or a group can come of (`ends`).
-/

import Celery.Canvas.Kind

namespace Celery
namespace Canvas

open Sig

variable {V : Type}

/-- There is one operand, with this property. -/
def isOnly (p : Sig V → Bool) : List (Sig V) → Bool
  | [z] => p z
  | _ => false

/-- All are solid but the last one, which the one before it unrolls. -/
def unrollsLast : Bool → List (Sig V) → Bool
  | _, [] => false
  | afterGroup, x :: xs =>
    if xs.isEmpty then !afterGroup && x.unrolls
    else x.solid && !x.isEmptyChain && unrollsLast x.isGroup xs

/-- What may come behind a group. -/
def behindGroup (xs : List (Sig V)) : Bool :=
  solidAll xs || unrollsLast true xs || xs.all dropped

/-- What may come behind an empty chain, which does not become a chain with steps by it. -/
def behindEmpty (xs : List (Sig V)) : Bool :=
  solidAll xs || isOnly unrolls xs || isOnly isEmptyGroup xs

/-- What may come behind a chain that ends in a group with less than two members. -/
def begins : List (Sig V) → Bool
  | [] => true
  | y :: ys => y.startsGroup && (ys.isEmpty || y.isLong && (y.severalSteps || begins ys))

mutual

/-- **Operands of which nothing is left to be taken apart**, however they are put in
parentheses: each that a chain takes apart comes behind a chain. -/
def anchored : List (Sig V) → Bool
  | [] => true
  | x :: xs => x.solid && (match x.kind with
    | .task | .chord => isOnly unrolls xs || anchored xs
    | .group => behindGroup xs
    | .chain => loose xs
    | .empty => behindEmpty xs || startsCallAll xs && loose xs)

/-- **Operands that may come behind a chain**: they are taken apart, unless a group takes them for
the body of a chord before. -/
def loose : List (Sig V) → Bool
  | [] => true
  | x :: xs => x.tame && (match x.kind with
    | .task | .chord => loose xs
    | .group => xs.all dropped || !x.isSmall && anchored xs
    | .chain => (x.closed || xs.all dropped || begins xs) && loose xs
    | .empty => behindEmpty xs || startsCallAll xs && loose xs)

end

/-- Operands that no chain comes of, in whatever parentheses: at most `n` groups, then chords, then
a task. -/
def runs : ℕ → List (Sig V) → Bool
  | _, [] => true
  | n, x :: xs => match x.kind with
    | .task => xs.isEmpty
    | .chord => runs 0 xs
    | .group => decide (0 < n) && !x.dropped && runs (n - 1) xs
    | .chain | .empty => false

/-- What operands that no chain comes of pass their result to as it is. -/
def keeps (xs : List (Sig V)) : Sig V → Bool
  | .chain ts _ => !solidAll ts
  | .group l [] _ => l || !xs.getLast?.any isGroup
  | .group _ [_] _ => decide (xs.length ≤ 1) && xs.all isGroup
  | _ => false

/-- **Operands of which one is kept as it is**, however they are put in parentheses, and those
behind it are solid, but for the last one.  The first list is what is before. -/
def kept : List (Sig V) → List (Sig V) → Bool
  | _, [] => false
  | xs, z :: zs => runs 2 xs && keeps xs z && (solidAll zs || unrollsLast z.isGroup zs)
    || kept (xs ++ [z]) zs

/-- Operands that a chain or a group comes of, in whatever parentheses: the last one is a chain or a
group, and behind a chord it is no group of one, which the chord would unroll. -/
def ends : List (Sig V) → Bool
  | [] => false
  | x :: xs =>
    if xs.isEmpty then x.isGroup || x.isLong
    else match x.kind with
      | .task | .chain => ends xs
      | .chord => !xs.getLast?.any isOne && ends xs
      | .group | .empty => false

/-- What may come behind an operand of a kind. -/
def follows (k : Kind) (xs : List (Sig V)) : Bool :=
  match k with
  | .task | .chord => isOnly unrolls xs || anchored xs
  | .group => behindGroup xs
  | .chain => loose xs
  | .empty => behindEmpty xs || startsCallAll xs && loose xs

theorem anchored_cons (x : Sig V) (xs : List (Sig V)) :
    anchored (x :: xs) = (x.solid && follows x.kind xs) := by
  rw [anchored]
  rfl

theorem solidAll_append {xs ys : List (Sig V)} :
    solidAll (xs ++ ys) = true ↔ solidAll xs = true ∧ solidAll ys = true := by
  simp only [solidAll_iff, List.forall_mem_append]

theorem eq_singleton_of_isOnly {p : Sig V → Bool} {xs : List (Sig V)} (h : isOnly p xs = true) :
    ∃ z, xs = [z] ∧ p z = true := by
  cases xs with
  | nil => cases h
  | cons z xs => cases xs with
    | nil => exact ⟨z, rfl, h⟩
    | cons => cases h

/-- The last of several operands is last in what is behind the first ones. -/
theorem isOnly_append {p : Sig V → Bool} {xs ys : List (Sig V)} (hys : ys ≠ [])
    (h : isOnly p (xs ++ ys) = true) : xs = [] ∧ isOnly p ys = true := by
  cases xs with
  | nil => exact ⟨rfl, h⟩
  | cons x xs => cases xs with
    | cons => cases h
    | nil => cases ys with
      | nil => exact absurd rfl hys
      | cons => cases h

theorem anchored_of_solidAll {xs : List (Sig V)} (h : solidAll xs = true) :
    anchored xs = true ∧ loose xs = true := by
  induction xs with
  | nil => exact ⟨rfl, rfl⟩
  | cons x xs ih =>
    rw [solidAll, Bool.and_eq_true] at h
    obtain ⟨hanchored, hloose⟩ := ih h.2
    rw [anchored, loose, h.1, tame_of_solid h.1, not_isSmall_of_solid h.1, closed_of_solid h.1]
    cases x.kind <;> simp [behindGroup, behindEmpty, h.2, hanchored, hloose]

theorem follows_of_solidAll (k : Kind) {xs : List (Sig V)} (h : solidAll xs = true) :
    follows k xs = true := by
  obtain ⟨hanchored, hloose⟩ := anchored_of_solidAll h
  cases k <;> simp [follows, behindGroup, behindEmpty, h, hanchored, hloose]

theorem loose_of_unrolls {xs : List (Sig V)} (h : isOnly unrolls xs = true) : loose xs = true := by
  obtain ⟨z, rfl, hz⟩ := eq_singleton_of_isOnly h
  obtain ⟨l, t, f, rfl, ht⟩ := exists_of_unrolls hz
  simp [loose, kind, isSmall, tame, unpacked, ht]

theorem loose_of_dropped {xs : List (Sig V)} (h : xs.all dropped = true) : loose xs = true := by
  cases xs with
  | nil => rfl
  | cons z zs =>
    rw [List.all_cons, Bool.and_eq_true] at h
    obtain ⟨f, rfl⟩ := exists_of_dropped h.1
    rw [loose, kind]
    simp [h.2, tame, unpacked, solid, solidAll]

theorem loose_of_isEmptyGroup {xs : List (Sig V)} (h : isOnly isEmptyGroup xs = true) :
    loose xs = true := by
  obtain ⟨z, rfl, hz⟩ := eq_singleton_of_isOnly h
  cases z with
  | group l ts f => cases ts with
    | nil => rfl
    | cons => cases hz
  | _ => cases hz

/-- Operands of which only the last one is to be unrolled are anchored. -/
theorem anchored_of_unrollsLast {xs : List (Sig V)} {afterGroup : Bool}
    (h : unrollsLast afterGroup xs = true) :
    ((afterGroup = false ∧ isOnly unrolls xs = true) ∨ anchored xs = true) ∧ loose xs = true := by
  induction xs generalizing afterGroup with
  | nil => cases h
  | cons x xs ih =>
    rw [unrollsLast] at h
    split at h
    next hempty =>
      rw [List.isEmpty_iff] at hempty
      subst hempty
      rw [Bool.and_eq_true, Bool.not_eq_true'] at h
      exact ⟨.inl h, loose_of_unrolls h.2⟩
    next =>
      rw [Bool.and_eq_true, Bool.and_eq_true, Bool.not_eq_true'] at h
      obtain ⟨⟨hx, hchain⟩, hxs⟩ := h
      obtain ⟨hrest, hloose⟩ := ih hxs
      rw [anchored, loose, hx, tame_of_solid hx, not_isSmall_of_solid hx, closed_of_solid hx]
      cases hk : x.kind with
      | task | chord =>
        rcases hrest with ⟨-, hrest⟩ | hrest <;> simp [hrest, hloose]
      | group =>
        rw [kind_eq_group.mp hk] at hxs hrest
        have hanchored := hrest.resolve_left fun h => Bool.noConfusion h.1
        simp [behindGroup, hxs, hanchored]
      | chain => simp [hloose]
      | empty =>
        rw [kind_eq_empty.mp hk] at hchain
        cases hchain

/-- What may come behind a group is a body for it, unless it is dropped. -/
theorem anchored_of_behindGroup {xs : List (Sig V)} (h : behindGroup xs = true) :
    xs.all dropped = true ∨ anchored xs = true := by
  rw [behindGroup, Bool.or_eq_true, Bool.or_eq_true] at h
  rcases h with (h | h) | h
  · exact .inr (anchored_of_solidAll h).1
  · exact .inr ((anchored_of_unrollsLast h).1.resolve_left fun h => Bool.noConfusion h.1)
  · exact .inl h

theorem loose_of_behindEmpty {xs : List (Sig V)} (h : behindEmpty xs = true) :
    loose xs = true := by
  rw [behindEmpty, Bool.or_eq_true, Bool.or_eq_true] at h
  rcases h with (h | h) | h
  · exact (anchored_of_solidAll h).2
  · exact loose_of_unrolls h
  · exact loose_of_isEmptyGroup h

/-- What needs no chain before it may have one. -/
theorem loose_of_anchored {xs : List (Sig V)} (h : anchored xs = true) : loose xs = true := by
  induction xs with
  | nil => rfl
  | cons x xs ih =>
    rw [anchored, Bool.and_eq_true] at h
    obtain ⟨hx, hxs⟩ := h
    rw [loose, tame_of_solid hx, not_isSmall_of_solid hx, closed_of_solid hx]
    cases hk : x.kind with
    | task | chord =>
      simp only [hk, Bool.or_eq_true] at hxs
      simpa using hxs.elim loose_of_unrolls ih
    | group =>
      simp only [hk] at hxs
      simpa using anchored_of_behindGroup hxs
    | chain | empty =>
      simp only [hk] at hxs
      simpa using hxs

theorem loose_tail {x : Sig V} {xs : List (Sig V)} (h : loose (x :: xs) = true) :
    loose xs = true := by
  rw [loose, Bool.and_eq_true] at h
  obtain ⟨-, h⟩ := h
  cases hk : x.kind with
  | task | chord => simpa only [hk] using h
  | group =>
    simp only [hk, Bool.or_eq_true, Bool.and_eq_true] at h
    exact h.elim loose_of_dropped fun h => loose_of_anchored h.2
  | chain =>
    simp only [hk, Bool.and_eq_true] at h
    exact h.2
  | empty =>
    simp only [hk, Bool.or_eq_true, Bool.and_eq_true] at h
    exact h.elim loose_of_behindEmpty And.right

theorem loose_append_right {xs ys : List (Sig V)} (h : loose (xs ++ ys) = true) :
    loose ys = true := by
  induction xs with
  | nil => exact h
  | cons x xs ih => exact ih (loose_tail h)

theorem solidAll_of_unrollsLast {xs ys : List (Sig V)} {afterGroup : Bool} (hys : ys ≠ [])
    (h : unrollsLast afterGroup (xs ++ ys) = true) :
    solidAll xs = true ∧ ∃ b, unrollsLast b ys = true := by
  induction xs generalizing afterGroup with
  | nil => exact ⟨rfl, afterGroup, h⟩
  | cons x xs ih =>
    rw [List.cons_append, unrollsLast, if_neg (by simp [hys]), Bool.and_eq_true,
      Bool.and_eq_true] at h
    obtain ⟨hxs, hrest⟩ := ih h.2
    exact ⟨by rw [solidAll, h.1.1, hxs]; rfl, hrest⟩

theorem behindEmpty_append_left {xs ys : List (Sig V)} (hys : ys ≠ [])
    (h : behindEmpty (xs ++ ys) = true) : solidAll xs = true := by
  rw [behindEmpty, Bool.or_eq_true, Bool.or_eq_true] at h
  rcases h with (h | h) | h
  · exact (solidAll_append.mp h).1
  · rw [(isOnly_append hys h).1, solidAll]
  · rw [(isOnly_append hys h).1, solidAll]

theorem begins_append_left {xs ys : List (Sig V)} (h : begins (xs ++ ys) = true) :
    begins xs = true := by
  induction xs with
  | nil => rfl
  | cons x xs ih =>
    simp only [List.cons_append, begins, Bool.and_eq_true, Bool.or_eq_true, List.isEmpty_iff,
      List.append_eq_nil_iff] at h ⊢
    exact ⟨h.1, h.2.imp And.left (And.imp_right (Or.imp_right ih))⟩

theorem startsCallAll_append_left {xs ys : List (Sig V)} (h : startsCallAll (xs ++ ys) = true) :
    xs = [] ∨ startsCallAll xs = true := by
  cases xs with
  | nil => exact .inl rfl
  | cons => exact .inr h

/-- What is true of operands is true of the first ones. -/
theorem append_left {xs ys : List (Sig V)} :
    (anchored (xs ++ ys) = true → anchored xs = true) ∧
      (loose (xs ++ ys) = true → loose xs = true) := by
  rcases eq_or_ne ys [] with rfl | hys
  · rw [List.append_nil]
    exact ⟨id, id⟩
  have hempty {xs : List (Sig V)} (ih : loose (xs ++ ys) = true → loose xs = true)
      (h : (behindEmpty (xs ++ ys) || startsCallAll (xs ++ ys) && loose (xs ++ ys)) = true) :
      (behindEmpty xs || startsCallAll xs && loose xs) = true := by
    rw [Bool.or_eq_true, Bool.and_eq_true] at h
    rcases h with h | ⟨hstart, h⟩
    · simp [behindEmpty, behindEmpty_append_left hys h]
    · rcases startsCallAll_append_left hstart with rfl | hstart
      · rfl
      · simp [hstart, ih h]
  induction xs with
  | nil => exact ⟨fun _ => rfl, fun _ => rfl⟩
  | cons x xs ih =>
    constructor
    · intro h
      rw [List.cons_append, anchored, Bool.and_eq_true] at h
      rw [anchored, h.1, Bool.true_and]
      replace h := h.2
      cases hk : x.kind with
      | task | chord =>
        simp only [hk, Bool.or_eq_true] at h ⊢
        rcases h with h | h
        · rw [(isOnly_append hys h).1]
          exact .inr rfl
        · exact .inr (ih.1 h)
      | group =>
        simp only [hk, behindGroup, Bool.or_eq_true] at h ⊢
        rcases h with (h | h) | h
        · exact .inl (.inl (solidAll_append.mp h).1)
        · exact .inl (.inl (solidAll_of_unrollsLast hys h).1)
        · rw [List.all_append, Bool.and_eq_true] at h
          exact .inr h.1
      | chain =>
        simp only [hk] at h ⊢
        exact ih.2 h
      | empty =>
        simp only [hk] at h ⊢
        exact hempty ih.2 h
    · intro h
      rw [List.cons_append, loose, Bool.and_eq_true] at h
      rw [loose, h.1, Bool.true_and]
      replace h := h.2
      cases hk : x.kind with
      | task | chord =>
        simp only [hk] at h ⊢
        exact ih.2 h
      | group =>
        simp only [hk, List.all_append, Bool.or_eq_true, Bool.and_eq_true] at h ⊢
        exact h.imp And.left (And.imp_right ih.1)
      | chain =>
        simp only [hk, Bool.and_eq_true, Bool.or_eq_true] at h ⊢
        rw [List.all_append, Bool.and_eq_true] at h
        exact ⟨h.1.imp (Or.imp_right And.left) begins_append_left, ih.2 h.2⟩
      | empty =>
        simp only [hk] at h ⊢
        exact hempty ih.2 h

/-- The end of the first operands does not take what comes behind them for a body. -/
theorem closed_or_begins {xs ys : List (Sig V)} (h : loose (xs ++ ys) = true) :
    (∀ x, xs.getLast? = some x → x.closed = true) ∨ ys.all dropped = true ∨ begins ys = true := by
  induction xs with
  | nil => exact .inl fun x hx => by cases hx
  | cons x xs ih =>
    cases xs with
    | cons x' xs =>
      have hrest := ih (loose_tail h)
      rwa [List.getLast?_cons_cons]
    | nil =>
      rw [List.singleton_append, loose, Bool.and_eq_true] at h
      replace h := h.2
      simp only [List.getLast?_singleton, Option.some.injEq, forall_eq']
      cases x with
      | task => exact .inl rfl
      | chord => exact .inl rfl
      | group l ts f =>
        simp only [kind, Bool.or_eq_true, Bool.and_eq_true] at h
        exact h.elim (fun h => .inr (.inl h)) fun h => .inl h.1
      | chain ts f => cases ts with
        | nil => exact .inl rfl
        | cons t ts =>
          simp only [kind, Bool.and_eq_true, Bool.or_eq_true] at h
          exact or_assoc.mp h.1

/-- The last operands decide. -/
theorem ends_append {xs ys : List (Sig V)} (hys : ys ≠ []) (h : ends (xs ++ ys) = true) :
    ends ys = true ∧ ∀ x ∈ xs, x.kind = .task ∨ x.kind = .chain ∨
      x.kind = .chord ∧ ys.getLast?.any isOne = false := by
  induction xs with
  | nil => exact ⟨h, fun x hx => absurd hx List.not_mem_nil⟩
  | cons x xs ih =>
    rw [List.cons_append, ends, if_neg (by simp [hys])] at h
    rw [List.forall_mem_cons]
    cases hk : x.kind with
    | task =>
      simp only [hk] at h
      exact ⟨(ih h).1, .inl rfl, (ih h).2⟩
    | chain =>
      simp only [hk] at h
      exact ⟨(ih h).1, .inr (.inl rfl), (ih h).2⟩
    | chord =>
      simp only [hk, Bool.and_eq_true, Bool.not_eq_true'] at h
      rw [List.getLast?_append_of_ne_nil _ hys] at h
      exact ⟨(ih h.2).1, .inr (.inr ⟨rfl, h.1⟩), (ih h.2).2⟩
    | group | empty => simp only [hk, Bool.false_eq_true] at h

theorem runs_mono {n k : ℕ} (hnk : n ≤ k) {xs : List (Sig V)} (h : runs n xs = true) :
    runs k xs = true := by
  induction xs generalizing n k with
  | nil => rfl
  | cons x xs ih =>
    rw [runs] at h ⊢
    cases hk : x.kind with
    | task | chord => simpa only [hk] using h
    | group =>
      simp only [hk, Bool.and_eq_true, decide_eq_true_iff] at h ⊢
      exact ⟨⟨by omega, h.1.2⟩, ih (by omega) h.2⟩
    | chain | empty => simp only [hk, Bool.false_eq_true] at h

theorem runs_append {n : ℕ} {xs ys : List (Sig V)} (h : runs n (xs ++ ys) = true) :
    runs n xs = true ∧ runs n ys = true := by
  induction xs generalizing n with
  | nil => exact ⟨rfl, h⟩
  | cons x xs ih =>
    rw [List.cons_append, runs] at h
    rw [runs]
    cases hk : x.kind with
    | task =>
      simp only [hk, List.isEmpty_iff, List.append_eq_nil_iff] at h ⊢
      exact ⟨h.1, by rw [h.2]; rfl⟩
    | chord =>
      simp only [hk] at h ⊢
      exact (ih h).imp_right (runs_mono (Nat.zero_le n))
    | group =>
      simp only [hk, Bool.and_eq_true] at h ⊢
      obtain ⟨hxs, hys⟩ := ih h.2
      exact ⟨⟨h.1, hxs⟩, runs_mono (Nat.sub_le n 1) hys⟩
    | chain | empty => simp only [hk, Bool.false_eq_true] at h

/-- Only groups come before a group. -/
theorem length_lt_of_runs {n : ℕ} {xs : List (Sig V)} {y : Sig V} (hy : y.kind = .group)
    (h : runs n (xs ++ [y]) = true) : xs.length < n ∧ ∀ x ∈ xs, x.kind = .group := by
  induction xs generalizing n with
  | nil =>
    rw [List.nil_append, runs] at h
    simp only [hy, Bool.and_eq_true, decide_eq_true_iff] at h
    exact ⟨h.1.1, nofun⟩
  | cons x xs ih =>
    rw [List.cons_append, runs] at h
    cases hk : x.kind with
    | task => simp [hk] at h
    | chord =>
      simp only [hk] at h
      exact absurd (ih h).1 (Nat.not_lt_zero _)
    | group =>
      simp only [hk, Bool.and_eq_true] at h
      obtain ⟨hlen, hall⟩ := ih h.2
      rw [List.length_cons, List.forall_mem_cons]
      exact ⟨by omega, hk, hall⟩
    | chain | empty => simp only [hk, Bool.false_eq_true] at h

/-- Where the operand that is kept is: on the left or on the right. -/
theorem append_eq_append_cons {xs ys zs ws : List (Sig V)} {z : Sig V}
    (h : xs ++ ys = zs ++ z :: ws) :
    (∃ us, xs = zs ++ z :: us ∧ ws = us ++ ys) ∨ ∃ us, zs = xs ++ us ∧ ys = us ++ z :: ws := by
  rcases List.append_eq_append_iff.mp h with ⟨us, hzs, hys⟩ | ⟨us, hxs, hws⟩
  · exact .inr ⟨us, hzs, hys⟩
  · cases us with
    | nil =>
      rw [List.append_nil] at hxs
      exact .inr ⟨[], by rw [hxs, List.append_nil], hws.symm⟩
    | cons u us =>
      rw [List.cons_append, List.cons_eq_cons] at hws
      obtain ⟨rfl, rfl⟩ := hws
      exact .inl ⟨us, hxs, rfl⟩

end Canvas
end Celery
