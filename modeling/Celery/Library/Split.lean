/-
# Splitting at a separator

`partition` and `split` of Python's strings, on lists of any type: `partition?` cuts a list
at the first place where the separator stands, and `splitMax` does so again and again, as
often as it may.

Where no separator begins in front of it, that is the first place
(`partition?_append_of_not_infix`).  So pieces that are joined come apart again
(`splitMax_intercalate_of_not_infix`).

Core's `splitOn` splits at a single entry.  If that occurs, there are two pieces at least
(`exists_splitOn_eq`).  `rpartition` cuts at its last occurrence.
-/

import Mathlib.Data.List.Basic
import Mathlib.Data.List.DropRight
import Mathlib.Data.List.Infix
import Mathlib.Tactic.Common

namespace Split

variable {α : Type} [DecidableEq α]

/-- `xs.partition(sep)`: what is before the first `sep`, and what is after it. -/
def partition? (sep : List α) : List α → Option (List α × List α)
  | [] => if sep = [] then some ([], []) else none
  | x :: xs =>
    if sep.isPrefixOf (x :: xs) then some ([], (x :: xs).drop sep.length)
    else (partition? sep xs).map fun parts => (x :: parts.1, parts.2)

/-- `xs.split(sep, maxsplit)`. -/
def splitMax (sep : List α) : ℕ → List α → List (List α)
  | 0, xs => [xs]
  | n + 1, xs =>
    match partition? sep xs with
    | none => [xs]
    | some (before, after) => before :: splitMax sep n after

variable {a : α} {sep xs ys : List α}

omit [DecidableEq α] in
/-- What begins with an entry that is not at the start comes later. -/
theorem not_infix_append (ha : a ∉ xs) (h : ¬ a :: sep <:+: ys) : ¬ a :: sep <:+: xs ++ ys := by
  rw [List.infix_append_iff_ne_nil]
  rintro (hxs | hys | ⟨before, after, hbefore, hafter, heq, hsuffix, hstart⟩)
  · exact ha (hxs.subset List.mem_cons_self)
  · exact h hys
  · obtain ⟨b, before, rfl⟩ := List.exists_cons_of_ne_nil hbefore
    obtain rfl := (List.cons.inj heq).1
    exact ha (hsuffix.subset List.mem_cons_self)

omit [DecidableEq α] in
theorem not_infix_append_dropLast (ha : a ∉ xs) : ¬ a :: sep <:+: xs ++ (a :: sep).dropLast := by
  refine not_infix_append ha fun h => ?_
  have hle := h.length_le
  rw [List.length_dropLast, List.length_cons] at hle
  omega

/-- The first separator is found, where none begins before it. -/
theorem partition?_append_of_not_infix (hsep : sep ≠ []) (h : ¬ sep <:+: xs ++ sep.dropLast) :
    partition? sep (xs ++ sep ++ ys) = some (xs, ys) := by
  induction xs with
  | nil =>
    obtain ⟨a, rest, rfl⟩ := List.exists_cons_of_ne_nil hsep
    have hstart : (a :: rest).isPrefixOf (a :: rest ++ ys) = true :=
      List.isPrefixOf_iff_prefix.mpr (List.prefix_append _ _)
    rw [List.nil_append, List.cons_append, partition?, ← List.cons_append, if_pos hstart,
      List.drop_left]
  | cons x xs ih =>
    have hne : ¬ sep.isPrefixOf (x :: (xs ++ sep ++ ys)) = true := by
      intro hstart
      refine h (List.IsPrefix.isInfix ?_)
      have hwhole : x :: xs ++ sep.dropLast <+: x :: (xs ++ sep ++ ys) := by
        rw [List.cons_append, List.cons_prefix_cons, List.append_assoc]
        exact ⟨rfl, (List.prefix_append_right_inj xs).mpr
          ((List.dropLast_prefix sep).trans (List.prefix_append _ _))⟩
      refine List.prefix_of_prefix_length_le (List.isPrefixOf_iff_prefix.mp hstart) hwhole ?_
      rw [List.cons_append, List.length_cons, List.length_append, List.length_dropLast]
      omega
    rw [List.cons_append, List.cons_append, partition?, if_neg hne,
      ih fun hinside => h (hinside.trans (List.suffix_cons x _).isInfix)]
    rfl

/-- The first separator is found. -/
theorem partition?_append (ha : a ∉ xs) :
    partition? (a :: sep) (xs ++ (a :: sep) ++ ys) = some (xs, ys) :=
  partition?_append_of_not_infix (List.cons_ne_nil a sep) (not_infix_append_dropLast ha)

/-- Nothing is found exactly if the separator is nowhere. -/
theorem partition?_eq_none_iff : partition? sep xs = none ↔ ¬ sep <:+: xs := by
  induction xs with
  | nil => simp [partition?]
  | cons x xs ih =>
    rw [partition?, List.infix_cons_iff, ← List.isPrefixOf_iff_prefix]
    split
    next hstart => simp [hstart]
    next hstart =>
      rw [Option.map_eq_none_iff, ih]
      simp [hstart]

/-- **Pieces that are joined come apart again**, the last one whatever it has in it. -/
theorem splitMax_intercalate_of_not_infix (pieces : List (List α)) (last : List α) (hsep : sep ≠ [])
    (h : ∀ piece ∈ pieces, ¬ sep <:+: piece ++ sep.dropLast) :
    splitMax sep pieces.length (List.intercalate sep (pieces ++ [last])) = pieces ++ [last] := by
  induction pieces with
  | nil => simp [splitMax, List.intercalate]
  | cons piece pieces ih =>
    have hcons : List.intercalate sep (piece :: (pieces ++ [last])) =
        piece ++ sep ++ List.intercalate sep (pieces ++ [last]) := by
      rw [List.intercalate_cons_of_ne_nil (by simp), List.append_assoc]
    rw [List.cons_append, hcons, List.length_cons, splitMax,
      partition?_append_of_not_infix hsep (h piece List.mem_cons_self)]
    exact congrArg _ (ih fun piece' hpiece' => h piece' (List.mem_cons_of_mem _ hpiece'))

/-! ## A single separator -/

omit [DecidableEq α] in
theorem mem_intercalate {b : α} {pieces : List (List α)}
    (hb : b ∈ List.intercalate [a] pieces) : b = a ∨ ∃ piece ∈ pieces, b ∈ piece := by
  induction pieces with
  | nil => simp at hb
  | cons piece pieces ih =>
    by_cases hnil : pieces = []
    · rw [hnil, List.intercalate_singleton] at hb
      exact Or.inr ⟨piece, List.mem_cons_self, hb⟩
    · rw [List.intercalate_cons_of_ne_nil hnil, List.mem_append, List.mem_append,
        List.mem_singleton] at hb
      rcases hb with (hb | hb) | hb
      · exact Or.inr ⟨piece, List.mem_cons_self, hb⟩
      · exact Or.inl hb
      · obtain heq | ⟨piece', hpiece', hmem⟩ := ih hb
        · exact Or.inl heq
        · exact Or.inr ⟨piece', List.mem_cons_of_mem _ hpiece', hmem⟩

omit [DecidableEq α] in
/-- A piece is a part of what is joined. -/
theorem infix_intercalate {piece : List α} {pieces : List (List α)} (h : piece ∈ pieces) :
    piece <:+: List.intercalate sep pieces := by
  induction pieces with
  | nil => cases h
  | cons piece' pieces ih =>
    by_cases hnil : pieces = []
    · subst hnil
      rw [List.mem_singleton.mp h, List.intercalate_singleton]
    · rw [List.intercalate_cons_of_ne_nil hnil]
      rcases List.mem_cons.mp h with rfl | h
      · rw [List.append_assoc]
        exact (List.prefix_append _ _).isInfix
      · exact (ih h).trans (List.suffix_append _ _).isInfix

omit [DecidableEq α] in
/-- What stands before joined pieces belongs to the first one. -/
theorem append_intercalate (xs first : List α) (rest : List (List α)) :
    xs ++ List.intercalate sep (first :: rest) = List.intercalate sep ((xs ++ first) :: rest) := by
  by_cases hnil : rest = []
  · rw [hnil, List.intercalate_singleton, List.intercalate_singleton]
  · rw [List.intercalate_cons_of_ne_nil hnil, List.intercalate_cons_of_ne_nil hnil]
    simp only [List.append_assoc]

omit [DecidableEq α] in
/-- What stands after joined pieces belongs to the last one. -/
theorem intercalate_append (init : List (List α)) (last ys : List α) :
    List.intercalate sep (init ++ [last]) ++ ys = List.intercalate sep (init ++ [last ++ ys]) := by
  induction init with
  | nil => rw [List.nil_append, List.nil_append, List.intercalate_singleton,
      List.intercalate_singleton]
  | cons piece init ih =>
    rw [List.cons_append, List.cons_append, List.intercalate_cons_of_ne_nil (by simp),
      List.intercalate_cons_of_ne_nil (by simp), List.append_assoc, ih]

/-- The pieces between the separators have none. -/
theorem not_mem_of_mem_splitOn {piece : List α} (h : piece ∈ xs.splitOn a) : a ∉ piece := by
  induction xs generalizing piece with
  | nil => simp_all
  | cons x xs ih =>
    rw [List.splitOn_cons_eq_if_modifyHead] at h
    split at h
    · rcases List.mem_cons.mp h with rfl | h
      · exact List.not_mem_nil
      · exact ih h
    next hne =>
      cases hsplit : xs.splitOn a with
      | nil => exact absurd hsplit (List.splitOn_ne_nil a xs)
      | cons first rest =>
        rw [hsplit, List.modifyHead_cons] at h
        rw [hsplit] at ih
        rcases List.mem_cons.mp h with rfl | h
        · have hx : a ≠ x := fun heq => hne (by simp [heq])
          exact List.not_mem_cons_of_ne_of_not_mem hx (ih List.mem_cons_self)
        · exact ih (List.mem_cons_of_mem _ h)

/-- Where the separator occurs, there is a first piece and a last one. -/
theorem exists_splitOn_eq (h : a ∈ xs) :
    ∃ first middle last, xs.splitOn a = first :: (middle ++ [last]) := by
  obtain ⟨before, after, rfl⟩ := List.append_of_mem h
  rw [List.splitOn_append_cons_self]
  obtain ⟨first, rest, hbefore⟩ := List.exists_cons_of_ne_nil (List.splitOn_ne_nil a before)
  obtain ⟨middle, last, hafter⟩ :=
    (List.eq_nil_or_concat (after.splitOn a)).resolve_left (List.splitOn_ne_nil a after)
  refine ⟨first, rest ++ middle, last, ?_⟩
  rw [hbefore, hafter, List.concat_eq_append, List.cons_append, List.append_assoc]

/-- An entry that is no separator is in a piece. -/
theorem mem_flatten_splitOn {b : α} (hb : b ∈ xs) (hne : b ≠ a) : b ∈ (xs.splitOn a).flatten := by
  have hjoin : List.intercalate [a] (xs.splitOn a) = xs := List.intercalate_splitOn a
  rw [← hjoin] at hb
  exact List.mem_flatten.mpr ((mem_intercalate hb).resolve_left hne)

/-- A piece is a part of what is split. -/
theorem infix_of_mem_splitOn {piece : List α} (h : piece ∈ xs.splitOn a) : piece <:+: xs := by
  have hjoin : List.intercalate [a] (xs.splitOn a) = xs := List.intercalate_splitOn a
  exact hjoin ▸ infix_intercalate h

/-- Without a separator at the start, all pieces but the first one come later. -/
theorem infix_of_mem_tail_splitOn {piece : List α} (ha : a ∉ xs)
    (h : piece ∈ ((xs ++ ys).splitOn a).tail) : piece <:+: ys := by
  induction xs with
  | nil => exact infix_of_mem_splitOn (List.mem_of_mem_tail h)
  | cons x xs ih =>
    have hne : (x == a) = false := beq_eq_false_iff_ne.mpr (List.ne_of_not_mem_cons ha).symm
    rw [List.cons_append, List.splitOn_cons_eq_if_modifyHead, hne, if_neg Bool.false_ne_true,
      List.tail_modifyHead] at h
    exact ih (List.not_mem_of_not_mem_cons ha) h

omit [DecidableEq α] in
/-- What has not the entry that follows is on one side of it. -/
theorem not_infix_append_cons (ha : a ∉ sep) (hxs : ¬ sep <:+: xs) (hys : ¬ sep <:+: a :: ys) :
    ¬ sep <:+: xs ++ a :: ys := by
  rw [List.infix_append_iff_ne_nil]
  rintro (h | h | ⟨before, after, hbefore, hafter, heq, hsuffix, hstart⟩)
  · exact hxs h
  · exact hys h
  · obtain ⟨b, after, rfl⟩ := List.exists_cons_of_ne_nil hafter
    obtain rfl := (List.cons_prefix_cons.mp hstart).1
    exact ha (heq ▸ List.mem_append_right _ List.mem_cons_self)

/-- `xs.rpartition(sep)`: what is before the last `sep`, and what is after it. -/
def rpartition (sep : α) (xs : List α) : List α × List α :=
  ((xs.rdropWhile fun x => x ≠ sep).dropLast, xs.rtakeWhile fun x => x ≠ sep)

section While

variable {p : α → Bool}

omit [DecidableEq α] in
theorem dropWhile_append_cons (ha : p a = false) :
    (xs ++ a :: ys).dropWhile p = xs.dropWhile p ++ a :: ys := by
  rw [List.dropWhile_append, List.dropWhile_cons_of_neg (by simp [ha])]
  split
  next h => rw [List.isEmpty_iff.mp h, List.nil_append]
  next => rfl

omit [DecidableEq α] in
theorem takeWhile_append_cons (hxs : ∀ x ∈ xs, p x = true) (ha : p a = false) :
    (xs ++ a :: ys).takeWhile p = xs := by
  rw [List.takeWhile_append_of_pos hxs, List.takeWhile_cons_of_neg (by simp [ha]),
    List.append_nil]

omit [DecidableEq α] in
theorem rdropWhile_append_cons (ha : p a = false) :
    (xs ++ a :: ys).rdropWhile p = xs ++ a :: ys.rdropWhile p := by
  rw [List.rdropWhile, List.rdropWhile, List.reverse_append, List.reverse_cons,
    List.append_assoc, List.singleton_append, dropWhile_append_cons ha, List.reverse_append,
    List.reverse_cons, List.reverse_reverse, List.append_assoc, List.singleton_append]

omit [DecidableEq α] in
theorem rtakeWhile_append_cons (hys : ∀ y ∈ ys, p y = true) (ha : p a = false) :
    (xs ++ a :: ys).rtakeWhile p = ys := by
  rw [List.rtakeWhile, List.reverse_append, List.reverse_cons, List.append_assoc,
    List.singleton_append, takeWhile_append_cons (by simpa using hys) ha, List.reverse_reverse]

/-- The last separator is found. -/
theorem rpartition_append (ha : a ∉ ys) : rpartition a (xs ++ a :: ys) = (xs, ys) := by
  have hys : ∀ y ∈ ys, decide (y ≠ a) = true := by
    intro y hy
    exact decide_eq_true fun heq => ha (heq ▸ hy)
  have hself : decide (a ≠ a) = false := by simp
  have hdrop : ys.rdropWhile (fun x => decide (x ≠ a)) = [] := List.rdropWhile_eq_nil_iff.mpr hys
  rw [rpartition, rdropWhile_append_cons (p := fun x => decide (x ≠ a)) hself,
    rtakeWhile_append_cons (p := fun x => decide (x ≠ a)) hys hself, hdrop, List.dropLast_concat]

end While

end Split
