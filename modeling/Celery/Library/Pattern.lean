/-
# Patterns of words

The regular expressions that are built from single characters, groups of word characters and an
end mark, with the search of a backtracking matcher: `search` tries the lengths of a group from the
longest down if it is greedy and from the shortest up if it is lazy, and takes the first one with
which the rest of the pattern matches.  The match is at the beginning of the text and may leave
something after it.

What follows a group in these patterns is no word character, so backtracking never helps: a group
is the whole word at its place (`Starts`), greedy or lazy (`search_word_char`, `search_word_end`).
-/

import Mathlib.Data.List.TakeWhile
import Mathlib.Tactic.Common

namespace Pattern

/-- A part of a pattern. -/
inductive Atom (α : Type) where
  /-- This character. -/
  | char (a : α)
  /-- `(\w+)`, or `(\w+?)` if it is lazy. -/
  | word (lazy : Bool)
  /-- `(\w+)?`. -/
  | wordOpt
  /-- `$`: the end, or a line break at the end. -/
  | atEnd

variable {α : Type} [DecidableEq α] (isWord : α → Bool) (newline : α)

/-- The lengths of a group at the beginning of a text, in the order of the search. -/
def lengths (lazy : Bool) (s : List α) : List ℕ :=
  let upwards := (List.range (s.takeWhile isWord).length).map (· + 1)
  if lazy then upwards else upwards.reverse

/-- The groups of the first match. -/
def search : List (Atom α) → List α → Option (List (Option (List α)))
  | [], _ => some []
  | .char a :: p, s =>
    match s with
    | b :: s => if b = a then search p s else none
    | [] => none
  | .word lazy :: p, s =>
    (lengths isWord lazy s).findSome? fun n =>
      (search p (s.drop n)).map fun groups => some (s.take n) :: groups
  | .wordOpt :: p, s =>
    ((lengths isWord false s).findSome? fun n =>
      (search p (s.drop n)).map fun groups => some (s.take n) :: groups).or
        ((search p s).map fun groups => none :: groups)
  | .atEnd :: p, s => if s = [] ∨ s = [newline] then search p s else none

/-- `w` is the word that the text starts with, and `rest` is what follows it. -/
structure Starts (s w rest : List α) : Prop where
  append : s = w ++ rest
  ne_nil : w ≠ []
  forall_mem : ∀ a ∈ w, isWord a = true
  head_rest : ∀ a ∈ rest.head?, isWord a = false

variable {isWord newline} {s t w rest w' rest' : List α} {p : List (Atom α)}

omit [DecidableEq α] in
theorem Starts.takeWhile (h : Starts isWord s w rest) : s.takeWhile isWord = w := by
  obtain ⟨rfl, -, hw, hrest⟩ := h
  rw [List.takeWhile_append_of_pos hw]
  cases rest with
  | nil => exact List.append_nil w
  | cons a rest =>
    have ha := hrest a rfl
    rw [List.takeWhile_cons_of_neg (by rw [ha]; exact Bool.false_ne_true), List.append_nil]

omit [DecidableEq α] in
theorem Starts.dropWhile (h : Starts isWord s w rest) : s.dropWhile isWord = rest := by
  have htake := h.takeWhile
  have hsplit := List.takeWhile_append_dropWhile (p := isWord) (l := s)
  rw [htake, h.append] at hsplit
  rw [h.append]
  exact List.append_cancel_left hsplit

omit [DecidableEq α] in
/-- A text starts with one word at most. -/
theorem Starts.unique (h : Starts isWord s w rest) (h' : Starts isWord s w' rest') :
    w = w' ∧ rest = rest' :=
  ⟨h.takeWhile.symm.trans h'.takeWhile, h.dropWhile.symm.trans h'.dropWhile⟩

omit [DecidableEq α] in
theorem starts_of_takeWhile_ne_nil (h : s.takeWhile isWord ≠ []) :
    Starts isWord s (s.takeWhile isWord) (s.dropWhile isWord) where
  append := List.takeWhile_append_dropWhile.symm
  ne_nil := h
  forall_mem := fun _ ha => List.mem_takeWhile_imp ha
  head_rest := fun a ha => by
    have hnot := List.head?_dropWhile_not isWord s
    rw [Option.mem_def.mp ha] at hnot
    exact Bool.eq_false_iff.mpr (by simpa using hnot)

/-! ## The search -/

omit [DecidableEq α] in
theorem mem_lengths {lazy : Bool} {n : ℕ} :
    n ∈ lengths isWord lazy s ↔ 0 < n ∧ n ≤ (s.takeWhile isWord).length := by
  have hup : n ∈ (List.range (s.takeWhile isWord).length).map (· + 1) ↔
      0 < n ∧ n ≤ (s.takeWhile isWord).length := by
    rw [List.mem_map]
    constructor
    · rintro ⟨k, hk, rfl⟩
      have hlt := List.mem_range.mp hk
      omega
    · rintro ⟨hpos, hle⟩
      exact ⟨n - 1, List.mem_range.mpr (by omega), by omega⟩
  rw [lengths]
  cases lazy with
  | true => exact hup
  | false => exact List.mem_reverse.trans hup

omit [DecidableEq α] in
/-- **Backtracking does not help** where only the whole word will do. -/
theorem findSome?_lengths {β : Type} (lazy : Bool) {f : ℕ → Option β}
    (hf : ∀ n, 0 < n → n < (s.takeWhile isWord).length → f n = none) :
    (lengths isWord lazy s).findSome? f =
      if s.takeWhile isWord = [] then none else f (s.takeWhile isWord).length := by
  split
  next hnil =>
    refine List.findSome?_eq_none_iff.mpr fun n hn => ?_
    obtain ⟨hpos, hle⟩ := mem_lengths.mp hn
    rw [hnil, List.length_nil] at hle
    omega
  next hne =>
    have hpos := List.length_pos_iff.mpr hne
    have honly : ∀ n ∈ lengths isWord lazy s, ∀ b, f n = some b →
        n = (s.takeWhile isWord).length := by
      intro n hn b hb
      obtain ⟨hn, hle⟩ := mem_lengths.mp hn
      by_contra hlt
      rw [hf n hn (by omega)] at hb
      cases hb
    rcases hfound : (lengths isWord lazy s).findSome? f with _ | b
    · exact (List.findSome?_eq_none_iff.mp hfound _ (mem_lengths.mpr ⟨hpos, le_rfl⟩)).symm
    · obtain ⟨n, hn, hb⟩ := List.exists_of_findSome?_eq_some hfound
      rw [← honly n hn b hb, hb]

omit [DecidableEq α] in
theorem take_drop_word (isWord : α → Bool) (s : List α) :
    s.take (s.takeWhile isWord).length = s.takeWhile isWord ∧
      s.drop (s.takeWhile isWord).length = s.dropWhile isWord := by
  have hsplit := List.takeWhile_append_dropWhile (p := isWord) (l := s)
  generalize s.takeWhile isWord = w at hsplit ⊢
  generalize s.dropWhile isWord = rest at hsplit ⊢
  rw [← hsplit]
  exact ⟨List.take_left, List.drop_left⟩

omit [DecidableEq α] in
/-- A word goes on within it. -/
theorem exists_drop_of_lt {n : ℕ} (h : n < (s.takeWhile isWord).length) :
    ∃ a t, s.drop n = a :: t ∧ isWord a = true := by
  have hsplit := List.takeWhile_append_dropWhile (p := isWord) (l := s)
  have hword : ∀ a ∈ s.takeWhile isWord, isWord a = true := fun _ ha => List.mem_takeWhile_imp ha
  generalize s.takeWhile isWord = w at h hsplit hword
  generalize s.dropWhile isWord = rest at hsplit
  obtain ⟨a, t, hdrop⟩ : ∃ a t, w.drop n = a :: t := by
    refine List.exists_cons_of_ne_nil fun hnil => ?_
    rw [List.drop_eq_nil_iff] at hnil
    omega
  refine ⟨a, t ++ rest, ?_, hword a (List.mem_of_mem_drop (hdrop ▸ List.mem_cons_self))⟩
  rw [← hsplit, List.drop_append_of_le_length h.le, hdrop]
  rfl

theorem search_char {c : α} {groups : List (Option (List α))} :
    search isWord newline (.char c :: p) s = some groups ↔
      ∃ t, s = c :: t ∧ search isWord newline p t = some groups := by
  cases s with
  | nil => exact ⟨fun h => absurd h (by simp [search]), fun ⟨_, h, _⟩ => absurd h (by simp)⟩
  | cons b s =>
    rw [search]
    constructor
    · intro h
      obtain ⟨rfl, hsearch⟩ := Option.ite_none_right_eq_some.mp h
      exact ⟨s, rfl, hsearch⟩
    · rintro ⟨t, heq, hsearch⟩
      obtain ⟨rfl, rfl⟩ := List.cons.inj heq
      rw [if_pos rfl, hsearch]

/-- **A group before another character** is a whole word. -/
theorem search_word_char {lazy : Bool} {c : α} {groups : List (Option (List α))}
    (hc : isWord c = false) :
    search isWord newline (.word lazy :: .char c :: p) s = some groups ↔
      ∃ w t rest, Starts isWord s w (c :: t) ∧ search isWord newline p t = some rest ∧
        groups = some w :: rest := by
  have hf : ∀ n, 0 < n → n < (s.takeWhile isWord).length →
      ((search isWord newline (.char c :: p) (s.drop n)).map fun groups =>
        some (s.take n) :: groups) = none := by
    intro n _ hlt
    obtain ⟨a, t, hdrop, ha⟩ := exists_drop_of_lt hlt
    have hne : a ≠ c := fun h => by rw [h, hc] at ha; cases ha
    rw [hdrop, search, if_neg hne, Option.map_none]
  obtain ⟨htake, hdrop⟩ := take_drop_word isWord s
  rw [search, findSome?_lengths lazy hf, htake, hdrop]
  constructor
  · intro h
    obtain ⟨hne, hmap⟩ := Option.ite_none_left_eq_some.mp h
    obtain ⟨rest, hsearch, rfl⟩ := Option.map_eq_some_iff.mp hmap
    obtain ⟨t, heq, hsearch⟩ := search_char.mp hsearch
    exact ⟨_, t, rest, heq ▸ starts_of_takeWhile_ne_nil hne, hsearch, rfl⟩
  · rintro ⟨w, t, rest, hstarts, hsearch, rfl⟩
    rw [hstarts.takeWhile, hstarts.dropWhile, if_neg hstarts.ne_nil,
      search_char.mpr ⟨t, rfl, hsearch⟩]
    rfl

/-- A greedy group at the end takes the whole word first. -/
theorem findSome?_greedy (s : List α) :
    ((lengths isWord false s).findSome? fun n =>
      (search isWord newline [] (s.drop n)).map fun groups => some (s.take n) :: groups) =
      if s.takeWhile isWord = [] then none else some [some (s.takeWhile isWord)] := by
  split
  next hnil =>
    rw [lengths, hnil]
    rfl
  next hne =>
    obtain ⟨htake, -⟩ := take_drop_word isWord s
    obtain ⟨n, hn⟩ := Nat.exists_eq_succ_of_ne_zero fun h => hne (List.length_eq_zero_iff.mp h)
    have hlengths : lengths isWord false s =
        (n + 1) :: ((List.range n).map (· + 1)).reverse := by
      rw [lengths, hn, List.range_succ, List.map_append, List.reverse_append]
      rfl
    rw [hn] at htake
    rw [hlengths, List.findSome?_cons_of_isSome rfl, ← htake]
    rfl

/-- **A group at the end** of a pattern is a whole word. -/
theorem search_word_end {groups : List (Option (List α))} :
    search isWord newline [.word false] s = some groups ↔
      ∃ w rest, Starts isWord s w rest ∧ groups = [some w] := by
  rw [search, findSome?_greedy]
  constructor
  · intro h
    obtain ⟨hne, heq⟩ := Option.ite_none_left_eq_some.mp h
    exact ⟨_, _, starts_of_takeWhile_ne_nil hne, (Option.some_inj.mp heq).symm⟩
  · rintro ⟨w, rest, hstarts, rfl⟩
    rw [hstarts.takeWhile, if_neg hstarts.ne_nil]

/-- An optional group at the end of a pattern is a whole word, if there is one. -/
theorem search_wordOpt_end :
    search isWord newline [.wordOpt] s =
      some [if s.takeWhile isWord = [] then none else some (s.takeWhile isWord)] := by
  rw [search, findSome?_greedy]
  split
  · rfl
  · rfl

end Pattern
