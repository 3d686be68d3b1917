/-
# `crontab_parser` and its grammar

`celery/schedules.py`, lines 204-328: the grammar of the docstring, `Groups`, with the set that an
expression stands for, against the grammar that the parser takes, `Loose`.

The parser takes more than its grammar: but for `'*'`, what follows a match is not looked at, and
`int`, `weekday` and `yearmonth` are looser than `number`.  It also takes less: steps after a number
are not matched at all, a name is not taken for steps, and `int` has a limit (`Unread`).
`parse_iff_groups_iff` is that there is no other difference: the parser does what the grammar says
exactly if neither of the two shows.
-/

import Celery.Library.Split
import Celery.Schedules.Crontab
import Celery.Schedules.CrontabParser
import Mathlib.Data.Finset.Lattice.Lemmas

namespace Celery
namespace CrontabParser

/-! ## The numbers of a range -/

theorem mem_every {α : Type} {n : ℕ} (hn : 0 < n) {xs : List α} {x : α} :
    x ∈ every n xs ↔ ∃ k, xs[k * n]? = some x := by
  rw [every, List.mem_filterMap]
  constructor
  · rintro ⟨k, -, hk⟩
    exact ⟨k, hk⟩
  · rintro ⟨k, hk⟩
    obtain ⟨hlt, -⟩ := List.getElem?_eq_some_iff.mp hk
    refine ⟨k, List.mem_range.mpr ?_, hk⟩
    have hle : (k + 1) * n ≤ xs.length + n - 1 := by
      rw [Nat.add_mul, Nat.one_mul]
      omega
    exact (Nat.le_div_iff_mul_le hn).mpr hle

theorem getElem?_range (a b : ℤ) (i : ℕ) :
    (range a b)[i]? = if i < (b - a).toNat then some (a + i) else none := by
  rw [range, List.getElem?_map]
  split
  next hlt =>
    rw [List.getElem?_range hlt]
    rfl
  next hle =>
    rw [List.getElem?_eq_none (by rw [List.length_range]; exact not_lt.mp hle)]
    rfl

theorem length_range (a b : ℤ) : (range a b).length = (b - a).toNat := by
  rw [range, List.length_map, List.length_range]

namespace Parser

variable (p : Parser)

/-- A number of the field. -/
structure InRange (n : ℕ) : Prop where
  le : p.min_ ≤ n
  le_maxVal : n ≤ p.maxVal

/-- How many numbers come after `fr` up to `to_`, with the first number after the last one. -/
def span (fr to_ : ℕ) : ℕ := (to_ + p.max_ - fr) % p.max_

/-- The number that comes `i` after `fr`. -/
def after (fr i : ℕ) : ℕ := p.min_ + (fr - p.min_ + i) % p.max_

/-- **What a range with steps stands for**: every `n`th number from `fr` on, up to `to_`. -/
def Denoted (fr to_ n : ℕ) : Set ℤ := {x | ∃ k, k * n ≤ p.span fr to_ ∧ x = p.after fr (k * n)}

/-- The list of `_expand_range`. -/
def values (fr to_ : ℕ) : List ℤ :=
  if (to_ : ℤ) < fr then range fr (p.min_ + p.max_) ++ range p.min_ (to_ + 1)
  else range fr (to_ + 1)

variable {p} {fr to_ n : ℕ}

theorem getElem?_values (hfr : p.InRange fr) (hto : p.InRange to_) (i : ℕ) :
    (p.values fr to_)[i]? =
      if i ≤ p.span fr to_ then some (p.after fr i : ℤ) else none := by
  have hpos := p.pos
  obtain ⟨hfr, hfr'⟩ := hfr
  obtain ⟨hto, hto'⟩ := hto
  rw [maxVal] at hfr' hto'
  rw [values, span, after]
  split
  next hlt =>
    have hspan : (to_ + p.max_ - fr) % p.max_ = to_ + p.max_ - fr := Nat.mod_eq_of_lt (by omega)
    rw [hspan, List.getElem?_append, length_range, getElem?_range, getElem?_range]
    by_cases hi : i < p.min_ + p.max_ - fr
    · have hmod : (fr - p.min_ + i) % p.max_ = fr - p.min_ + i := Nat.mod_eq_of_lt (by omega)
      rw [if_pos (by omega), if_pos (by omega), if_pos (by omega), hmod]
      congr 1
      omega
    · rw [if_neg (by omega)]
      by_cases hle : i ≤ to_ + p.max_ - fr
      · have hmod : (fr - p.min_ + i) % p.max_ = fr - p.min_ + i - p.max_ := by
          rw [Nat.mod_eq_sub_mod (by omega), Nat.mod_eq_of_lt (by omega)]
        rw [if_pos (by omega), if_pos hle, hmod]
        congr 1
        omega
      · rw [if_neg (by omega), if_neg hle]
  next hle =>
    have hspan : (to_ + p.max_ - fr) % p.max_ = to_ - fr := by
      rw [Nat.mod_eq_sub_mod (by omega), Nat.mod_eq_of_lt (by omega)]
      omega
    rw [hspan, getElem?_range]
    by_cases hi : i ≤ to_ - fr
    · have hmod : (fr - p.min_ + i) % p.max_ = fr - p.min_ + i := Nat.mod_eq_of_lt (by omega)
      rw [if_pos (by omega), if_pos hi, hmod]
      congr 1
      omega
    · rw [if_neg (by omega), if_neg hi]

theorem mem_every_values (hfr : p.InRange fr) (hto : p.InRange to_) (hn : 0 < n) {x : ℤ} :
    x ∈ every n (p.values fr to_) ↔ x ∈ p.Denoted fr to_ n := by
  rw [mem_every hn]
  refine exists_congr fun k => ?_
  rw [getElem?_values hfr hto, Option.ite_none_right_eq_some, Option.some_inj, eq_comm (b := x)]

theorem mem_values (hfr : p.InRange fr) (hto : p.InRange to_) {x : ℤ} :
    x ∈ p.values fr to_ ↔ x ∈ p.Denoted fr to_ 1 := by
  rw [List.mem_iff_getElem?]
  refine exists_congr fun k => ?_
  rw [getElem?_values hfr hto, Option.ite_none_right_eq_some, Option.some_inj, eq_comm (b := x),
    Nat.mul_one]

theorem min_inRange : p.InRange p.min_ := ⟨le_rfl, by have hpos := p.pos; rw [maxVal]; omega⟩

theorem maxVal_inRange : p.InRange p.maxVal := ⟨min_inRange.le_maxVal, le_rfl⟩

theorem expandStar_eq : p.expandStar = p.values p.min_ p.maxVal := by
  have hle := min_inRange (p := p).le_maxVal
  have hpos := p.pos
  rw [values, if_neg (by omega), expandStar, maxVal]
  congr 1
  omega

theorem values_self (n : ℕ) : p.values n n = [(n : ℤ)] := by
  rw [values, if_neg (lt_irrefl _), range]
  have hone : ((n : ℤ) + 1 - n).toNat = 1 := by omega
  rw [hone]
  simp

end Parser

/-! ## What is read as a number -/

section Reads

variable (py : PyStr) (p : Parser)

/-- What `_expand_number` takes for a number. -/
structure Reads (w : List Char) (n : ℕ) : Prop where
  ne_nil : w ≠ []
  not_negative : w.head? ≠ some '-'
  literal : literal? py w = some (n : ℤ)
  inRange : p.InRange n

variable {py p} {w w' r rest : List Char} {n : ℕ} {xs : List ℤ}

theorem expandNumber_eq_ok_iff {i : ℤ} :
    p.expandNumber py (some w) = .ok i ↔ ∃ n : ℕ, Reads py p w n ∧ i = n := by
  rw [Parser.expandNumber]
  constructor
  · intro h
    split at h
    · cases h
    next hne =>
      split at h
      · cases h
      next hdash =>
        split at h
        · cases h
        next j hj =>
          split at h
          · cases h
          next hle =>
            split at h
            · cases h
            next hge =>
              obtain rfl := Except.ok.inj h
              obtain ⟨n, rfl⟩ := Int.eq_ofNat_of_zero_le (a := j) (by omega)
              exact ⟨n, ⟨hne, hdash, hj, by omega, by omega⟩, rfl⟩
  · rintro ⟨n, ⟨hne, hdash, hliteral, hle, hle'⟩, rfl⟩
    rw [if_neg hne, if_neg hdash, hliteral]
    dsimp only
    rw [if_neg (by omega), if_neg (by omega)]

theorem expandRange_single_eq_ok_iff :
    p.expandRange py [some w] = .ok xs ↔ ∃ n, Reads py p w n ∧ xs = p.values n n := by
  rw [Parser.expandRange, bind_eq_ok_iff]
  constructor
  · rintro ⟨i, hi, hxs⟩
    obtain ⟨n, hn, rfl⟩ := expandNumber_eq_ok_iff.mp hi
    exact ⟨n, hn, (Except.ok.inj hxs).symm.trans (Parser.values_self n).symm⟩
  · rintro ⟨n, hn, rfl⟩
    exact ⟨n, expandNumber_eq_ok_iff.mpr ⟨n, hn, rfl⟩, by rw [Parser.values_self]; rfl⟩

theorem expandRange_pair_eq_ok_iff :
    p.expandRange py [some w, some w'] = .ok xs ↔
      ∃ fr to_, Reads py p w fr ∧ Reads py p w' to_ ∧ xs = p.values fr to_ := by
  have hvalues : ∀ fr to_ : ℕ, (if (to_ : ℤ) < fr then
      (return range fr (p.min_ + p.max_) ++ range p.min_ (to_ + 1) : Except ParserError (List ℤ))
      else return range fr (to_ + 1)) = .ok (p.values fr to_) := by
    intro fr to_
    rw [Parser.values]
    split
    · rfl
    · rfl
  rw [Parser.expandRange, bind_eq_ok_iff]
  constructor
  · rintro ⟨i, hi, hbind⟩
    obtain ⟨j, hj, hxs⟩ := bind_eq_ok_iff.mp hbind
    obtain ⟨fr, hfr, rfl⟩ := expandNumber_eq_ok_iff.mp hi
    obtain ⟨to_, hto, rfl⟩ := expandNumber_eq_ok_iff.mp hj
    rw [hvalues] at hxs
    exact ⟨fr, to_, hfr, hto, (Except.ok.inj hxs).symm⟩
  · rintro ⟨fr, to_, hfr, hto, rfl⟩
    refine ⟨fr, expandNumber_eq_ok_iff.mpr ⟨fr, hfr, rfl⟩, bind_eq_ok_iff.mpr ?_⟩
    exact ⟨to_, expandNumber_eq_ok_iff.mpr ⟨to_, hto, rfl⟩, hvalues fr to_⟩

theorem mem_of_mem_strip {c : Char} (h : c ∈ strip py w) : c ∈ w := by
  rw [strip, List.mem_reverse] at h
  have hdrop := List.mem_reverse.mp ((List.dropWhile_sublist _).mem h)
  exact (List.dropWhile_sublist _).mem hdrop

/-- A word has no sign. -/
theorem int?_nonneg {i : ℤ} (hw : ∀ c ∈ w, py.isWord c = true) (h : int? py w = some i) :
    0 ≤ i := by
  rw [int?] at h
  split at h
  next s hs =>
    have hdash := hw '-' (mem_of_mem_strip (hs ▸ List.mem_cons_self))
    rw [isWord_dash] at hdash
    cases hdash
  · obtain ⟨ds, -, rfl⟩ := Option.map_eq_some_iff.mp h
    exact Int.natCast_nonneg _
  · obtain ⟨ds, -, rfl⟩ := Option.map_eq_some_iff.mp h
    exact Int.natCast_nonneg _

/-- **Steps**: a word that `int` takes for a positive number. -/
theorem steps_eq_ok_iff {values : List ℤ} (h : Starts py r w rest) :
    (int py w >>= fun n => stepped n values) = .ok xs ↔
      ∃ n : ℕ, int? py w = some (n : ℤ) ∧ 0 < n ∧ xs = every n values := by
  rw [int]
  constructor
  · intro heq
    obtain ⟨i, hi, hstepped⟩ := bind_eq_ok_iff.mp heq
    split at hi
    next j hj =>
      obtain rfl := Except.ok.inj hi
      obtain ⟨n, rfl⟩ := Int.eq_ofNat_of_zero_le (int?_nonneg h.forall_mem hj)
      rw [stepped] at hstepped
      split at hstepped
      · cases hstepped
      next hne =>
        rw [if_pos (by omega)] at hstepped
        exact ⟨n, hj, by omega, (Except.ok.inj hstepped).symm⟩
    · cases hi
  · rintro ⟨n, hn, hpos, rfl⟩
    rw [hn]
    refine bind_eq_ok_iff.mpr ⟨n, rfl, ?_⟩
    rw [stepped, if_neg (by omega), if_pos (by omega), Int.toNat_natCast]

end Reads

/-! ## The grammar that the parser takes -/

/-- **What a part is read as**: a range from a number to another one, with steps. -/
inductive Loose (py : PyStr) (p : Parser) : List Char → ℕ → ℕ → ℕ → Prop where
  | star : Loose py p ['*'] p.min_ p.maxVal 1
  | starLine : Loose py p ['*', newline] p.min_ p.maxVal 1
  | starSteps {r w rest : List Char} {n : ℕ} (h : Starts py r w rest)
    (hn : int? py w = some (n : ℤ)) (hpos : 0 < n) :
    Loose py p ('*' :: '/' :: r) p.min_ p.maxVal n
  | range {s t r w w' : List Char} {fr to_ : ℕ} (h : Starts py s w ('-' :: t))
    (h' : Starts py t w' r) (hr : r.head? ≠ some '/') (hfr : Reads py p w fr)
    (hto : Reads py p w' to_) : Loose py p s fr to_ 1
  | rangeSteps {s t r w w' w'' rest : List Char} {fr to_ n : ℕ} (h : Starts py s w ('-' :: t))
    (h' : Starts py t w' ('/' :: r)) (hfr : Reads py p w fr) (hto : Reads py p w' to_)
    (h'' : Starts py r w'' rest) (hn : int? py w'' = some (n : ℤ)) (hpos : 0 < n) :
    Loose py p s fr to_ n
  | number {s : List Char} {n : ℕ}
    (hrange : ∀ w t w' r, Starts py s w ('-' :: t) → ¬ Starts py t w' r)
    (hsteps : ∀ r, s ≠ '*' :: '/' :: r) (hstar : s ≠ ['*']) (hline : s ≠ ['*', newline])
    (hn : Reads py p s n) : Loose py p s n n 1

section Loosely

variable {py : PyStr} {p : Parser} {s r w w' rest : List Char} {fr to_ n : ℕ} {xs : List ℤ}

theorem starSteps_eq_ok_iff (h : Starts py r w rest) :
    p.starSteps py [group py r] = .ok xs ↔
      ∃ n : ℕ, int? py w = some (n : ℤ) ∧ 0 < n ∧ xs = every n (p.values p.min_ p.maxVal) := by
  rw [group_eq_some_iff.mpr ⟨rest, h⟩, Parser.starSteps, if_neg h.ne_nil, Parser.expandStar_eq]
  exact steps_eq_ok_iff h

theorem rangeSteps_eq_ok_iff (h : Starts py r w rest) {fr to_ : Option (List Char)} :
    p.rangeSteps py [fr, to_, group py r] = .ok xs ↔
      ∃ values, p.expandRange py [fr, to_] = .ok values ∧
        ∃ n : ℕ, int? py w = some (n : ℤ) ∧ 0 < n ∧ xs = every n values := by
  rw [group_eq_some_iff.mpr ⟨rest, h⟩, Parser.rangeSteps, if_neg h.ne_nil, bind_eq_ok_iff]
  exact exists_congr fun values => and_congr_right fun _ => steps_eq_ok_iff h

/-- **What is read loosely** comes to what it stands for. -/
theorem Loose.parsePart (h : Loose py p s fr to_ n) :
    ∃ xs, p.parsePart py s = .ok xs ∧ ∀ x, x ∈ xs ↔ x ∈ p.Denoted fr to_ n := by
  have hmin := Parser.min_inRange (p := p)
  have hmax := Parser.maxVal_inRange (p := p)
  cases h with
  | star =>
    refine ⟨_, Shape.star.parsePart_eq, fun x => ?_⟩
    rw [Parser.expandStar_eq]
    exact Parser.mem_values hmin hmax
  | starLine =>
    refine ⟨_, Shape.starLine.parsePart_eq, fun x => ?_⟩
    rw [Parser.expandStar_eq]
    exact Parser.mem_values hmin hmax
  | starSteps h hn hpos =>
    refine ⟨_, ?_, fun x => Parser.mem_every_values hmin hmax hpos⟩
    rw [Shape.starSteps.parsePart_eq, starSteps_eq_ok_iff h]
    exact ⟨n, hn, hpos, rfl⟩
  | range h h' hr hfr hto =>
    refine ⟨_, ?_, fun x => Parser.mem_values hfr.inRange hto.inRange⟩
    rw [(Shape.range h h' hr).parsePart_eq, expandRange_pair_eq_ok_iff]
    exact ⟨fr, to_, hfr, hto, rfl⟩
  | rangeSteps h h' hfr hto h'' hn hpos =>
    refine ⟨_, ?_, fun x => Parser.mem_every_values hfr.inRange hto.inRange hpos⟩
    rw [(Shape.rangeSteps h h').parsePart_eq, rangeSteps_eq_ok_iff h'']
    exact ⟨_, expandRange_pair_eq_ok_iff.mpr ⟨fr, to_, hfr, hto, rfl⟩, n, hn, hpos, rfl⟩
  | number hrange hsteps hstar hline hn =>
    refine ⟨_, ?_, fun x => Parser.mem_values hn.inRange hn.inRange⟩
    rw [(Shape.number hrange hsteps hstar hline).parsePart_eq, expandRange_single_eq_ok_iff]
    exact ⟨_, hn, rfl⟩

/-- **What is parsed** is read loosely. -/
theorem exists_loose (h : p.parsePart py s = .ok xs) : ∃ fr to_ n, Loose py p s fr to_ n := by
  have hshape := shape_parsePart py p s
  rw [h] at hshape
  generalize hx : Except.ok xs = x at hshape
  cases hshape with
  | @rangeSteps _ _ r _ _ h h' =>
    rcases hgroup : group py r with _ | w
    · rw [hgroup] at hx
      cases hx
    · obtain ⟨rest, h''⟩ := group_eq_some_iff.mp hgroup
      obtain ⟨values, hvalues, n, hn, hpos, -⟩ := (rangeSteps_eq_ok_iff h'').mp hx.symm
      obtain ⟨fr, to_, hfr, hto, -⟩ := expandRange_pair_eq_ok_iff.mp hvalues
      exact ⟨_, _, _, .rangeSteps h h' hfr hto h'' hn hpos⟩
  | range h h' hr =>
    obtain ⟨fr, to_, hfr, hto, -⟩ := expandRange_pair_eq_ok_iff.mp hx.symm
    exact ⟨_, _, _, .range h h' hr hfr hto⟩
  | @starSteps r =>
    rcases hgroup : group py r with _ | w
    · rw [hgroup] at hx
      cases hx
    · obtain ⟨rest, h⟩ := group_eq_some_iff.mp hgroup
      obtain ⟨n, hn, hpos, -⟩ := (starSteps_eq_ok_iff h).mp hx.symm
      exact ⟨_, _, _, .starSteps h hn hpos⟩
  | star => exact ⟨_, _, _, .star⟩
  | starLine => exact ⟨_, _, _, .starLine⟩
  | number hrange hsteps hstar hline =>
    obtain ⟨n, hn, -⟩ := expandRange_single_eq_ok_iff.mp hx.symm
    exact ⟨_, _, _, .number hrange hsteps hstar hline hn⟩

end Loosely

/-! ## The grammar of the docstring -/

/-- `number`: digits, or the name of a month or a day, which its first three letters tell in either
case. -/
inductive Number : List Char → ℕ → Prop where
  | digits {ds : List Char} (hne : ds ≠ []) (h : ∀ c ∈ ds, c.isDigit = true) :
    Number ds (ofDigits (ds.map fun c => c.toNat - '0'.toNat))
  | month {name : List Char} {n : ℕ} (h : ∀ c ∈ name, c.isAlpha = true)
    (hn : monthNames.idxOf? ((name.take 3).map Char.toLower) = some n) : Number name (n + 1)
  | day {name : List Char} {n : ℕ} (h : ∀ c ∈ name, c.isAlpha = true)
    (hn : dayNames.idxOf? ((name.take 3).map Char.toLower) = some n) : Number name n

/-- `numspec`, with the first number and the last one. -/
inductive Numspec (p : Parser) : List Char → ℕ → ℕ → Prop where
  | star : Numspec p ['*'] p.min_ p.maxVal
  | number {w : List Char} {n : ℕ} (h : Number w n) (hn : p.InRange n) : Numspec p w n n
  | range {w w' : List Char} {fr to_ : ℕ} (h : Number w fr) (h' : Number w' to_)
    (hfr : p.InRange fr) (hto : p.InRange to_) : Numspec p (w ++ '-' :: w') fr to_

/-- `expr`, with the steps. -/
inductive Expr (p : Parser) : List Char → ℕ → ℕ → ℕ → Prop where
  | numspec {s : List Char} {fr to_ : ℕ} (h : Numspec p s fr to_) : Expr p s fr to_ 1
  | steps {s w : List Char} {fr to_ n : ℕ} (h : Numspec p s fr to_) (h' : Number w n)
    (hpos : 0 < n) : Expr p (s ++ '/' :: w) fr to_ n

/-- `groups`, with **the set that they stand for**. -/
inductive Groups (p : Parser) : List Char → Set ℤ → Prop where
  | expr {s : List Char} {fr to_ n : ℕ} (h : Expr p s fr to_ n) : Groups p s (p.Denoted fr to_ n)
  | cons {s t : List Char} {fr to_ n : ℕ} {V : Set ℤ} (h : Expr p s fr to_ n) (h' : Groups p t V) :
    Groups p (s ++ ',' :: t) (p.Denoted fr to_ n ∪ V)

/-- Digits that are too many for `int`. -/
def TooLong (py : PyStr) (w : List Char) : Prop :=
  (∀ c ∈ w, c.isDigit = true) ∧ py.maxStrDigits ≠ 0 ∧ py.maxStrDigits < w.length

/-- Steps that `int` does not take: a name, or too many digits. -/
def NotInt (py : PyStr) (w : List Char) : Prop := (∃ c ∈ w, c.isAlpha = true) ∨ TooLong py w

/-- **What is in the grammar and is not parsed**: digits with steps after them, steps that are a
name, and too many digits. -/
inductive Unread (py : PyStr) (p : Parser) : List Char → Prop where
  | number {w : List Char} {n : ℕ} (h : Number w n) (hn : p.InRange n) (hlong : TooLong py w) :
    Unread py p w
  | numberSteps {w w' : List Char} {n m : ℕ} (h : Number w n) (hn : p.InRange n)
    (hdigits : ∀ c ∈ w, c.isDigit = true) (h' : Number w' m) (hpos : 0 < m) :
    Unread py p (w ++ '/' :: w')
  | starSteps {w : List Char} {n : ℕ} (h : Number w n) (hpos : 0 < n) (hint : NotInt py w) :
    Unread py p ('*' :: '/' :: w)
  | range {w w' : List Char} {fr to_ : ℕ} (h : Number w fr) (h' : Number w' to_)
    (hfr : p.InRange fr) (hto : p.InRange to_) (hlong : TooLong py w ∨ TooLong py w') :
    Unread py p (w ++ '-' :: w')
  | rangeSteps {w w' w'' : List Char} {fr to_ n : ℕ} (h : Number w fr) (h' : Number w' to_)
    (hfr : p.InRange fr) (hto : p.InRange to_) (h'' : Number w'' n) (hpos : 0 < n)
    (hint : TooLong py w ∨ TooLong py w' ∨ NotInt py w'') :
    Unread py p (w ++ '-' :: w' ++ '/' :: w'')

section Numbers

variable {py : PyStr} {p : Parser} {s w w' rest : List Char} {n : ℕ} {c : Char}

theorem isUpper_iff_toNat : c.isUpper = true ↔ 65 ≤ c.toNat ∧ c.toNat ≤ 90 :=
  decide_eq_true_iff

theorem isAlpha_iff_toNat :
    c.isAlpha = true ↔ (65 ≤ c.toNat ∧ c.toNat ≤ 90) ∨ 97 ≤ c.toNat ∧ c.toNat ≤ 122 := by
  have hlower : c.isLower = (decide (c.val ≥ 'a'.val) && decide (c.val ≤ 'z'.val)) := rfl
  have halpha : c.isAlpha = (c.isUpper || c.isLower) := rfl
  rw [halpha, hlower, Bool.or_eq_true, isUpper_iff_toNat, Bool.and_eq_true, decide_eq_true_iff,
    decide_eq_true_iff]
  rfl

theorem isAlphanum_iff : c.isAlphanum = true ↔ c.isAlpha = true ∨ c.isDigit = true :=
  Bool.or_eq_true_iff

theorem toNat_of_isAlphanum (h : c.isAlphanum = true) : 48 ≤ c.toNat ∧ c.toNat < 128 := by
  have hzero : '0'.toNat = 48 := rfl
  have hnine : '9'.toNat = 57 := rfl
  rw [isAlphanum_iff, isAlpha_iff_toNat, Char.isDigit_iff_toNat] at h
  omega

theorem ne_of_isAlphanum {d : Char} (h : c.isAlphanum = true) (hd : d.isAlphanum = false) :
    c ≠ d := by
  rintro rfl
  rw [hd] at h
  cases h

theorem isAlphanum_of_isDigit (h : c.isDigit = true) : c.isAlphanum = true :=
  isAlphanum_iff.mpr (.inr h)

theorem isAlphanum_of_isAlpha (h : c.isAlpha = true) : c.isAlphanum = true :=
  isAlphanum_iff.mpr (.inl h)

theorem not_isDigit_of_isAlpha (h : c.isAlpha = true) : c.isDigit = false := by
  have hnine : '9'.toNat = 57 := rfl
  refine Bool.eq_false_iff.mpr fun hdigit => ?_
  rw [isAlpha_iff_toNat] at h
  rw [Char.isDigit_iff_toNat] at hdigit
  omega

theorem isWord_of_isAlphanum (h : c.isAlphanum = true) : py.isWord c = true := by
  rw [py.isWord_ascii c (toNat_of_isAlphanum h).2, h]
  rfl

theorem isSpace_of_isAlphanum (h : c.isAlphanum = true) : py.isSpace c = false := by
  obtain ⟨hle, hlt⟩ := toNat_of_isAlphanum h
  have hspace : c.isWhitespace = false := by
    by_contra hspace
    simp only [Char.isWhitespace, Bool.not_eq_false, Bool.or_eq_true, decide_eq_true_eq] at hspace
    rcases hspace with ((rfl | rfl) | rfl) | rfl <;> revert hle <;> decide
  rw [py.isSpace_ascii c hlt, hspace, Bool.false_or, Bool.or_eq_false_iff, beq_eq_false_iff_ne,
    beq_eq_false_iff_ne]
  omega

theorem decimal_of_isDigit (h : c.isDigit = true) :
    py.decimal c = some (c.toNat - '0'.toNat) := by
  rw [py.decimal_ascii c (toNat_of_isAlphanum (isAlphanum_of_isDigit h)).2, if_pos h]

theorem decimal_of_isAlpha (h : c.isAlpha = true) : py.decimal c = none := by
  rw [py.decimal_ascii c (toNat_of_isAlphanum (isAlphanum_of_isAlpha h)).2,
    not_isDigit_of_isAlpha h]
  rfl

/-! ### `int` -/

theorem mem_strip (hc : c ∈ s) (hspace : py.isSpace c = false) : c ∈ strip py s := by
  have hdrop : ∀ t : List Char, c ∈ t → c ∈ t.dropWhile py.isSpace := by
    intro t ht
    rw [← List.takeWhile_append_dropWhile (p := py.isSpace) (l := t), List.mem_append] at ht
    refine ht.resolve_left fun htake => ?_
    rw [List.mem_takeWhile_imp htake] at hspace
    cases hspace
  rw [strip, List.mem_reverse]
  exact hdrop _ (List.mem_reverse.mpr (hdrop s hc))

theorem strip_eq_self (h : ∀ c ∈ s, py.isSpace c = false) : strip py s = s := by
  have hdrop : ∀ t : List Char, (∀ c ∈ t, py.isSpace c = false) → t.dropWhile py.isSpace = t := by
    intro t ht
    cases t with
    | nil => rfl
    | cons c t =>
      refine List.dropWhile_cons_of_neg ?_
      rw [ht c List.mem_cons_self]
      exact Bool.false_ne_true
  rw [strip, hdrop s h, hdrop _ fun c hc => h c (List.mem_reverse.mp hc), List.reverse_reverse]

theorem mapM_decimal_eq_none (hc : c ∈ s) (hdecimal : py.decimal c = none) :
    s.mapM py.decimal = none := by
  induction s with
  | nil => exact absurd hc List.not_mem_nil
  | cons d s ih =>
    rw [List.mapM_cons]
    rcases List.mem_cons.mp hc with rfl | hc
    · rw [hdecimal]
      rfl
    · rw [ih hc]
      cases py.decimal d with
      | none => rfl
      | some _ => rfl

/-- A character that is no digit. -/
theorem digits?_eq_none (hc : c ∈ s) (hne : c ≠ '_') (hdecimal : py.decimal c = none) :
    digits? py s = none := by
  rw [digits?]
  split
  · rfl
  · rw [mapM_decimal_eq_none (Split.mem_flatten_splitOn hc hne) hdecimal]

theorem int?_eq_none (hc : c ∈ s) (hspace : py.isSpace c = false)
    (hdecimal : py.decimal c = none) (hdash : c ≠ '-') (hplus : c ≠ '+') (hunderscore : c ≠ '_') :
    int? py s = none := by
  have hstrip := mem_strip hc hspace
  rw [int?]
  split
  next t ht =>
    rw [ht] at hstrip
    rw [digits?_eq_none (List.mem_of_ne_of_mem hdash hstrip) hunderscore hdecimal]
    rfl
  next t ht =>
    rw [ht] at hstrip
    rw [digits?_eq_none (List.mem_of_ne_of_mem hplus hstrip) hunderscore hdecimal]
    rfl
  · rw [digits?_eq_none hstrip hunderscore hdecimal]
    rfl

theorem mapM_decimal (h : ∀ c ∈ s, c.isDigit = true) :
    s.mapM py.decimal = some (s.map fun c => c.toNat - '0'.toNat) := by
  induction s with
  | nil => rfl
  | cons c s ih =>
    obtain ⟨hc, hs⟩ := List.forall_mem_cons.mp h
    rw [List.mapM_cons, decimal_of_isDigit hc, ih hs]
    rfl

/-- **`int` of digits.** -/
theorem int?_of_digits (hne : s ≠ []) (h : ∀ c ∈ s, c.isDigit = true) :
    (TooLong py s → int? py s = none) ∧
      (¬ TooLong py s →
        int? py s = some (ofDigits (s.map fun c => c.toNat - '0'.toNat) : ℕ)) := by
  have halphanum := fun c hc => isAlphanum_of_isDigit (h c hc)
  have hne_of : ∀ d : Char, d.isAlphanum = false → d ∉ s := fun d hd hmem =>
    ne_of_isAlphanum (halphanum d hmem) hd rfl
  have hdigits : digits? py s = if py.maxStrDigits ≠ 0 ∧ py.maxStrDigits < s.length then none
      else some (s.map fun c => c.toNat - '0'.toNat) := by
    have hnil : [] ∉ [s] := fun hmem => hne (List.mem_singleton.mp hmem).symm
    rw [digits?, List.splitOn_eq_singleton (hne_of '_' (by decide)), if_neg hnil,
      List.flatten_singleton, mapM_decimal h]
    dsimp only
    rw [List.length_map]
  have hint : int? py s = (digits? py s).map fun ds => (ofDigits ds : ℤ) := by
    rw [int?, strip_eq_self fun c hc => isSpace_of_isAlphanum (halphanum c hc)]
    split
    · exact absurd List.mem_cons_self (hne_of '-' (by decide))
    · exact absurd List.mem_cons_self (hne_of '+' (by decide))
    · rfl
  rw [hint, hdigits]
  refine ⟨fun hlong => ?_, fun hlong => ?_⟩
  · rw [if_pos hlong.2]
    rfl
  · rw [if_neg fun hlimit => hlong ⟨h, hlimit⟩]
    rfl

theorem Number.isAlphanum (h : Number w n) : ∀ c ∈ w, c.isAlphanum = true := by
  cases h with
  | digits _ h => exact fun c hc => isAlphanum_of_isDigit (h c hc)
  | month h => exact fun c hc => isAlphanum_of_isAlpha (h c hc)
  | day h => exact fun c hc => isAlphanum_of_isAlpha (h c hc)

/-! ### Names -/

theorem monthNames_spec : ∀ x ∈ monthNames, x.length = 3 ∧ ∀ c ∈ x, c.isDigit = false := by
  simp [monthNames]

theorem dayNames_spec : ∀ x ∈ dayNames, x.length = 3 ∧ ∀ c ∈ x, c.isDigit = false := by
  simp [dayNames]

theorem not_mem_monthNames_of_mem_dayNames : ∀ x ∈ dayNames, x ∉ monthNames := by decide

theorem mem_of_idxOf? {names : List (List Char)} (h : names.idxOf? s = some n) : s ∈ names := by
  by_contra hs
  rw [List.idxOf?_eq_none_iff.mpr hs] at h
  cases h

/-- A name has three letters at least. -/
theorem three_le_length {names : List (List Char)} (hnames : ∀ x ∈ names, x.length = 3)
    (h : names.idxOf? ((w.take 3).map Char.toLower) = some n) : 3 ≤ w.length := by
  have hlength := hnames _ (mem_of_idxOf? h)
  rw [List.length_map, List.length_take] at hlength
  omega

theorem Number.ne_nil (h : Number w n) : w ≠ [] := by
  have hne : 3 ≤ w.length → w ≠ [] := by
    rintro hle rfl
    cases hle
  cases h with
  | digits h => exact h
  | month _ hn => exact hne (three_le_length (fun x hx => (monthNames_spec x hx).1) hn)
  | day _ hn => exact hne (three_le_length (fun x hx => (dayNames_spec x hx).1) hn)

/-- A number has only digits or only letters. -/
theorem Number.digits_or_letters (h : Number w n) :
    (∀ c ∈ w, c.isDigit = true) ∨ ∀ c ∈ w, c.isAlpha = true := by
  cases h with
  | digits _ h => exact .inl h
  | month h => exact .inr h
  | day h => exact .inr h

theorem int?_of_letter (hc : c ∈ s) (h : c.isAlpha = true) : int? py s = none := by
  have halphanum := isAlphanum_of_isAlpha h
  exact int?_eq_none hc (isSpace_of_isAlphanum halphanum) (decimal_of_isAlpha h)
    (ne_of_isAlphanum halphanum (by decide)) (ne_of_isAlphanum halphanum (by decide))
    (ne_of_isAlphanum halphanum (by decide))

/-- The first three letters of a name. -/
theorem lower_take (h : ∀ c ∈ w, c.isAlpha = true) (hle : 3 ≤ w.length) (rest : List Char) :
    py.lower ((w ++ rest).take 3) = (w.take 3).map Char.toLower := by
  rw [List.take_append_of_le_length hle]
  refine py.lower_ascii _ fun c hc => ?_
  exact (toNat_of_isAlphanum (isAlphanum_of_isAlpha (h c (List.mem_of_mem_take hc)))).2

/-- **A name**, whatever comes after it. -/
theorem Number.literal?_of_letters (h : Number w n) (halpha : ∀ c ∈ w, c.isAlpha = true)
    (rest : List Char) : literal? py (w ++ rest) = some (n : ℤ) := by
  obtain ⟨c, hc⟩ := List.exists_mem_of_ne_nil w h.ne_nil
  rw [literal?, int?_of_letter (List.mem_append_left rest hc) (halpha c hc)]
  dsimp only
  cases h with
  | digits _ h =>
    have hdigit := h c hc
    rw [not_isDigit_of_isAlpha (halpha c hc)] at hdigit
    cases hdigit
  | month _ hn =>
    rw [yearmonth, lower_take halpha (three_le_length (fun x hx => (monthNames_spec x hx).1) hn),
      hn]
    rfl
  | day _ hn =>
    have hnot := not_mem_monthNames_of_mem_dayNames _ (mem_of_idxOf? hn)
    rw [yearmonth, weekday,
      lower_take halpha (three_le_length (fun x hx => (dayNames_spec x hx).1) hn),
      List.idxOf?_eq_none_iff.mpr hnot, hn]
    rfl

/-- What starts with a digit is no name. -/
theorem literal?_eq_none (hint : int? py (c :: s) = none) (hc : c.isDigit = true)
    (hascii : ∀ d ∈ (c :: s).take 3, d.toNat < 128) : literal? py (c :: s) = none := by
  have hlower : c.toLower = c := by
    have hnine : '9'.toNat = 57 := rfl
    rw [Char.isDigit_iff_toNat] at hc
    refine dif_neg fun hupper => ?_
    have hle : 65 ≤ c.toNat := hupper.1
    omega
  have hnot : ∀ names : List (List Char),
      (∀ x ∈ names, x.length = 3 ∧ ∀ c ∈ x, c.isDigit = false) →
        names.idxOf? (py.lower ((c :: s).take 3)) = none := by
    intro names hnames
    refine List.idxOf?_eq_none_iff.mpr fun hmem => ?_
    rw [py.lower_ascii _ hascii, List.take_succ_cons, List.map_cons, hlower] at hmem
    have hdigit := (hnames _ hmem).2 c List.mem_cons_self
    rw [hc] at hdigit
    cases hdigit
  rw [literal?, hint]
  dsimp only
  rw [yearmonth, weekday, hnot _ monthNames_spec, hnot _ dayNames_spec]
  rfl

/-! ### Numbers -/

/-- A number is a word. -/
theorem Number.starts (h : Number w n) (hrest : ∀ a ∈ rest.head?, py.isWord a = false) :
    Starts py (w ++ rest) w rest :=
  ⟨rfl, h.ne_nil, fun c hc => isWord_of_isAlphanum (h.isAlphanum c hc), hrest⟩

theorem Number.starts_self (py : PyStr) (h : Number w n) : Starts py w w [] :=
  ⟨(List.append_nil w).symm, h.ne_nil, fun c hc => isWord_of_isAlphanum (h.isAlphanum c hc),
    nofun⟩

/-- `int` of a number. -/
theorem Number.int?_eq (h : Number w n) :
    (NotInt py w → int? py w = none) ∧ (¬ NotInt py w → int? py w = some (n : ℤ)) := by
  refine ⟨?_, fun hint => ?_⟩
  · rintro (⟨c, hc, halpha⟩ | hlong)
    · exact int?_of_letter hc halpha
    · exact (int?_of_digits h.ne_nil hlong.1).1 hlong
  · have hletter : (∀ c ∈ w, c.isAlpha = true) → int? py w = some (n : ℤ) := by
      intro halpha
      obtain ⟨c, hc⟩ := List.exists_mem_of_ne_nil w h.ne_nil
      exact absurd (.inl ⟨c, hc, halpha c hc⟩) hint
    cases h with
    | digits hne h => exact (int?_of_digits hne h).2 fun hlong => hint (.inr hlong)
    | month h => exact hletter h
    | day h => exact hletter h

/-- **A number is read** unless it has too many digits. -/
theorem Number.reads (h : Number w n) (hn : p.InRange n) (hlong : ¬ TooLong py w) :
    Reads py p w n where
  ne_nil := h.ne_nil
  not_negative := fun hhead =>
    ne_of_isAlphanum (h.isAlphanum '-' (List.mem_of_mem_head? hhead)) (by decide) rfl
  literal := by
    rcases h.digits_or_letters with hdigits | hletters
    · have hint : ¬ NotInt py w := by
        rintro (⟨c, hc, halpha⟩ | hlong')
        · have hdigit := hdigits c hc
          rw [not_isDigit_of_isAlpha halpha] at hdigit
          cases hdigit
        · exact hlong hlong'
      rw [literal?, h.int?_eq.2 hint]
    · have hliteral : literal? py (w ++ []) = some (n : ℤ) := h.literal?_of_letters hletters []
      rwa [List.append_nil] at hliteral
  inRange := hn

theorem Number.not_reads (h : Number w n) (hlong : TooLong py w) {m : ℕ} :
    ¬ Reads py p w m := by
  intro hreads
  obtain ⟨c, s, rfl⟩ := List.exists_cons_of_ne_nil h.ne_nil
  have hascii : ∀ d ∈ (c :: s).take 3, d.toNat < 128 := fun d hd =>
    (toNat_of_isAlphanum (h.isAlphanum d (List.mem_of_mem_take hd))).2
  have hnone := literal?_eq_none (h.int?_eq.1 (.inr hlong)) (hlong.1 c List.mem_cons_self) hascii
  rw [hreads.literal] at hnone
  cases hnone

end Numbers

/-! ## One grammar against the other -/

section Parts

variable {py : PyStr} {p : Parser} {s w w' rest : List Char} {fr to_ n : ℕ}

/-- A part that starts with a word and goes on with no `-` is read as a number. -/
theorem not_pattern (h : Starts py s w rest) (hrest : rest.head? ≠ some '-') :
    (∀ w t w' r, Starts py s w ('-' :: t) → ¬ Starts py t w' r) ∧
      (∀ r, s ≠ '*' :: '/' :: r) ∧ s ≠ ['*'] ∧ s ≠ ['*', newline] := by
  have hstar : ∀ r, s ≠ '*' :: r := by
    rintro r rfl
    exact not_starts_star h
  refine ⟨fun w₂ t w₂' r h₂ _ => ?_, fun r => hstar _, hstar _, hstar _⟩
  obtain ⟨-, rfl⟩ := h.unique h₂
  exact hrest rfl

theorem Number.starts_dash (py : PyStr) (h : Number w n) (t : List Char) :
    Starts py (w ++ '-' :: t) w ('-' :: t) := by
  refine h.starts fun a ha => ?_
  obtain rfl := Option.some_inj.mp ha
  exact isWord_dash

theorem Number.starts_slash (py : PyStr) (h : Number w n) (t : List Char) :
    Starts py (w ++ '/' :: t) w ('/' :: t) := by
  refine h.starts fun a ha => ?_
  obtain rfl := Option.some_inj.mp ha
  exact isWord_slash

/-- With no number after the first one, the steps do not matter. -/
theorem Parser.denoted_self (hn : 0 < n) (fr : ℕ) : p.Denoted fr fr n = p.Denoted fr fr 1 := by
  have hspan : p.span fr fr = 0 := by
    rw [span, Nat.add_sub_cancel_left, Nat.mod_self]
  have hzero : ∀ m, 0 < m → ∀ x, x ∈ p.Denoted fr fr m ↔ x = p.after fr 0 := by
    intro m hm x
    constructor
    · rintro ⟨k, hk, rfl⟩
      rw [hspan, Nat.le_zero] at hk
      rw [hk]
    · rintro rfl
      exact ⟨0, by rw [Nat.zero_mul]; exact Nat.zero_le _, by rw [Nat.zero_mul]⟩
  exact Set.ext fun x => (hzero n hn x).trans (hzero 1 Nat.one_pos x).symm

/-- **What is in the grammar** is read as what it stands for, or it is not read. -/
theorem Expr.loose_or_unread (h : Expr p s fr to_ n) :
    (∃ m, Loose py p s fr to_ m ∧ p.Denoted fr to_ m = p.Denoted fr to_ n) ∨ Unread py p s := by
  cases h with
  | numspec h =>
    cases h with
    | star => exact .inl ⟨1, .star, rfl⟩
    | number h hn =>
      by_cases hlong : TooLong py s
      · exact .inr (.number h hn hlong)
      · obtain ⟨hrange, hsteps, hstar, hline⟩ :=
          not_pattern (h.starts_self py) (by simp)
        exact .inl ⟨1, .number hrange hsteps hstar hline (h.reads hn hlong), rfl⟩
    | @range w w' _ _ h h' hfr hto =>
      by_cases hlong : TooLong py w ∨ TooLong py w'
      · exact .inr (.range h h' hfr hto hlong)
      · obtain ⟨hlong, hlong'⟩ := not_or.mp hlong
        refine .inl ⟨1, .range (h.starts_dash py w') (h'.starts_self py) ?_ (h.reads hfr hlong)
          (h'.reads hto hlong'), rfl⟩
        simp
  | @steps s w _ _ _ h h' hpos =>
    cases h with
    | star =>
      by_cases hint : NotInt py w
      · exact .inr (.starSteps h' hpos hint)
      · exact .inl ⟨n, .starSteps (h'.starts_self py) (h'.int?_eq.2 hint) hpos, rfl⟩
    | number h hn =>
      rcases h.digits_or_letters with hdigits | hletters
      · exact .inr (.numberSteps h hn hdigits h' hpos)
      · obtain ⟨hrange, hsteps, hstar, hline⟩ := not_pattern (h.starts_slash py w) (by simp)
        have hreads : Reads py p (s ++ '/' :: w) fr := by
          refine ⟨by simp, fun hhead => ?_, h.literal?_of_letters hletters _, hn⟩
          rw [List.head?_append_of_ne_nil _ h.ne_nil] at hhead
          exact ne_of_isAlphanum (h.isAlphanum '-' (List.mem_of_mem_head? hhead)) (by decide) rfl
        exact .inl ⟨1, .number hrange hsteps hstar hline hreads, (Parser.denoted_self hpos fr).symm⟩
    | @range w₁ w₂ _ _ h h₂ hfr hto =>
      by_cases hint : TooLong py w₁ ∨ TooLong py w₂ ∨ NotInt py w
      · exact .inr (.rangeSteps h h₂ hfr hto h' hpos hint)
      · obtain ⟨hlong, hlong₂, hint⟩ : ¬ TooLong py w₁ ∧ ¬ TooLong py w₂ ∧ ¬ NotInt py w :=
          ⟨fun h => hint (.inl h), fun h => hint (.inr (.inl h)), fun h => hint (.inr (.inr h))⟩
        refine .inl ⟨n, ?_, rfl⟩
        rw [List.append_assoc, List.cons_append]
        exact .rangeSteps (h.starts_dash py _) (h₂.starts_slash py w) (h.reads hfr hlong)
          (h₂.reads hto hlong₂) (h'.starts_self py) (h'.int?_eq.2 hint) hpos

/-- Digits with steps after them are no literal. -/
theorem literal?_digits_slash (h : Number w n) (hdigits : ∀ c ∈ w, c.isDigit = true)
    {m : ℕ} (h' : Number w' m) : literal? py (w ++ '/' :: w') = none := by
  have hslash : '/'.toNat < 128 := by decide
  obtain ⟨c, w, rfl⟩ := List.exists_cons_of_ne_nil h.ne_nil
  refine literal?_eq_none ?_ (hdigits c List.mem_cons_self) fun d hd => ?_
  · have hmem : '/' ∈ c :: w ++ '/' :: w' := List.mem_append_right _ List.mem_cons_self
    exact int?_eq_none hmem ((py.isSpace_ascii '/' hslash).trans (by decide))
      ((py.decimal_ascii '/' hslash).trans (by decide)) (by decide) (by decide) (by decide)
  · have hmem : d ∈ c :: w ++ '/' :: w' := List.mem_of_mem_take hd
    rcases List.mem_append.mp hmem with hd | hd
    · exact (toNat_of_isAlphanum (h.isAlphanum d hd)).2
    · rcases List.mem_cons.mp hd with rfl | hd
      · exact hslash
      · exact (toNat_of_isAlphanum (h'.isAlphanum d hd)).2

/-- **What is not read** is not parsed. -/
theorem Unread.not_ok (h : Unread py p s) (xs : List ℤ) : p.parsePart py s ≠ .ok xs := by
  intro hok
  cases h with
  | number h hn hlong =>
    obtain ⟨hrange, hsteps, hstar, hline⟩ := not_pattern (h.starts_self py) (by simp)
    rw [(Shape.number hrange hsteps hstar hline).parsePart_eq] at hok
    obtain ⟨m, hm, -⟩ := expandRange_single_eq_ok_iff.mp hok
    exact h.not_reads hlong hm
  | @numberSteps w w' _ _ h hn hdigits h' hpos =>
    obtain ⟨hrange, hsteps, hstar, hline⟩ := not_pattern (h.starts_slash py w') (by simp)
    rw [(Shape.number hrange hsteps hstar hline).parsePart_eq] at hok
    obtain ⟨m, hm, -⟩ := expandRange_single_eq_ok_iff.mp hok
    have hnone : literal? py (w ++ '/' :: w') = none := literal?_digits_slash h hdigits h'
    rw [hm.literal] at hnone
    cases hnone
  | starSteps h hpos hint =>
    rw [Shape.starSteps.parsePart_eq] at hok
    obtain ⟨m, hm, -⟩ := (starSteps_eq_ok_iff (h.starts_self py)).mp hok
    rw [h.int?_eq.1 hint] at hm
    cases hm
  | @range w w' _ _ h h' hfr hto hlong =>
    rw [(Shape.range (h.starts_dash py w') (h'.starts_self py) (by simp)).parsePart_eq] at hok
    obtain ⟨m, m', hm, hm', -⟩ := expandRange_pair_eq_ok_iff.mp hok
    rcases hlong with hlong | hlong
    · exact h.not_reads hlong hm
    · exact h'.not_reads hlong hm'
  | @rangeSteps w w' w'' _ _ _ h h' hfr hto h'' hpos hint =>
    rw [List.append_assoc, List.cons_append,
      (Shape.rangeSteps (h.starts_dash py _) (h'.starts_slash py w'')).parsePart_eq] at hok
    obtain ⟨values, hvalues, k, hk, -⟩ := (rangeSteps_eq_ok_iff (h''.starts_self py)).mp hok
    obtain ⟨m, m', hm, hm', -⟩ := expandRange_pair_eq_ok_iff.mp hvalues
    rcases hint with hlong | hlong | hint
    · exact h.not_reads hlong hm
    · exact h'.not_reads hlong hm'
    · rw [h''.int?_eq.1 hint] at hk
      cases hk

/-- What has no place in an expression. -/
def Foreign (c : Char) : Prop := c.isAlphanum = false ∧ c ≠ '*' ∧ c ≠ '-' ∧ c ≠ '/'

instance (c : Char) : Decidable (Foreign c) := inferInstanceAs (Decidable (_ ∧ _))

theorem Number.not_mem {c : Char} (h : Number w n) (hc : Foreign c) : c ∉ w := fun hmem =>
  ne_of_isAlphanum (h.isAlphanum c hmem) hc.1 rfl

theorem Numspec.not_mem {c : Char} (h : Numspec p s fr to_) (hc : Foreign c) : c ∉ s := by
  cases h with
  | star => exact List.not_mem_cons_of_ne_of_not_mem hc.2.1 List.not_mem_nil
  | number h => exact h.not_mem hc
  | range h h' => simp [h.not_mem hc, h'.not_mem hc, hc.2.2.1]

theorem Expr.not_mem {c : Char} (h : Expr p s fr to_ n) (hc : Foreign c) : c ∉ s := by
  cases h with
  | numspec h => exact h.not_mem hc
  | steps h h' => simp [h.not_mem hc, h'.not_mem hc, hc.2.2.2]

theorem Expr.not_mem_comma (h : Expr p s fr to_ n) : ',' ∉ s := h.not_mem (by decide)

theorem Numspec.inRange (h : Numspec p s fr to_) : p.InRange fr ∧ p.InRange to_ := by
  cases h with
  | star => exact ⟨Parser.min_inRange, Parser.maxVal_inRange⟩
  | number _ hn => exact ⟨hn, hn⟩
  | range _ _ hfr hto => exact ⟨hfr, hto⟩

theorem Expr.inRange (h : Expr p s fr to_ n) : p.InRange fr ∧ p.InRange to_ := by
  cases h with
  | numspec h => exact h.inRange
  | steps h => exact h.inRange

theorem Expr.pos (h : Expr p s fr to_ n) : 0 < n := by
  cases h with
  | numspec => exact Nat.one_pos
  | steps _ _ hpos => exact hpos

/-- The numbers that a part comes to, if it is parsed. -/
def Parser.parsed (py : PyStr) (p : Parser) (part : List Char) : List ℤ :=
  match p.parsePart py part with
  | .ok xs => xs
  | .error _ => []

theorem Parser.parsed_of_ok {xs : List ℤ} (h : p.parsePart py s = .ok xs) :
    p.parsed py s = xs := by
  rw [parsed, h]

/-- **An expression that is read** comes to what it stands for. -/
theorem Expr.parsed (h : Expr p s fr to_ n) (hread : ¬ Unread py p s) :
    (∃ xs, p.parsePart py s = .ok xs) ∧ ∀ x, x ∈ p.parsed py s ↔ x ∈ p.Denoted fr to_ n := by
  obtain ⟨m, hloose, hdenoted⟩ := h.loose_or_unread.resolve_right hread
  obtain ⟨xs, hok, hxs⟩ := hloose.parsePart
  rw [Parser.parsed_of_ok hok, ← hdenoted]
  exact ⟨⟨xs, hok⟩, hxs⟩

end Parts

/-! ## The whole field -/

section Fields

variable {py : PyStr} {p : Parser} {s : List Char} {V : Set ℤ}

theorem parsePart_nil (xs : List ℤ) : p.parsePart py [] ≠ .ok xs := by
  intro hok
  obtain ⟨fr, to_, n, hloose⟩ := exists_loose hok
  have hnot : ∀ w t, ¬ Starts py [] w t := fun w t h =>
    h.ne_nil (List.append_eq_nil_iff.mp h.append.symm).1
  cases hloose with
  | range h => exact hnot _ _ h
  | rangeSteps h => exact hnot _ _ h
  | number _ _ _ _ hn => exact hn.ne_nil rfl

theorem addPart_eq_ok_iff {acc acc' : Finset ℤ} :
    p.addPart py acc s = .ok acc' ↔
      (∃ xs, p.parsePart py s = .ok xs) ∧ acc' = acc ∪ (p.parsed py s).toFinset := by
  rw [Parser.addPart]
  constructor
  · intro h
    split at h
    · cases h
    · rcases hok : p.parsePart py s with e | xs
      · rw [hok] at h
        cases h
      · rw [hok] at h
        rw [Parser.parsed_of_ok hok]
        exact ⟨⟨xs, rfl⟩, (Except.ok.inj h).symm⟩
  · rintro ⟨⟨xs, hxs⟩, rfl⟩
    have hne : s ≠ [] := by
      rintro rfl
      exact parsePart_nil xs hxs
    rw [if_neg hne, hxs, Parser.parsed_of_ok hxs]
    rfl

/-- **`parse`**: all parts are parsed, and the numbers are put together. -/
theorem parse_eq_ok_iff (spec : String) (V : Finset ℤ) :
    p.parse py spec = .ok V ↔
      (∀ part ∈ spec.toList.splitOn ',', ∃ xs, p.parsePart py part = .ok xs) ∧
        V = ((spec.toList.splitOn ',').flatMap (p.parsed py)).toFinset := by
  have hrun : ∀ (parts : List (List Char)) (acc : Finset ℤ),
      parts.foldlM (p.addPart py) acc = .ok V ↔
        (∀ part ∈ parts, ∃ xs, p.parsePart py part = .ok xs) ∧
          V = acc ∪ (parts.flatMap (p.parsed py)).toFinset := by
    intro parts
    induction parts with
    | nil =>
      intro acc
      rw [List.flatMap_nil, List.toFinset_nil, Finset.union_empty]
      exact ⟨fun h => ⟨fun _ hpart => absurd hpart List.not_mem_nil, (Except.ok.inj h).symm⟩,
        fun h => congrArg _ h.2.symm⟩
    | cons part parts ih =>
      intro acc
      rw [List.foldlM_cons, bind_eq_ok_iff, List.forall_mem_cons, List.flatMap_cons,
        List.toFinset_append, ← Finset.union_assoc]
      constructor
      · rintro ⟨acc', hpart, hparts⟩
        obtain ⟨hok, rfl⟩ := addPart_eq_ok_iff.mp hpart
        obtain ⟨hoks, hV⟩ := (ih _).mp hparts
        exact ⟨⟨hok, hoks⟩, hV⟩
      · rintro ⟨⟨hok, hoks⟩, hV⟩
        exact ⟨_, addPart_eq_ok_iff.mpr ⟨hok, rfl⟩, (ih _).mpr ⟨hoks, hV⟩⟩
  rw [Parser.parse, hrun, Finset.empty_union]

/-- The parts of what is derived. -/
theorem Groups.exists_expr (h : Groups p s V) :
    ∀ part ∈ s.splitOn ',', ∃ fr to_ n, Expr p part fr to_ n := by
  induction h with
  | expr h =>
    rw [List.splitOn_eq_singleton h.not_mem_comma]
    exact List.forall_mem_singleton.mpr ⟨_, _, _, h⟩
  | cons h _ ih =>
    rw [List.splitOn_append_cons_self_of_not_mem h.not_mem_comma]
    exact List.forall_mem_cons.mpr ⟨⟨_, _, _, h⟩, ih⟩

/-- **What is derived and read** comes to what it stands for. -/
theorem Groups.parsed (h : Groups p s V) (hread : ∀ part ∈ s.splitOn ',', ¬ Unread py p part) :
    (∀ part ∈ s.splitOn ',', ∃ xs, p.parsePart py part = .ok xs) ∧
      ∀ x, x ∈ (s.splitOn ',').flatMap (p.parsed py) ↔ x ∈ V := by
  induction h with
  | expr h =>
    rw [List.splitOn_eq_singleton h.not_mem_comma] at hread ⊢
    obtain ⟨hok, hmem⟩ := h.parsed (hread _ List.mem_cons_self)
    refine ⟨List.forall_mem_singleton.mpr hok, fun x => ?_⟩
    rw [List.flatMap_singleton]
    exact hmem x
  | cons h _ ih =>
    rw [List.splitOn_append_cons_self_of_not_mem h.not_mem_comma] at hread ⊢
    obtain ⟨hreadFirst, hreadRest⟩ := List.forall_mem_cons.mp hread
    obtain ⟨hok, hmem⟩ := h.parsed hreadFirst
    obtain ⟨hoks, hmems⟩ := ih hreadRest
    refine ⟨List.forall_mem_cons.mpr ⟨hok, hoks⟩, fun x => ?_⟩
    rw [List.flatMap_cons, List.mem_append, hmem, hmems]
    rfl

/-- Where all parts are expressions, the field is derived. -/
theorem exists_groups (h : ∀ part ∈ s.splitOn ',', ∃ fr to_ n, Expr p part fr to_ n) :
    ∃ V : Finset ℤ, Groups p s V := by
  have hfinite : ∀ {s fr to_ n}, Expr p s fr to_ n →
      ∃ V : Finset ℤ, (V : Set ℤ) = p.Denoted fr to_ n := by
    intro s fr to_ n h
    refine ⟨(every n (p.values fr to_)).toFinset, Set.ext fun x => ?_⟩
    rw [Finset.mem_coe, List.mem_toFinset]
    exact Parser.mem_every_values h.inRange.1 h.inRange.2 h.pos
  have hjoin : ∀ parts : List (List Char), parts ≠ [] →
      (∀ part ∈ parts, ∃ fr to_ n, Expr p part fr to_ n) →
        ∃ V : Finset ℤ, Groups p (List.intercalate [','] parts) V := by
    intro parts
    induction parts with
    | nil => exact fun hne => absurd rfl hne
    | cons part parts ih =>
      intro _ hparts
      obtain ⟨⟨fr, to_, n, hpart⟩, hparts⟩ := List.forall_mem_cons.mp hparts
      obtain ⟨V, hV⟩ := hfinite hpart
      rcases hempty : parts with _ | ⟨next, rest⟩
      · rw [List.intercalate_singleton]
        exact ⟨V, hV ▸ .expr hpart⟩
      · obtain ⟨V', hV'⟩ := ih (by rw [hempty]; exact List.cons_ne_nil _ _) hparts
        rw [List.intercalate_cons_of_ne_nil (List.cons_ne_nil _ _), ← hempty]
        refine ⟨V ∪ V', ?_⟩
        rw [Finset.coe_union, hV, List.append_assoc]
        exact .cons hpart hV'
  have hjoined := hjoin (s.splitOn ',') (List.splitOn_ne_nil ',' s) h
  rwa [List.intercalate_splitOn] at hjoined

/-- **The parser and the grammar agree**: no part is outside the grammar where all of them are read
loosely, and none is unread where all of them are in the grammar. -/
structure Agree (py : PyStr) (p : Parser) (parts : List (List Char)) : Prop where
  expr : (∀ part ∈ parts, ∃ fr to_ n, Loose py p part fr to_ n) →
    ∀ part ∈ parts, ∃ fr to_ n, Expr p part fr to_ n
  read : (∀ part ∈ parts, ∃ fr to_ n, Expr p part fr to_ n) → ∀ part ∈ parts, ¬ Unread py p part

/-- **A field is parsed to what it stands for, and only what the grammar derives is parsed**,
exactly if the parser and the grammar agree on its parts. -/
theorem parse_iff_groups_iff (py : PyStr) (p : Parser) (spec : String) :
    (∀ V : Finset ℤ, p.parse py spec = .ok V ↔ Groups p spec.toList V) ↔
      Agree py p (spec.toList.splitOn ',') := by
  constructor
  · intro hparse
    refine ⟨fun hloose => ?_, fun hexpr part hpart hunread => ?_⟩
    · have hok : ∀ part ∈ spec.toList.splitOn ',', ∃ xs, p.parsePart py part = .ok xs := by
        intro part hpart
        obtain ⟨fr, to_, n, h⟩ := hloose part hpart
        obtain ⟨xs, hxs, -⟩ := h.parsePart
        exact ⟨xs, hxs⟩
      exact ((hparse _).mp ((parse_eq_ok_iff spec _).mpr ⟨hok, rfl⟩)).exists_expr
    · obtain ⟨V, hV⟩ := exists_groups hexpr
      obtain ⟨hok, -⟩ := (parse_eq_ok_iff spec V).mp ((hparse V).mpr hV)
      obtain ⟨xs, hxs⟩ := hok part hpart
      exact hunread.not_ok xs hxs
  · intro hagree V
    rw [parse_eq_ok_iff]
    constructor
    · rintro ⟨hok, rfl⟩
      have hexpr := hagree.expr fun part hpart => by
        obtain ⟨xs, hxs⟩ := hok part hpart
        exact exists_loose hxs
      obtain ⟨V, hV⟩ := exists_groups hexpr
      obtain ⟨-, hmem⟩ := hV.parsed (hagree.read hexpr)
      have heq : ((spec.toList.splitOn ',').flatMap (p.parsed py)).toFinset = V :=
        Finset.ext fun x => List.mem_toFinset.trans (hmem x)
      rwa [heq]
    · intro hV
      obtain ⟨hok, hmem⟩ := hV.parsed (hagree.read hV.exists_expr)
      exact ⟨hok, Finset.ext fun x => (hmem x).symm.trans List.mem_toFinset.symm⟩

/-- The hours of a day. -/
def hours : Parser := ⟨24, 0, Nat.zero_lt_succ 23⟩

/-- An interpreter that has only ASCII. -/
def ascii : PyStr where
  isWord c := c.isAlphanum || c == '_'
  decimal c := if c.isDigit then some (c.toNat - '0'.toNat) else none
  isSpace c := c.isWhitespace || c.toNat == 11 || c.toNat == 12
  lower s := s.map Char.toLower
  maxStrDigits := 4300
  isWord_ascii _ _ := rfl
  decimal_ascii _ _ := rfl
  isSpace_ascii _ _ := rfl
  lower_ascii _ _ := rfl

/-- `'5/2'` is in the grammar and is not parsed; `'1-5;7'` is not in the grammar, and what comes
after the range is passed over. -/
theorem parse_hours :
    ((∃ V : Finset ℤ, Groups hours "5/2".toList V) ∧
      hours.parse ascii "5/2" = .error (.invalidWeekday "5/2".toList)) ∧
    hours.parse ascii "1-5;7" = .ok {1, 2, 3, 4, 5} ∧ ∀ V, ¬ Groups hours "1-5;7".toList V := by
  have hnumber : ∀ c : Char, c.isDigit = true →
      Number [c] (ofDigits ([c].map fun c => c.toNat - '0'.toNat)) := fun c hc =>
    .digits (List.cons_ne_nil _ _) (List.forall_mem_singleton.mpr hc)
  have hexpr : Expr hours "5/2".toList 5 5 2 :=
    .steps (.number (hnumber '5' rfl) ⟨Nat.zero_le 5, by decide⟩) (hnumber '2' rfl) Nat.two_pos
  refine ⟨⟨?_, ?_⟩, ?_, ?_⟩
  · exact exists_groups (List.forall_mem_singleton.mpr ⟨5, 5, 2, hexpr⟩)
  · rfl
  · rfl
  · intro V h
    obtain ⟨fr, to_, n, hexpr⟩ := h.exists_expr "1-5;7".toList (by decide)
    exact hexpr.not_mem (by decide : Foreign ';') (by decide)

end Fields

end CrontabParser
end Celery
