/-
# `crontab_parser`: what a field of a crontab is parsed to

`celery/schedules.py`, lines 204-328, with `weekday` and `yearmonth` of `celery/utils/time.py`,
lines 267-294.

A part between two commas is matched with four regular expressions, of which only the last one has
an end mark, and is read as a number if none of them matches.  Every part has one of six shapes
(`shape_parsePart`), which decides what it comes to (`Shape.parsePart_eq`).
-/

import Celery.Library.Pattern
import Mathlib.Data.Finset.Basic

namespace Celery
namespace CrontabParser

/-- `str` of the interpreter: the characters of `\w`, the value of a decimal digit, the characters
that `int` strips, and `str.lower`, with the limit on the digits that `int` converts (none if it is
0). -/
structure PyStr where
  isWord : Char → Bool
  decimal : Char → Option ℕ
  isSpace : Char → Bool
  lower : List Char → List Char
  maxStrDigits : ℕ
  isWord_ascii : ∀ c, c.toNat < 128 → isWord c = (c.isAlphanum || c == '_')
  decimal_ascii : ∀ c, c.toNat < 128 →
    decimal c = if c.isDigit then some (c.toNat - '0'.toNat) else none
  isSpace_ascii : ∀ c, c.toNat < 128 →
    isSpace c = (c.isWhitespace || c.toNat == 11 || c.toNat == 12)
  lower_ascii : ∀ s, (∀ c ∈ s, c.toNat < 128) → lower s = s.map Char.toLower

/-- What `parse` raises. -/
inductive ParserError where
  /-- `ParseException`, with its text. -/
  | parseException (text : String)
  /-- `ValueError`: an invalid weekday literal. -/
  | invalidWeekday (literal : List Char)
  /-- `ValueError`, with its text. -/
  | valueError (text : String)
  /-- `ValueError` of `int`. -/
  | invalidInt (literal : List Char)
  | indexError
  | typeError

/-- `crontab_parser(max_, min_)`. -/
structure Parser where
  max_ : ℕ
  min_ : ℕ
  pos : 0 < max_

section Str

variable (py : PyStr)

/-- `s.strip()`, of what `int` strips. -/
def strip (s : List Char) : List Char :=
  ((s.dropWhile py.isSpace).reverse.dropWhile py.isSpace).reverse

/-- The digits of a number: single underscores may stand between them. -/
def digits? (s : List Char) : Option (List ℕ) :=
  if [] ∈ s.splitOn '_' then none
  else
    match (s.splitOn '_').flatten.mapM py.decimal with
    | none => none
    | some ds => if py.maxStrDigits ≠ 0 ∧ py.maxStrDigits < ds.length then none else some ds

/-- The number with these digits. -/
def ofDigits (ds : List ℕ) : ℕ := ds.foldl (fun n d => 10 * n + d) 0

/-- `int(s)`, or none where it raises `ValueError`. -/
def int? (s : List Char) : Option ℤ :=
  match strip py s with
  | '-' :: s => (digits? py s).map fun ds => -(ofDigits ds : ℤ)
  | '+' :: s => (digits? py s).map fun ds => (ofDigits ds : ℤ)
  | s => (digits? py s).map fun ds => (ofDigits ds : ℤ)

/-- `DAYNAMES`. -/
def dayNames : List (List Char) := ["sun", "mon", "tue", "wed", "thu", "fri", "sat"].map (·.toList)

/-- `MONTHNAMES`. -/
def monthNames : List (List Char) :=
  ["jan", "feb", "mar", "apr", "may", "jun", "jul", "aug", "sep", "oct", "nov", "dec"].map
    (·.toList)

/-- `weekday`, or none where it raises `KeyError`. -/
def weekday (name : List Char) : Option ℕ := dayNames.idxOf? (py.lower (name.take 3))

/-- `yearmonth`, or none where it raises `KeyError`. -/
def yearmonth (name : List Char) : Option ℕ :=
  (monthNames.idxOf? (py.lower (name.take 3))).map (· + 1)

/-- The number that a literal stands for. -/
def literal? (s : List Char) : Option ℤ :=
  match int? py s with
  | some i => some i
  | none =>
    match yearmonth py s with
    | some i => some i
    | none => (weekday py s).map fun i => (i : ℤ)

end Str

/-- The line break. -/
def newline : Char := Char.ofNat 10

/-- `range(a, b)`. -/
def range (a b : ℤ) : List ℤ := (List.range (b - a).toNat).map fun i : ℕ => a + i

/-- `xs[::n]` for a positive `n`. -/
def every {α : Type} (n : ℕ) (xs : List α) : List α :=
  (List.range ((xs.length + n - 1) / n)).filterMap fun k => xs[k * n]?

/-- `xs[::n]`. -/
def stepped (n : ℤ) (xs : List ℤ) : Except ParserError (List ℤ) :=
  if n = 0 then .error (.valueError "slice step cannot be zero")
  else if 0 < n then .ok (every n.toNat xs)
  else .ok (every n.natAbs xs.reverse)

/-- `int(s)`. -/
def int (py : PyStr) (s : List Char) : Except ParserError ℤ :=
  match int? py s with
  | some n => .ok n
  | none => .error (.invalidInt s)

namespace Parser

variable (py : PyStr) (p : Parser)

/-- The largest number. -/
def maxVal : ℕ := p.min_ + p.max_ - 1

/-- `_expand_number`. -/
def expandNumber : Option (List Char) → Except ParserError ℤ
  | none => .error .typeError
  | some s =>
    if s = [] then .error .indexError
    else if s.head? = some '-' then .error (.parseException "negative numbers not supported")
    else
      match literal? py s with
      | none => .error (.invalidWeekday s)
      | some i =>
        if i > p.maxVal then .error (.valueError s!"Invalid end range: {i} > {p.maxVal}.")
        else if i < p.min_ then .error (.valueError s!"Invalid beginning range: {i} < {p.min_}.")
        else .ok i

/-- `_expand_range`. -/
def expandRange : List (Option (List Char)) → Except ParserError (List ℤ)
  | [] => .error .indexError
  | [fr] => do
    let fr ← p.expandNumber py fr
    return [fr]
  | fr :: to_ :: _ => do
    let fr ← p.expandNumber py fr
    let to_ ← p.expandNumber py to_
    if to_ < fr then return range fr (p.min_ + p.max_) ++ range p.min_ (to_ + 1)
    else return range fr (to_ + 1)

/-- `_expand_star`. -/
def expandStar : List ℤ := range p.min_ (p.max_ + p.min_)

/-- `_range_steps`. -/
def rangeSteps (toks : List (Option (List Char))) : Except ParserError (List ℤ) :=
  match toks with
  | [fr, to_, some steps] =>
    if steps = [] then .error (.parseException "empty filter")
    else do
      let values ← p.expandRange py [fr, to_]
      let n ← int py steps
      stepped n values
  | _ => .error (.parseException "empty filter")

/-- `_star_steps`. -/
def starSteps (toks : List (Option (List Char))) : Except ParserError (List ℤ) :=
  match toks with
  | some steps :: _ =>
    if steps = [] then .error (.parseException "empty filter")
    else do
      let n ← int py steps
      stepped n p.expandStar
  | _ => .error (.parseException "empty filter")

/-- `_range`. -/
def rangePattern : List (Pattern.Atom Char) := [.word true, .char '-', .word false]

/-- `_steps`. -/
def stepsPattern : List (Pattern.Atom Char) := [.char '/', .wordOpt]

/-- `_star`. -/
def starPattern : List (Pattern.Atom Char) := [.char '*']

/-- `pats`: the patterns with their handlers. -/
def pats : List (List (Pattern.Atom Char) ×
    (List (Option (List Char)) → Except ParserError (List ℤ))) :=
  [(rangePattern ++ stepsPattern, p.rangeSteps py),
   (rangePattern, p.expandRange py),
   (starPattern ++ stepsPattern, p.starSteps py),
   (starPattern ++ [.atEnd], fun _ => .ok p.expandStar)]

/-- `_parse_part`. -/
def parsePart (part : List Char) : Except ParserError (List ℤ) :=
  match (p.pats py).findSome? fun pat =>
      (Pattern.search py.isWord newline pat.1 part).map pat.2 with
  | some result => result
  | none => p.expandRange py [some part]

/-- A part, in `parse`. -/
def addPart (acc : Finset ℤ) (part : List Char) : Except ParserError (Finset ℤ) :=
  if part = [] then .error (.parseException "empty part")
  else (p.parsePart py part).map fun values => acc ∪ values.toFinset

/-- **`parse`.** -/
def parse (spec : String) : Except ParserError (Finset ℤ) :=
  (spec.toList.splitOn ',').foldlM (p.addPart py) ∅

end Parser

/-! ## The patterns -/

section Patterns

variable {py : PyStr}

theorem isWord_dash : py.isWord '-' = false := (py.isWord_ascii '-' (by decide)).trans (by decide)

theorem isWord_slash : py.isWord '/' = false := (py.isWord_ascii '/' (by decide)).trans (by decide)

theorem isWord_star : py.isWord '*' = false := (py.isWord_ascii '*' (by decide)).trans (by decide)

/-- The text starts with a word. -/
abbrev Starts (py : PyStr) (s w rest : List Char) : Prop := Pattern.Starts py.isWord s w rest

/-- The group of the steps. -/
def group (py : PyStr) (r : List Char) : Option (List Char) :=
  if r.takeWhile py.isWord = [] then none else some (r.takeWhile py.isWord)

theorem group_eq_some_iff {r w : List Char} :
    group py r = some w ↔ ∃ rest, Starts py r w rest := by
  rw [group]
  constructor
  · intro h
    obtain ⟨hne, heq⟩ := Option.ite_none_left_eq_some.mp h
    exact ⟨_, Option.some_inj.mp heq ▸ Pattern.starts_of_takeWhile_ne_nil hne⟩
  · rintro ⟨rest, h⟩
    rw [h.takeWhile, if_neg h.ne_nil]

variable {s : List Char} {groups : List (Option (List Char))}

theorem search_range :
    Pattern.search py.isWord newline Parser.rangePattern s = some groups ↔
      ∃ w t w' r, Starts py s w ('-' :: t) ∧ Starts py t w' r ∧ groups = [some w, some w'] := by
  rw [Parser.rangePattern, Pattern.search_word_char isWord_dash]
  constructor
  · rintro ⟨w, t, rest, hstarts, hsearch, rfl⟩
    obtain ⟨w', r, hstarts', rfl⟩ := Pattern.search_word_end.mp hsearch
    exact ⟨w, t, w', r, hstarts, hstarts', rfl⟩
  · rintro ⟨w, t, w', r, hstarts, hstarts', rfl⟩
    exact ⟨w, t, _, hstarts, Pattern.search_word_end.mpr ⟨w', r, hstarts', rfl⟩, rfl⟩

theorem search_rangeSteps :
    Pattern.search py.isWord newline (Parser.rangePattern ++ Parser.stepsPattern) s =
        some groups ↔
      ∃ w t w' r, Starts py s w ('-' :: t) ∧ Starts py t w' ('/' :: r) ∧
        groups = [some w, some w', group py r] := by
  rw [Parser.rangePattern, Parser.stepsPattern, List.cons_append, List.cons_append,
    List.cons_append, List.nil_append, Pattern.search_word_char isWord_dash]
  constructor
  · rintro ⟨w, t, rest, hstarts, hsearch, rfl⟩
    obtain ⟨w', r, rest, hstarts', hsteps, rfl⟩ :=
      (Pattern.search_word_char isWord_slash).mp hsearch
    rw [Pattern.search_wordOpt_end] at hsteps
    obtain rfl := Option.some_inj.mp hsteps
    exact ⟨w, t, w', r, hstarts, hstarts', rfl⟩
  · rintro ⟨w, t, w', r, hstarts, hstarts', rfl⟩
    refine ⟨w, t, _, hstarts, (Pattern.search_word_char isWord_slash).mpr ?_, rfl⟩
    exact ⟨w', r, _, hstarts', Pattern.search_wordOpt_end, rfl⟩

theorem search_starSteps :
    Pattern.search py.isWord newline (Parser.starPattern ++ Parser.stepsPattern) s =
        some groups ↔
      ∃ r, s = '*' :: '/' :: r ∧ groups = [group py r] := by
  rw [Parser.starPattern, Parser.stepsPattern, List.cons_append, List.nil_append,
    Pattern.search_char]
  constructor
  · rintro ⟨t, rfl, hsearch⟩
    obtain ⟨r, rfl, hsteps⟩ := Pattern.search_char.mp hsearch
    rw [Pattern.search_wordOpt_end] at hsteps
    exact ⟨r, rfl, (Option.some_inj.mp hsteps).symm⟩
  · rintro ⟨r, rfl, rfl⟩
    exact ⟨_, rfl, Pattern.search_char.mpr ⟨r, rfl, Pattern.search_wordOpt_end⟩⟩

theorem search_star :
    Pattern.search py.isWord newline (Parser.starPattern ++ [.atEnd]) s = some groups ↔
      (s = ['*'] ∨ s = ['*', newline]) ∧ groups = [] := by
  rw [Parser.starPattern, List.cons_append, List.nil_append, Pattern.search_char]
  constructor
  · rintro ⟨t, rfl, hsearch⟩
    rw [Pattern.search] at hsearch
    obtain ⟨hend, hnil⟩ := Option.ite_none_right_eq_some.mp hsearch
    refine ⟨?_, (Option.some_inj.mp hnil).symm⟩
    rcases hend with rfl | rfl
    · exact Or.inl rfl
    · exact Or.inr rfl
  · rintro ⟨rfl | rfl, rfl⟩
    · exact ⟨[], rfl, rfl⟩
    · exact ⟨[newline], rfl, rfl⟩

end Patterns

/-! ## The shapes of a part -/

section Shapes

/-- The result, by the shape of a part. -/
inductive Shape (py : PyStr) (p : Parser) : List Char → Except ParserError (List ℤ) → Prop where
  | rangeSteps {s t r w w' : List Char} (h : Starts py s w ('-' :: t))
    (h' : Starts py t w' ('/' :: r)) :
    Shape py p s (p.rangeSteps py [some w, some w', group py r])
  | range {s t r w w' : List Char} (h : Starts py s w ('-' :: t)) (h' : Starts py t w' r)
    (hr : r.head? ≠ some '/') :
    Shape py p s (p.expandRange py [some w, some w'])
  | starSteps {r : List Char} : Shape py p ('*' :: '/' :: r) (p.starSteps py [group py r])
  | star : Shape py p ['*'] (.ok p.expandStar)
  | starLine : Shape py p ['*', newline] (.ok p.expandStar)
  | number {s : List Char} (hrange : ∀ w t w' r, Starts py s w ('-' :: t) → ¬ Starts py t w' r)
    (hsteps : ∀ r, s ≠ '*' :: '/' :: r) (hstar : s ≠ ['*']) (hline : s ≠ ['*', newline]) :
    Shape py p s (p.expandRange py [some s])

variable {py : PyStr} {p : Parser} {s t r w w' : List Char}

theorem parsePart_eq_match (py : PyStr) (p : Parser) (s : List Char) :
    p.parsePart py s =
      ((((Pattern.search py.isWord newline (Parser.rangePattern ++ Parser.stepsPattern) s).map
        (p.rangeSteps py)).or
      (((Pattern.search py.isWord newline Parser.rangePattern s).map (p.expandRange py)).or
      (((Pattern.search py.isWord newline (Parser.starPattern ++ Parser.stepsPattern) s).map
        (p.starSteps py)).or
      ((Pattern.search py.isWord newline (Parser.starPattern ++ [Pattern.Atom.atEnd]) s).map
        fun _ => .ok p.expandStar)))).getD (p.expandRange py [some s])) := by
  rw [Parser.parsePart, Parser.pats]
  simp only [List.findSome?]
  rcases Pattern.search py.isWord newline (Parser.rangePattern ++ Parser.stepsPattern) s with _ | _
  · rcases Pattern.search py.isWord newline Parser.rangePattern s with _ | _
    · rcases Pattern.search py.isWord newline (Parser.starPattern ++ Parser.stepsPattern) s
        with _ | _
      · rcases Pattern.search py.isWord newline (Parser.starPattern ++ [Pattern.Atom.atEnd]) s
          with _ | _
        · rfl
        · rfl
      · rfl
    · rfl
  · rfl

/-- **Every part has a shape.** -/
theorem shape_parsePart (py : PyStr) (p : Parser) (s : List Char) :
    Shape py p s (p.parsePart py s) := by
  rw [parsePart_eq_match]
  rcases hrangeSteps : Pattern.search py.isWord newline
    (Parser.rangePattern ++ Parser.stepsPattern) s with _ | groups
  · rcases hrange : Pattern.search py.isWord newline Parser.rangePattern s with _ | groups
    · rcases hsteps : Pattern.search py.isWord newline
        (Parser.starPattern ++ Parser.stepsPattern) s with _ | groups
      · rcases hstar : Pattern.search py.isWord newline
          (Parser.starPattern ++ [Pattern.Atom.atEnd]) s with _ | groups
        · refine .number (fun w t w' r h h' => ?_) (fun r h => ?_) (fun h => ?_) fun h => ?_
          · rw [search_range.mpr ⟨w, t, w', r, h, h', rfl⟩] at hrange
            cases hrange
          · rw [search_starSteps.mpr ⟨r, h, rfl⟩] at hsteps
            cases hsteps
          · rw [search_star.mpr ⟨.inl h, rfl⟩] at hstar
            cases hstar
          · rw [search_star.mpr ⟨.inr h, rfl⟩] at hstar
            cases hstar
        · obtain ⟨rfl | rfl, rfl⟩ := search_star.mp hstar
          · exact .star
          · exact .starLine
      · obtain ⟨r, rfl, rfl⟩ := search_starSteps.mp hsteps
        exact .starSteps
    · obtain ⟨w, t, w', r, h, h', rfl⟩ := search_range.mp hrange
      refine .range h h' fun hr => ?_
      obtain ⟨r, rfl⟩ : ∃ r', r = '/' :: r' := List.head?_eq_some_iff.mp hr
      rw [search_rangeSteps.mpr ⟨w, t, w', r, h, h', rfl⟩] at hrangeSteps
      cases hrangeSteps
  · obtain ⟨w, t, w', r, h, h', rfl⟩ := search_rangeSteps.mp hrangeSteps
    exact .rangeSteps h h'

theorem not_starts_star : ¬ Starts py ('*' :: r) w t := by
  rintro ⟨happend, hne, hword, -⟩
  obtain ⟨a, w, rfl⟩ := List.exists_cons_of_ne_nil hne
  obtain ⟨rfl, -⟩ := List.cons.inj happend
  have hstar := hword '*' List.mem_cons_self
  rw [isWord_star] at hstar
  cases hstar

theorem search_range_eq_none (h : ∀ w t w' r, Starts py s w ('-' :: t) → ¬ Starts py t w' r) :
    Pattern.search py.isWord newline Parser.rangePattern s = none := by
  refine Option.eq_none_iff_forall_ne_some.mpr fun groups hsearch => ?_
  obtain ⟨w, t, w', r, hstarts, hstarts', -⟩ := search_range.mp hsearch
  exact h w t w' r hstarts hstarts'

theorem search_rangeSteps_eq_none
    (h : ∀ w t w' r, Starts py s w ('-' :: t) → ¬ Starts py t w' ('/' :: r)) :
    Pattern.search py.isWord newline (Parser.rangePattern ++ Parser.stepsPattern) s = none := by
  refine Option.eq_none_iff_forall_ne_some.mpr fun groups hsearch => ?_
  obtain ⟨w, t, w', r, hstarts, hstarts', -⟩ := search_rangeSteps.mp hsearch
  exact h w t w' r hstarts hstarts'

theorem search_starSteps_eq_none (h : ∀ r, s ≠ '*' :: '/' :: r) :
    Pattern.search py.isWord newline (Parser.starPattern ++ Parser.stepsPattern) s = none := by
  refine Option.eq_none_iff_forall_ne_some.mpr fun groups hsearch => ?_
  obtain ⟨r, hr, -⟩ := search_starSteps.mp hsearch
  exact h r hr

theorem search_star_eq_none (h : s ≠ ['*']) (h' : s ≠ ['*', newline]) :
    Pattern.search py.isWord newline (Parser.starPattern ++ [Pattern.Atom.atEnd]) s = none := by
  refine Option.eq_none_iff_forall_ne_some.mpr fun groups hsearch => ?_
  rcases (search_star.mp hsearch).1 with hs | hs
  · exact h hs
  · exact h' hs

/-- **The shape of a part decides** what it comes to. -/
theorem Shape.parsePart_eq {x : Except ParserError (List ℤ)} (h : Shape py p s x) :
    p.parsePart py s = x := by
  rw [parsePart_eq_match]
  cases h with
  | rangeSteps h h' =>
    rw [search_rangeSteps.mpr ⟨_, _, _, _, h, h', rfl⟩]
    rfl
  | range h h' hr =>
    rw [search_rangeSteps_eq_none, search_range.mpr ⟨_, _, _, _, h, h', rfl⟩]
    · rfl
    · intro w₂ t₂ w₂' r₂ h₂ h₂'
      obtain ⟨-, heq⟩ := h.unique h₂
      obtain ⟨-, rfl⟩ := List.cons.inj heq
      obtain ⟨-, rfl⟩ := h'.unique h₂'
      exact hr rfl
  | starSteps =>
    rw [search_rangeSteps_eq_none fun _ _ _ _ h => absurd h not_starts_star,
      search_range_eq_none fun _ _ _ _ h => absurd h not_starts_star,
      search_starSteps.mpr ⟨_, rfl, rfl⟩]
    rfl
  | star =>
    rw [search_rangeSteps_eq_none fun _ _ _ _ h => absurd h not_starts_star,
      search_range_eq_none fun _ _ _ _ h => absurd h not_starts_star,
      search_starSteps_eq_none fun _ h => by simp at h, search_star.mpr ⟨.inl rfl, rfl⟩]
    rfl
  | starLine =>
    rw [search_rangeSteps_eq_none fun _ _ _ _ h => absurd h not_starts_star,
      search_range_eq_none fun _ _ _ _ h => absurd h not_starts_star,
      search_starSteps_eq_none fun _ h => by simp [newline] at h,
      search_star.mpr ⟨.inr rfl, rfl⟩]
    rfl
  | number hrange hsteps hstar hline =>
    rw [search_rangeSteps_eq_none fun w t w' r h => hrange w t w' _ h,
      search_range_eq_none hrange, search_starSteps_eq_none hsteps,
      search_star_eq_none hstar hline]
    rfl

end Shapes

end CrontabParser
end Celery
