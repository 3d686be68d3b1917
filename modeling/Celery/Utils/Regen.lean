/-
# `celery/utils/functional.py`: `regen`

`regen` and `_regen` (lines 183-287), without `map`, given anything but a list or a tuple, which
`regen` returns as it is.

`run_faithful` has when nothing of the source is lost, repeated or reordered, whatever is done with
a `_regen` and the iterators over it.  `__lookahead_consume` and `data` call `iter` on the source
each time: an iterable starts again, and an iterator over the `_regen` that has stopped between two
elements does not see what others have read since.
-/

import Mathlib.Data.List.Infix

namespace Celery

/-- What `regen` is given: an iterator, with what it has left, or an iterable that starts again
whenever `iter` is called. -/
inductive Regen.Source (α : Type) where
  | iterator (rest : List α)
  | iterable (items : List α)

/-- `_regen`. -/
structure Regen (α : Type) where
  it : Regen.Source α
  consumed : List α
  done : Bool

namespace Regen

variable {α : Type}

/-- All that the source is to yield. -/
def Source.items : Source α → List α
  | .iterator rest => rest
  | .iterable items => items

/-- What `iter(self.__it)` returns: the iterator itself, or a new one with what it has left. -/
inductive Cursor (α : Type) where
  | itself
  | fresh (rest : List α)

def Source.iter : Source α → Cursor α
  | .iterator _ => .itself
  | .iterable items => .fresh items

/-- `next(it)`, with what is left of both. -/
def next : Cursor α → Source α → Option (α × Cursor α × Source α)
  | .itself, .iterator (x :: rest) => some (x, .itself, .iterator rest)
  | .fresh (x :: rest), it => some (x, .fresh rest, it)
  | _, _ => none

/-- Where an iterator over a `_regen` has stopped: at an index of what has been consumed, at the
head of the loop of `__lookahead_consume` with `now` to yield, after the end of the source, or for
good. -/
inductive Gen (α : Type) where
  | cached (index : ℕ)
  | ahead (it : Cursor α) (now : α)
  | ending
  | returned

/-- One round of the loop of `__lookahead_consume`, up to its `yield now`. -/
def round (r : Regen α) (it : Cursor α) (now : α) : Regen α × Gen α × Option α :=
  if r.done then (r, .returned, none)
  else
    match next it r.it with
    | none => ({ r with done := true }, .ending, some now)
    | some (next_, it, source) =>
      ({ r with it := source, consumed := r.consumed ++ [next_] }, .ahead it next_, some now)

/-- What `__lookahead_consume` does before its loop. -/
def start (r : Regen α) : Regen α × Gen α :=
  if r.done then (r, .returned)
  else
    match next r.it.iter r.it with
    | none => (r, .returned)
    | some (now, it, source) =>
      ({ r with it := source, consumed := r.consumed ++ [now] }, .ahead it now)

/-- `__lookahead_consume` without a limit, from where it has stopped. -/
def resume (r : Regen α) : Gen α → Regen α × Gen α × Option α
  | .ahead it now => r.round it now
  | _ => (r, .returned, none)

/-- `next` of an iterator over a `_regen`. -/
def advance (r : Regen α) : Gen α → Regen α × Gen α × Option α
  | .cached index =>
    match r.consumed[index]? with
    | some x => (r, .cached (index + 1), some x)
    | none => r.start.1.resume r.start.2
  | gen => r.resume gen

/-- The rounds of `__lookahead_consume` that a limit allows, one after another. -/
def drain : ℕ → Gen α → Regen α → Regen α
  | limit + 1, .ahead it now, r => drain limit (r.round it now).2.1 (r.round it now).1
  | _, _, r => r

/-- The loop over `__lookahead_consume(limit)`. -/
def lookaheadConsume (limit : ℕ) (r : Regen α) : Regen α :=
  if limit = 0 then r else drain limit r.start.2 r.start.1

/-- `data`, which is `consumed` afterwards. -/
def data (r : Regen α) : Regen α :=
  if r.done then r
  else
    match r.it with
    | .iterator rest => ⟨.iterator [], r.consumed ++ rest, true⟩
    | .iterable items => ⟨.iterable items, r.consumed ++ items, true⟩

/-- `xs[index]` of a list, where `none` is an `IndexError`. -/
def listGet (xs : List α) (index : ℤ) : Option α :=
  if 0 ≤ index then xs[index.toNat]?
  else if 0 ≤ xs.length + index then xs[(xs.length + index).toNat]?
  else none

/-- `__getitem__` of an index. -/
def getItem (r : Regen α) (index : ℤ) : Regen α × Option α :=
  if index < 0 then (r.data, listGet r.data.consumed index)
  else
    let r := r.lookaheadConsume (index.toNat + 1 - r.consumed.length)
    (r, listGet r.consumed index)

/-- `__bool__`. -/
def bool (r : Regen α) : Regen α × Bool :=
  if r.consumed ≠ [] then (r, true)
  else ((r.advance (.cached 0)).1, (r.advance (.cached 0)).2.2.isSome)

/-! ## Runs -/

/-- What is done with a `_regen`.  A slice is taken as what it picks of a list. -/
inductive Op (α : Type) where
  | next (id : ℕ)
  | getItem (index : ℤ)
  | bool
  | data
  | slice (pick : List α → List α)

inductive Outcome (α : Type) where
  | item (x : α)
  | stopIteration
  | indexError
  | truth (b : Bool)
  | items (xs : List α)

/-- A `_regen` and the iterators over it.  `iter` runs nothing, so that each of them stands at the
first element from the start. -/
structure State (α : Type) where
  regen : Regen α
  iterators : ℕ → Gen α

/-- `regen(it)`, of an `it` that is no list and no tuple. -/
def regen (it : Source α) : State α := ⟨⟨it, [], false⟩, fun _ => .cached 0⟩

def ofOption (failure : Outcome α) : Option α → Outcome α
  | none => failure
  | some x => .item x

/-- The state after an iterator has been advanced. -/
def State.set (s : State α) (id : ℕ) (result : Regen α × Gen α × Option α) : State α :=
  ⟨result.1, Function.update s.iterators id result.2.1⟩

def step (s : State α) : Op α → State α × Outcome α
  | .next id =>
    (s.set id (s.regen.advance (s.iterators id)),
      ofOption .stopIteration (s.regen.advance (s.iterators id)).2.2)
  | .getItem index =>
    ({ s with regen := (s.regen.getItem index).1 },
      ofOption .indexError (s.regen.getItem index).2)
  | .bool => ({ s with regen := s.regen.bool.1 }, .truth s.regen.bool.2)
  | .data => ({ s with regen := s.regen.data }, .items s.regen.data.consumed)
  | .slice pick => ({ s with regen := s.regen.data }, .items (pick s.regen.data.consumed))

/-- What has been done, and what came of it. -/
def run (s : State α) : List (Op α) → List (Op α × Outcome α)
  | [] => []
  | op :: ops => (op, (step s op).2) :: run (step s op).1 ops

/-- What an iterator has yielded. -/
def yields (id : ℕ) (history : List (Op α × Outcome α)) : List α :=
  history.filterMap fun
    | (.next id', .item x) => if id' = id then some x else none
    | _ => none

/-- What an operation other than `next` is to return, if the source yields `xs`. -/
def Right (xs : List α) : Op α → Outcome α → Prop
  | .next _, _ => True
  | .getItem index, outcome => outcome = ofOption .indexError (listGet xs index)
  | .bool, outcome => outcome = .truth (!xs.isEmpty)
  | .data, outcome => outcome = .items xs
  | .slice pick, outcome => outcome = .items (pick xs)

/-- Nothing of `xs` is lost, repeated or reordered. -/
structure Faithful (xs : List α) (history : List (Op α × Outcome α)) : Prop where
  ended : ∀ id, (.next id, .stopIteration) ∈ history → yields id history = xs
  partly : ∀ id, yields id history <+: xs
  right : ∀ p ∈ history, Right xs p.1 p.2

/-- The operation takes all of the source. -/
def Op.Whole : Op α → Prop
  | .getItem index => index < 0
  | .data => True
  | .slice _ => True
  | _ => False

/-- The operation calls `iter(self.__it)`: what it asks for has not been consumed. -/
def Opens (s : State α) : Op α → Prop
  | .next id => s.regen.done = false ∧
      ∃ index, s.iterators id = .cached index ∧ s.regen.consumed.length ≤ index
  | .getItem index =>
      s.regen.done = false ∧ (index < 0 ∨ (s.regen.consumed.length : ℤ) ≤ index)
  | .bool => s.regen.done = false ∧ s.regen.consumed = []
  | _ => s.regen.done = false

/-- No iterator has stopped inside `__lookahead_consume`, with an element to yield. -/
def NoneAhead (s : State α) : Prop := ∀ id it now, s.iterators id ≠ .ahead it now

/-- **The condition:** an iterable is opened only as long as nothing has been consumed, and an
iterator is read, and its end taken for known, only if no iterator over the `_regen` has stopped
inside `__lookahead_consume`. -/
structure Steady (s : State α) (op : Op α) : Prop where
  iterator : ∀ rest, s.regen.it = .iterator rest → Opens s op → rest ≠ [] ∨ op.Whole → NoneAhead s
  iterable : ∀ xs, s.regen.it = .iterable xs → Opens s op → s.regen.consumed = []

/-- The condition on all steps of a run. -/
def SteadyRun (s : State α) : List (Op α) → Prop
  | [] => True
  | op :: ops => Steady s op ∧ SteadyRun (step s op).1 ops

/-! ## What one operation keeps -/

variable {xs ys : List α} {r r' : Regen α} {it : Cursor α} {gen : Gen α} {now : α}

/-- What a cursor has left. -/
def Cursor.rest : Cursor α → Source α → List α
  | .itself, .iterator rest => rest
  | .itself, .iterable _ => []
  | .fresh rest, _ => rest

/-- What has been consumed is how `xs` begins, and all of it once `done`. -/
structure Sound (xs : List α) (r : Regen α) : Prop where
  iterator : ∀ rest, r.it = .iterator rest → r.consumed ++ rest = xs
  iterable : ∀ items, r.it = .iterable items → items = xs
  consumed : r.consumed <+: xs
  done : r.done → r.consumed = xs

/-- The cursor has left what has not been consumed. -/
structure Reads (xs : List α) (r : Regen α) (it : Cursor α) : Prop where
  rest : r.consumed ++ it.rest r.it = xs
  kind : it = .itself ↔ ∃ rest, r.it = .iterator rest

/-- What an iterator that has yielded `ys` is at. -/
inductive Held (xs : List α) (r : Regen α) : List α → Gen α → Prop where
  | cached {index : ℕ} (h : index ≤ r.consumed.length) :
      Held xs r (r.consumed.take index) (.cached index)
  | ahead {ys : List α} {it : Cursor α} {now : α} (consumed : r.consumed = ys ++ [now])
      (done : r.done = false) (reads : Reads xs r it) : Held xs r ys (.ahead it now)
  | ending : Held xs r xs .ending
  | returned : Held xs r xs .returned

/-- What has been consumed answers an index, if it is long enough or all there is. -/
theorem listGet_consumed {index : ℤ} (h : r.consumed <+: xs)
    (hlong : 0 ≤ index ∧ index < r.consumed.length ∨ r.consumed = xs) :
    listGet r.consumed index = listGet xs index := by
  rcases hlong with ⟨hle, hlt⟩ | heq
  · obtain ⟨rest, rfl⟩ := h
    rw [listGet, listGet, if_pos hle, if_pos hle, List.getElem?_append_left (by omega)]
  · rw [heq]

/-- **`next(it)`** gives the first of what is left, which is then consumed. -/
theorem Reads.next (h : Reads xs r it) (hr : Sound xs r) (hdone : r.done = false) :
    r.consumed = xs ∧ next it r.it = none ∨
      ∃ x it' source, next it r.it = some (x, it', source) ∧
        Sound xs { r with it := source, consumed := r.consumed ++ [x] } ∧
        Reads xs { r with it := source, consumed := r.consumed ++ [x] } it' := by
  obtain ⟨source, consumed, done⟩ := r
  have hrest : consumed ++ it.rest source = xs := h.rest
  have hkind : it = .itself ↔ ∃ rest, source = .iterator rest := h.kind
  cases it with
  | itself =>
    obtain ⟨rest, rfl⟩ := hkind.mp rfl
    cases rest with
    | nil => exact .inl ⟨by simpa [Cursor.rest] using hrest, rfl⟩
    | cons x rest =>
      have happend : (consumed ++ [x]) ++ rest = xs := by
        rw [List.append_assoc]
        exact hrest
      refine .inr ⟨x, .itself, .iterator rest, rfl, ⟨?_, ?_, ⟨rest, happend⟩, ?_⟩, happend, ?_⟩
      · rintro rest' ⟨⟩
        exact happend
      · rintro items ⟨⟩
      · intro h
        exact absurd h (by simp [show done = false from hdone])
      · exact ⟨fun _ => ⟨rest, rfl⟩, fun _ => rfl⟩
  | fresh rest =>
    cases rest with
    | nil => exact .inl ⟨by simpa [Cursor.rest] using hrest, by cases source <;> rfl⟩
    | cons x rest =>
      have happend : (consumed ++ [x]) ++ rest = xs := by
        rw [List.append_assoc]
        exact hrest
      have hsource : ∀ rest', source ≠ .iterator rest' := fun rest' heq =>
        nomatch hkind.mpr ⟨rest', heq⟩
      refine .inr ⟨x, .fresh rest, source, by cases source <;> rfl,
        ⟨fun rest' heq => absurd heq (hsource rest'), hr.iterable, ⟨rest, happend⟩, ?_⟩,
        happend, ?_⟩
      · intro h
        exact absurd h (by simp [show done = false from hdone])
      · exact ⟨nofun, fun ⟨rest', heq⟩ => absurd heq (hsource rest')⟩

theorem Held.consumed_eq (h : Held xs r ys (.ahead it now)) : r.consumed = ys ++ [now] := by
  cases h with
  | ahead hconsumed _ _ => exact hconsumed

theorem Held.eq_of_returned (h : Held xs r ys .returned) : ys = xs := by
  cases h
  rfl

theorem Held.begins (h : Held xs r ys gen) (hr : Sound xs r) : ys <+: xs := by
  cases h with
  | cached _ => exact (List.take_prefix _ _).trans hr.consumed
  | ahead hconsumed _ _ =>
    refine List.IsPrefix.trans ?_ hr.consumed
    rw [hconsumed]
    exact List.prefix_append _ _
  | ending => exact List.prefix_rfl
  | returned => exact List.prefix_rfl

/-- What others consume does not matter to an iterator that reads what has been consumed. -/
theorem Held.mono (h : Held xs r ys gen) (hgen : ∀ it now, gen ≠ .ahead it now)
    (hr : r.consumed <+: r'.consumed) : Held xs r' ys gen := by
  cases h with
  | cached hle =>
    obtain ⟨more, hmore⟩ := hr
    rw [← List.take_append_of_le_length hle, hmore]
    refine .cached (hle.trans ?_)
    rw [← hmore, List.length_append]
    exact Nat.le_add_right _ _
  | ahead _ _ _ => exact absurd rfl (hgen _ _)
  | ending => exact .ending
  | returned => exact .returned

/-- **A round of the loop** yields `now`, and reads one element or finds that there is none. -/
theorem Held.round (h : Held xs r ys (.ahead it now)) (hr : Sound xs r) :
    ∃ r' gen, r.round it now = (r', gen, some now) ∧ Sound xs r' ∧ Held xs r' (ys ++ [now]) gen ∧
      r.consumed <+: r'.consumed ∧ (r'.consumed = xs ∧ gen = .ending ∨
        r'.consumed.length = r.consumed.length + 1 ∧ ∃ it now, gen = .ahead it now) := by
  cases h with
  | ahead hconsumed hdone hreads =>
  rw [Regen.round, if_neg (by simp [hdone])]
  rcases hreads.next hr hdone with ⟨heq, hnext⟩ | ⟨x, it', source, hnext, hsound, hreads'⟩
  · rw [hnext]
    refine ⟨_, _, rfl, ⟨hr.iterator, hr.iterable, hr.consumed, fun _ => heq⟩, ?_, List.prefix_rfl,
      .inl ⟨heq, rfl⟩⟩
    rw [← hconsumed, heq]
    exact .ending
  · rw [hnext]
    refine ⟨_, _, rfl, hsound, .ahead ?_ hdone hreads', List.prefix_append _ _, .inr ⟨?_, _, _, rfl⟩⟩
    · rw [hconsumed]
    · exact List.length_append

/-- **Opening the source**, of which there is nothing left or something. -/
theorem Reads.start (h : Reads xs r r.it.iter) (hr : Sound xs r) (hdone : r.done = false) :
    r.consumed = xs ∧ r.start = (r, .returned) ∨ r.consumed ≠ xs ∧
      ∃ r' it now, r.start = (r', .ahead it now) ∧ Sound xs r' ∧
        Held xs r' r.consumed (.ahead it now) := by
  rw [Regen.start, if_neg (by simp [hdone])]
  rcases h.next hr hdone with ⟨heq, hnext⟩ | ⟨x, it', source, hnext, hsound, hreads⟩
  · rw [hnext]
    exact .inl ⟨heq, rfl⟩
  · rw [hnext]
    refine .inr ⟨fun heq => ?_, _, it', x, rfl, hsound, .ahead rfl hdone hreads⟩
    have hle := hsound.consumed.length_le
    rw [← heq, List.length_append, List.length_singleton] at hle
    omega

/-- The rounds that a limit allows. -/
theorem Sound.drain (limit : ℕ) (hr : Sound xs r)
    (h : r.consumed = xs ∧ gen = .ending ∨ ∃ ys it now, gen = .ahead it now ∧ Held xs r ys gen) :
    Sound xs (drain limit gen r) ∧ r.consumed <+: (drain limit gen r).consumed ∧
      ((drain limit gen r).consumed = xs ∨
        r.consumed.length + limit ≤ (drain limit gen r).consumed.length) := by
  induction limit generalizing r gen with
  | zero =>
    rw [Regen.drain]
    · exact ⟨hr, List.prefix_rfl, .inr le_rfl⟩
    · rintro _ _ _ ⟨⟩
  | succ limit ih =>
    rcases h with ⟨heq, rfl⟩ | ⟨ys, it, now, rfl, hheld⟩
    · exact ⟨hr, List.prefix_rfl, .inl heq⟩
    · obtain ⟨r', gen', hround, hr', hheld', hbegin, hlength⟩ := hheld.round hr
      rw [Regen.drain, hround]
      have hgen : r'.consumed = xs ∧ gen' = .ending ∨
          ∃ ys it now, gen' = .ahead it now ∧ Held xs r' ys gen' := by
        rcases hlength with h | ⟨-, it', now', heq⟩
        · exact .inl h
        · exact .inr ⟨_, it', now', heq, hheld'⟩
      obtain ⟨hsound, hbegin', hlong⟩ := ih hr' hgen
      refine ⟨hsound, hbegin.trans hbegin', ?_⟩
      rcases hlength with ⟨heq, -⟩ | ⟨hlen, -⟩
      · refine .inl (List.IsPrefix.eq_of_length hsound.consumed ?_)
        have h₁ := hbegin'.length_le
        have h₂ := hsound.consumed.length_le
        rw [heq] at h₁
        exact le_antisymm h₂ h₁
      · refine hlong.imp_right fun hle => ?_
        dsimp only at hle ⊢
        omega

/-- `r'` is `r` after some of the source has been read, if there was any. -/
structure Grown (xs : List α) (r r' : Regen α) : Prop where
  sound : Sound xs r'
  consumed : r.consumed <+: r'.consumed
  same : r.consumed = xs → r' = r

/-- **`__lookahead_consume(limit)`** leaves so many more elements, or all that there are. -/
theorem Sound.lookaheadConsume (limit : ℕ) (hr : Sound xs r)
    (h : limit ≠ 0 → r.done = false → Reads xs r r.it.iter) :
    Grown xs r (r.lookaheadConsume limit) ∧ ((r.lookaheadConsume limit).consumed = xs ∨
      r.consumed.length + limit ≤ (r.lookaheadConsume limit).consumed.length) := by
  rw [Regen.lookaheadConsume]
  split
  next hlimit => exact ⟨⟨hr, List.prefix_rfl, fun _ => rfl⟩, .inr (by omega)⟩
  next hlimit =>
  cases hdone : r.done with
  | true =>
    have hstart : r.start = (r, .returned) := if_pos hdone
    have hdrain : Regen.drain limit .returned r = r := by cases limit <;> rfl
    rw [hstart, hdrain]
    exact ⟨⟨hr, List.prefix_rfl, fun _ => rfl⟩, .inl (hr.done hdone)⟩
  | false =>
    rcases (h hlimit hdone).start hr hdone with
      ⟨heq, hstart⟩ | ⟨hne, r', it, now, hstart, hr', hheld⟩
    · have hdrain : Regen.drain limit .returned r = r := by cases limit <;> rfl
      rw [hstart, hdrain]
      exact ⟨⟨hr, List.prefix_rfl, fun _ => rfl⟩, .inl heq⟩
    · rw [hstart]
      obtain ⟨hsound, hbegin, hlong⟩ := hr'.drain limit (.inr ⟨_, it, now, rfl, hheld⟩)
      have hconsumed : r.consumed <+: r'.consumed := ⟨_, hheld.consumed_eq.symm⟩
      refine ⟨⟨hsound, hconsumed.trans hbegin, fun heq => absurd heq hne⟩, ?_⟩
      refine hlong.imp_right fun hle => ?_
      have := hconsumed.length_le
      dsimp only at hle ⊢
      omega

/-- **`data`** is all of the source. -/
theorem Sound.data (hr : Sound xs r) (h : r.done = false → Reads xs r r.it.iter) :
    Sound xs r.data ∧ r.data.consumed = xs := by
  rw [Regen.data]
  split
  next hdone => exact ⟨hr, hr.done hdone⟩
  next hdone =>
  have hreads := h (eq_false_of_ne_true hdone)
  obtain ⟨source, consumed, done⟩ := r
  cases source with
  | iterator rest =>
    have heq : consumed ++ rest = xs := hreads.rest
    refine ⟨⟨?_, nofun, heq ▸ List.prefix_rfl, fun _ => heq⟩, heq⟩
    rintro _ ⟨⟩
    rw [List.append_nil]
    exact heq
  | iterable items =>
    have heq : consumed ++ items = xs := hreads.rest
    exact ⟨⟨nofun, hr.iterable, heq ▸ List.prefix_rfl, fun _ => heq⟩, heq⟩

/-- What opens the source: nothing that has been consumed is at the index. -/
theorem lt_or_eq_of_cached {index : ℕ} (h : Held xs r ys (.cached index)) :
    index < r.consumed.length ∧ ys = r.consumed.take index ∨
      index = r.consumed.length ∧ ys = r.consumed := by
  cases h with
  | cached hle =>
    rcases hle.lt_or_eq with hlt | rfl
    · exact .inl ⟨hlt, rfl⟩
    · exact .inr ⟨rfl, List.take_length⟩

/-- What `next` of an iterator over a `_regen` does to it and to the `_regen`. -/
structure Advanced (xs ys : List α) (r : Regen α) (gen : Gen α)
    (result : Regen α × Gen α × Option α) : Prop where
  sound : Sound xs result.1
  held : Held xs result.1 (ys ++ result.2.2.toList) result.2.1
  consumed : r.consumed <+: result.1.consumed
  stop : result.2.2 = none → result.2.1 = .returned
  returned : gen = .returned → result.2.1 = .returned
  same : (∀ it now, gen ≠ .ahead it now) →
    (∀ index, gen = .cached index → r.consumed.length ≤ index → r.consumed = xs) →
    result.1 = r ∧ ∀ it now, result.2.1 ≠ .ahead it now

theorem Held.resume (h : Held xs r ys (.ahead it now)) (hr : Sound xs r) :
    Advanced xs ys r (.ahead it now) (r.resume (.ahead it now)) := by
  obtain ⟨r', gen', hround, hr', hheld, hbegin, -⟩ := h.round hr
  rw [Regen.resume, hround]
  exact ⟨hr', hheld, hbegin, nofun, nofun, fun hgen => absurd rfl (hgen it now)⟩

/-- An iterator that has yielded everything returns. -/
theorem Sound.returned (hr : Sound xs r) : Advanced xs xs r gen (r, .returned, none) :=
  ⟨hr, (List.append_nil xs).symm ▸ .returned, List.prefix_rfl, fun _ => rfl, fun _ => rfl,
    fun _ _ => ⟨rfl, nofun⟩⟩

/-- **`next` of an iterator over a `_regen`.** -/
theorem Held.advance (h : Held xs r ys gen) (hr : Sound xs r)
    (hopen : ∀ index, gen = .cached index → r.consumed.length ≤ index → r.done = false →
      Reads xs r r.it.iter) : Advanced xs ys r gen (r.advance gen) := by
  cases gen with
  | ahead it now => exact h.resume hr
  | ending =>
    cases h
    exact hr.returned
  | returned =>
    cases h
    exact hr.returned
  | cached index =>
    rw [Regen.advance]
    rcases lt_or_eq_of_cached h with ⟨hlt, rfl⟩ | ⟨rfl, rfl⟩
    · rw [List.getElem?_eq_getElem hlt]
      refine ⟨hr, ?_, List.prefix_rfl, nofun, nofun, fun _ _ => ⟨rfl, nofun⟩⟩
      rw [Option.toList_some, List.take_concat_get' _ _ hlt]
      exact .cached hlt
    · rw [List.getElem?_length]
      dsimp only
      cases hdone : r.done with
      | true =>
        have hstart : r.start = (r, .returned) := if_pos hdone
        rw [hstart, hr.done hdone]
        exact hr.returned
      | false =>
        rcases (hopen _ rfl le_rfl hdone).start hr hdone with
          ⟨heq, hstart⟩ | ⟨hne, r', it, now, hstart, hr', hheld⟩
        · rw [hstart, heq]
          exact hr.returned
        · rw [hstart]
          have hadvanced := hheld.resume hr'
          exact ⟨hadvanced.sound, hadvanced.held,
            List.IsPrefix.trans ⟨_, hheld.consumed_eq.symm⟩ hadvanced.consumed, hadvanced.stop,
            nofun, fun _ heq => absurd (heq _ rfl le_rfl) hne⟩

/-- **`__bool__`** is whether there is anything. -/
theorem Sound.bool (hr : Sound xs r)
    (hopen : r.consumed = [] → r.done = false → Reads xs r r.it.iter) :
    Grown xs r r.bool.1 ∧ r.bool.2 = !xs.isEmpty := by
  rw [Regen.bool]
  split
  next hne =>
    refine ⟨⟨hr, List.prefix_rfl, fun _ => rfl⟩, ?_⟩
    rw [List.isEmpty_eq_false_iff.mpr (hr.consumed.ne_nil hne)]
    rfl
  next hnil =>
    have hnil := not_not.mp hnil
    have hheld : Held xs r [] (.cached 0) := .cached (Nat.zero_le _)
    have hadvanced := hheld.advance hr fun _ _ _ => hopen hnil
    refine ⟨⟨hadvanced.sound, hadvanced.consumed,
      fun heq => (hadvanced.same nofun fun _ _ _ => heq).1⟩, ?_⟩
    have hbegin := hadvanced.held.begins hadvanced.sound
    have hstop := hadvanced.stop
    have hheld' := hadvanced.held
    generalize r.advance (.cached 0) = result at hbegin hstop hheld'
    obtain ⟨r', gen', _ | x⟩ := result
    · obtain rfl : gen' = .returned := hstop rfl
      rw [← hheld'.eq_of_returned]
      rfl
    · rw [List.isEmpty_eq_false_iff.mpr (hbegin.ne_nil (List.cons_ne_nil x []))]
      rfl

/-! ## What a run keeps -/

variable {s : State α} {op : Op α} {outcome : Outcome α} {history : List (Op α × Outcome α)}

/-- What holds after every step. -/
structure Inv (xs : List α) (s : State α) (history : List (Op α × Outcome α)) : Prop where
  sound : Sound xs s.regen
  held : ∀ id, Held xs s.regen (yields id history) (s.iterators id)
  unique : ∀ id id' it it' now now', s.iterators id = .ahead it now →
    s.iterators id' = .ahead it' now' → id = id'
  stopped : ∀ id, (.next id, .stopIteration) ∈ history → s.iterators id = .returned
  right : ∀ p ∈ history, Right xs p.1 p.2

theorem inv_regen (it : Source α) : Inv it.items (regen it) [] where
  sound := by
    refine ⟨?_, ?_, List.nil_prefix, nofun⟩
    · rintro rest rfl
      rfl
    · rintro items rfl
      rfl
  held _ := .cached (Nat.zero_le _)
  unique := nofun
  stopped := nofun
  right := nofun

theorem Inv.faithful (h : Inv xs s history) : Faithful xs history where
  ended id hstop := (h.stopped id hstop ▸ h.held id).eq_of_returned
  partly id := (h.held id).begins h.sound
  right := h.right

/-- **What the condition is for:** the source goes on where the consumed part ends, and is read
only if no iterator has stopped inside `__lookahead_consume`. -/
theorem Inv.reads (h : Inv xs s history) (hsteady : Steady s op) (hopens : Opens s op) :
    Reads xs s.regen s.regen.it.iter ∧ (s.regen.consumed = xs ∧ ¬ op.Whole ∨ NoneAhead s) := by
  cases hit : s.regen.it with
  | iterator rest =>
    have hrest := h.sound.iterator rest hit
    refine ⟨⟨?_, fun _ => ⟨rest, hit⟩, fun _ => rfl⟩, ?_⟩
    · rw [hit]
      exact hrest
    by_cases hread : rest ≠ [] ∨ op.Whole
    · exact .inr (hsteady.iterator rest hit hopens hread)
    · obtain ⟨hnil, hwhole⟩ := not_or.mp hread
      rw [not_not.mp hnil, List.append_nil] at hrest
      exact .inl ⟨hrest, hwhole⟩
  | iterable items =>
    have hnil := hsteady.iterable items hit hopens
    refine ⟨⟨?_, nofun, fun ⟨rest, heq⟩ => nomatch hit.symm.trans heq⟩, .inr ?_⟩
    · rw [hnil]
      exact h.sound.iterable items hit
    · intro id it now hahead
      have hconsumed := (hahead ▸ h.held id).consumed_eq
      rw [hnil] at hconsumed
      exact List.append_ne_nil_of_right_ne_nil _ (List.cons_ne_nil now []) hconsumed.symm

/-- An operation that is not a `next` keeps the iterators. -/
theorem Inv.of_grown (h : Inv xs s history) (hsound : Sound xs r')
    (hbegin : s.regen.consumed <+: r'.consumed) (hahead : r' = s.regen ∨ NoneAhead s)
    (hop : ∀ id, op ≠ .next id) (hright : Right xs op outcome) :
    Inv xs { s with regen := r' } (history ++ [(op, outcome)]) where
  sound := hsound
  held := by
    intro id
    have hyields : yields id (history ++ [(op, outcome)]) = yields id history := by
      rw [yields, List.filterMap_append]
      cases op with
      | next id' => exact absurd rfl (hop id')
      | _ => exact List.append_nil _
    rw [hyields]
    rcases hahead with rfl | hahead
    · exact h.held id
    · exact (h.held id).mono (hahead id) hbegin
  unique := h.unique
  stopped := by
    intro id hstop
    rcases List.mem_append.mp hstop with hstop | hstop
    · exact h.stopped id hstop
    · exact absurd (congrArg Prod.fst (List.mem_singleton.mp hstop)).symm (hop id)
  right := List.forall_mem_append.mpr ⟨h.right, by simpa using hright⟩

theorem yields_next (id id' : ℕ) (x : Option α) :
    yields id' (history ++ [(.next id, ofOption .stopIteration x)]) =
      yields id' history ++ if id = id' then x.toList else [] := by
  rw [yields, List.filterMap_append]
  cases x with
  | none => simp [ofOption, yields]
  | some x => by_cases h : id = id' <;> simp [ofOption, yields, h]

theorem State.iterators_set_self (s : State α) (id : ℕ) (result : Regen α × Gen α × Option α) :
    (s.set id result).iterators id = result.2.1 := Function.update_self ..

theorem State.iterators_set_of_ne {id id' : ℕ} (h : id' ≠ id) (s : State α)
    (result : Regen α × Gen α × Option α) : (s.set id result).iterators id' = s.iterators id' :=
  Function.update_of_ne h ..

/-- **A `next`** keeps the other iterators. -/
theorem Inv.next {id : ℕ} (h : Inv xs s history) {result : Regen α × Gen α × Option α}
    (hadvanced : Advanced xs (yields id history) s.regen (s.iterators id) result)
    (hahead : (result.1 = s.regen ∧ ∀ it now, result.2.1 ≠ .ahead it now) ∨
      ∀ id', id' ≠ id → ∀ it now, s.iterators id' ≠ .ahead it now) :
    Inv xs (s.set id result) (history ++ [(.next id, ofOption .stopIteration result.2.2)]) where
  sound := hadvanced.sound
  held := by
    intro id'
    rw [yields_next]
    by_cases hid : id = id'
    · subst hid
      rw [if_pos rfl, State.iterators_set_self]
      exact hadvanced.held
    · rw [if_neg hid, List.append_nil, State.iterators_set_of_ne (Ne.symm hid)]
      rcases hahead with ⟨heq, -⟩ | hahead
      · have hregen : (s.set id result).regen = s.regen := heq
        rw [hregen]
        exact h.held id'
      · exact (h.held id').mono (hahead id' (Ne.symm hid)) hadvanced.consumed
  unique := by
    intro id₁ id₂ it₁ it₂ now₁ now₂ h₁ h₂
    have hother : ∀ id', id' ≠ id → ∀ it now it' now', s.iterators id' = .ahead it now →
        result.2.1 ≠ .ahead it' now' := by
      intro id' hid it now it' now' hid' hresult
      rcases hahead with ⟨-, hgen⟩ | hahead
      · exact hgen it' now' hresult
      · exact hahead id' hid it now hid'
    by_cases hid₁ : id₁ = id <;> by_cases hid₂ : id₂ = id
    · rw [hid₁, hid₂]
    · rw [hid₁, State.iterators_set_self] at h₁
      rw [State.iterators_set_of_ne hid₂] at h₂
      exact absurd h₁ (hother id₂ hid₂ it₂ now₂ it₁ now₁ h₂)
    · rw [State.iterators_set_of_ne hid₁] at h₁
      rw [hid₂, State.iterators_set_self] at h₂
      exact absurd h₂ (hother id₁ hid₁ it₁ now₁ it₂ now₂ h₁)
    · rw [State.iterators_set_of_ne hid₁] at h₁
      rw [State.iterators_set_of_ne hid₂] at h₂
      exact h.unique id₁ id₂ it₁ it₂ now₁ now₂ h₁ h₂
  stopped := by
    intro id' hstop
    rcases List.mem_append.mp hstop with hbefore | hnow
    · by_cases hid : id' = id
      · subst hid
        rw [State.iterators_set_self]
        exact hadvanced.returned (h.stopped id' hbefore)
      · rw [State.iterators_set_of_ne hid]
        exact h.stopped id' hbefore
    · obtain ⟨hid, houtcome⟩ := Prod.mk.inj (List.mem_singleton.mp hnow)
      obtain rfl := Op.next.inj hid
      rw [State.iterators_set_self]
      refine hadvanced.stop ?_
      cases hx : result.2.2 with
      | none => rfl
      | some x =>
        rw [hx] at houtcome
        cases houtcome
  right := List.forall_mem_append.mpr ⟨h.right, by simp [Right]⟩

/-- An operation that reads all of the source. -/
theorem Inv.whole (h : Inv xs s history) (hsteady : Steady s op) (hop : op.Whole)
    (hopens : s.regen.done = false → Opens s op)
    (hright : s.regen.data.consumed = xs → Right xs op outcome) :
    Inv xs { s with regen := s.regen.data } (history ++ [(op, outcome)]) := by
  obtain ⟨hsound, heq⟩ := h.sound.data fun hdone => (h.reads hsteady (hopens hdone)).1
  have hne : ∀ id, op ≠ .next id := by
    rintro id rfl
    exact hop
  refine h.of_grown hsound (heq ▸ h.sound.consumed) ?_ hne (hright heq)
  cases hdone : s.regen.done with
  | true => exact .inl (if_pos hdone)
  | false =>
    rcases (h.reads hsteady (hopens hdone)).2 with ⟨-, hnot⟩ | hahead
    · exact absurd hop hnot
    · exact .inr hahead

/-- An operation that reads what it asks for, if it has to open the source for it. -/
theorem Inv.partly (h : Inv xs s history) (hsteady : Steady s op) (hop : ∀ id, op ≠ .next id)
    (hgrown : Grown xs s.regen r')
    (hsame : s.regen.done = false → ¬ Opens s op → r' = s.regen)
    (hright : Right xs op outcome) :
    Inv xs { s with regen := r' } (history ++ [(op, outcome)]) := by
  refine h.of_grown hgrown.sound hgrown.consumed ?_ hop hright
  by_cases hopens : Opens s op
  · exact (h.reads hsteady hopens).2.imp (fun heq => hgrown.same heq.1) id
  · cases hdone : s.regen.done with
    | true => exact .inl (hgrown.same (h.sound.done hdone))
    | false => exact .inl (hsame hdone hopens)

/-- **One step** of a run. -/
theorem Inv.step (h : Inv xs s history) (hsteady : Steady s op) :
    Inv xs (step s op).1 (history ++ [(op, (step s op).2)]) := by
  cases op with
  | next id =>
    have hopens : ∀ index, s.iterators id = .cached index → s.regen.consumed.length ≤ index →
        s.regen.done = false → Opens s (.next id) := fun index hgen hle hdone =>
      ⟨hdone, index, hgen, hle⟩
    have hadvanced := (h.held id).advance h.sound fun index hgen hle hdone =>
      (h.reads hsteady (hopens index hgen hle hdone)).1
    refine h.next hadvanced ?_
    by_cases hahead : ∃ it now, s.iterators id = .ahead it now
    · obtain ⟨it, now, hgen⟩ := hahead
      exact .inr fun id' hid it' now' hgen' => hid (h.unique id' id it' it now' now hgen' hgen)
    · have hgen : ∀ it now, s.iterators id ≠ .ahead it now := fun it now heq =>
        hahead ⟨it, now, heq⟩
      by_cases hnone : NoneAhead s
      · exact .inr fun id' _ => hnone id'
      · refine .inl (hadvanced.same hgen fun index hindex hle => ?_)
        cases hdone : s.regen.done with
        | true => exact h.sound.done hdone
        | false =>
          have hreads := (h.reads hsteady (hopens index hindex hle hdone)).2
          exact (hreads.resolve_right hnone).1
  | getItem index =>
    rw [Regen.step, Regen.getItem]
    split
    next hneg =>
      refine h.whole hsteady hneg (fun hdone => ⟨hdone, .inl hneg⟩) fun heq => ?_
      rw [heq]
      rfl
    next hneg =>
      have hopens : index.toNat + 1 - s.regen.consumed.length ≠ 0 → s.regen.done = false →
          Opens s (.getItem index) := fun hlimit hdone => ⟨hdone, .inr (by omega)⟩
      obtain ⟨hgrown, hlong⟩ := h.sound.lookaheadConsume _ fun hlimit hdone =>
        (h.reads hsteady (hopens hlimit hdone)).1
      refine h.partly hsteady nofun hgrown (fun hdone hnot => ?_) ?_
      · exact if_pos (not_not.mp fun hlimit => hnot (hopens hlimit hdone))
      · dsimp only
        rw [listGet_consumed hgrown.sound.consumed (hlong.symm.imp_left fun hle => by omega)]
        rfl
  | bool =>
    obtain ⟨hgrown, heq⟩ := h.sound.bool fun hnil hdone => (h.reads hsteady ⟨hdone, hnil⟩).1
    refine h.partly hsteady nofun hgrown (fun hdone hnot => ?_) (congrArg Outcome.truth heq)
    rw [Regen.bool, if_pos fun hnil => hnot ⟨hdone, hnil⟩]
  | data => exact h.whole hsteady trivial id fun heq => congrArg Outcome.items heq
  | slice pick =>
    exact h.whole hsteady trivial id fun heq => congrArg (Outcome.items ∘ pick) heq

theorem Inv.run (h : Inv xs s history) (ops : List (Op α)) (hsteady : SteadyRun s ops) :
    ∃ s', Inv xs s' (history ++ run s ops) := by
  induction ops generalizing s history with
  | nil => exact ⟨s, (List.append_nil history).symm ▸ h⟩
  | cons op ops ih =>
    obtain ⟨s', hs'⟩ := ih (h.step hsteady.1) hsteady.2
    refine ⟨s', ?_⟩
    rw [List.append_assoc] at hs'
    exact hs'

/-- **A `_regen` replays its source** in every run of which all steps meet the condition. -/
theorem run_faithful (it : Source α) (ops : List (Op α)) (h : SteadyRun (regen it) ops) :
    Faithful it.items (run (regen it) ops) := by
  obtain ⟨s, hs⟩ := (inv_regen it).run ops h
  exact hs.faithful

theorem Steady.of_not_opens (h : ¬ Opens s op) : Steady s op :=
  ⟨fun _ _ hopens => absurd hopens h, fun _ _ hopens => absurd hopens h⟩

/-- An iterator that goes through an iterator, an index and `data`. -/
def aheadOps : List (Op ℕ) := [.next 0, .next 0, .getItem 1, .next 0, .data, .next 0]

theorem aheadOps_faithful : Faithful [1, 2, 3] (run (regen (.iterator [1, 2, 3])) aheadOps) := by
  refine run_faithful (.iterator [1, 2, 3]) aheadOps ⟨⟨fun _ _ _ _ => nofun, nofun⟩, ?_⟩
  refine ⟨.of_not_opens ?_, .of_not_opens ?_, .of_not_opens ?_, .of_not_opens ?_,
    .of_not_opens ?_, trivial⟩
  · rintro ⟨-, index, hgen, -⟩
    cases hgen
  · rintro ⟨-, h | h⟩
    · exact absurd h (by decide)
    · exact absurd h (by decide)
  · rintro ⟨-, index, hgen, -⟩
    cases hgen
  · exact nofun
  · rintro ⟨hdone, -⟩
    cases hdone

/-- `bool` reads the first two elements of an iterable, and `data` all of them once more.  An
iterator that has read on from an iterator itself does not see what `data` reads. -/
theorem reopened_not_faithful :
    ¬ Faithful [1, 2, 3] (run (regen (.iterable [1, 2, 3])) [.bool, .data]) ∧
    ¬ Faithful [1, 2, 3] (run (regen (.iterator [1, 2, 3])) [.next 0, .data, .next 0]) := by
  constructor
  · intro h
    have hright := h.right (.data, .items [1, 2, 1, 2, 3]) (.tail _ (.head _))
    exact absurd (Outcome.items.inj hright) (by decide)
  · intro h
    exact absurd (h.ended 0 (.tail _ (.tail _ (.head _)))) (by decide)

end Regen
end Celery
