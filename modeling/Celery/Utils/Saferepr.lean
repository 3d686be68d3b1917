/-
# `celery/utils/saferepr.py`: brackets where a representation is cut

`saferepr`, `_saferepr`, `reprstream`, `_reprseq`, `_chaindict` and `_chainlist` (lines 70-267),
for finite nestings of lists, tuples, dicts and sets over numbers, and `truncate`
(`celery/utils/text.py`, lines 89-93).

Once `maxlen` is used up, the rest is scanned for closing brackets, and the token at the cut is
dropped.  That leaves the output balanced if this token is no bracket itself, as the brackets that
are open then are the ones that the rest closes.  Text before the cut, a `[...]` of a nesting that
is too deep or the brackets of a number, may be cut inside, and a key is cut by the same rules.
`balanced_saferepr_iff` is that there is nothing else: any of these leaves more brackets of one
kind than of the other.

An object of a finite nesting is not inside itself, so the protection against recursion, `seen`,
is never needed and is left out.
-/

import Celery.Library.Brackets
import Mathlib.Data.List.Basic

namespace Celery
namespace Saferepr

/-- The brackets of Python. -/
def python : Brackets Char where
  close
    | '(' => some ')'
    | '[' => some ']'
    | '{' => some '}'
    | _ => none
  closes c := c = ')' || c = ']' || c = '}'

/-- The text of a number, with `str` or, for a `Decimal`, with `repr`: the brackets in it match, and
there is no space. -/
structure NumberText where
  text : List Char
  balanced : python.Balanced text
  no_space : ' ' ∉ text

/-- `set` and `frozenset`. -/
inductive SetType where
  | set
  | frozenset

/-- What is represented; a set has its items in the order of iteration. -/
inductive Obj where
  | number (n : NumberText)
  | list (items : List Obj)
  | tuple (items : List Obj)
  | set (type : SetType) (items : List Obj)
  | dict (items : List (Obj × Obj))

/-- `_literal`. -/
structure Literal where
  value : List Char
  truncate : Bool
  direction : ℤ

def dictStart : Literal := ⟨"\x7b".toList, false, 1⟩

def dictKvsep : Literal := ⟨": ".toList, true, 0⟩

def dictEnd : Literal := ⟨"\x7d".toList, false, -1⟩

def listStart : Literal := ⟨"[".toList, false, 1⟩

def listEnd : Literal := ⟨"]".toList, false, -1⟩

def listSep : Literal := ⟨", ".toList, true, 0⟩

def tupleStart : Literal := ⟨"(".toList, false, 1⟩

def tupleEnd : Literal := ⟨")".toList, false, -1⟩

def tupleEndSv : Literal := ⟨",)".toList, false, -1⟩

/-- `_reprseq` with `LIT_SET_START`. -/
def setStart : SetType → Literal
  | .set => ⟨"\x7b".toList, false, 1⟩
  | .frozenset => ⟨"frozenset(\x7b".toList, false, 1⟩

/-- `_reprseq` with `LIT_SET_END`. -/
def setEnd : SetType → Literal
  | .set => ⟨"\x7d".toList, false, -1⟩
  | .frozenset => ⟨"\x7d)".toList, false, -1⟩

/-- `_repr_empty_set`. -/
def reprEmptySet : SetType → List Char
  | .set => "set()".toList
  | .frozenset => "frozenset()".toList

/-- What the iterators on the stack of `reprstream` give. -/
inductive Item where
  | value (o : Obj)
  | literal (l : Literal)
  | key (o : Obj)

/-- `_chainlist`. -/
def chainlist : List Obj → List Item
  | [] => []
  | [v] => [.value v]
  | v :: w :: vs => .value v :: .literal listSep :: chainlist (w :: vs)

/-- `_chaindict`. -/
def chaindict : List (Obj × Obj) → List Item
  | [] => []
  | [(k, v)] => [.key k, .literal dictKvsep, .value v]
  | (k, v) :: e :: items =>
    .key k :: .literal dictKvsep :: .value v :: .literal listSep :: chaindict (e :: items)

/-- `lit_start`, `lit_end` and the items of a container; an empty set has none. -/
def container? : Obj → Option (Literal × Literal × List Item)
  | .number _ => none
  | .set type items =>
    if items = [] then none else some (setStart type, setEnd type, chainlist items)
  | .tuple items =>
    some (tupleStart, if items.length = 1 then tupleEndSv else tupleEnd, chainlist items)
  | .dict items => some (dictStart, dictEnd, chaindict items)
  | .list items => some (listStart, listEnd, chainlist items)

/-- The text of what is no container. -/
def atomText : Obj → List Char
  | .number n => n.text
  | .set type _ => reprEmptySet type
  | _ => []

/-- What `reprstream` yields, with the rest of the iterator beside it. -/
inductive Token where
  | literal (l : Literal)
  | key (o : Obj)
  | text (s : List Char)

/-- The next token of `reprstream` at a level: the token, the rest and the level then. -/
def next (maxlevels level : ℤ) : List Item → Option (Token × List Item × ℤ)
  | [] => none
  | .literal l :: it => some (.literal l, it, level + l.direction)
  | .key k :: it => some (.key k, it, level)
  | .value o :: it =>
    match container? o with
    | none => some (.text (atomText o), it, level)
    | some (litStart, litEnd, chained) =>
      if maxlevels ≠ 0 ∧ level ≥ maxlevels then
        some (.text (litStart.value ++ "...".toList ++ litEnd.value), it, level)
      else
        some (.literal litStart, chained ++ .literal litEnd :: it, level + litStart.direction)

/-- `s[:n]`. -/
def slice (s : List Char) (n : ℤ) : List Char :=
  s.take (if n < 0 then s.length + n else n).toNat

/-- `s.rsplit(' ', 1)[0]`. -/
def rsplitHead (s : List Char) : List Char :=
  if ' ' ∈ s then (s.reverse.dropWhile (· ≠ ' ')).tail.reverse else s

/-- `truncate`. -/
def truncate (s : List Char) : Option ℤ → List Char
  | some n => if n ≠ 0 ∧ n ≤ s.length then rsplitHead (slice s n) ++ "...".toList else s
  | none => s

/-- `maxlen is not None and maxlen <= 0`. -/
def exhausted : Option ℤ → Bool
  | some n => n ≤ 0
  | none => false

/-- `maxlen -= len(val)`. -/
def spend (maxlen : Option ℤ) (val : List Char) : Option ℤ := maxlen.map (· - val.length)

/-- The closing brackets in what is left. -/
def dangling (it : List Item) : List Char :=
  it.flatMap fun
    | .literal l => if l.truncate then [] else l.value
    | _ => []

mutual

/-- How many items an object comes to. -/
def Obj.weight : Obj → ℕ
  | .number _ => 1
  | .list items => weightAll items + 2
  | .tuple items => weightAll items + 2
  | .set _ items => weightAll items + 2
  | .dict items => weightPairs items + 2

def weightAll : List Obj → ℕ
  | [] => 0
  | v :: vs => v.weight + 1 + weightAll vs

def weightPairs : List (Obj × Obj) → ℕ
  | [] => 0
  | e :: es => e.1.weight + e.2.weight + 3 + weightPairs es

end

/-- The weight of an item. -/
def Item.weight : Item → ℕ
  | .value o => o.weight
  | .literal _ => 1
  | .key o => o.weight + 1

/-- The weight of what an iterator gives. -/
def weight (items : List Item) : ℕ := (items.map Item.weight).sum

theorem weight_cons (item : Item) (items : List Item) :
    weight (item :: items) = item.weight + weight items := by
  rw [weight, List.map_cons, List.sum_cons]
  rfl

theorem weight_append (items items' : List Item) :
    weight (items ++ items') = weight items + weight items' := by
  rw [weight, List.map_append, List.sum_append]
  rfl

theorem weight_chainlist (vs : List Obj) : weight (chainlist vs) ≤ weightAll vs := by
  induction vs with
  | nil => exact Nat.zero_le _
  | cons v vs ih =>
    cases vs with
    | nil =>
      rw [chainlist, weight_cons, weightAll]
      simp [weight, Item.weight, weightAll]
    | cons w vs =>
      rw [chainlist, weight_cons, weight_cons, weightAll]
      simp only [Item.weight]
      omega

theorem weight_chaindict (es : List (Obj × Obj)) : weight (chaindict es) ≤ weightPairs es := by
  induction es with
  | nil => exact Nat.zero_le _
  | cons e es ih =>
    obtain ⟨k, v⟩ := e
    cases es with
    | nil =>
      rw [chaindict, weight_cons, weight_cons, weight_cons, weightPairs]
      simp [weight, Item.weight, weightPairs]
      omega
    | cons e es =>
      rw [chaindict, weight_cons, weight_cons, weight_cons, weight_cons, weightPairs]
      simp only [Item.weight]
      omega

theorem Obj.weight_pos (o : Obj) : 0 < o.weight := by
  cases o <;> simp [Obj.weight]

/-- A container weighs more than its items and its closing bracket. -/
theorem weight_container {o : Obj} {litStart litEnd : Literal} {chained : List Item}
    (h : container? o = some (litStart, litEnd, chained)) : weight chained + 1 < o.weight := by
  cases o with
  | number n => cases h
  | list items =>
    obtain ⟨-, -, rfl⟩ : listStart = litStart ∧ listEnd = litEnd ∧ chainlist items = chained := by
      simpa [container?] using h
    have hle := weight_chainlist items
    rw [Obj.weight]
    omega
  | tuple items =>
    obtain ⟨-, -, rfl⟩ : tupleStart = litStart ∧
        (if items.length = 1 then tupleEndSv else tupleEnd) = litEnd ∧
        chainlist items = chained := by
      simpa [container?] using h
    have hle := weight_chainlist items
    rw [Obj.weight]
    omega
  | set type items =>
    rw [container?] at h
    split at h
    · cases h
    · obtain ⟨-, -, rfl⟩ : setStart type = litStart ∧ setEnd type = litEnd ∧
          chainlist items = chained := by simpa using h
      have hle := weight_chainlist items
      rw [Obj.weight]
      omega
  | dict items =>
    obtain ⟨-, -, rfl⟩ : dictStart = litStart ∧ dictEnd = litEnd ∧ chaindict items = chained := by
      simpa [container?] using h
    have hle := weight_chaindict items
    rw [Obj.weight]
    omega

/-- What a token is made from. -/
inductive Yields (maxlevels level : ℤ) : List Item → Token → List Item → ℤ → Prop where
  | literal (l : Literal) (it : List Item) :
    Yields maxlevels level (.literal l :: it) (.literal l) it (level + l.direction)
  | key (k : Obj) (it : List Item) : Yields maxlevels level (.key k :: it) (.key k) it level
  | atom {o : Obj} (it : List Item) (h : container? o = none) :
    Yields maxlevels level (.value o :: it) (.text (atomText o)) it level
  | tooDeep {o : Obj} {litStart litEnd : Literal} {chained : List Item} (it : List Item)
    (h : container? o = some (litStart, litEnd, chained)) :
    Yields maxlevels level (.value o :: it)
      (.text (litStart.value ++ "...".toList ++ litEnd.value)) it level
  | opened {o : Obj} {litStart litEnd : Literal} {chained : List Item} (it : List Item)
    (h : container? o = some (litStart, litEnd, chained)) :
    Yields maxlevels level (.value o :: it) (.literal litStart)
      (chained ++ .literal litEnd :: it) (level + litStart.direction)

/-- **What `reprstream` can yield.** -/
theorem yields_of_next {maxlevels level level' : ℤ} {items it : List Item} {token : Token}
    (h : next maxlevels level items = some (token, it, level')) :
    Yields maxlevels level items token it level' := by
  cases items with
  | nil => cases h
  | cons item items =>
    cases item with
    | literal l =>
      obtain ⟨rfl, rfl, rfl⟩ : Token.literal l = token ∧ items = it ∧
          level + l.direction = level' := by simpa [next] using h
      exact .literal l items
    | key k =>
      obtain ⟨rfl, rfl, rfl⟩ : Token.key k = token ∧ items = it ∧ level = level' := by
        simpa [next] using h
      exact .key k items
    | value o =>
      rw [next] at h
      rcases hcontainer : container? o with _ | ⟨litStart, litEnd, chained⟩
      · rw [hcontainer] at h
        obtain ⟨rfl, rfl, rfl⟩ : Token.text (atomText o) = token ∧ items = it ∧ level = level' := by
          simpa using h
        exact .atom items hcontainer
      · rw [hcontainer] at h
        dsimp only at h
        split at h
        · obtain ⟨rfl, heq⟩ := Prod.mk.inj (Option.some_inj.mp h)
          obtain ⟨rfl, rfl⟩ := Prod.mk.inj heq
          exact .tooDeep items hcontainer
        · obtain ⟨rfl, heq⟩ := Prod.mk.inj (Option.some_inj.mp h)
          obtain ⟨rfl, rfl⟩ := Prod.mk.inj heq
          exact .opened items hcontainer

/-- Every token leaves less to do. -/
theorem weight_next {maxlevels level level' : ℤ} {items it : List Item} {token : Token}
    (h : next maxlevels level items = some (token, it, level')) : weight it < weight items := by
  cases yields_of_next h with
  | literal l =>
    rw [weight_cons, Item.weight]
    omega
  | key k =>
    rw [weight_cons, Item.weight]
    omega
  | @atom o =>
    have hpos := o.weight_pos
    rw [weight_cons, Item.weight]
    omega
  | @tooDeep o =>
    have hpos := o.weight_pos
    rw [weight_cons, Item.weight]
    omega
  | @opened o litStart litEnd chained it hcontainer =>
    have hlt := weight_container hcontainer
    rw [weight_cons, weight_append, weight_cons, Item.weight, Item.weight]
    omega

theorem weight_next_key {maxlevels level level' : ℤ} {items it : List Item} {k : Obj}
    (h : next maxlevels level items = some (.key k, it, level')) :
    weight [.value k] < weight items := by
  cases yields_of_next h with
  | key =>
    rw [weight_cons, weight_cons, Item.weight, Item.weight, weight, List.map_nil, List.sum_nil]
    omega

/-- **`_saferepr`**, from what is left of the iterators on. -/
def emit (maxlevels : ℤ) (maxlen : Option ℤ) (level : ℤ) (items : List Item) : List Char :=
  match _h : next maxlevels level items with
  | none => []
  | some (.literal l, it, level') =>
    if exhausted maxlen then ", ...".toList ++ dangling it
    else l.value ++ emit maxlevels (spend maxlen l.value) level' it
  | some (.key k, it, level') =>
    if exhausted maxlen then ", ...".toList ++ dangling it
    else
      let val := emit maxlevels maxlen 0 [.value k]
      val ++ emit maxlevels (spend maxlen val) level' it
  | some (.text s, it, level') =>
    if exhausted maxlen then ", ...".toList ++ dangling it
    else truncate s maxlen ++ emit maxlevels (spend maxlen (truncate s maxlen)) level' it
termination_by weight items
decreasing_by
  · exact weight_next _h
  · exact weight_next_key _h
  · exact weight_next _h
  · exact weight_next _h

/-- **`saferepr`.** -/
def saferepr (o : Obj) (maxlen : Option ℤ) (maxlevels : ℤ) : List Char :=
  emit maxlevels maxlen 0 [.value o]

/-! ## The condition -/

/-- What is kept of a text that `maxlen` is used up in. -/
def kept (s : List Char) : Option ℤ → List Char
  | some n => if n ≤ s.length then s.take n.toNat else s
  | none => s

/-- The length of the whole representation. -/
def width (maxlevels level : ℤ) (items : List Item) : ℕ :=
  match _h : next maxlevels level items with
  | none => 0
  | some (.literal l, it, level') => l.value.length + width maxlevels level' it
  | some (.key k, it, level') => width maxlevels 0 [.value k] + width maxlevels level' it
  | some (.text s, it, level') => s.length + width maxlevels level' it
termination_by weight items
decreasing_by
  · exact weight_next _h
  · exact weight_next_key _h
  · exact weight_next _h
  · exact weight_next _h

/-- **No bracket is lost at the cut**, read along the tokens of the whole representation: the token
before which `maxlen` is used up is no bracket, a text in which it is used up keeps all the brackets
that match those it keeps, and in a key no bracket is lost. -/
def NoneLost (maxlevels : ℤ) (maxlen : Option ℤ) (level : ℤ) (items : List Item) : Prop :=
  match _h : next maxlevels level items with
  | none => True
  | some (.literal l, it, level') =>
    if exhausted maxlen then l.truncate = true
    else NoneLost maxlevels (spend maxlen l.value) level' it
  | some (.key k, it, level') =>
    if exhausted maxlen then True
    else NoneLost maxlevels maxlen 0 [.value k] ∧
      NoneLost maxlevels (maxlen.map (· - width maxlevels 0 [.value k])) level' it
  | some (.text s, it, level') =>
    if exhausted maxlen then True
    else python.Balanced (kept s maxlen) ∧ NoneLost maxlevels (spend maxlen s) level' it
termination_by weight items
decreasing_by
  · exact weight_next _h
  · exact weight_next_key _h
  · exact weight_next _h
  · exact weight_next _h

section Equations

variable {maxlevels level level' : ℤ} {items it : List Item} (maxlen : Option ℤ)

theorem next_eq_none (h : next maxlevels level items = none) : items = [] := by
  rcases items with _ | ⟨_ | _ | _, items⟩
  · rfl
  · rw [next] at h
    split at h
    · cases h
    · split at h <;> cases h
  · cases h
  · cases h

theorem emit_nil (maxlevels level : ℤ) : emit maxlevels maxlen level [] = [] := by
  rw [emit]
  rfl

theorem emit_literal {l : Literal}
    (h : next maxlevels level items = some (.literal l, it, level')) :
    emit maxlevels maxlen level items =
      if exhausted maxlen then ", ...".toList ++ dangling it
      else l.value ++ emit maxlevels (spend maxlen l.value) level' it := by
  rw [emit]
  split <;> rename_i heq <;> rw [h] at heq <;> cases heq
  rfl

theorem emit_key {k : Obj} (h : next maxlevels level items = some (.key k, it, level')) :
    emit maxlevels maxlen level items =
      if exhausted maxlen then ", ...".toList ++ dangling it
      else emit maxlevels maxlen 0 [.value k] ++
        emit maxlevels (spend maxlen (emit maxlevels maxlen 0 [.value k])) level' it := by
  rw [emit]
  split <;> rename_i heq <;> rw [h] at heq <;> cases heq
  rfl

theorem emit_text {s : List Char} (h : next maxlevels level items = some (.text s, it, level')) :
    emit maxlevels maxlen level items =
      if exhausted maxlen then ", ...".toList ++ dangling it
      else truncate s maxlen ++ emit maxlevels (spend maxlen (truncate s maxlen)) level' it := by
  rw [emit]
  split <;> rename_i heq <;> rw [h] at heq <;> cases heq
  rfl

theorem noneLost_nil (maxlevels level : ℤ) : NoneLost maxlevels maxlen level [] := by
  rw [NoneLost]
  trivial

theorem noneLost_literal {l : Literal}
    (h : next maxlevels level items = some (.literal l, it, level')) :
    NoneLost maxlevels maxlen level items ↔
      if exhausted maxlen then l.truncate = true
      else NoneLost maxlevels (spend maxlen l.value) level' it := by
  rw [NoneLost]
  split <;> rename_i heq <;> rw [h] at heq <;> cases heq
  rfl

theorem width_eq (maxlevels level : ℤ) (items : List Item) :
    width maxlevels level items = (emit maxlevels none level items).length := by
  induction hw : weight items using Nat.strong_induction_on generalizing level items with
  | _ w ih =>
    subst hw
    have hnone : ¬ exhausted none = true := Bool.false_ne_true
    rw [width]
    split
    next hnext =>
      obtain rfl := next_eq_none hnext
      rw [emit_nil]
      rfl
    next l it level' hnext =>
      rw [emit_literal none hnext, if_neg hnone, List.length_append,
        ih _ (weight_next hnext) _ _ rfl]
      rfl
    next k it level' hnext =>
      rw [emit_key none hnext, if_neg hnone, List.length_append, ih _ (weight_next hnext) _ _ rfl,
        ih _ (weight_next_key hnext) _ _ rfl]
      rfl
    next s it level' hnext =>
      rw [emit_text none hnext, if_neg hnone, List.length_append, ih _ (weight_next hnext) _ _ rfl]
      rfl

theorem noneLost_key {k : Obj} (h : next maxlevels level items = some (.key k, it, level')) :
    NoneLost maxlevels maxlen level items ↔
      if exhausted maxlen then True
      else NoneLost maxlevels maxlen 0 [.value k] ∧
        NoneLost maxlevels (spend maxlen (emit maxlevels none 0 [.value k])) level' it := by
  rw [NoneLost, spend, ← width_eq]
  split <;> rename_i heq <;> rw [h] at heq <;> cases heq
  rfl

theorem noneLost_text {s : List Char}
    (h : next maxlevels level items = some (.text s, it, level')) :
    NoneLost maxlevels maxlen level items ↔
      if exhausted maxlen then True
      else python.Balanced (kept s maxlen) ∧ NoneLost maxlevels (spend maxlen s) level' it := by
  rw [NoneLost]
  split <;> rename_i heq <;> rw [h] at heq <;> cases heq
  rfl

end Equations

/-! ## Literals -/

/-- The closing brackets of a literal. -/
def closers (l : Literal) : List Char := l.value.filter python.closes

/-- A literal between items, or the end of a container: it opens nothing, and it can be truncated
exactly if it closes nothing. -/
structure Plain (l : Literal) : Prop where
  close : ∀ c ∈ l.value, python.close c = none
  truncate_iff : l.truncate = true ↔ closers l = []

/-- The start of a container with its end: it opens what the end closes. -/
structure Matching (litStart litEnd : Literal) : Prop where
  not_truncate : litStart.truncate = false
  scan : ∀ stack, python.scan stack litStart.value = some (closers litEnd ++ stack)
  plain_end : Plain litEnd
  closers_ne_nil : closers litEnd ≠ []
  no_space : ' ' ∉ litStart.value ++ "...".toList ++ litEnd.value

theorem plain_listSep : Plain listSep := ⟨by simp [listSep, python], by decide⟩

theorem plain_dictKvsep : Plain dictKvsep := ⟨by simp [dictKvsep, python], by decide⟩

theorem plain_listEnd : Plain listEnd := ⟨by simp [listEnd, python], by decide⟩

theorem plain_dictEnd : Plain dictEnd := ⟨by simp [dictEnd, python], by decide⟩

theorem plain_tupleEnd : Plain tupleEnd := ⟨by simp [tupleEnd, python], by decide⟩

theorem plain_tupleEndSv : Plain tupleEndSv := ⟨by simp [tupleEndSv, python], by decide⟩

theorem plain_setEnd : ∀ type, Plain (setEnd type)
  | .set => ⟨by simp [setEnd, python], by decide⟩
  | .frozenset => ⟨by simp [setEnd, python], by decide⟩

/-- Values are followed by literals, keys by `: `, and all literals are plain. -/
def Chained : List Item → Prop
  | [] => True
  | .literal l :: it => Plain l ∧ Chained it
  | .value _ :: it => (∀ item ∈ it.head?, ∃ l, item = .literal l) ∧ Chained it
  | .key _ :: it => (∃ rest, it = .literal dictKvsep :: rest) ∧ Chained it

theorem chained_value (o : Obj) : Chained [.value o] :=
  ⟨fun _ hitem => absurd hitem (Option.not_mem_none _), trivial⟩

/-- Where nothing but a literal may follow. -/
theorem chained_chainlist (vs : List Obj) {it : List Item} (h : Chained it)
    (hhead : ∀ item ∈ it.head?, ∃ l, item = Item.literal l) : Chained (chainlist vs ++ it) := by
  induction vs with
  | nil => exact h
  | cons v vs ih =>
    cases vs with
    | nil => exact ⟨hhead, h⟩
    | cons w vs =>
      refine ⟨fun item hitem => ⟨listSep, ?_⟩, plain_listSep, ih⟩
      exact (Option.some_inj.mp hitem).symm

theorem chained_chaindict (es : List (Obj × Obj)) {it : List Item} (h : Chained it)
    (hhead : ∀ item ∈ it.head?, ∃ l, item = Item.literal l) : Chained (chaindict es ++ it) := by
  induction es with
  | nil => exact h
  | cons e es ih =>
    obtain ⟨k, v⟩ := e
    cases es with
    | nil => exact ⟨⟨_, rfl⟩, plain_dictKvsep, hhead, h⟩
    | cons e es =>
      refine ⟨⟨_, rfl⟩, plain_dictKvsep, fun item hitem => ⟨listSep, ?_⟩, plain_listSep, ih⟩
      exact (Option.some_inj.mp hitem).symm

theorem dangling_cons_literal (l : Literal) (it : List Item) :
    dangling (.literal l :: it) = (if l.truncate then [] else l.value) ++ dangling it :=
  List.flatMap_cons

theorem dangling_append (it it' : List Item) : dangling (it ++ it') = dangling it ++ dangling it' :=
  List.flatMap_append

theorem dangling_chainlist (vs : List Obj) : dangling (chainlist vs) = [] := by
  induction vs with
  | nil => rfl
  | cons v vs ih =>
    cases vs with
    | nil => rfl
    | cons w vs => exact ih

theorem dangling_chaindict (es : List (Obj × Obj)) : dangling (chaindict es) = [] := by
  induction es with
  | nil => rfl
  | cons e es ih =>
    cases es with
    | nil => rfl
    | cons e es => exact ih

/-- **A container** has matching literals, and separators between its items. -/
theorem container_spec {o : Obj} {litStart litEnd : Literal} {chained : List Item}
    (h : container? o = some (litStart, litEnd, chained)) :
    Matching litStart litEnd ∧ dangling chained = [] ∧
      ∀ it, Chained it → Chained (chained ++ .literal litEnd :: it) := by
  have hlist : ∀ (vs : List Obj) (l : Literal), Plain l →
      ∀ it, Chained it → Chained (chainlist vs ++ .literal l :: it) := by
    intro vs l hl it hit
    refine chained_chainlist vs ⟨hl, hit⟩ fun item hitem => ⟨l, ?_⟩
    exact (Option.some_inj.mp hitem).symm
  cases o with
  | number n => cases h
  | list items =>
    obtain ⟨rfl, rfl, rfl⟩ : listStart = litStart ∧ listEnd = litEnd ∧
        chainlist items = chained := by simpa [container?] using h
    have hmatching : Matching listStart listEnd :=
      ⟨rfl, fun _ => rfl, plain_listEnd, by decide, by decide⟩
    exact ⟨hmatching, dangling_chainlist items, hlist items listEnd hmatching.plain_end⟩
  | tuple items =>
    obtain ⟨rfl, rfl, rfl⟩ : tupleStart = litStart ∧
        (if items.length = 1 then tupleEndSv else tupleEnd) = litEnd ∧
        chainlist items = chained := by
      simpa [container?] using h
    have hmatching : Matching tupleStart (if items.length = 1 then tupleEndSv else tupleEnd) := by
      split
      · exact ⟨rfl, fun _ => rfl, plain_tupleEndSv, by decide, by decide⟩
      · exact ⟨rfl, fun _ => rfl, plain_tupleEnd, by decide, by decide⟩
    exact ⟨hmatching, dangling_chainlist items, hlist items _ hmatching.plain_end⟩
  | set type items =>
    rw [container?] at h
    split at h
    · cases h
    · obtain ⟨rfl, rfl, rfl⟩ : setStart type = litStart ∧ setEnd type = litEnd ∧
          chainlist items = chained := by simpa using h
      have hmatching : Matching (setStart type) (setEnd type) := by
        cases type with
        | set => exact ⟨rfl, fun _ => rfl, plain_setEnd _, by decide, by decide⟩
        | frozenset => exact ⟨rfl, fun _ => rfl, plain_setEnd _, by decide, by decide⟩
      exact ⟨hmatching, dangling_chainlist items, hlist items _ hmatching.plain_end⟩
  | dict items =>
    obtain ⟨rfl, rfl, rfl⟩ : dictStart = litStart ∧ dictEnd = litEnd ∧
        chaindict items = chained := by simpa [container?] using h
    have hmatching : Matching dictStart dictEnd :=
      ⟨rfl, fun _ => rfl, plain_dictEnd, by decide, by decide⟩
    refine ⟨hmatching, dangling_chaindict items, fun it hit => ?_⟩
    refine chained_chaindict items ⟨hmatching.plain_end, hit⟩ fun item hitem => ⟨dictEnd, ?_⟩
    exact (Option.some_inj.mp hitem).symm

/-- What a plain literal closes comes off the stack. -/
theorem Plain.scan {l : Literal} (h : Plain l) (stack : List Char) :
    python.scan (closers l ++ stack) l.value = some stack :=
  Brackets.scan_closing h.close stack

theorem balanced_reprEmptySet (type : SetType) :
    python.Balanced (reprEmptySet type) ∧ ' ' ∉ reprEmptySet type := by
  cases type with
  | set => decide
  | frozenset => decide

/-- **Text** of a token: its brackets match, and there is no space in it. -/
theorem balanced_text {maxlevels level level' : ℤ} {items it : List Item} {s : List Char}
    (h : next maxlevels level items = some (.text s, it, level')) :
    (∃ o, items = .value o :: it) ∧ python.Balanced s ∧ ' ' ∉ s := by
  cases yields_of_next h with
  | @atom o _ hcontainer =>
    refine ⟨⟨o, rfl⟩, ?_⟩
    cases o with
    | number n => exact ⟨n.balanced, n.no_space⟩
    | set type items => exact balanced_reprEmptySet type
    | list items => cases hcontainer
    | tuple items => cases hcontainer
    | dict items => cases hcontainer
  | @tooDeep o litStart litEnd chained _ hcontainer =>
    obtain ⟨hmatching, -, -⟩ := container_spec hcontainer
    refine ⟨⟨o, rfl⟩, ?_, hmatching.no_space⟩
    have hdots : python.Balanced "...".toList := by decide
    have hclose := hmatching.plain_end.scan []
    rw [Brackets.Balanced, Brackets.scan_append, Brackets.scan_append, hmatching.scan,
      Option.bind_some, hdots.scan_eq, Option.bind_some, hclose]

/-! ## What fits -/

theorem spend_none (s : List Char) : spend none s = none := rfl

theorem truncate_none (s : List Char) : truncate s none = s := rfl

/-- So many characters do not use up `maxlen`. -/
def Fits (maxlen : Option ℤ) (k : ℕ) : Prop := ∀ n ∈ maxlen, (k : ℤ) < n

theorem Fits.mono {maxlen : Option ℤ} {k k' : ℕ} (h : Fits maxlen k) (hk : k' ≤ k) :
    Fits maxlen k' :=
  fun n hn => lt_of_le_of_lt (Int.ofNat_le.mpr hk) (h n hn)

theorem exhausted_iff {maxlen : Option ℤ} : exhausted maxlen = true ↔ ¬ Fits maxlen 0 := by
  rcases maxlen with _ | n
  · simp [exhausted, Fits]
  · simp [exhausted, Fits]

theorem fits_spend_iff {maxlen : Option ℤ} {s : List Char} {k : ℕ} :
    Fits (spend maxlen s) k ↔ Fits maxlen (s.length + k) := by
  rcases maxlen with _ | n
  · simp [spend, Fits]
  · have hiff : (k : ℤ) < n - s.length ↔ ((s.length + k : ℕ) : ℤ) < n := by
      push_cast
      omega
    simpa [spend, Fits] using hiff

theorem exhausted_spend_iff {maxlen : Option ℤ} {s : List Char} :
    exhausted (spend maxlen s) = true ↔ ¬ Fits maxlen s.length := by
  rw [exhausted_iff, fits_spend_iff, Nat.add_zero]

theorem truncate_of_fits {maxlen : Option ℤ} {s : List Char} (h : Fits maxlen s.length) :
    truncate s maxlen = s ∧ kept s maxlen = s := by
  rcases maxlen with _ | n
  · exact ⟨rfl, rfl⟩
  · have hlt : (s.length : ℤ) < n := h n rfl
    exact ⟨if_neg fun hle => absurd hle.2 (not_le.mpr hlt), if_neg (not_le.mpr hlt)⟩

/-- A text that does not fit: what is kept of it, with an ellipsis that uses up the rest. -/
theorem truncate_of_not_fits {maxlen : Option ℤ} {s : List Char} (h : ¬ Fits maxlen s.length)
    (hexhausted : exhausted maxlen = false) (hspace : ' ' ∉ s) :
    (∃ t, s = kept s maxlen ++ t) ∧ truncate s maxlen = kept s maxlen ++ "...".toList ∧
      ¬ Fits maxlen (truncate s maxlen).length := by
  rcases maxlen with _ | n
  · exact absurd (fun n hn => by cases hn) h
  · have hpos : 0 < n := by simpa [exhausted] using hexhausted
    have hle : n ≤ s.length := by
      by_contra hlt
      refine h fun m hm => ?_
      obtain rfl := Option.some_inj.mp hm
      exact not_le.mp hlt
    have hslice : slice s n = s.take n.toNat := by rw [slice, if_neg (not_lt.mpr hpos.le)]
    have hhead : rsplitHead (s.take n.toNat) = s.take n.toNat :=
      if_neg fun hmem => hspace (List.mem_of_mem_take hmem)
    have hkept : kept s (some n) = s.take n.toNat := if_pos hle
    have htruncate : truncate s (some n) = s.take n.toNat ++ "...".toList := by
      rw [truncate, if_pos ⟨hpos.ne', hle⟩, hslice, hhead]
    refine ⟨⟨s.drop n.toNat, ?_⟩, by rw [htruncate, hkept], fun hfits => ?_⟩
    · rw [hkept, List.take_append_drop]
    · have hlt := hfits n rfl
      rw [htruncate, List.length_append, List.length_take] at hlt
      omega

/-- **The output** is that without a limit if it fits, and uses up `maxlen` if it does not. -/
theorem emit_fits (maxlevels : ℤ) (maxlen : Option ℤ) (level : ℤ) (items : List Item) :
    (Fits maxlen (emit maxlevels none level items).length →
      emit maxlevels maxlen level items = emit maxlevels none level items ∧
        NoneLost maxlevels maxlen level items) ∧
    (¬ Fits maxlen (emit maxlevels none level items).length →
      ¬ Fits maxlen (emit maxlevels maxlen level items).length) := by
  induction hw : weight items using Nat.strong_induction_on generalizing maxlen level items with
  | _ w ih =>
    subst hw
    by_cases hexhausted : exhausted maxlen = true
    · have hnot := exhausted_iff.mp hexhausted
      exact ⟨fun h => absurd (h.mono (Nat.zero_le _)) hnot,
        fun _ h => hnot (h.mono (Nat.zero_le _))⟩
    · have hnone : ¬ exhausted none = true := Bool.false_ne_true
      rcases hnext : next maxlevels level items with _ | ⟨token, it, level'⟩
      · obtain rfl := next_eq_none hnext
        rw [emit_nil, emit_nil]
        exact ⟨fun _ => ⟨rfl, noneLost_nil maxlen maxlevels level⟩, fun h => h⟩
      · have hit := fun maxlen => ih _ (weight_next hnext) maxlen level' it rfl
        cases token with
        | literal l =>
          obtain ⟨hfits, hnot⟩ := hit (spend maxlen l.value)
          rw [fits_spend_iff] at hfits hnot
          rw [fits_spend_iff] at hnot
          rw [emit_literal none hnext, emit_literal maxlen hnext, noneLost_literal maxlen hnext,
            if_neg hnone, if_neg hexhausted, if_neg hexhausted, spend_none, List.length_append,
            List.length_append]
          exact ⟨fun h => ⟨congrArg _ (hfits h).1, (hfits h).2⟩, hnot⟩
        | key k =>
          obtain ⟨hkey, hkeynot⟩ := ih _ (weight_next_key hnext) maxlen 0 [.value k] rfl
          rw [emit_key none hnext, emit_key maxlen hnext, noneLost_key maxlen hnext, if_neg hnone,
            if_neg hexhausted, if_neg hexhausted, spend_none, List.length_append,
            List.length_append]
          by_cases hkeyfits : Fits maxlen (emit maxlevels none 0 [.value k]).length
          · obtain ⟨hkeyeq, hkeylost⟩ := hkey hkeyfits
            obtain ⟨hfits, hnot⟩ := hit (spend maxlen (emit maxlevels none 0 [.value k]))
            rw [fits_spend_iff] at hfits hnot
            rw [fits_spend_iff] at hnot
            rw [hkeyeq]
            exact ⟨fun h => ⟨congrArg _ (hfits h).1, hkeylost, (hfits h).2⟩, hnot⟩
          · exact ⟨fun h => absurd (h.mono (Nat.le_add_right _ _)) hkeyfits,
              fun _ h => hkeynot hkeyfits (h.mono (Nat.le_add_right _ _))⟩
        | text s =>
          obtain ⟨-, hbalanced, hspace⟩ := balanced_text hnext
          rw [emit_text none hnext, emit_text maxlen hnext, noneLost_text maxlen hnext,
            if_neg hnone, if_neg hexhausted, if_neg hexhausted, spend_none, List.length_append,
            List.length_append, truncate_none]
          by_cases htext : Fits maxlen s.length
          · obtain ⟨htruncate, hkept⟩ := truncate_of_fits htext
            obtain ⟨hfits, hnot⟩ := hit (spend maxlen s)
            rw [fits_spend_iff] at hfits hnot
            rw [fits_spend_iff] at hnot
            rw [htruncate, hkept]
            exact ⟨fun h => ⟨congrArg _ (hfits h).1, hbalanced, (hfits h).2⟩, hnot⟩
          · obtain ⟨-, -, hcut⟩ :=
              truncate_of_not_fits htext (Bool.eq_false_iff.mpr hexhausted) hspace
            exact ⟨fun h => absurd (h.mono (Nat.le_add_right _ _)) htext,
              fun _ h => hcut (h.mono (Nat.le_add_right _ _))⟩

/-! ## What is pending -/

/-- The closing brackets that are still to come. -/
def pending (items : List Item) : List Char := (dangling items).filter python.closes

theorem pending_value (o : Obj) (it : List Item) : pending (.value o :: it) = pending it := rfl

theorem pending_key (k : Obj) (it : List Item) : pending (.key k :: it) = pending it := rfl

theorem pending_literal {l : Literal} (h : Plain l) (it : List Item) :
    pending (.literal l :: it) = closers l ++ pending it := by
  rw [pending, dangling_cons_literal, List.filter_append]
  by_cases htruncate : l.truncate = true
  · rw [if_pos htruncate, h.truncate_iff.mp htruncate]
    rfl
  · rw [if_neg htruncate]
    rfl

theorem pending_container {chained : List Item} {litEnd : Literal}
    (hchained : dangling chained = []) (h : Plain litEnd) (it : List Item) :
    pending (chained ++ .literal litEnd :: it) = closers litEnd ++ pending it := by
  rw [pending, dangling_append, hchained, List.nil_append]
  exact pending_literal h it

theorem close_of_dangling {it : List Item} (h : Chained it) :
    ∀ c ∈ dangling it, python.close c = none := by
  induction it with
  | nil => exact fun c hc => absurd hc List.not_mem_nil
  | cons item it ih =>
    cases item with
    | value o => exact ih h.2
    | key k => exact ih h.2
    | literal l =>
      intro c hc
      rw [dangling_cons_literal, List.mem_append] at hc
      rcases hc with hc | hc
      · split at hc
        · exact absurd hc List.not_mem_nil
        · exact h.1.close c hc
      · exact ih h.2 c hc

/-- **The end of the output** after the cut closes all that is pending in the rest. -/
theorem scan_cut {it : List Item} (h : Chained it) :
    python.scan (pending it) (", ...".toList ++ dangling it) = some [] := by
  have hdots : python.Balanced ", ...".toList := by decide
  have hscan := Brackets.scan_closing (close_of_dangling h) []
  rw [List.append_nil] at hscan
  rw [Brackets.scan_append, hdots.scan_eq, Option.bind_some]
  exact hscan

/-- An output closes all that is pending if a condition holds, and else it has more brackets of one
kind than it should have. -/
structure Closed (condition : Prop) (stack s : List Char) : Prop where
  scan : condition → python.scan stack s = some []
  net : ¬ condition → python.net s + stack.length ≠ 0

namespace Closed

variable {condition condition' : Prop} {stack stack' s t : List Char}

theorem congr (h : Closed condition stack s) (hiff : condition' ↔ condition) :
    Closed condition' stack s :=
  ⟨fun h' => h.scan (hiff.mp h'), fun h' => h.net fun hcondition => h' (hiff.mpr hcondition)⟩

/-- After what is scanned. -/
theorem append (h : Closed condition stack' s) (hscan : python.scan stack t = some stack') :
    Closed condition stack (t ++ s) := by
  refine ⟨fun hcondition => ?_, fun hcondition => ?_⟩
  · rw [Brackets.scan_append, hscan, Option.bind_some, h.scan hcondition]
  · have hnet := h.net hcondition
    rw [Brackets.length_of_scan hscan] at hnet
    rw [Brackets.net_append]
    intro hzero
    exact hnet (by omega)

theorem balanced_iff (h : Closed condition [] s) : python.Balanced s ↔ condition := by
  refine ⟨fun hbalanced => ?_, h.scan⟩
  by_contra hcondition
  have hnet := h.net hcondition
  rw [hbalanced.net_eq] at hnet
  exact hnet rfl

end Closed

/-- **What is left once `maxlen` is used up**: it closes what is pending, unless it starts with a
bracket. -/
theorem closed_exhausted (maxlevels level : ℤ) {maxlen : Option ℤ} {it : List Item}
    (hexhausted : exhausted maxlen = true) (h : Chained it)
    (hhead : ∀ item ∈ it.head?, ∃ l, item = Item.literal l) :
    Closed (NoneLost maxlevels maxlen level it) (pending it) (emit maxlevels maxlen level it) ∧
      0 ≤ python.net (emit maxlevels maxlen level it) + (pending it).length := by
  rcases it with _ | ⟨item, it⟩
  · have hlost := noneLost_nil maxlen maxlevels level
    rw [emit_nil]
    exact ⟨⟨fun _ => rfl, fun h => absurd hlost h⟩, le_rfl⟩
  · obtain ⟨l, rfl⟩ := hhead item rfl
    obtain ⟨hplain, hit⟩ := h
    have hnext : next maxlevels level (.literal l :: it) =
      some (.literal l, it, level + l.direction) := rfl
    have hcut := scan_cut hit
    have hlength := Brackets.length_of_scan hcut
    rw [List.length_nil, Nat.cast_zero] at hlength
    rw [emit_literal maxlen hnext, noneLost_literal maxlen hnext, if_pos hexhausted,
      if_pos hexhausted, hplain.truncate_iff, pending_literal hplain]
    refine ⟨⟨fun hnil => ?_, fun hnil => ?_⟩, ?_⟩
    · rw [hnil]
      exact hcut
    · have hpos := List.length_pos_of_ne_nil hnil
      rw [List.length_append, Nat.cast_add]
      omega
    · rw [List.length_append, Nat.cast_add]
      omega

/-- The condition is the same wherever `maxlen` is used up. -/
theorem noneLost_of_exhausted {maxlevels level : ℤ} {maxlen maxlen' : Option ℤ} {it : List Item}
    (h : exhausted maxlen = true) (h' : exhausted maxlen' = true) :
    NoneLost maxlevels maxlen level it ↔ NoneLost maxlevels maxlen' level it := by
  rcases hnext : next maxlevels level it with _ | ⟨l | k | s, it', level'⟩
  · obtain rfl := next_eq_none hnext
    exact iff_of_true (noneLost_nil _ _ _) (noneLost_nil _ _ _)
  · rw [noneLost_literal _ hnext, noneLost_literal _ hnext, if_pos h, if_pos h']
  · rw [noneLost_key _ hnext, noneLost_key _ hnext, if_pos h, if_pos h']
  · rw [noneLost_text _ hnext, noneLost_text _ hnext, if_pos h, if_pos h']

/-- At the cut the bracket of an opened container is lost, and a plain literal if it is one. -/
theorem closed_literal_exhausted {maxlevels level level' : ℤ} {items it : List Item} {l : Literal}
    {maxlen : Option ℤ} (hnext : next maxlevels level items = some (.literal l, it, level'))
    (hexhausted : exhausted maxlen = true) (h : Chained items) :
    Closed (NoneLost maxlevels maxlen level items) (pending items)
      (emit maxlevels maxlen level items) := by
  cases yields_of_next hnext with
  | literal =>
    refine (closed_exhausted maxlevels level hexhausted h fun item hitem => ⟨l, ?_⟩).1
    exact (Option.some_inj.mp hitem).symm
  | @opened o _ litEnd chained it hcontainer =>
    obtain ⟨hmatching, hchained, hall⟩ := container_spec hcontainer
    have hcut := scan_cut (hall it h.2)
    rw [pending_container hchained hmatching.plain_end] at hcut
    have hlength := Brackets.length_of_scan hcut
    have hpos := List.length_pos_of_ne_nil hmatching.closers_ne_nil
    rw [List.length_nil, Nat.cast_zero, List.length_append, Nat.cast_add] at hlength
    rw [emit_literal maxlen hnext, noneLost_literal maxlen hnext, if_pos hexhausted,
      if_pos hexhausted, hmatching.not_truncate, pending_value]
    refine ⟨fun h => absurd h Bool.false_ne_true, fun _ hzero => ?_⟩
    omega

/-- A key: if it is cut, the rest is cut at the `: ` after it. -/
theorem closed_key {maxlevels level level' : ℤ} {items it : List Item} {k : Obj}
    {maxlen : Option ℤ} (hnext : next maxlevels level items = some (.key k, it, level'))
    (hexhausted : ¬ exhausted maxlen = true) (h : Chained items)
    (hkey : Closed (NoneLost maxlevels maxlen 0 [.value k]) [] (emit maxlevels maxlen 0 [.value k]))
    (hit : ∀ maxlen, Closed (NoneLost maxlevels maxlen level' it) (pending it)
      (emit maxlevels maxlen level' it)) :
    Closed (NoneLost maxlevels maxlen level items) (pending items)
      (emit maxlevels maxlen level items) := by
  cases yields_of_next hnext with
  | key =>
    obtain ⟨⟨rest, rfl⟩, -, hrest⟩ := h
    obtain ⟨hfits, hnot⟩ := emit_fits maxlevels maxlen 0 [.value k]
    rw [emit_key maxlen hnext, noneLost_key maxlen hnext, if_neg hexhausted, if_neg hexhausted,
      pending_key]
    by_cases hfull : Fits maxlen (emit maxlevels none 0 [.value k]).length
    · obtain ⟨heq, hlost⟩ := hfits hfull
      rw [heq] at hkey ⊢
      exact ((hit _).append ((hkey.balanced_iff.mpr hlost).scan_eq _)).congr (and_iff_right hlost)
    · have hused := exhausted_spend_iff.mpr hfull
      have hused' := exhausted_spend_iff.mpr (hnot hfull)
      have hsep : next maxlevels level (.literal dictKvsep :: rest) =
        some (.literal dictKvsep, rest, level + dictKvsep.direction) := rfl
      rw [emit_literal _ hsep, noneLost_literal _ hsep, if_pos hused, if_pos hused',
        and_iff_left (show dictKvsep.truncate = true from rfl), pending_literal plain_dictKvsep]
      have hcut := scan_cut hrest
      have hlength := Brackets.length_of_scan hcut
      rw [List.length_nil, Nat.cast_zero] at hlength
      refine ⟨fun hlost => ?_, fun hlost hzero => hkey.net hlost ?_⟩
      · rw [Brackets.scan_append, (hkey.balanced_iff.mpr hlost).scan_eq, Option.bind_some]
        exact hcut
      · rw [Brackets.net_append, show closers dictKvsep = [] from rfl, List.nil_append] at hzero
        rw [List.length_nil, Nat.cast_zero]
        omega

/-- A text: if it is cut, brackets that are open at its end stay open. -/
theorem closed_text {maxlevels level level' : ℤ} {items it : List Item} {s : List Char}
    {maxlen : Option ℤ} (hnext : next maxlevels level items = some (.text s, it, level'))
    (hexhausted : ¬ exhausted maxlen = true) (h : Chained items)
    (hit : ∀ maxlen, Closed (NoneLost maxlevels maxlen level' it) (pending it)
      (emit maxlevels maxlen level' it)) :
    Closed (NoneLost maxlevels maxlen level items) (pending items)
      (emit maxlevels maxlen level items) := by
  obtain ⟨⟨o, rfl⟩, hbalanced, hspace⟩ := balanced_text hnext
  rw [emit_text maxlen hnext, noneLost_text maxlen hnext, if_neg hexhausted, if_neg hexhausted,
    pending_value]
  by_cases hfits : Fits maxlen s.length
  · obtain ⟨htruncate, hkept⟩ := truncate_of_fits hfits
    rw [htruncate, hkept, and_iff_right hbalanced]
    exact (hit _).append (hbalanced.scan_eq _)
  · obtain ⟨⟨t, hs⟩, htruncate, hcut⟩ :=
      truncate_of_not_fits hfits (Bool.eq_false_iff.mpr hexhausted) hspace
    have hused := exhausted_spend_iff.mpr hcut
    have hdots : python.Balanced "...".toList := by decide
    obtain ⟨hclosed, hnonneg⟩ := closed_exhausted maxlevels level' hused h.2 h.1
    rw [noneLost_of_exhausted (exhausted_spend_iff.mpr hfits) hused]
    rw [hs] at hbalanced
    have hkept := Brackets.net_nonneg_of_balanced hbalanced
    have hiff := Brackets.balanced_iff_net hbalanced
    rw [htruncate] at hclosed hnonneg ⊢
    refine ⟨fun ⟨hopen, hlost⟩ => ?_, fun hlost hzero => hlost ?_⟩
    · rw [Brackets.scan_append, (hopen.append hdots).scan_eq, Option.bind_some]
      exact hclosed.scan hlost
    · rw [Brackets.net_append, Brackets.net_append, hdots.net_eq, add_zero] at hzero
      have hopen : python.net (kept s maxlen) = 0 := by omega
      rw [hopen, zero_add] at hzero
      exact ⟨hiff.mpr hopen, not_not.mp fun hnot => hclosed.net hnot hzero⟩

/-- **The output closes all that is pending** exactly if no bracket is lost. -/
theorem closed_emit (maxlevels : ℤ) (maxlen : Option ℤ) (level : ℤ) {items : List Item}
    (h : Chained items) :
    Closed (NoneLost maxlevels maxlen level items) (pending items)
      (emit maxlevels maxlen level items) := by
  induction hw : weight items using Nat.strong_induction_on generalizing maxlen level items with
  | _ w ih =>
    subst hw
    rcases hnext : next maxlevels level items with _ | ⟨token, it, level'⟩
    · obtain rfl := next_eq_none hnext
      rw [emit_nil]
      exact ⟨fun _ => rfl, fun h => absurd (noneLost_nil maxlen maxlevels level) h⟩
    · have hrest := fun maxlen (hit : Chained it) => ih _ (weight_next hnext) maxlen level' hit rfl
      cases token with
      | literal l =>
        by_cases hexhausted : exhausted maxlen = true
        · exact closed_literal_exhausted hnext hexhausted h
        · rw [emit_literal maxlen hnext, noneLost_literal maxlen hnext, if_neg hexhausted,
            if_neg hexhausted]
          cases yields_of_next hnext with
          | literal =>
            rw [pending_literal h.1]
            exact (hrest _ h.2).append (h.1.scan _)
          | opened it hcontainer =>
            obtain ⟨hmatching, hchained, hall⟩ := container_spec hcontainer
            have hclosed := hrest (spend maxlen l.value) (hall it h.2)
            rw [pending_container hchained hmatching.plain_end] at hclosed
            exact hclosed.append (hmatching.scan _)
      | key k =>
        have hit : Chained it := by
          cases yields_of_next hnext with
          | key => exact h.2
        by_cases hexhausted : exhausted maxlen = true
        · rw [emit_key maxlen hnext, noneLost_key maxlen hnext, if_pos hexhausted,
            if_pos hexhausted]
          cases yields_of_next hnext with
          | key =>
            rw [pending_key]
            exact ⟨fun _ => scan_cut hit, fun h => absurd trivial h⟩
        · have hkey := ih _ (weight_next_key hnext) maxlen 0 (chained_value k) rfl
          exact closed_key hnext hexhausted h hkey fun maxlen => hrest maxlen hit
      | text s =>
        obtain ⟨⟨o, rfl⟩, -, -⟩ := balanced_text hnext
        by_cases hexhausted : exhausted maxlen = true
        · rw [emit_text maxlen hnext, noneLost_text maxlen hnext, if_pos hexhausted,
            if_pos hexhausted, pending_value]
          exact ⟨fun _ => scan_cut h.2, fun h => absurd trivial h⟩
        · exact closed_text hnext hexhausted h fun maxlen => hrest maxlen h.2

/-- **The brackets of a representation match** exactly if none is lost at the cut. -/
theorem balanced_saferepr_iff (o : Obj) (maxlen : Option ℤ) (maxlevels : ℤ) :
    python.Balanced (saferepr o maxlen maxlevels) ↔ NoneLost maxlevels maxlen 0 [.value o] :=
  (closed_emit maxlevels maxlen 0 (chained_value o)).balanced_iff

/-- With a `maxlen` of 1, an empty list loses its last bracket, and a list of an empty list the
bracket that opens the inner one. -/
theorem saferepr_one :
    (saferepr (.list []) (some 1) 3 = "[, ...".toList ∧
      ¬ python.Balanced (saferepr (.list []) (some 1) 3)) ∧
    saferepr (.list [.list []]) (some 1) 3 = "[, ...]]".toList ∧
      ¬ python.Balanced (saferepr (.list [.list []]) (some 1) 3) := by
  have hend : next 3 1 [.literal listEnd] = some (.literal listEnd, [], 0) := rfl
  have hstart : next 3 0 [.value (.list [])] =
    some (.literal listStart, [.literal listEnd], 1) := rfl
  have hinner : next 3 1 [.value (.list []), .literal listEnd] =
    some (.literal listStart, [.literal listEnd, .literal listEnd], 2) := rfl
  have houter : next 3 0 [.value (.list [.list []])] =
    some (.literal listStart, [.value (.list []), .literal listEnd], 1) := rfl
  have hempty : saferepr (.list []) (some 1) 3 = "[, ...".toList := by
    rw [saferepr, emit_literal _ hstart, emit_literal _ hend]
    rfl
  have hnested : saferepr (.list [.list []]) (some 1) 3 = "[, ...]]".toList := by
    rw [saferepr, emit_literal _ houter, emit_literal _ hinner]
    rfl
  rw [hempty, hnested]
  decide

end Saferepr
end Celery
