/-
# `celery/utils/collections.py`: `Messagebuffer` and `BufferMap`

The messages of results that nobody waits for yet: `Evictable` (lines 712-734), a
`Messagebuffer` for each key (737-772), and the `BufferMap` of them (809-924), out of which
`ResultConsumer.on_wait_for_pending` of `celery/backends/redis.py` (lines 222-229) pops whole
buffers.

`total` is the number of messages after every call (`exists_run`).  The bounds are another
matter.  A `put` evicts 100 messages at most from its buffer, which the constructor may have
seeded with more, and then takes 100 steps at most to get down to `maxsize`, each of which
passes over 100 empty buffers at most.  A `take` leaves the emptied buffer in the map, and with
10000 of these before the first message a `put` does not come to it (`run_putAndTaken`).  The
bounds hold throughout exactly if no `put` meets either (`run_bounded_iff`).

`BufferMap.extend` is left out, which only tests call.
-/

import Celery.Library.OrderedDict
import Mathlib.Data.List.Induction
import Mathlib.Data.List.TakeWhile
import Mathlib.Tactic.Linarith

namespace Celery

/-! ## `Evictable` -/

/-- What `_pop_to_evict` may raise. -/
inductive EvictError where
  | empty
  | stopIteration
  deriving DecidableEq

section Evictable

variable {σ : Type} (evictcount : σ → ℤ) (maxsize : ℕ) (popToEvict : σ → Except EvictError σ)

/-- `Evictable._evict`, with its limit.  `_evict1` ends it by an `IndexError` once there is no
more than `maxsize`, or nothing to take. -/
def evictFor : ℕ → σ → Except EvictError σ
  | 0, s => .ok s
  | n + 1, s =>
    if evictcount s ≤ maxsize then .ok s
    else
      match popToEvict s with
      | .ok t => evictFor n t
      | .error .empty => .ok s
      | .error .stopIteration => .error .stopIteration

variable {evictcount maxsize popToEvict}

theorem evictFor_of_le {s : σ} (h : evictcount s ≤ maxsize) (n : ℕ) :
    evictFor evictcount maxsize popToEvict n s = .ok s := by
  cases n with
  | zero => rfl
  | succ n => rw [evictFor, if_pos h]

theorem evictFor_of_lt {s t : σ} (h : maxsize < evictcount s) (hpop : popToEvict s = .ok t)
    (n : ℕ) : evictFor evictcount maxsize popToEvict (n + 1) s =
      evictFor evictcount maxsize popToEvict n t := by
  rw [evictFor, if_neg (not_le.mpr h), hpop]

end Evictable

/-! ## `Messagebuffer` -/

/-- `Messagebuffer`.  A `maxsize` of 0 stands for `None` as well: neither is a bound. -/
structure Messagebuffer (V : Type) where
  maxsize : ℕ
  data : List V
  deriving DecidableEq

namespace Messagebuffer

variable {V : Type}

/-- `len(buf)`. -/
def len (b : Messagebuffer V) : ℕ := b.data.length

/-- `Messagebuffer.take`; `none` if there is nothing, where it raises `Empty` or returns the
default. -/
def take (b : Messagebuffer V) : Option (V × Messagebuffer V) :=
  match b.data with
  | [] => none
  | item :: data => some (item, { b with data })

/-- `Messagebuffer._evictcount`. -/
def evictcount (b : Messagebuffer V) : ℤ := b.len

/-- `Messagebuffer._pop_to_evict`. -/
def popToEvict (b : Messagebuffer V) : Except EvictError (Messagebuffer V) :=
  match b.take with
  | none => .error .empty
  | some (_, b) => .ok b

/-- `self.maxsize and self._evict()`. -/
def evict (b : Messagebuffer V) : Except EvictError (Messagebuffer V) :=
  if b.maxsize = 0 then .ok b
  else evictFor (evictcount) b.maxsize popToEvict 100 b

/-- `Messagebuffer.put`. -/
def put (b : Messagebuffer V) (item : V) : Except EvictError (Messagebuffer V) :=
  { b with data := b.data ++ [item] }.evict

/-- `Messagebuffer.extend`. -/
def extend (b : Messagebuffer V) (it : List V) : Except EvictError (Messagebuffer V) :=
  { b with data := b.data ++ it }.evict

theorem of_take {b b' : Messagebuffer V} {item : V} (h : b.take = some (item, b')) :
    b.len = b'.len + 1 ∧ b'.maxsize = b.maxsize := by
  obtain ⟨maxsize, data⟩ := b
  cases data with
  | nil => cases h
  | cons _ data =>
    cases h
    exact ⟨rfl, rfl⟩

theorem len_of_take_eq_none {b : Messagebuffer V} (h : b.take = none) : b.len = 0 := by
  obtain ⟨maxsize, data⟩ := b
  cases data with
  | nil => rfl
  | cons item data => cases h

/-- `_evict` drops the oldest messages, down to `maxsize` if it takes no more steps than it
may. -/
theorem evictFor_eq (maxsize n : ℕ) (b : Messagebuffer V) :
    evictFor (evictcount) maxsize popToEvict n b =
      .ok { b with data := b.data.drop (min n (b.len - maxsize)) } := by
  induction n generalizing b with
  | zero => rw [Nat.zero_min, List.drop_zero, evictFor]
  | succ n ih =>
    obtain ⟨size, data⟩ := b
    rcases Nat.lt_or_ge maxsize data.length with hlt | hle
    · cases data with
      | nil => exact absurd hlt (Nat.not_lt_zero _)
      | cons item data =>
        have hover : (maxsize : ℤ) < evictcount ⟨size, item :: data⟩ := Nat.cast_lt.mpr hlt
        have hpop : popToEvict ⟨size, item :: data⟩ = .ok ⟨size, data⟩ := rfl
        have hmin : min (n + 1) ((item :: data).length - maxsize)
            = min n (data.length - maxsize) + 1 := by
          rw [List.length_cons] at hlt ⊢
          omega
        rw [evictFor_of_lt hover hpop, ih]
        simp only [len]
        rw [hmin, List.drop_succ_cons]
    · have hunder : evictcount ⟨size, data⟩ ≤ maxsize := Nat.cast_le.mpr hle
      rw [evictFor_of_le hunder]
      simp only [len]
      rw [Nat.sub_eq_zero_of_le hle, Nat.min_zero, List.drop_zero]

/-- What `_evict` leaves of a buffer with a bound. -/
theorem evict_spec {b : Messagebuffer V} (h : 0 < b.maxsize) :
    ∃ b', b.evict = .ok b' ∧ b'.maxsize = b.maxsize ∧
      b'.len = b.len - min 100 (b.len - b.maxsize) := by
  refine ⟨{ b with data := b.data.drop (min 100 (b.len - b.maxsize)) }, ?_, rfl,
    List.length_drop⟩
  rw [evict, if_neg h.ne', evictFor_eq]

end Messagebuffer

/-! ## `BufferMap` -/

/-- `BufferMap`, the least recently used key first. -/
structure BufferMap (K V : Type) where
  buffers : OrderedDict K (Messagebuffer V)
  maxsize : ℕ
  bufmaxsize : ℕ
  total : ℤ

namespace BufferMap

variable {K V : Type} [DecidableEq K]

/-- `_get_or_create_buffer`.  That the new buffer is in the map is seen from what is done with
it. -/
def getOrCreateBuffer (m : BufferMap K V) (key : K) : Messagebuffer V :=
  (m.buffers.get? key).getD ⟨m.bufmaxsize, []⟩

/-- `_pop_to_evict`, of which `n` rounds are left.  `_LRUkey` raises a `StopIteration` if there
is no key. -/
def popToEvict : ℕ → BufferMap K V → Except EvictError (BufferMap K V)
  | 0, m => .ok m
  | n + 1, m =>
    match m.buffers.items with
    | [] => .error .stopIteration
    | (key, buf) :: _ =>
      match buf.take with
      | none => popToEvict n { m with buffers := m.buffers.pop key }
      | some (_, buf) =>
        .ok { m with
          total := m.total - 1
          buffers := if buf.len = 0 then m.buffers.pop key else m.buffers.setLast key buf }

/-- `_evict`, with its limit. -/
def evict (limit : ℕ) (m : BufferMap K V) : Except EvictError (BufferMap K V) :=
  evictFor total m.maxsize (popToEvict 100) limit m

/-- `BufferMap.put`. -/
def put (m : BufferMap K V) (key : K) (item : V) : Except EvictError (BufferMap K V) := do
  let buf := m.getOrCreateBuffer key
  let buf' ← buf.put item
  let m' := { m with
    total := m.total + (buf'.len - buf.len)
    buffers := m.buffers.setLast key buf' }
  if m.maxsize = 0 then .ok m' else m'.evict 100

/-- `BufferMap.take`; the item is `none` where it raises `Empty` or returns the default. -/
def take (m : BufferMap K V) (key : K) : Option V × BufferMap K V :=
  match m.buffers.get? key with
  | none => (none, m)
  | some buf =>
    match buf.take with
    | none => (none, m)
    | some (item, buf) =>
      (some item, { m with total := m.total - 1, buffers := m.buffers.setLast key buf })

/-- What `on_wait_for_pending` does for a task that succeeded or failed. -/
def popPending (m : BufferMap K V) (key : K) : BufferMap K V :=
  match m.buffers.get? key with
  | none => m
  | some buf => { m with buffers := m.buffers.pop key, total := m.total - buf.len }

/-- One step of the loop of `BufferMap.__init__`. -/
def seed (m : BufferMap K V) (entry : K × List V) : Except EvictError (BufferMap K V) := do
  let buf ← (m.getOrCreateBuffer entry.1).extend entry.2
  .ok { m with buffers := m.buffers.setLast entry.1 buf }

/-- How many messages there are. -/
def count (m : BufferMap K V) : ℕ := m.buffers.weight Messagebuffer.len

/-- How many messages and keys there are. -/
def size (m : BufferMap K V) : ℕ := m.buffers.weight fun buf => buf.len + 1

/-- `BufferMap(maxsize, iterable, bufmaxsize)`.  Its `evict()` has no limit, and ends within as
many steps as there are messages and keys (`Sound.evict_all`). -/
def create (maxsize bufmaxsize : ℕ) (iterable : OrderedDict K (List V)) :
    Except EvictError (BufferMap K V) := do
  let m ← iterable.items.foldlM seed ⟨.empty, maxsize, bufmaxsize, 0⟩
  let m := { m with total := m.count }
  if maxsize = 0 then .ok m else m.evict m.size

/-- What is done with the map. -/
inductive Call (K V : Type) where
  | put (key : K) (item : V)
  | take (key : K)
  | popPending (key : K)

/-- One call; what `take` returns is left out. -/
def call (m : BufferMap K V) : Call K V → Except EvictError (BufferMap K V)
  | .put key item => m.put key item
  | .take key => .ok (m.take key).2
  | .popPending key => .ok (m.popPending key)

/-- A new map, and calls in turn. -/
def run (maxsize bufmaxsize : ℕ) (iterable : OrderedDict K (List V)) (calls : List (Call K V)) :
    Except EvictError (BufferMap K V) := do
  let m ← create maxsize bufmaxsize iterable
  calls.foldlM call m

/-! ## What eviction leaves -/

/-- `buf` is a buffer of `bufmaxsize`. -/
def HasSize (bufmaxsize : ℕ) (buf : Messagebuffer V) : Prop := buf.maxsize = bufmaxsize

/-- The total is what it is said to be, and every buffer has the size it should have. -/
structure Sound (m : BufferMap K V) : Prop where
  total : m.total = m.count
  sized : ∀ e ∈ m.buffers.items, HasSize m.bufmaxsize e.2

/-- `t` has no key, and no message at a key, that `m` has not. -/
structure Shrinks (m t : BufferMap K V) : Prop where
  sound : m.Sound → t.Sound
  maxsize : t.maxsize = m.maxsize
  bufmaxsize : t.bufmaxsize = m.bufmaxsize
  len_le : ∀ key, (t.getOrCreateBuffer key).len ≤ (m.getOrCreateBuffer key).len
  size_le : t.size ≤ m.size

theorem Shrinks.refl (m : BufferMap K V) : m.Shrinks m :=
  ⟨id, rfl, rfl, fun _ => le_rfl, le_rfl⟩

theorem Shrinks.trans {m t u : BufferMap K V} (h : m.Shrinks t) (h' : t.Shrinks u) :
    m.Shrinks u :=
  ⟨fun hm => h'.sound (h.sound hm), h'.maxsize.trans h.maxsize, h'.bufmaxsize.trans h.bufmaxsize,
    fun key => (h'.len_le key).trans (h.len_le key), h'.size_le.trans h.size_le⟩

/-- How many empty buffers come before the least recently used one that has a message. -/
def idle (buffers : OrderedDict K (Messagebuffer V)) : ℕ :=
  (buffers.items.takeWhile fun e => e.2.len = 0).length

variable {m t : BufferMap K V}

theorem getOrCreateBuffer_of_get? {key : K} {buf : Messagebuffer V}
    (h : m.buffers.get? key = some buf) : m.getOrCreateBuffer key = buf := by
  rw [getOrCreateBuffer, h, Option.getD_some]

/-- The buffers of a map, of which one is popped. -/
theorem getOrCreateBuffer_pop (m : BufferMap K V) (key l : K) (total : ℤ) :
    { m with buffers := m.buffers.pop key, total := total }.getOrCreateBuffer l =
      if l = key then ⟨m.bufmaxsize, []⟩ else m.getOrCreateBuffer l := by
  rw [getOrCreateBuffer, OrderedDict.get?_pop]
  split <;> rfl

/-- The buffers of a map, of which one is set. -/
theorem getOrCreateBuffer_setLast (m : BufferMap K V) (key l : K) (buf : Messagebuffer V)
    (total : ℤ) :
    { m with buffers := m.buffers.setLast key buf, total := total }.getOrCreateBuffer l =
      if l = key then buf else m.getOrCreateBuffer l := by
  rw [getOrCreateBuffer, OrderedDict.get?_setLast]
  split <;> rfl

theorem maxsize_getOrCreateBuffer (h : ∀ e ∈ m.buffers.items, HasSize m.bufmaxsize e.2)
    (key : K) : (m.getOrCreateBuffer key).maxsize = m.bufmaxsize := by
  rw [getOrCreateBuffer]
  cases hget : m.buffers.get? key with
  | none => rfl
  | some buf => exact h _ (OrderedDict.mem_of_get? hget)

theorem weight_getOrCreateBuffer {f : Messagebuffer V → ℕ} (hf : f ⟨m.bufmaxsize, []⟩ = 0)
    (key : K) : m.buffers.weight f =
      f (m.getOrCreateBuffer key) + (m.buffers.pop key).weight f := by
  rw [OrderedDict.weight_pop _ m.buffers key, getOrCreateBuffer]
  cases m.buffers.get? key with
  | none => rw [Option.getD_none, hf]; rfl
  | some buf => rfl

/-- **Popping a buffer**, where the total is adjusted by its length. -/
theorem shrinks_pop {key : K} {buf : Messagebuffer V} (hget : m.buffers.get? key = some buf)
    {n : ℤ} (htotal : n = m.total - buf.len) :
    m.Shrinks { m with buffers := m.buffers.pop key, total := n } ∧
      size { m with buffers := m.buffers.pop key, total := n } < m.size := by
  have hcount := OrderedDict.weight_pop Messagebuffer.len m.buffers key
  have hsize := OrderedDict.weight_pop (fun buf : Messagebuffer V => buf.len + 1) m.buffers key
  rw [hget, Option.map_some, Option.getD_some] at hcount hsize
  have hlt : size { m with buffers := m.buffers.pop key, total := n } < m.size := by
    simp only [size]
    omega
  refine ⟨⟨fun h => ⟨?_, ?_⟩, rfl, rfl, fun l => ?_, hlt.le⟩, hlt⟩
  · have hsound := h.total
    simp only [count] at hsound ⊢
    omega
  · exact OrderedDict.forall_pop (P := HasSize m.bufmaxsize) h.sized key
  · rw [getOrCreateBuffer_pop]
    split
    · exact Nat.zero_le _
    · exact le_rfl

/-- **Taking a message** from a buffer, where the total is adjusted by one. -/
theorem shrinks_take {key : K} {item : V} {buf buf' : Messagebuffer V}
    (hget : m.buffers.get? key = some buf) (htake : buf.take = some (item, buf')) :
    m.Shrinks { m with buffers := m.buffers.setLast key buf', total := m.total - 1 } ∧
      size { m with buffers := m.buffers.setLast key buf', total := m.total - 1 } < m.size := by
  have hcount := OrderedDict.weight_pop Messagebuffer.len m.buffers key
  have hsize := OrderedDict.weight_pop (fun buf : Messagebuffer V => buf.len + 1) m.buffers key
  rw [hget, Option.map_some, Option.getD_some] at hcount hsize
  obtain ⟨hlen, hmaxsize⟩ := Messagebuffer.of_take htake
  have hlt : size { m with buffers := m.buffers.setLast key buf', total := m.total - 1 }
      < m.size := by
    simp only [size, OrderedDict.weight_setLast]
    omega
  refine ⟨⟨fun h => ⟨?_, ?_⟩, rfl, rfl, fun l => ?_, hlt.le⟩, hlt⟩
  · have hsound := h.total
    simp only [count, OrderedDict.weight_setLast] at hsound ⊢
    omega
  · have hbuf := hmaxsize.trans (h.sized _ (OrderedDict.mem_of_get? hget))
    exact OrderedDict.forall_setLast (P := HasSize m.bufmaxsize) h.sized key hbuf
  · rw [getOrCreateBuffer_setLast]
    split
    next hl =>
      rw [hl, getOrCreateBuffer_of_get? hget]
      omega
    · exact le_rfl

/-! ## What `_pop_to_evict` takes -/

omit [DecidableEq K] in
/-- A map with a message has a first key. -/
theorem exists_items_eq_cons (h : 0 < m.count) :
    ∃ key buf rest, m.buffers.items = (key, buf) :: rest := by
  cases hitems : m.buffers.items with
  | nil =>
    rw [count, OrderedDict.weight, hitems] at h
    exact absurd h (Nat.lt_irrefl 0)
  | cons e rest => exact ⟨e.1, e.2, rest, rfl⟩

/-- **`_pop_to_evict` takes a message** if fewer buffers are empty than it may pass over, and
otherwise drops as many of these. -/
theorem Sound.popToEvict_spec (h : m.Sound) (hpos : 0 < m.total) (n : ℕ) :
    ∃ t, popToEvict n m = .ok t ∧ m.Shrinks t ∧ (0 < n → t.size < m.size) ∧
      (idle m.buffers < n → t.total = m.total - 1) ∧
      (n ≤ idle m.buffers → t.total = m.total ∧ idle t.buffers = idle m.buffers - n) := by
  induction n generalizing m with
  | zero =>
    exact ⟨m, rfl, .refl m, fun h => absurd h (Nat.lt_irrefl 0),
      fun h => absurd h (Nat.not_lt_zero _), fun _ => ⟨rfl, rfl⟩⟩
  | succ n ih =>
    have hcount : 0 < m.count := by
      have htotal := h.total
      omega
    obtain ⟨key, buf, rest, hitems⟩ := exists_items_eq_cons hcount
    have hget := OrderedDict.get?_of_items_eq_cons hitems
    rw [popToEvict, hitems]
    dsimp only
    cases htake : buf.take with
    | none =>
      have hlen := Messagebuffer.len_of_take_eq_none htake
      obtain ⟨hpop, hsize⟩ := shrinks_pop hget (n := m.total) (by rw [hlen]; simp)
      have hidle : idle m.buffers = idle (m.buffers.pop key) + 1 := by
        rw [idle, idle, hitems, OrderedDict.items_pop_of_items_eq_cons hitems]
        simp [hlen]
      obtain ⟨t, ht, hshrinks, -, hlt, hge⟩ := ih (hpop.sound h) hpos
      refine ⟨t, ht, hpop.trans hshrinks, fun _ => hshrinks.size_le.trans_lt hsize, ?_, ?_⟩
      · exact fun hi => hlt (by simp only; omega)
      · intro hi
        obtain ⟨htotal, hrest⟩ := hge (by simp only; omega)
        exact ⟨htotal, by rw [hrest]; simp only; omega⟩
    | some taken =>
      obtain ⟨item, buf'⟩ := taken
      obtain ⟨hlen, -⟩ := Messagebuffer.of_take htake
      have hidle : idle m.buffers = 0 := by
        rw [idle, hitems]
        simp [hlen]
      dsimp only
      split
      next hempty =>
        obtain ⟨hshrinks, hlt⟩ := shrinks_pop hget (n := m.total - 1) (by rw [hlen, hempty]; simp)
        exact ⟨_, rfl, hshrinks, fun _ => hlt, fun _ => rfl, fun hi => absurd hi (by omega)⟩
      next hne =>
        obtain ⟨hshrinks, hlt⟩ := shrinks_take hget htake
        exact ⟨_, rfl, hshrinks, fun _ => hlt, fun _ => rfl, fun hi => absurd hi (by omega)⟩

theorem evict_of_le (h : m.total ≤ m.maxsize) (n : ℕ) : m.evict n = .ok m := evictFor_of_le h n

theorem evict_succ (h : m.maxsize < m.total) (hpop : popToEvict 100 m = .ok t)
    (hmaxsize : t.maxsize = m.maxsize) (n : ℕ) : m.evict (n + 1) = t.evict n := by
  rw [evict, evictFor_of_lt h hpop, evict, hmaxsize]

/-- **Eviction returns**, whatever its limit. -/
theorem Sound.exists_evict (h : m.Sound) (n : ℕ) : ∃ t, m.evict n = .ok t ∧ m.Shrinks t := by
  induction n generalizing m with
  | zero => exact ⟨m, rfl, .refl m⟩
  | succ n ih =>
    rcases le_or_gt m.total m.maxsize with hle | hlt
    · exact ⟨m, evict_of_le hle _, .refl m⟩
    · obtain ⟨t, hpop, hshrinks, -⟩ := h.popToEvict_spec (by omega) 100
      obtain ⟨u, hu, hrest⟩ := ih (hshrinks.sound h)
      exact ⟨u, (evict_succ hlt hpop hshrinks.maxsize n).trans hu, hshrinks.trans hrest⟩

/-- **The unlimited `evict()`** gets down to `maxsize`. -/
theorem Sound.evict_all (h : m.Sound) (n : ℕ) (hn : m.size ≤ n) :
    ∃ t, m.evict n = .ok t ∧ m.Shrinks t ∧ t.total ≤ t.maxsize := by
  induction n generalizing m with
  | zero =>
    have hle : m.total ≤ m.maxsize := by
      by_contra hgt
      obtain ⟨t, -, -, hsize, -⟩ := h.popToEvict_spec (by omega) 100
      have hdecrease := hsize (by omega)
      omega
    exact ⟨m, rfl, .refl m, hle⟩
  | succ n ih =>
    rcases le_or_gt m.total m.maxsize with hle | hlt
    · exact ⟨m, evict_of_le hle _, .refl m, hle⟩
    · obtain ⟨t, hpop, hshrinks, hsize, -⟩ := h.popToEvict_spec (by omega) 100
      have hdecrease := hsize (by omega)
      obtain ⟨u, hu, hrest, hle⟩ := ih (hshrinks.sound h) (by omega)
      exact ⟨u, (evict_succ hlt hpop hshrinks.maxsize n).trans hu, hshrinks.trans hrest, hle⟩

/-- **The limited `_evict`** takes the one message that is too many exactly if its steps get
past the empty buffers. -/
theorem Sound.evict_total_le_iff (h : m.Sound) (hover : m.total = m.maxsize + 1) (n : ℕ) :
    ∃ t, m.evict n = .ok t ∧ m.Shrinks t ∧
      (t.total ≤ t.maxsize ↔ idle m.buffers < 100 * n) := by
  induction n generalizing m with
  | zero => exact ⟨m, rfl, .refl m, by omega⟩
  | succ n ih =>
    obtain ⟨t, hpop, hshrinks, -, hlt, hge⟩ := h.popToEvict_spec (by omega) 100
    rw [evict_succ (by omega) hpop hshrinks.maxsize]
    have hmaxsize := hshrinks.maxsize
    rcases Nat.lt_or_ge (idle m.buffers) 100 with hfew | hmany
    · have htotal := hlt hfew
      have hle : t.total ≤ t.maxsize := by omega
      exact ⟨t, evict_of_le hle n, hshrinks, by omega⟩
    · obtain ⟨htotal, hidle⟩ := hge hmany
      obtain ⟨u, hu, hrest, hiff⟩ := ih (hshrinks.sound h) (by omega)
      exact ⟨u, hu, hshrinks.trans hrest, hiff.trans (by omega)⟩

/-! ## What `put` leaves -/

/-- What is to hold after a `put` at `key`. -/
structure Bounded (m : BufferMap K V) (key : K) : Prop where
  total_le : m.total ≤ m.maxsize
  len_le : (m.getOrCreateBuffer key).len ≤ m.bufmaxsize

/-- **When a `put` at `key` keeps the bounds**: no more messages are above the size of the
buffer than a `put` evicts, and there is room for one more, or one of this buffer goes, or the
empty buffers before the first message are few enough. -/
def Fits (m : BufferMap K V) (key : K) : Prop :=
  (m.getOrCreateBuffer key).len ≤ m.bufmaxsize + 99 ∧
    (m.total < m.maxsize ∨ m.bufmaxsize ≤ (m.getOrCreateBuffer key).len ∨
      idle (m.buffers.pop key) < 10000)

/-- What holds between the calls, whatever they are. -/
structure Accounted (m : BufferMap K V) : Prop extends Sound m where
  maxsize_pos : 0 < m.maxsize
  bufmaxsize_pos : 0 < m.bufmaxsize

/-- What holds between the calls, as long as every `put` keeps the bounds. -/
structure Within (m : BufferMap K V) : Prop extends Accounted m where
  total_le : m.total ≤ m.maxsize

theorem Accounted.of_shrinks (h : m.Accounted) (hshrinks : m.Shrinks t) : t.Accounted :=
  ⟨hshrinks.sound h.toSound, hshrinks.maxsize ▸ h.maxsize_pos,
    hshrinks.bufmaxsize ▸ h.bufmaxsize_pos⟩

/-- Setting a buffer, where the total is adjusted by what it got longer. -/
theorem Sound.setLast (h : m.Sound) (key : K) {buf : Messagebuffer V}
    (hsize : HasSize m.bufmaxsize buf) :
    Sound { m with
      total := m.total + (buf.len - (m.getOrCreateBuffer key).len)
      buffers := m.buffers.setLast key buf } := by
  have hcount : m.count = _ := weight_getOrCreateBuffer rfl key
  have hsound := h.total
  refine ⟨?_, OrderedDict.forall_setLast h.sized key hsize⟩
  simp only [count, OrderedDict.weight_setLast] at hcount hsound ⊢
  omega

/-- A buffer with a message at the end is not passed over. -/
theorem idle_setLast (buffers : OrderedDict K (Messagebuffer V)) (key : K)
    {buf : Messagebuffer V} (h : 0 < buf.len) :
    idle (buffers.setLast key buf) = idle (buffers.pop key) := by
  rw [idle, OrderedDict.items_setLast, List.takeWhile_append]
  split
  next hall =>
    rw [List.takeWhile_cons_of_neg (by simpa using h.ne'), List.append_nil, idle, hall]
  · rfl

/-- **A `put`** is an eviction from what it leaves first: at `key` the buffer is one longer, or
shorter by as much as was evicted from it. -/
theorem Accounted.exists_put (h : m.Accounted) (key : K) (item : V) :
    ∃ buf, m.put key item =
        evict 100 { m with
          total := m.total + (buf.len - (m.getOrCreateBuffer key).len)
          buffers := m.buffers.setLast key buf } ∧
      HasSize m.bufmaxsize buf ∧
      buf.len = (m.getOrCreateBuffer key).len + 1 -
        min 100 ((m.getOrCreateBuffer key).len + 1 - m.bufmaxsize) := by
  have hsize := maxsize_getOrCreateBuffer h.sized key
  set old := m.getOrCreateBuffer key with hold
  obtain ⟨buf, hput, hsame, hlen⟩ :=
    Messagebuffer.evict_spec (b := { old with data := old.data ++ [item] })
      (hsize ▸ h.bufmaxsize_pos)
  have hgrown : Messagebuffer.len { old with data := old.data ++ [item] } = old.len + 1 :=
    List.length_append
  refine ⟨buf, ?_, hsame.trans hsize, ?_⟩
  · rw [put, ← hold, Messagebuffer.put, hput]
    exact if_neg h.maxsize_pos.ne'
  · rw [hlen, hgrown, ← hsize]

/-- A `put` returns, and the total is right. -/
theorem Accounted.put (h : m.Accounted) (key : K) (item : V) :
    ∃ t, m.put key item = .ok t ∧ t.Accounted := by
  obtain ⟨buf, hput, hsize, -⟩ := h.exists_put key item
  have hsound := h.toSound.setLast key hsize
  obtain ⟨t, ht, hshrinks⟩ := hsound.exists_evict 100
  have hnew : Accounted _ := ⟨hsound, h.maxsize_pos, h.bufmaxsize_pos⟩
  exact ⟨t, hput.trans ht, hnew.of_shrinks hshrinks⟩

/-- **A `put` keeps the bounds exactly if it `Fits`.** -/
theorem Within.put_bounded_iff (h : m.Within) {key : K} {item : V}
    (hput : m.put key item = .ok t) : t.Bounded key ↔ m.Fits key := by
  have htotal := h.total_le
  have hpos := h.bufmaxsize_pos
  obtain ⟨buf, heq, hsize, hlen⟩ := h.exists_put key item
  have hsound := h.toSound.setLast key hsize
  rw [heq] at hput
  clear heq
  rw [Fits]
  set old := m.getOrCreateBuffer key
  set m' : BufferMap K V := { m with
    total := m.total + (buf.len - old.len)
    buffers := m.buffers.setLast key buf } with hm'
  have hkey : m'.getOrCreateBuffer key = buf := by
    rw [hm', getOrCreateBuffer_setLast, if_pos rfl]
  have hnew : m'.total = m.total + (buf.len - old.len) := rfl
  have hcap : m'.maxsize = m.maxsize ∧ m'.bufmaxsize = m.bufmaxsize := ⟨rfl, rfl⟩
  by_cases hroom : old.len < m.bufmaxsize ∧ m.total = m.maxsize
  · -- one message is too many, and the buffer is within its bound
    obtain ⟨u, hu, hshrinks, hiff⟩ := hsound.evict_total_le_iff (by omega) 100
    obtain rfl : t = u := Except.ok.inj (hput.symm.trans hu)
    have hidle : idle m'.buffers = idle (m.buffers.pop key) := idle_setLast _ key (by omega)
    have hle := hkey ▸ hshrinks.len_le key
    constructor
    · intro hbounded
      exact ⟨by omega, .inr (.inr (hidle ▸ hiff.mp hbounded.total_le))⟩
    · rintro ⟨-, hlt | hfull | hfew⟩
      · omega
      · omega
      · refine ⟨hiff.mpr (hidle ▸ hfew), ?_⟩
        rw [hshrinks.bufmaxsize]
        omega
  · -- no message is too many
    have hle : m'.total ≤ m'.maxsize := by omega
    obtain rfl : t = m' := Except.ok.inj (hput.symm.trans (evict_of_le hle 100))
    constructor
    · intro hbounded
      have hlen_le := hkey ▸ hbounded.len_le
      have hcases : m.total < m.maxsize ∨ m.bufmaxsize ≤ old.len := by omega
      exact ⟨by omega, hcases.imp_right .inl⟩
    · rintro ⟨hlong, -⟩
      refine ⟨hle, ?_⟩
      rw [hkey]
      omega

/-! ## Every run -/

/-- `take` and `popPending` only take messages. -/
theorem take_shrinks (m : BufferMap K V) (key : K) :
    m.Shrinks (m.take key).2 ∧ (m.take key).2.total ≤ m.total := by
  rw [take]
  split
  · exact ⟨.refl m, le_rfl⟩
  next buf hget =>
    split
    · exact ⟨.refl m, le_rfl⟩
    next item buf' htake => exact ⟨(shrinks_take hget htake).1, by simp only; omega⟩

theorem popPending_shrinks (m : BufferMap K V) (key : K) :
    m.Shrinks (m.popPending key) ∧ (m.popPending key).total ≤ m.total := by
  rw [popPending]
  split
  · exact ⟨.refl m, le_rfl⟩
  next buf hget => exact ⟨(shrinks_pop hget rfl).1, by simp only; omega⟩

theorem Accounted.call (h : m.Accounted) (c : Call K V) :
    ∃ t, m.call c = .ok t ∧ t.Accounted := by
  cases c with
  | put key item => exact h.put key item
  | take key => exact ⟨_, rfl, h.of_shrinks (m.take_shrinks key).1⟩
  | popPending key => exact ⟨_, rfl, h.of_shrinks (m.popPending_shrinks key).1⟩

/-- A call keeps within `maxsize`, if it does so as a `put`. -/
theorem Within.call (h : m.Within) {c : Call K V} (hcall : m.call c = .ok t)
    (hput : ∀ key item, c = .put key item → t.Bounded key) : t.Within := by
  obtain ⟨u, hu, haccounted⟩ := h.toAccounted.call c
  obtain rfl : t = u := Except.ok.inj (hcall.symm.trans hu)
  refine ⟨haccounted, ?_⟩
  cases c with
  | put key item => exact (hput key item rfl).total_le
  | take key =>
    obtain rfl := Except.ok.inj hcall
    obtain ⟨hshrinks, htotal⟩ := m.take_shrinks key
    rw [hshrinks.maxsize]
    exact htotal.trans h.total_le
  | popPending key =>
    obtain rfl := Except.ok.inj hcall
    obtain ⟨hshrinks, htotal⟩ := m.popPending_shrinks key
    rw [hshrinks.maxsize]
    exact htotal.trans h.total_le

/-- The seeded buffers have their size. -/
theorem exists_seeded (hpos : 0 < m.bufmaxsize)
    (hsized : ∀ e ∈ m.buffers.items, HasSize m.bufmaxsize e.2) (entries : List (K × List V)) :
    ∃ t, entries.foldlM seed m = .ok t ∧ t.maxsize = m.maxsize ∧ t.bufmaxsize = m.bufmaxsize ∧
      ∀ e ∈ t.buffers.items, HasSize t.bufmaxsize e.2 := by
  induction entries generalizing m with
  | nil => exact ⟨m, rfl, rfl, rfl, hsized⟩
  | cons entry entries ih =>
    have hsize := maxsize_getOrCreateBuffer hsized entry.1
    set old := m.getOrCreateBuffer entry.1 with hold
    obtain ⟨buf, hbuf, hsame, -⟩ :=
      Messagebuffer.evict_spec (b := { old with data := old.data ++ entry.2 }) (hsize ▸ hpos)
    have hseed : seed m entry = .ok { m with buffers := m.buffers.setLast entry.1 buf } := by
      rw [seed, ← hold, Messagebuffer.extend, hbuf]
      rfl
    obtain ⟨t, ht, hrest⟩ := ih (m := { m with buffers := m.buffers.setLast entry.1 buf }) hpos
      (OrderedDict.forall_setLast hsized entry.1 (hsame.trans hsize))
    refine ⟨t, ?_, hrest⟩
    rw [List.foldlM_cons, hseed]
    exact ht

/-- **A new map** is within `maxsize`, whatever it is seeded with. -/
theorem exists_create {maxsize bufmaxsize : ℕ} (hmaxsize : 0 < maxsize)
    (hbufmaxsize : 0 < bufmaxsize) (iterable : OrderedDict K (List V)) :
    ∃ m, create maxsize bufmaxsize iterable = .ok m ∧ m.Within := by
  obtain ⟨m, hm, hmax, hbufmax, hsized⟩ :=
    exists_seeded (m := ⟨.empty, maxsize, bufmaxsize, 0⟩) hbufmaxsize (by simp) iterable.items
  have hsound : Sound { m with total := m.count } := ⟨rfl, hsized⟩
  obtain ⟨t, ht, hshrinks, hle⟩ := hsound.evict_all m.size le_rfl
  refine ⟨t, ?_, ⟨⟨hshrinks.sound hsound, ?_, ?_⟩, hle⟩⟩
  · rw [create, hm]
    exact (if_neg hmaxsize.ne').trans ht
  · rw [hshrinks.maxsize]
    exact hmax ▸ hmaxsize
  · rw [hshrinks.bufmaxsize]
    exact hbufmax ▸ hbufmaxsize

section Run

variable {maxsize bufmaxsize : ℕ} (hmaxsize : 0 < maxsize) (hbufmaxsize : 0 < bufmaxsize)
  (iterable : OrderedDict K (List V))

theorem run_concat (calls : List (Call K V)) (c : Call K V)
    (hrun : run maxsize bufmaxsize iterable calls = .ok m) :
    run maxsize bufmaxsize iterable (calls ++ [c]) = m.call c := by
  rw [run] at hrun ⊢
  cases hcreate : create maxsize bufmaxsize iterable with
  | error e =>
    rw [hcreate] at hrun
    cases hrun
  | ok m₀ =>
    rw [hcreate] at hrun
    have hfold : calls.foldlM call m₀ = .ok m := hrun
    have hboth : (calls ++ [c]).foldlM call m₀ = m.call c := by
      rw [List.foldlM_append, hfold]
      exact bind_pure (m.call c)
    exact hboth

include hmaxsize hbufmaxsize in
/-- **The total is right after every call.** -/
theorem exists_run (calls : List (Call K V)) :
    ∃ m, run maxsize bufmaxsize iterable calls = .ok m ∧ m.Accounted := by
  induction calls using List.reverseRecOn with
  | nil =>
    obtain ⟨m, hm, hwithin⟩ := exists_create hmaxsize hbufmaxsize iterable
    refine ⟨m, ?_, hwithin.toAccounted⟩
    rw [run, hm]
    rfl
  | append_singleton calls c ih =>
    obtain ⟨m, hm, haccounted⟩ := ih
    rw [run_concat iterable calls c hm]
    exact haccounted.call c

include hmaxsize hbufmaxsize in
/-- A run is within `maxsize` as long as every `put` from within it is. -/
theorem exists_within (calls : List (Call K V))
    (hput : ∀ as key item bs m t, calls = as ++ .put key item :: bs →
      run maxsize bufmaxsize iterable as = .ok m → m.Within → m.put key item = .ok t →
      t.Bounded key) :
    ∃ m, run maxsize bufmaxsize iterable calls = .ok m ∧ m.Within := by
  induction calls using List.reverseRecOn with
  | nil =>
    obtain ⟨m, hm, hwithin⟩ := exists_create hmaxsize hbufmaxsize iterable
    refine ⟨m, ?_, hwithin⟩
    rw [run, hm]
    rfl
  | append_singleton calls c ih =>
    obtain ⟨m, hm, hwithin⟩ := ih fun as key item bs m t heq => by
      refine hput as key item (bs ++ [c]) m t ?_
      rw [heq, List.append_assoc, List.cons_append]
    rw [run_concat iterable calls c hm]
    obtain ⟨t, ht, -⟩ := hwithin.toAccounted.call c
    refine ⟨t, ht, hwithin.call ht ?_⟩
    rintro key item rfl
    exact hput calls key item [] m t rfl hm hwithin ht

end Run

/-! ## Buffers left behind -/

/-- A `put` into a new buffer, with room for it. -/
theorem put_of_room (hpos : 0 < m.maxsize) (hbufpos : 0 < m.bufmaxsize)
    (hroom : m.total < m.maxsize) {key : K} (hget : m.buffers.get? key = none) (item : V) :
    m.put key item = .ok { m with
      total := m.total + 1
      buffers := m.buffers.setLast key ⟨m.bufmaxsize, [item]⟩ } := by
  have hone : Messagebuffer.evictcount (⟨m.bufmaxsize, [item]⟩ : Messagebuffer V)
      ≤ m.bufmaxsize := Nat.cast_le.mpr hbufpos
  have hput : (⟨m.bufmaxsize, []⟩ : Messagebuffer V).put item = .ok ⟨m.bufmaxsize, [item]⟩ :=
    (if_neg hbufpos.ne').trans (evictFor_of_le hone 100)
  rw [put, getOrCreateBuffer, hget, Option.getD_none, hput]
  exact (if_neg hpos.ne').trans (evict_of_le (by simp only [Messagebuffer.len]; simp; omega) 100)

/-- A message is put at each of the keys below `n`, and taken at once. -/
def putAndTaken : ℕ → List (Call ℕ Unit)
  | 0 => []
  | n + 1 => putAndTaken n ++ [.put n (), .take n]

/-- One empty buffer at each of the keys below `n`. -/
def emptied (n : ℕ) : List (ℕ × Messagebuffer Unit) :=
  (List.range n).map fun k => (k, ⟨1000, []⟩)

theorem get?_of_emptied {d : OrderedDict ℕ (Messagebuffer Unit)} {n k : ℕ}
    (h : d.items = emptied n) (hk : n ≤ k) : d.get? k = none := by
  rw [OrderedDict.get?, h, emptied, List.lookup_eq_none_iff]
  simp only [List.mem_map, List.mem_range]
  rintro _ ⟨l, hl, rfl⟩
  exact bne_iff_ne.mpr (hl.trans_le hk).ne'

/-- **The emptied buffers stay in the map.** -/
theorem run_putAndTaken (n : ℕ) :
    ∃ m, run 1 1000 .empty (putAndTaken n) = .ok m ∧ m.maxsize = 1 ∧ m.bufmaxsize = 1000 ∧
      m.total = 0 ∧ m.buffers.items = emptied n := by
  induction n with
  | zero => exact ⟨⟨.empty, 1, 1000, 0⟩, rfl, rfl, rfl, rfl, rfl⟩
  | succ n ih =>
    obtain ⟨m, hm, hmaxsize, hbufmaxsize, htotal, hitems⟩ := ih
    have hget := get?_of_emptied hitems le_rfl
    have hput := put_of_room (by omega) (by omega) (by omega) hget ()
    have htake := (m.buffers.get?_setLast n n ⟨m.bufmaxsize, [()]⟩).trans (if_pos rfl)
    refine ⟨{ m with
      total := m.total + 1 - 1
      buffers := m.buffers.setLast n ⟨m.bufmaxsize, []⟩ }, ?_, hmaxsize, hbufmaxsize, ?_, ?_⟩
    · have hcons : putAndTaken (n + 1) = (putAndTaken n ++ [.put n ()]) ++ [.take n] := by
        rw [putAndTaken, List.append_assoc, List.cons_append, List.nil_append]
      rw [hcons, run_concat _ _ _ ((run_concat _ _ (.put n ()) hm).trans hput), call, take]
      simp only [htake, Messagebuffer.take, OrderedDict.setLast_setLast]
    · simp only
      omega
    · simp only [OrderedDict.items_setLast, OrderedDict.pop_of_get?_eq_none hget, hitems,
        hbufmaxsize, emptied, List.range_succ, List.map_append, List.map_singleton]

theorem length_takeWhile_emptied (n : ℕ) :
    ((emptied n).takeWhile fun e => e.2.len = 0).length = n := by
  have hall : ((emptied n).takeWhile fun e => e.2.len = 0) = emptied n := by
    rw [List.takeWhile_eq_self_iff]
    simp [emptied, Messagebuffer.len]
  rw [hall, emptied, List.length_map, List.length_range]

/-- With so many of them, a `put` does not come to the message that is too many. -/
theorem exists_not_bounded {n : ℕ} (hn : 10000 ≤ n) :
    ∃ m, run 1 1000 .empty (putAndTaken n ++ [.put n ()] ++ [.put (n + 1) ()]) = .ok m ∧
      ¬ m.Bounded (n + 1) := by
  obtain ⟨m, hm, hmaxsize, hbufmaxsize, htotal, hitems⟩ := run_putAndTaken n
  have hget := get?_of_emptied hitems le_rfl
  have hput := put_of_room (by omega) (by omega) (by omega) hget ()
  have hrun := (run_concat _ _ (.put n ()) hm).trans hput
  obtain ⟨t, ht, haccounted⟩ := exists_run Nat.one_pos (Nat.succ_pos 999) .empty
    (putAndTaken n ++ [.put n ()])
  obtain rfl := Except.ok.inj (ht.symm.trans hrun)
  have hwithin : Within _ := ⟨haccounted, by simp only; omega⟩
  obtain ⟨u, hu, -⟩ := haccounted.put (n + 1) ()
  refine ⟨u, (run_concat _ _ (.put (n + 1) ()) hrun).trans hu, ?_⟩
  have hnew : (m.buffers.setLast n ⟨m.bufmaxsize, [()]⟩).get? (n + 1) = none := by
    rw [OrderedDict.get?_setLast, if_neg (by omega)]
    exact get?_of_emptied hitems (by omega)
  rw [hwithin.put_bounded_iff hu]
  rintro ⟨-, hroom | hfull | hfew⟩
  · simp only at hroom
    omega
  · rw [getOrCreateBuffer, hnew] at hfull
    exact absurd hfull (by simp [Messagebuffer.len, hbufmaxsize])
  · have hlen : 0 < (⟨m.bufmaxsize, [()]⟩ : Messagebuffer Unit).len := Nat.one_pos
    rw [OrderedDict.pop_of_get?_eq_none hnew, idle_setLast _ _ hlen,
      OrderedDict.pop_of_get?_eq_none hget, idle, hitems, length_takeWhile_emptied] at hfew
    omega

/-! ## The bounds -/

/-- **The bounds hold after every `put` exactly if every `put` fits**, and the total is right
in any case. -/
theorem run_bounded_iff {maxsize bufmaxsize : ℕ} (hmaxsize : 0 < maxsize)
    (hbufmaxsize : 0 < bufmaxsize) (iterable : OrderedDict K (List V)) (calls : List (Call K V)) :
    (∀ as bs, calls = as ++ bs →
        ∃ m, run maxsize bufmaxsize iterable as = .ok m ∧ m.total = m.count) ∧
      ((∀ as key item bs m, calls = as ++ .put key item :: bs →
          run maxsize bufmaxsize iterable (as ++ [.put key item]) = .ok m → m.Bounded key) ↔
        ∀ as key item bs m, calls = as ++ .put key item :: bs →
          run maxsize bufmaxsize iterable as = .ok m → m.Fits key) := by
  refine ⟨fun as bs _ => ?_, fun hbounded as key item bs m heq hrun => ?_,
    fun hfits as key item bs t heq hrun => ?_⟩
  · obtain ⟨m, hm, haccounted⟩ := exists_run hmaxsize hbufmaxsize iterable as
    exact ⟨m, hm, haccounted.total⟩
  · obtain ⟨m', hm', hwithin⟩ := exists_within hmaxsize hbufmaxsize iterable as
      fun as' key' item' bs' m' t heq' hrun' _ ht => by
        refine hbounded as' key' item' (bs' ++ .put key item :: bs) t ?_ ?_
        · rw [heq, heq', List.append_assoc, List.cons_append]
        · rwa [run_concat iterable as' _ hrun']
    obtain rfl : m = m' := Except.ok.inj (hrun.symm.trans hm')
    obtain ⟨t, ht, -⟩ := hwithin.toAccounted.put key item
    refine (hwithin.put_bounded_iff ht).mp (hbounded as key item bs t heq ?_)
    rwa [run_concat iterable as _ hrun]
  · obtain ⟨m, hm, hwithin⟩ := exists_within hmaxsize hbufmaxsize iterable as
      fun as' key' item' bs' m' t heq' hrun' hwithin' ht => by
        refine (hwithin'.put_bounded_iff ht).mpr
          (hfits as' key' item' (bs' ++ .put key item :: bs) m' ?_ hrun')
        rw [heq, heq', List.append_assoc, List.cons_append]
    rw [run_concat iterable as _ hm] at hrun
    exact (hwithin.put_bounded_iff hrun).mpr (hfits as key item bs m heq hm)

instance (m : BufferMap K V) (key : K) : Decidable (m.Fits key) :=
  inferInstanceAs (Decidable ((m.getOrCreateBuffer key).len ≤ m.bufmaxsize + 99 ∧
    (m.total < m.maxsize ∨ m.bufmaxsize ≤ (m.getOrCreateBuffer key).len ∨
      idle (m.buffers.pop key) < 10000)))

/-- A call that is a `put` fits. -/
def fitsCall (m : BufferMap K V) : Call K V → Bool
  | .put key _ => decide (m.Fits key)
  | .take _ => true
  | .popPending _ => true

/-- Whether every `put` fits, from `m` on. -/
def fitsFrom (m : BufferMap K V) : List (Call K V) → Bool
  | [] => true
  | c :: calls => m.fitsCall c && match m.call c with
    | .ok t => t.fitsFrom calls
    | .error _ => true

theorem fits_of_fitsFrom {as bs : List (Call K V)} {key : K} {item : V}
    (h : m.fitsFrom (as ++ .put key item :: bs) = true) (hrun : as.foldlM call m = .ok t) :
    t.Fits key := by
  induction as generalizing m with
  | nil =>
    cases hrun
    rw [List.nil_append, fitsFrom, Bool.and_eq_true] at h
    exact of_decide_eq_true h.1
  | cons c as ih =>
    rw [List.cons_append, fitsFrom, Bool.and_eq_true] at h
    rw [List.foldlM_cons] at hrun
    cases hcall : m.call c with
    | error e =>
      rw [hcall] at hrun
      cases hrun
    | ok u =>
      rw [hcall] at h hrun
      exact ih h.2 hrun

/-- Three messages to one key and two to others, in a map for three with buffers for two: the third
one is too many for its buffer, and the fifth one for the map. -/
def fivePuts : List (Call ℕ ℕ) :=
  [.put 0 10, .put 0 11, .put 0 12, .put 1 13, .put 2 14, .take 1, .put 0 15]

theorem fivePuts_bounded :
    (run 3 2 .empty fivePuts).map (fun m => m.buffers.items.map fun b => (b.1, b.2.data))
        = .ok [(2, [14]), (1, []), (0, [12, 15])] ∧
      ∀ as key item bs m, fivePuts = as ++ .put key item :: bs →
        run 3 2 .empty (as ++ [.put key item]) = .ok m → m.Bounded key := by
  refine ⟨by decide +kernel, (run_bounded_iff (by decide) (by decide) .empty fivePuts).2.mpr
    fun as key item bs m heq hrun => ?_⟩
  have hfits : fitsFrom (⟨.empty, 3, 2, 0⟩ : BufferMap ℕ ℕ) fivePuts = true := by decide +kernel
  rw [heq] at hfits
  exact fits_of_fitsFrom hfits hrun

theorem putAndTaken_not_bounded :
    ∃ m, run 1 1000 .empty (putAndTaken 10000 ++ [.put 10000 ()] ++ [.put 10001 ()]) = .ok m ∧
      ¬ m.Bounded 10001 := exists_not_bounded le_rfl

end BufferMap
end Celery
