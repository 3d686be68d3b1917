/-
# `celery/backends/asynchronous.py`: results that wait for their message

A final meta may arrive before anybody asks for it.  `add_pending_result` takes it from the
buffer then, and registers the result object otherwise (lines 262-278), and `on_state_change`
hands it to the registered object, or buffers it (lines 429-451).  An object goes away through
`remove_pending_result` (lines 285-292), which `AsyncResult._on_fulfilled` and
`AsyncResult.__del__` of `celery/result.py` call (lines 119-121, 444-447), and may come to its
meta by itself, in `_get_task_meta` (lines 470-485).  `iter_native` (lines 230-260) lets the
consumer put the results of a set into a bucket as they arrive.

No task is awaited and buffered at once, and exactly the awaited tasks are consumed from,
whatever is called and in whatever order, and whatever the `BufferMap` of messages evicts
(`sound_of_run`).

`on_message`, the callbacks of a result and the children in a meta are left out, and so are nodes
of `iter_native` that are groups.
-/

import Celery.Backends.Base
import Celery.Utils.BufferMap
import Mathlib.Data.Finset.Basic
import Mathlib.Logic.Function.Basic

namespace Celery

/-- `READY_STATES`. -/
def State.readyStates : List State := [.success, .failure, .revoked]

/-- What a message says of a task. -/
structure Meta (K V : Type) where
  status : State
  taskId : K
  result : V
  deriving DecidableEq

/-- A meta is final. -/
def Meta.ready {K V : Type} (m : Meta K V) : Bool := m.status ∈ State.readyStates

/-! ## Messages of a buffer -/

/-- What every eviction preserves, `_evict` preserves. -/
theorem evictFor_induction {σ : Type} {evictcount : σ → ℤ} {maxsize n : ℕ}
    {popToEvict : σ → Except EvictError σ} {P : σ → Prop}
    (hstep : ∀ s t, P s → popToEvict s = .ok t → P t) {s t : σ} (hs : P s)
    (h : evictFor evictcount maxsize popToEvict n s = .ok t) : P t := by
  induction n generalizing s with
  | zero => exact Except.ok.inj h ▸ hs
  | succ n ih =>
    rw [evictFor] at h
    split at h
    · exact Except.ok.inj h ▸ hs
    · split at h
      next u hu => exact ih (hstep s u hs hu) h
      · exact Except.ok.inj h ▸ hs
      · cases h

theorem Messagebuffer.put_suffix {V : Type} {b b' : Messagebuffer V} {item : V}
    (h : b.put item = .ok b') : b'.data <:+ b.data ++ [item] := by
  rw [Messagebuffer.put, Messagebuffer.evict] at h
  split at h
  · obtain rfl := Except.ok.inj h
    exact List.suffix_rfl
  · rw [Messagebuffer.evictFor_eq] at h
    obtain rfl := Except.ok.inj h
    exact List.drop_suffix _ _

namespace BufferMap

variable {K V : Type} [DecidableEq K] {m t : BufferMap K V}

/-- The messages at a key, the oldest first. -/
def messages (m : BufferMap K V) (key : K) : List V := (m.getOrCreateBuffer key).data

/-- There is room for one more message at `key`. -/
def HasRoom (m : BufferMap K V) (key : K) : Prop :=
  m.total < m.maxsize ∧ (m.messages key).length < m.bufmaxsize

/-- **A `put` with room** adds its message at the end. -/
theorem Accounted.put_of_hasRoom (h : m.Accounted) {key : K} (hroom : m.HasRoom key) (item : V) :
    ∃ t, BufferMap.put m key item = .ok t ∧
      ∀ l, t.messages l = if l = key then m.messages key ++ [item] else m.messages l := by
  set buf := m.getOrCreateBuffer key with hbuf
  have hsize : buf.maxsize = m.bufmaxsize := maxsize_getOrCreateBuffer h.sized key
  have hlong : Messagebuffer.evictcount { buf with data := buf.data ++ [item] }
      ≤ (buf.maxsize : ℤ) := by
    refine Nat.cast_le.mpr ?_
    rw [Messagebuffer.len, List.length_append, List.length_singleton, hsize]
    exact hroom.2
  have hput : buf.put item = .ok { buf with data := buf.data ++ [item] } := by
    rw [Messagebuffer.put, Messagebuffer.evict]
    exact (if_neg (hsize ▸ h.bufmaxsize_pos.ne')).trans (evictFor_of_le hlong 100)
  refine ⟨{ m with
    total := m.total + (Messagebuffer.len { buf with data := buf.data ++ [item] } - buf.len)
    buffers := m.buffers.setLast key { buf with data := buf.data ++ [item] } }, ?_, fun l => ?_⟩
  · rw [BufferMap.put, ← hbuf, hput]
    refine (if_neg h.maxsize_pos.ne').trans (evict_of_le ?_ 100)
    have htotal := hroom.1
    simp only [Messagebuffer.len, List.length_append, List.length_singleton]
    omega
  · rw [messages, getOrCreateBuffer_setLast]
    split <;> rfl

theorem messages_of_get?_eq_none {key : K} (h : m.buffers.get? key = none) :
    m.messages key = [] := by
  rw [messages, getOrCreateBuffer, h]
  rfl

/-- What `take` returns and leaves. -/
theorem take_eq (m : BufferMap K V) (key : K) :
    (m.take key).1 = (m.messages key).head? ∧
      ∀ l, (m.take key).2.messages l =
        if l = key then (m.messages key).tail else m.messages l := by
  -- where there is nothing to take, the map is left as it is
  have hleft : m.messages key = [] →
      ∀ l, m.messages l = if l = key then (m.messages key).tail else m.messages l := by
    intro hnil l
    split
    next hl => rw [hl, hnil, List.tail_nil]
    · rfl
  rw [take]
  cases hget : m.buffers.get? key with
  | none =>
    have hnil := messages_of_get?_eq_none hget
    exact ⟨(congrArg List.head? hnil).symm, hleft hnil⟩
  | some buf =>
    obtain ⟨size, data⟩ := buf
    have hbuf : m.messages key = data := by rw [messages, getOrCreateBuffer_of_get? hget]
    cases data with
    | nil => exact ⟨(congrArg List.head? hbuf).symm, hleft hbuf⟩
    | cons item data =>
      refine ⟨(congrArg List.head? hbuf).symm, fun l => ?_⟩
      rw [hbuf]
      show Messagebuffer.data (getOrCreateBuffer
        { m with total := m.total - 1, buffers := m.buffers.setLast key ⟨size, data⟩ } l) = _
      rw [getOrCreateBuffer_setLast]
      split <;> rfl

/-- What `popPending` leaves. -/
theorem messages_popPending (m : BufferMap K V) (key l : K) :
    (m.popPending key).messages l = if l = key then [] else m.messages l := by
  rw [popPending]
  cases hget : m.buffers.get? key with
  | none =>
    show m.messages l = _
    split
    next hl => rw [hl, messages_of_get?_eq_none hget]
    · rfl
  | some buf =>
    show Messagebuffer.data (getOrCreateBuffer
      { m with buffers := m.buffers.pop key, total := m.total - buf.len } l) = _
    rw [getOrCreateBuffer_pop]
    split <;> rfl

/-- `_pop_to_evict` takes the oldest message of a key. -/
theorem popToEvict_suffix {n : ℕ} (h : popToEvict n m = .ok t) (key : K) :
    t.messages key <:+ m.messages key := by
  induction n generalizing m with
  | zero =>
    obtain rfl := Except.ok.inj h
    exact List.suffix_rfl
  | succ n ih =>
    rw [popToEvict] at h
    cases hitems : m.buffers.items with
    | nil =>
      rw [hitems] at h
      cases h
    | cons e rest =>
      obtain ⟨k, ⟨size, data⟩⟩ := e
      have hget := OrderedDict.get?_of_items_eq_cons hitems
      have hbuf : m.messages k = data := by rw [messages, getOrCreateBuffer_of_get? hget]
      have hpop : ∀ total, messages { m with buffers := m.buffers.pop k, total := total } key <:+
          m.messages key := fun total => by
        rw [messages, getOrCreateBuffer_pop]
        split
        · exact List.nil_suffix
        · exact List.suffix_rfl
      rw [hitems] at h
      cases data with
      | nil => exact (ih h).trans (hpop m.total)
      | cons item data =>
        obtain rfl := Except.ok.inj h
        dsimp only
        split
        · exact hpop (m.total - 1)
        · show Messagebuffer.data (getOrCreateBuffer
            { m with total := m.total - 1, buffers := m.buffers.setLast k ⟨size, data⟩ } key) <:+ _
          rw [getOrCreateBuffer_setLast]
          split
          next hk =>
            rw [hk, hbuf]
            exact List.suffix_cons item data
          · exact List.suffix_rfl

/-- **A `put`, whatever it evicts**, adds its message at the end, and takes the oldest ones. -/
theorem put_suffix {key : K} {item : V} (h : m.put key item = .ok t) (l : K) :
    t.messages l <:+ if l = key then m.messages key ++ [item] else m.messages l := by
  set buf := m.getOrCreateBuffer key with hbuf
  cases hput : buf.put item with
  | error e =>
    rw [put, ← hbuf, hput] at h
    cases h
  | ok buf' =>
    rw [put, ← hbuf, hput] at h
    set m' : BufferMap K V := { m with
      total := m.total + (buf'.len - buf.len)
      buffers := m.buffers.setLast key buf' } with hm'
    have hm'_suffix : m'.messages l <:+
        if l = key then m.messages key ++ [item] else m.messages l := by
      rw [messages, hm', getOrCreateBuffer_setLast]
      split
      · exact Messagebuffer.put_suffix hput
      · exact List.suffix_rfl
    have hcases : (if m'.maxsize = 0 then .ok m' else m'.evict 100) = .ok t := h
    split at hcases
    · obtain rfl := Except.ok.inj hcases
      exact hm'_suffix
    · exact evictFor_induction (fun s u hs hu => (popToEvict_suffix hu l).trans hs) hm'_suffix
        hcases

end BufferMap

/-! ## The client -/

namespace AsyncBackend

/-- What `AsyncBackendMixin`, its result consumer and the result objects `R` hold: the two maps
of `_pending_results`, `_pending_messages`, the tasks that are consumed from, the `_cache` of each
object, and the buckets, with all that was ever put into each. -/
structure Client (K R V B : Type) where
  concrete : OrderedDict K R
  weak : OrderedDict K R
  pendingMessages : BufferMap K (Meta K V)
  subscribedTo : Finset K
  cache : R → Option (Meta K V)
  buckets : OrderedDict K B
  contents : B → List R

/-- What is called: `_get_task_meta` with the meta that `get_task_meta` of the backend returns,
`remove_pending_result` also as an object goes away, and `forget` as the backend drops what it
buffered for a task. -/
inductive Event (K R V B : Type) where
  | addPendingResult (result : R) (weak : Bool)
  | onStateChange (meta_ : Meta K V)
  | getTaskMeta (result : R) (meta_ : Meta K V)
  | removePendingResult (result : R)
  | forget (taskId : K)
  | iterNative (results : List R) (bucket : B)

variable {K R V B : Type} [DecidableEq K]

namespace Client

section Calls

variable [DecidableEq R] [DecidableEq B] (id : R → K)

/-- Nothing is awaited yet.  A backend has room for 8192 messages, 1000 for each task. -/
def init (maxsize bufmaxsize : ℕ) : Client K R V B :=
  ⟨.empty, .empty, ⟨.empty, maxsize, bufmaxsize, 0⟩, ∅, fun _ => none, .empty, fun _ => []⟩

/-- `consume_from`, as the consumer of Redis does it. -/
def consumeFrom (s : Client K R V B) (taskId : K) : Client K R V B :=
  { s with subscribedTo := insert taskId s.subscribedTo }

/-- `cancel_for`. -/
def cancelFor (s : Client K R V B) (taskId : K) : Client K R V B :=
  { s with subscribedTo := s.subscribedTo.erase taskId }

/-- `_get_pending_result`; `none` is the `KeyError`. -/
def getPendingResult (s : Client K R V B) (taskId : K) : Option R :=
  (s.concrete.get? taskId).or (s.weak.get? taskId)

/-- `remove_pending_result`, with `_remove_pending_result` and `on_result_fulfilled`. -/
def removePendingResult (s : Client K R V B) (result : R) : Client K R V B :=
  cancelFor { s with
    concrete := s.concrete.pop (id result)
    weak := s.weak.pop (id result) } (id result)

/-- `AsyncResult._maybe_set_cache`, whose `on_ready` calls `_on_fulfilled`. -/
def maybeSetCache (s : Client K R V B) (result : R) (meta_ : Meta K V) : Client K R V B :=
  if meta_.ready then
    removePendingResult id { s with cache := Function.update s.cache result (some meta_) } result
  else s

/-- `AsyncResult._get_task_meta`. -/
def getTaskMeta (s : Client K R V B) (result : R) (meta_ : Meta K V) : Client K R V B :=
  match s.cache result with
  | none => maybeSetCache id s result meta_
  | some _ => s

/-- `_add_pending_result`. -/
def register (s : Client K R V B) (result : R) (weak : Bool) : Client K R V B :=
  if s.weak.get? (id result) = none ∧ s.concrete.get? (id result) = none then
    consumeFrom
      (if weak then { s with weak := s.weak.set (id result) result }
      else { s with concrete := s.concrete.set (id result) result }) (id result)
  else s

/-- `add_pending_result`, with `_maybe_resolve_from_buffer`. -/
def addPendingResult (s : Client K R V B) (result : R) (weak : Bool) : Client K R V B :=
  match (s.pendingMessages.take (id result)).1 with
  | some meta_ => maybeSetCache id { s with
      pendingMessages := (s.pendingMessages.take (id result)).2 } result meta_
  | none => register id s result weak

/-- The end of `on_state_change`: a result is sent to the waiter via its bucket.  `buckets` is
keyed by result objects, which are equal if their ids are. -/
def sendToBucket (s : Client K R V B) (result : R) : Client K R V B :=
  match s.buckets.get? (id result) with
  | none => s
  | some bucket => { s with
      buckets := s.buckets.pop (id result)
      contents := Function.update s.contents bucket (s.contents bucket ++ [result]) }

/-- `BaseResultConsumer.on_state_change`. -/
def onStateChange (s : Client K R V B) (meta_ : Meta K V) :
    Except EvictError (Client K R V B) :=
  if meta_.ready then
    match s.getPendingResult meta_.taskId with
    | none => do
      let pendingMessages ← s.pendingMessages.put meta_.taskId meta_
      .ok { s with pendingMessages }
    | some result => .ok (sendToBucket id (maybeSetCache id s result meta_) result)
  else .ok s

/-- What `iter_native` does with a node before it waits. -/
def collect (bucket : B) (s : Client K R V B) (node : R) : Client K R V B :=
  match s.cache node with
  | some _ => { s with
      contents := Function.update s.contents bucket (s.contents bucket ++ [node]) }
  | none => { s with buckets := s.buckets.set (id node) bucket }

/-- `iter_native`, up to where it waits.  All it yields is what is put into the bucket. -/
def iterNative (s : Client K R V B) (results : List R) (bucket : B) : Client K R V B :=
  results.foldl (collect id bucket) s

/-- `_pending_messages.pop`, with the total adjusted. -/
def forget (s : Client K R V B) (taskId : K) : Client K R V B :=
  { s with pendingMessages := s.pendingMessages.popPending taskId }

/-- One call. -/
def step (s : Client K R V B) : Event K R V B → Except EvictError (Client K R V B)
  | .addPendingResult result weak => .ok (addPendingResult id s result weak)
  | .onStateChange meta_ => onStateChange id s meta_
  | .getTaskMeta result meta_ => .ok (getTaskMeta id s result meta_)
  | .removePendingResult result => .ok (removePendingResult id s result)
  | .forget taskId => .ok (forget s taskId)
  | .iterNative results bucket => .ok (iterNative id s results bucket)

/-- Calls in turn. -/
def run (s : Client K R V B) (events : List (Event K R V B)) :
    Except EvictError (Client K R V B) :=
  events.foldlM (step id) s

end Calls

/-! ## What holds between the calls -/

variable {id : R → K} {s t : Client K R V B}

/-- What holds between the calls: a task is awaited by an object with its id, in one of the two
maps, if and only if it is consumed from, and nothing is buffered for it then. -/
structure Sound (id : R → K) (s : Client K R V B) : Prop where
  accounted : s.pendingMessages.Accounted
  keyed : ∀ k r, s.getPendingResult k = some r → id r = k
  exclusive : ∀ k r, s.getPendingResult k = some r → s.pendingMessages.messages k = []
  subscribed : ∀ k, k ∈ s.subscribedTo ↔ ∃ r, s.getPendingResult k = some r
  single : ∀ k, s.weak.get? k = none ∨ s.concrete.get? k = none

@[simp] theorem getPendingResult_removePendingResult (s : Client K R V B) (result : R) (k : K) :
    (removePendingResult id s result).getPendingResult k =
      if k = id result then none else s.getPendingResult k := by
  rw [getPendingResult, removePendingResult, cancelFor]
  simp only [OrderedDict.get?_pop]
  split <;> rfl

theorem getPendingResult_register (s : Client K R V B) (result : R) (weak : Bool)
    (hfree : s.getPendingResult (id result) = none) (k : K) :
    (register id s result weak).getPendingResult k =
      if k = id result then some result else s.getPendingResult k := by
  obtain ⟨hconcrete, hweak⟩ := Option.or_eq_none_iff.mp hfree
  rw [register, if_pos ⟨hweak, hconcrete⟩]
  cases weak
  · simp only [getPendingResult, consumeFrom, Bool.false_eq_true, if_false, OrderedDict.get?_set]
    split <;> rfl
  · simp only [getPendingResult, consumeFrom, if_true, OrderedDict.get?_set]
    split
    next hk => rw [hk, hconcrete, Option.none_or]
    · rfl

/-- A task that is awaited is not registered again. -/
theorem register_of_pending {result r : R} (weak : Bool)
    (hpending : s.getPendingResult (id result) = some r) : register id s result weak = s := by
  rw [register, if_neg]
  rintro ⟨hweak, hconcrete⟩
  rw [getPendingResult, hweak, hconcrete] at hpending
  cases hpending

/-- What registering does not touch. -/
theorem register_frame (id : R → K) (s : Client K R V B) (result : R) (weak : Bool) :
    (register id s result weak).pendingMessages = s.pendingMessages ∧
      (register id s result weak).cache = s.cache ∧
      (register id s result weak).buckets = s.buckets ∧
      (register id s result weak).contents = s.contents := by
  rw [register]
  split
  · cases weak <;> exact ⟨rfl, rfl, rfl, rfl⟩
  · exact ⟨rfl, rfl, rfl, rfl⟩

theorem subscribedTo_register (s : Client K R V B) (result : R) (weak : Bool)
    (hfree : s.getPendingResult (id result) = none) :
    (register id s result weak).subscribedTo = insert (id result) s.subscribedTo := by
  obtain ⟨hconcrete, hweak⟩ := Option.or_eq_none_iff.mp hfree
  rw [register, if_pos ⟨hweak, hconcrete⟩]
  cases weak <;> rfl

theorem sound_init {maxsize bufmaxsize : ℕ} (hmaxsize : 0 < maxsize)
    (hbufmaxsize : 0 < bufmaxsize) :
    Sound id (init maxsize bufmaxsize : Client K R V B) where
  accounted := ⟨⟨rfl, by simp [init]⟩, hmaxsize, hbufmaxsize⟩
  keyed _ _ h := by cases h
  exclusive _ _ h := by cases h
  subscribed k := ⟨fun h => absurd h (Finset.notMem_empty k), fun ⟨_, h⟩ => by cases h⟩
  single _ := .inl rfl

theorem Sound.removePendingResult (h : Sound id s) (result : R) :
    Sound id (removePendingResult id s result) where
  accounted := h.accounted
  keyed k r hget := by
    rw [getPendingResult_removePendingResult] at hget
    split at hget
    · cases hget
    · exact h.keyed k r hget
  exclusive k r hget := by
    rw [getPendingResult_removePendingResult] at hget
    split at hget
    · cases hget
    · exact h.exclusive k r hget
  subscribed k := by
    show k ∈ s.subscribedTo.erase (id result) ↔ _
    rw [Finset.mem_erase, h.subscribed, getPendingResult_removePendingResult]
    split
    next hk => simp [hk]
    next hk => simp [hk]
  single k := by
    show (s.weak.pop (id result)).get? k = none ∨ (s.concrete.pop (id result)).get? k = none
    rw [OrderedDict.get?_pop, OrderedDict.get?_pop]
    split
    · exact .inl rfl
    · exact h.single k

theorem Sound.register (h : Sound id s) (result : R) (weak : Bool)
    (hnil : s.pendingMessages.messages (id result) = []) :
    Sound id (register id s result weak) := by
  cases hfree : s.getPendingResult (id result) with
  | some r =>
    rw [register_of_pending weak hfree]
    exact h
  | none =>
    have hget := getPendingResult_register s result weak hfree
    have hsubscribed := subscribedTo_register s result weak hfree
    obtain ⟨hmessages, -⟩ := register_frame id s result weak
    refine ⟨hmessages ▸ h.accounted, fun k r hk => ?_, fun k r hk => ?_, fun k => ?_,
      fun k => ?_⟩
    · rw [hget] at hk
      split at hk
      next heq => exact Option.some.inj hk ▸ heq.symm
      · exact h.keyed k r hk
    · rw [hget] at hk
      rw [hmessages]
      split at hk
      next heq => exact heq ▸ hnil
      · exact h.exclusive k r hk
    · rw [hsubscribed, Finset.mem_insert, h.subscribed, hget]
      split
      next heq => simp [heq]
      next heq => simp [heq]
    · obtain ⟨hconcrete, hweak⟩ := Option.or_eq_none_iff.mp hfree
      have hsingle := h.single k
      rw [Client.register, if_pos ⟨hweak, hconcrete⟩]
      cases weak
      · simp only [consumeFrom, Bool.false_eq_true, if_false, OrderedDict.get?_set]
        split
        next heq => exact .inl (heq ▸ hweak)
        · exact hsingle
      · simp only [consumeFrom, if_true, OrderedDict.get?_set]
        split
        next heq => exact .inr (heq ▸ hconcrete)
        · exact hsingle

/-- What is buffered may change for the tasks that are not awaited. -/
theorem Sound.of_messages (h : Sound id s) {m : BufferMap K (Meta K V)} (hm : m.Accounted)
    (hnil : ∀ k r, s.getPendingResult k = some r → s.pendingMessages.messages k = [] →
      m.messages k = []) : Sound id { s with pendingMessages := m } :=
  ⟨hm, h.keyed, fun k r hk => hnil k r hk (h.exclusive k r hk), h.subscribed, h.single⟩

theorem Sound.forget (h : Sound id s) (taskId : K) : Sound id (forget s taskId) := by
  refine h.of_messages (h.accounted.of_shrinks (BufferMap.popPending_shrinks _ _).1)
    fun k r _ hnil => ?_
  rw [BufferMap.messages_popPending, hnil, ite_self]

theorem sendToBucket_eq [DecidableEq B] (id : R → K) (s : Client K R V B) (result : R) :
    ∃ buckets contents, sendToBucket id s result = { s with buckets, contents } := by
  rw [sendToBucket]
  split
  · exact ⟨s.buckets, s.contents, rfl⟩
  · exact ⟨_, _, rfl⟩

/-- What `iter_native` does before it waits. -/
theorem iterNative_spec [DecidableEq B] (id : R → K) (s : Client K R V B) (nodes : List R)
    (bucket : B) :
    ∃ buckets contents, iterNative id s nodes bucket = { s with buckets, contents } ∧
      contents bucket = s.contents bucket ++ nodes.filter (fun n => (s.cache n).isSome) ∧
      (∀ n ∈ nodes, s.cache n = none → buckets.get? (id n) = some bucket) ∧
      ∀ k, buckets.get? k = s.buckets.get? k ∨ ∃ n ∈ nodes, s.cache n = none ∧ id n = k := by
  induction nodes using List.reverseRecOn with
  | nil => exact ⟨s.buckets, s.contents, rfl, (List.append_nil _).symm, by simp, fun _ => .inl rfl⟩
  | append_singleton nodes r ih =>
    obtain ⟨buckets, contents, heq, hcontents, hset, hrest⟩ := ih
    have hlast : iterNative id s (nodes ++ [r]) bucket =
        collect id bucket { s with buckets, contents } r := by
      rw [← heq, iterNative, List.foldl_append]
      rfl
    have hrest' : ∀ k, buckets.get? k = s.buckets.get? k ∨
        ∃ n ∈ nodes ++ [r], s.cache n = none ∧ id n = k := fun k =>
      (hrest k).imp_right (Exists.imp fun _ h => ⟨List.mem_append_left _ h.1, h.2⟩)
    rw [hlast, collect]
    cases hcache : s.cache r with
    | some cached =>
      have hadded := Function.update_self bucket (contents bucket ++ [r]) contents
      refine ⟨_, _, rfl, hadded.trans ?_, fun n hn hnone => ?_, hrest'⟩
      · rw [hcontents, List.filter_append, List.append_assoc,
          List.filter_cons_of_pos (by rw [hcache]; rfl), List.filter_nil]
      · rcases List.mem_append.mp hn with hn | hn
        · exact hset n hn hnone
        · rw [List.mem_singleton.mp hn, hcache] at hnone
          cases hnone
    | none =>
      refine ⟨_, contents, rfl, ?_, fun n hn hnone => ?_, fun k => ?_⟩
      · rw [hcontents, List.filter_append, List.filter_cons_of_neg (by rw [hcache]; simp),
          List.filter_nil, List.append_nil]
      · rw [OrderedDict.get?_set]
        split
        · rfl
        next hne =>
          rcases List.mem_append.mp hn with hn | hn
          · exact hset n hn hnone
          · exact absurd (congrArg id (List.mem_singleton.mp hn)) hne
      · rw [OrderedDict.get?_set]
        split
        next hk =>
          exact .inr ⟨r, List.mem_append_right _ (List.mem_singleton_self r), hcache, hk.symm⟩
        · exact hrest' k

/-- Buckets do not matter. -/
theorem Sound.of_buckets (h : Sound id s) (buckets : OrderedDict K B) (contents : B → List R) :
    Sound id { s with buckets, contents } :=
  ⟨h.accounted, h.keyed, h.exclusive, h.subscribed, h.single⟩

variable [DecidableEq R]

theorem Sound.maybeSetCache (h : Sound id s) (result : R) (meta_ : Meta K V) :
    Sound id (maybeSetCache id s result meta_) := by
  rw [Client.maybeSetCache]
  split
  · refine Sound.removePendingResult ?_ result
    exact ⟨h.accounted, h.keyed, h.exclusive, h.subscribed, h.single⟩
  · exact h

theorem pendingMessages_maybeSetCache (s : Client K R V B) (result : R) (meta_ : Meta K V) :
    (Client.maybeSetCache id s result meta_).pendingMessages = s.pendingMessages := by
  rw [Client.maybeSetCache]
  split <;> rfl

theorem Sound.addPendingResult (h : Sound id s) (result : R) (weak : Bool) :
    Sound id (addPendingResult id s result weak) := by
  obtain ⟨htake, hrest⟩ := s.pendingMessages.take_eq (id result)
  rw [Client.addPendingResult, htake]
  split
  next meta_ hhead =>
    refine Sound.maybeSetCache ?_ result meta_
    refine h.of_messages (h.accounted.of_shrinks (BufferMap.take_shrinks _ _).1)
      fun k r _ hnil => ?_
    rw [hrest]
    split
    next hk => rw [hk] at hnil; rw [hnil]; rfl
    · exact hnil
  next hhead => exact h.register result weak (List.head?_eq_none_iff.mp hhead)

/-- A result that is added takes the oldest message at most. -/
theorem addPendingResult_suffix (s : Client K R V B) (result : R) (weak : Bool) (k : K) :
    (Client.addPendingResult id s result weak).pendingMessages.messages k <:+
      s.pendingMessages.messages k := by
  obtain ⟨-, hrest⟩ := s.pendingMessages.take_eq (id result)
  rw [Client.addPendingResult]
  split
  · rw [pendingMessages_maybeSetCache, hrest]
    split
    next hk =>
      rw [hk]
      exact List.tail_suffix _
    · exact List.suffix_rfl
  · rw [(register_frame id s result weak).1]

variable [DecidableEq B]

/-- **A call never raises**, and what holds between the calls holds after it. -/
theorem Sound.step (h : Sound id s) (e : Event K R V B) :
    ∃ t, step id s e = .ok t ∧ Sound id t := by
  cases e with
  | addPendingResult result weak => exact ⟨_, rfl, h.addPendingResult result weak⟩
  | removePendingResult result => exact ⟨_, rfl, h.removePendingResult result⟩
  | forget taskId => exact ⟨_, rfl, h.forget taskId⟩
  | getTaskMeta result meta_ =>
    refine ⟨_, rfl, ?_⟩
    rw [getTaskMeta]
    split
    · exact h.maybeSetCache result meta_
    · exact h
  | iterNative results bucket =>
    refine ⟨_, rfl, ?_⟩
    obtain ⟨buckets, contents, heq, -⟩ := iterNative_spec id s results bucket
    exact heq ▸ h.of_buckets buckets contents
  | onStateChange meta_ =>
    rw [Client.step, onStateChange]
    split
    · cases hget : s.getPendingResult meta_.taskId with
      | some result =>
        obtain ⟨buckets, contents, heq⟩ :=
          sendToBucket_eq id (Client.maybeSetCache id s result meta_) result
        exact ⟨_, rfl, heq ▸ (h.maybeSetCache result meta_).of_buckets buckets contents⟩
      | none =>
        obtain ⟨m, hput, hm⟩ := h.accounted.put meta_.taskId meta_
        refine ⟨{ s with pendingMessages := m }, by simp only [hput]; rfl, ?_⟩
        refine h.of_messages hm fun k r hk hnil => ?_
        have hne : k ≠ meta_.taskId := fun heq => by
          rw [heq, hget] at hk
          cases hk
        have hsuffix := BufferMap.put_suffix hput k
        rw [if_neg hne, hnil] at hsuffix
        exact List.suffix_nil.mp hsuffix
    · exact ⟨s, rfl, h⟩

/-- **What is buffered after a message**, whatever is evicted: it is buffered if it is final and
nobody waits for it. -/
theorem Sound.messages_onStateChange (h : Sound id s) {meta_ : Meta K V}
    (ht : onStateChange id s meta_ = .ok t) (k : K) :
    t.pendingMessages.messages k <:+
      if meta_.ready ∧ k = meta_.taskId then s.pendingMessages.messages k ++ [meta_]
      else s.pendingMessages.messages k := by
  rw [onStateChange] at ht
  by_cases hready : meta_.ready = true
  · simp only [hready, true_and, if_true] at ht ⊢
    cases hpending : s.getPendingResult meta_.taskId with
    | none =>
      rw [hpending] at ht
      cases hput : s.pendingMessages.put meta_.taskId meta_ with
      | error e =>
        rw [hput] at ht
        cases ht
      | ok m =>
        rw [hput] at ht
        obtain rfl := Except.ok.inj ht
        have hsuffix := BufferMap.put_suffix hput k
        split
        next hk =>
          rw [if_pos hk, ← hk] at hsuffix
          exact hsuffix
        next hk =>
          rw [if_neg hk] at hsuffix
          exact hsuffix
    | some result =>
      rw [hpending] at ht
      have hsame : t.pendingMessages = s.pendingMessages := by
        obtain ⟨buckets, contents, heq⟩ :=
          sendToBucket_eq id (Client.maybeSetCache id s result meta_) result
        obtain rfl := Except.ok.inj ht
        rw [heq]
        exact pendingMessages_maybeSetCache s result meta_
      rw [hsame]
      split
      next hk =>
        rw [hk, h.exclusive _ result hpending]
        exact List.nil_suffix
      · exact List.suffix_rfl
  · simp only [hready, Bool.false_eq_true, false_and, if_false] at ht ⊢
    obtain rfl := Except.ok.inj ht
    exact List.suffix_rfl

theorem run_concat (s : Client K R V B) {events : List (Event K R V B)}
    (h : run id s events = .ok t) (e : Event K R V B) :
    run id s (events ++ [e]) = Client.step id t e := by
  rw [run] at h ⊢
  rw [List.foldlM_append, h]
  exact bind_pure (Client.step id t e)

/-- From a sound client, a run of calls raises nothing and ends in a sound client. -/
theorem Sound.exists_run {s : Client K R V B} (h : Sound id s) (events : List (Event K R V B)) :
    ∃ t, run id s events = .ok t ∧ Sound id t := by
  induction events using List.reverseRecOn with
  | nil => exact ⟨s, rfl, h⟩
  | append_singleton events e ih =>
    obtain ⟨t, ht, htsound⟩ := ih
    obtain ⟨u, hu, husound⟩ := htsound.step e
    exact ⟨u, (run_concat _ ht e).trans hu, husound⟩

/-- **What holds between the calls holds throughout every run.** -/
theorem sound_of_run (id : R → K) {maxsize bufmaxsize : ℕ} (hmaxsize : 0 < maxsize)
    (hbufmaxsize : 0 < bufmaxsize) (events : List (Event K R V B)) :
    ∃ s, run id (init maxsize bufmaxsize) events = .ok s ∧ Sound id s :=
  (sound_init hmaxsize hbufmaxsize).exists_run events

/-- A final meta that comes before its result is added. -/
theorem sound_of_early : ∃ s, run (B := Unit) (fun r : ℕ => r) (init 8192 1000)
    [.onStateChange ⟨.success, 0, ()⟩, .addPendingResult 0 false] = .ok s ∧
      Sound (fun r : ℕ => r) s :=
  sound_of_run _ (Nat.succ_pos 8191) (Nat.succ_pos 999) _

end Client
end AsyncBackend
end Celery
