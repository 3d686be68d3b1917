/-
# `celery/backends/rpc.py`: polls of the reply queue

All states of all tasks come to one queue of the client.  `get_task_meta` (lines 325-398) takes
all messages off it, puts the latest state of each other task aside (`on_out_of_band_result`, lines
308-323), and puts the state it asked for back, unless it is final.  The consumer takes from the
same queue as results are awaited (lines 146-151), and `forget` (lines 265-274) drops what there
is of a task.

`exists_step` is what each event does to each task: a state is stored, the task is polled
(`Polled`), or one of a few other things (`Change`), whatever happens to other tasks.

The messages of a task carry its id as `correlation_id` and in the payload.  `meta_from_decoded` is
left out.  A backend that raises `BacklogLimitExceeded` keeps the messages that it took unacked, so
they do not come back while its channel is open.
-/

import Celery.Backends.Pending

namespace Celery
namespace Rpc

open AsyncBackend

/-- `_cache`, an `LRUCache` or a `_nulldict`: what is at a key, and the cache after `cache[k]`,
`cache[k] = m` and `cache.pop(k, None)`.  It may forget, but never has anything but what was set at
a key last. -/
structure ResultCache (C K M : Type) [DecidableEq K] where
  empty : C
  find : C → K → Option M
  get : C → K → C
  set : C → K → M → C
  pop : C → K → C
  find_empty : ∀ k, find empty k = none
  find_get : ∀ c k l, find (get c k) l = find c l
  find_set : ∀ c k m l, find (set c k m) l = none ∨
    find (set c k m) l = if l = k then some m else find c l
  find_pop : ∀ c k l, find (pop c k) l = if l = k then none else find c l

namespace ResultCache

variable {C K M : Type} [DecidableEq K]

/-- The cache keeps all that is set. -/
def Unlimited (cache : ResultCache C K M) : Prop :=
  ∀ c k m l, cache.find (cache.set c k m) l = if l = k then some m else cache.find c l

/-- `_nulldict`, where `result_cache_max` is -1. -/
def nulldict : ResultCache Unit K M where
  empty := ()
  find _ _ := none
  get c _ := c
  set c _ _ := c
  pop c _ := c
  find_empty _ := rfl
  find_get _ _ _ := rfl
  find_set _ _ _ _ := .inl rfl
  find_pop _ _ _ := (ite_self none).symm

/-- `LRUCache` without a limit, where `result_cache_max` is 0. -/
def unlimited : ResultCache (OrderedDict K M) K M where
  empty := .empty
  find := OrderedDict.get?
  get c k :=
    match c.get? k with
    | none => c
    | some m => c.setLast k m
  set := OrderedDict.set
  pop := OrderedDict.pop
  find_empty _ := rfl
  find_get c k l := by
    cases hget : c.get? k with
    | none => rfl
    | some m =>
      show (c.setLast k m).get? l = c.get? l
      rw [OrderedDict.get?_setLast]
      split
      next hl => rw [hl, hget]
      · rfl
  find_set c k m l := .inr (OrderedDict.get?_set c k l m)
  find_pop := OrderedDict.get?_pop

theorem unlimited_unlimited : (unlimited : ResultCache (OrderedDict K M) K M).Unlimited :=
  fun c k m l => OrderedDict.get?_set c k l m

end ResultCache

/-- `RPCBackend` and its reply queue: what its results wait for, the messages in the queue, the
latest states that were put aside in `_out_of_band`, and `_cache`. -/
structure RPCBackend (C K R V B : Type) where
  client : Client K R V B
  queue : List (Meta K V)
  outOfBand : OrderedDict K (Meta K V)
  cache : C

/-- What is done: a worker stores a state, a task is polled, a result object asks for its meta,
the consumer takes a message, a result is added or goes away, and a task is forgotten. -/
inductive Event (K R V : Type) where
  | storeResult (meta_ : Meta K V)
  | getTaskMeta (taskId : K) (backlogLimit : ℕ)
  | resultMeta (result : R) (backlogLimit : ℕ)
  | drainEvents
  | addPendingResult (result : R) (weak : Bool)
  | removePendingResult (result : R)
  | forget (taskId : K)

/-- What a poll ends with: `BacklogLimitExceeded`, a meta, or `none` for
`{'status': PENDING, 'result': None}`. -/
inductive Reply (K V : Type) where
  | backlogLimitExceeded
  | meta_ (reply : Option (Meta K V))

section Calls

variable {C K R V B : Type} [DecidableEq K] [DecidableEq R] [DecidableEq B]
  (cache : ResultCache C K (Meta K V)) (id : R → K)

/-- `RPCBackend()`, with room for 8192 messages, 1000 for each task. -/
def init : RPCBackend C K R V B := ⟨Client.init 8192 1000, [], .empty, cache.empty⟩

/-- `_set_cache_by_message`. -/
def setCacheByMessage (s : RPCBackend C K R V B) (taskId : K) (message : Meta K V) :
    RPCBackend C K R V B :=
  { s with cache := cache.set s.cache taskId message }

/-- `ResultConsumer.on_state_change`, also called by `on_out_of_band_result` of the consumer. -/
def onStateChange (s : RPCBackend C K R V B) (meta_ : Meta K V) :
    Except EvictError (RPCBackend C K R V B) := do
  let client ← Client.onStateChange id s.client meta_
  .ok { s with
    client
    outOfBand := if meta_.ready then s.outOfBand.pop meta_.taskId else s.outOfBand }

/-- `RPCBackend.on_out_of_band_result`. -/
def onOutOfBandResult (s : RPCBackend C K R V B) (taskId : K) (message : Meta K V) :
    Except EvictError (RPCBackend C K R V B) := do
  let s ← onStateChange id s message
  if message.ready then .ok (setCacheByMessage cache s taskId message)
  else .ok { s with outOfBand := s.outOfBand.set taskId message }

/-- `latest_by_id`, of all messages that are slurped. -/
def latestById (messages : List (Meta K V)) : OrderedDict K (Meta K V) :=
  messages.foldl (fun latest message => latest.set message.taskId message) .empty

/-- The end of `get_task_meta`, with the latest message of the task, if there is any. -/
def replyLatest (s : RPCBackend C K R V B) (taskId : K) :
    Option (Meta K V) → Except EvictError (Reply K V × RPCBackend C K R V B)
  | some latest => do
    let s := setCacheByMessage cache s taskId latest
    if latest.ready then
      let s ← onStateChange id s latest
      .ok (.meta_ (some latest), s)
    else .ok (.meta_ (some latest), { s with queue := latest :: s.queue })
  | none =>
    match cache.find s.cache taskId with
    | some cached => .ok (.meta_ (some cached), { s with cache := cache.get s.cache taskId })
    | none => .ok (.meta_ (s.client.pendingMessages.messages taskId).getLast?, s)

/-- `get_task_meta`. -/
def getTaskMeta (s : RPCBackend C K R V B) (taskId : K) (backlogLimit : ℕ) :
    Except EvictError (Reply K V × RPCBackend C K R V B) :=
  match s.outOfBand.get? taskId with
  | some buffered =>
    .ok (.meta_ (some buffered), setCacheByMessage cache
      { s with outOfBand := s.outOfBand.pop taskId } taskId buffered)
  | none =>
    if backlogLimit ≤ s.queue.length then
      .ok (.backlogLimitExceeded, { s with queue := s.queue.drop backlogLimit })
    else do
      let latest := latestById s.queue
      let s ← (latest.pop taskId).items.foldlM
        (fun s message => onOutOfBandResult cache id s message.1 message.2) { s with queue := [] }
      replyLatest cache id s taskId (latest.get? taskId)

/-- `AsyncResult._get_task_meta`. -/
def resultMeta (s : RPCBackend C K R V B) (result : R) (backlogLimit : ℕ) :
    Except EvictError (RPCBackend C K R V B) :=
  match s.client.cache result with
  | some _ => .ok s
  | none => do
    let (reply, s) ← getTaskMeta cache id s (id result) backlogLimit
    match reply with
    | .meta_ (some meta_) =>
      .ok { s with client := Client.maybeSetCache id s.client result meta_ }
    | _ => .ok s

/-- `forget`. -/
def forget (s : RPCBackend C K R V B) (taskId : K) : RPCBackend C K R V B :=
  { s with
    outOfBand := s.outOfBand.pop taskId
    client := Client.forget s.client taskId
    cache := cache.pop s.cache taskId }

/-- `drain_events`, of one message. -/
def drainEvents (s : RPCBackend C K R V B) : Except EvictError (RPCBackend C K R V B) :=
  match s.queue with
  | [] => .ok s
  | message :: queue => onStateChange id { s with queue } message

/-- What an event leaves. -/
def step (s : RPCBackend C K R V B) : Event K R V → Except EvictError (RPCBackend C K R V B)
  | .storeResult meta_ => .ok { s with queue := s.queue ++ [meta_] }
  | .getTaskMeta taskId backlogLimit => do
    let (_, s) ← getTaskMeta cache id s taskId backlogLimit
    .ok s
  | .resultMeta result backlogLimit => resultMeta cache id s result backlogLimit
  | .drainEvents => drainEvents id s
  | .addPendingResult result weak =>
    .ok { s with client := Client.addPendingResult id s.client result weak }
  | .removePendingResult result =>
    .ok { s with client := Client.removePendingResult id s.client result }
  | .forget taskId => .ok (forget cache s taskId)

/-- Events in turn. -/
def run (s : RPCBackend C K R V B) (events : List (Event K R V)) :
    Except EvictError (RPCBackend C K R V B) :=
  events.foldlM (step cache id) s

end Calls

/-! ## What there is of one task -/

/-- The metas of a task: in the queue, put aside, in the cache, and in the buffer. -/
structure View (K V : Type) where
  queue : List (Meta K V)
  held : Option (Meta K V)
  cached : Option (Meta K V)
  buffered : List (Meta K V)

/-- What a cache has of what it should have, if it is unlimited or not. -/
def Kept {M : Type} (unlimited : Prop) (cached cached' : Option M) : Prop :=
  cached' = cached ∨ ¬ unlimited ∧ cached' = none

theorem Kept.refl {M : Type} (u : Prop) (cached : Option M) : Kept u cached cached := .inl rfl

theorem Kept.trans {M : Type} {u : Prop} {a b c : Option M} (h : Kept u a b) (h' : Kept u b c) :
    Kept u a c := by
  rcases h' with rfl | h'
  · exact h
  · exact .inr h'

/-- Nothing is done to a task, but some of it may be evicted. -/
structure Idle {K V : Type} (u : Prop) (v w : View K V) : Prop where
  queue : w.queue = v.queue
  held : w.held = v.held
  cached : Kept u v.cached w.cached
  buffered : w.buffered <:+ v.buffered

/-- A message is put aside, or is final and kept. -/
def View.sweep {K V : Type} (v : View K V) (message : Meta K V) : View K V :=
  if message.ready then ⟨v.queue, none, some message, v.buffered ++ [message]⟩
  else { v with held := some message }

section View

variable {K V : Type} {u : Prop} {v w x : View K V}

theorem Idle.refl (v : View K V) : Idle u v v := ⟨rfl, rfl, .refl u _, List.suffix_rfl⟩

theorem Idle.trans (h : Idle u v w) (h' : Idle u w x) : Idle u v x :=
  ⟨h'.queue.trans h.queue, h'.held.trans h.held, h.cached.trans h'.cached,
    h'.buffered.trans h.buffered⟩

theorem suffix_concat {α : Type} {as bs : List α} (h : as <:+ bs) (a : α) :
    as ++ [a] <:+ bs ++ [a] := by
  obtain ⟨cs, rfl⟩ := h
  exact ⟨cs, (List.append_assoc cs as [a]).symm⟩

theorem Idle.sweep (h : Idle u v w) (message : Meta K V) :
    Idle u (v.sweep message) (w.sweep message) := by
  rw [View.sweep, View.sweep]
  split
  · exact ⟨h.queue, rfl, .refl u _, suffix_concat h.buffered message⟩
  · exact ⟨h.queue, rfl, h.cached, h.buffered⟩

/-- **What an event may do to a task**, other than a new state or a poll of it. -/
inductive Change (u : Prop) (v : View K V) : View K V → Prop where
  | idle {queue : List (Meta K V)} {w : View K V} :
      queue <:+ v.queue → Idle u { v with queue } w → Change u v w
  | consume {message : Meta K V} {queue : List (Meta K V)} {w : View K V} :
      v.queue = message :: queue → message.ready →
      Idle u ⟨queue, none, v.cached, v.buffered ++ [message]⟩ w → Change u v w
  | sweep {message : Meta K V} {queue : List (Meta K V)} {w : View K V} :
      v.queue = queue ++ [message] → Idle u ({ v with queue := [] }.sweep message) w → Change u v w
  | forget {w : View K V} : Idle u ⟨v.queue, none, none, []⟩ w → Change u v w

/-- **What a poll of a task does to it**, and its reply. -/
inductive Polled (u : Prop) (v : View K V) : Reply K V → View K V → Prop where
  | exceeded {queue : List (Meta K V)} {w : View K V} :
      queue <:+ v.queue → Idle u { v with queue } w → Polled u v .backlogLimitExceeded w
  | held {message : Meta K V} {w : View K V} :
      v.held = some message → Idle u ⟨v.queue, none, some message, v.buffered⟩ w →
      Polled u v (.meta_ (some message)) w
  | final {message : Meta K V} {queue : List (Meta K V)} {w : View K V} :
      v.held = none → v.queue = queue ++ [message] → message.ready →
      Idle u ⟨[], none, some message, v.buffered ++ [message]⟩ w →
      Polled u v (.meta_ (some message)) w
  | state {message : Meta K V} {queue : List (Meta K V)} {w : View K V} :
      v.held = none → v.queue = queue ++ [message] → ¬ message.ready →
      Idle u ⟨[message], none, some message, v.buffered⟩ w →
      Polled u v (.meta_ (some message)) w
  | cached {message : Meta K V} {w : View K V} :
      v.held = none → v.queue = [] → Idle u v w → w.cached = some message →
      Polled u v (.meta_ (some message)) w
  | buffered {reply : Option (Meta K V)} {w : View K V} :
      v.held = none → v.queue = [] → Idle u v w → w.cached = none → w.buffered.getLast? = reply →
      Polled u v (.meta_ reply) w

/-- **What an event does to a task**, and the states that it stores for it. -/
inductive Moved (u : Prop) (v : View K V) : List (Meta K V) → View K V → Prop where
  | stored (meta_ : Meta K V) : Moved u v [meta_] { v with queue := v.queue ++ [meta_] }
  | change {w : View K V} : Change u v w → Moved u v [] w
  | polled {reply : Reply K V} {w : View K V} : Polled u v reply w → Moved u v [] w

theorem Change.trans_idle (h : Change u v w) (h' : Idle u w x) : Change u v x := by
  cases h with
  | idle hqueue hidle => exact .idle hqueue (hidle.trans h')
  | consume hqueue hready hidle => exact .consume hqueue hready (hidle.trans h')
  | sweep hqueue hidle => exact .sweep hqueue (hidle.trans h')
  | forget hidle => exact .forget (hidle.trans h')

theorem Idle.change (h : Idle u v w) : Change u v w := .idle List.suffix_rfl h

end View

section Calls

variable {C K R V B : Type} [DecidableEq K] [DecidableEq R] [DecidableEq B]
  (cache : ResultCache C K (Meta K V)) {id : R → K} {s t : RPCBackend C K R V B}

/-- What there is of a task. -/
def view (s : RPCBackend C K R V B) (k : K) : View K V :=
  ⟨s.queue.filter fun m => m.taskId = k, s.outOfBand.get? k, cache.find s.cache k,
    s.client.pendingMessages.messages k⟩

theorem kept_set (c : C) (k l : K) (m : Meta K V) :
    Kept cache.Unlimited (if l = k then some m else cache.find c l)
      (cache.find (cache.set c k m) l) := by
  rcases cache.find_set c k m l with hnone | hset
  · by_cases hunlimited : cache.Unlimited
    · exact .inl (hunlimited c k m l)
    · exact .inr ⟨hunlimited, hnone⟩
  · exact .inl hset

/-- **What `on_state_change` leaves** of each task. -/
theorem exists_onStateChange (h : Client.Sound id s.client) (meta_ : Meta K V) :
    ∃ t, onStateChange id s meta_ = .ok t ∧ Client.Sound id t.client ∧ t.queue = s.queue ∧
      t.cache = s.cache ∧
      (t.outOfBand = if meta_.ready then s.outOfBand.pop meta_.taskId else s.outOfBand) ∧
      ∀ k, t.client.pendingMessages.messages k <:+
        if meta_.ready ∧ k = meta_.taskId then s.client.pendingMessages.messages k ++ [meta_]
        else s.client.pendingMessages.messages k := by
  obtain ⟨client, hstep, hclient⟩ := h.step (.onStateChange meta_)
  have hchange : Client.onStateChange id s.client meta_ = .ok client := hstep
  refine ⟨{ s with
    client
    outOfBand := if meta_.ready then s.outOfBand.pop meta_.taskId else s.outOfBand }, ?_,
    hclient, rfl, rfl, rfl, h.messages_onStateChange hchange⟩
  rw [onStateChange, hchange]
  rfl

/-- **What `on_out_of_band_result` does** to its task and to the others. -/
theorem exists_onOutOfBandResult (h : Client.Sound id s.client) (message : Meta K V) :
    ∃ t, onOutOfBandResult cache id s message.taskId message = .ok t ∧ Client.Sound id t.client ∧
      t.queue = s.queue ∧
      Idle cache.Unlimited ((view cache s message.taskId).sweep message)
        (view cache t message.taskId) ∧
      ∀ k, k ≠ message.taskId → Idle cache.Unlimited (view cache s k) (view cache t k) := by
  obtain ⟨t, ht, hsound, hqueue, hcache, hheld, hmessages⟩ := exists_onStateChange h message
  by_cases hready : message.ready = true
  · simp only [hready, if_true, true_and] at hheld hmessages
    have hset := kept_set cache t.cache message.taskId
    refine ⟨setCacheByMessage cache t message.taskId message, ?_, hsound, hqueue, ?_,
      fun k hk => ?_⟩
    · rw [onOutOfBandResult, ht]
      exact if_pos hready
    · have hset := hset message.taskId message
      have hmessages := hmessages message.taskId
      rw [if_pos rfl] at hset hmessages
      rw [View.sweep, if_pos hready]
      refine ⟨by simp only [view, setCacheByMessage, hqueue], ?_, hset, hmessages⟩
      show t.outOfBand.get? message.taskId = none
      rw [hheld, OrderedDict.get?_pop, if_pos rfl]
    · have hset := hset k message
      have hmessages := hmessages k
      rw [if_neg hk] at hset hmessages
      refine ⟨by simp only [view, setCacheByMessage, hqueue], ?_, ?_, hmessages⟩
      · show t.outOfBand.get? k = s.outOfBand.get? k
        rw [hheld, OrderedDict.get?_pop, if_neg hk]
      · show Kept _ (cache.find s.cache k) (cache.find (cache.set t.cache message.taskId message) k)
        rwa [← hcache]
  · simp only [hready, if_false, Bool.false_eq_true, false_and] at hheld hmessages
    refine ⟨{ t with outOfBand := t.outOfBand.set message.taskId message }, ?_, hsound, hqueue, ?_,
      fun k hk => ?_⟩
    · rw [onOutOfBandResult, ht]
      exact if_neg hready
    · rw [View.sweep, if_neg hready]
      refine ⟨by simp only [view, hqueue], ?_, .inl ?_, hmessages message.taskId⟩
      · show (t.outOfBand.set message.taskId message).get? message.taskId = some message
        rw [OrderedDict.get?_set, if_pos rfl]
      · simp only [view, hcache]
    · refine ⟨by simp only [view, hqueue], ?_, .inl ?_, hmessages k⟩
      · show (t.outOfBand.set message.taskId message).get? k = s.outOfBand.get? k
        rw [OrderedDict.get?_set, if_neg hk, hheld]
      · simp only [view, hcache]

omit [DecidableEq R] [DecidableEq B] in
/-- **The latest message of each task.** -/
theorem latestById_spec (messages : List (Meta K V)) :
    (∀ k, (latestById messages).get? k = (messages.filter fun m => m.taskId = k).getLast?) ∧
      ∀ k m, (latestById messages).get? k = some m → m.taskId = k := by
  have hget : ∀ k, (latestById messages).get? k =
      (messages.filter fun m => m.taskId = k).getLast? := by
    induction messages using List.reverseRecOn with
    | nil => exact fun k => rfl
    | append_singleton messages message ih =>
      intro k
      rw [latestById, List.foldl_append, List.filter_append]
      show ((latestById messages).set message.taskId message).get? k = _
      rw [OrderedDict.get?_set]
      split
      next hk => rw [List.filter_cons_of_pos (by simpa using hk.symm), List.filter_nil,
          List.getLast?_concat]
      next hk =>
        rw [List.filter_cons_of_neg (by simpa using Ne.symm hk), List.filter_nil, List.append_nil]
        exact ih k
  refine ⟨hget, fun k m hm => ?_⟩
  rw [hget] at hm
  simpa using (List.mem_filter.mp (List.mem_of_getLast? hm)).2

/-- **What is done to all other tasks**, each of which has a latest message or none. -/
theorem exists_sweep (h : Client.Sound id s.client) (items : List (K × Meta K V))
    (hkeys : ∀ e ∈ items, e.2.taskId = e.1) (hnodup : (items.map Prod.fst).Nodup) :
    ∃ t, items.foldlM (fun s e => onOutOfBandResult cache id s e.1 e.2) s = .ok t ∧
      Client.Sound id t.client ∧ t.queue = s.queue ∧
      (∀ k m, items.lookup k = some m →
        Idle cache.Unlimited ((view cache s k).sweep m) (view cache t k)) ∧
      ∀ k, items.lookup k = none → Idle cache.Unlimited (view cache s k) (view cache t k) := by
  induction items generalizing s with
  | nil => exact ⟨s, rfl, h, rfl, (fun k m hm => by cases hm), fun k _ => .refl _⟩
  | cons e items ih =>
    obtain ⟨k, m⟩ := e
    obtain rfl : m.taskId = k := hkeys _ List.mem_cons_self
    rw [List.map_cons, List.nodup_cons] at hnodup
    obtain ⟨t, ht, hsound, hqueue, hhit, hmiss⟩ := exists_onOutOfBandResult cache h m
    obtain ⟨x, hx, hxsound, hxqueue, hxhit, hxmiss⟩ :=
      ih hsound (fun e he => hkeys e (List.mem_cons_of_mem _ he)) hnodup.2
    refine ⟨x, ?_, hxsound, hxqueue.trans hqueue, fun l m' hm' => ?_, fun l hl => ?_⟩
    · rw [List.foldlM_cons, ht]
      exact hx
    · rw [OrderedDict.lookup_cons_eq_ite] at hm'
      split at hm'
      next hl =>
        obtain rfl := Option.some.inj hm'
        rw [hl]
        refine hhit.trans (hxmiss _ ?_)
        rw [List.lookup_eq_none_iff]
        intro e he
        have hmem : e.1 ∈ items.map Prod.fst := List.mem_map_of_mem he
        have hne : m.taskId ≠ e.1 := fun heq => hnodup.1 (heq ▸ hmem)
        simpa using hne
      next hl => exact ((hmiss l hl).sweep m').trans (hxhit l m' hm')
    · rw [OrderedDict.lookup_cons_eq_ite] at hl
      split at hl
      · cases hl
      next hne => exact (hmiss l hne).trans (hxmiss l hl)

/-- **The reply of a poll** of a task that has nothing put aside, as the queue is empty. -/
theorem exists_replyLatest (h : Client.Sound id s.client) (hqueue : s.queue = []) {taskId : K}
    {v : View K V} (hheld : v.held = none)
    (hid : ∀ m, v.queue.getLast? = some m → m.taskId = taskId)
    (hown : Idle cache.Unlimited { v with queue := [] } (view cache s taskId)) :
    ∃ reply t, replyLatest cache id s taskId v.queue.getLast? = .ok (reply, t) ∧
      Client.Sound id t.client ∧ Polled cache.Unlimited v reply (view cache t taskId) ∧
      ∀ k, k ≠ taskId → Idle cache.Unlimited (view cache s k) (view cache t k) := by
  have hheld_s : s.outOfBand.get? taskId = none := hown.held.trans hheld
  rcases List.eq_nil_or_concat' v.queue with hnil | ⟨queue, m, hconcat⟩
  · have hv : Idle cache.Unlimited v (view cache s taskId) := by
      rw [← hnil] at hown
      exact hown
    rw [hnil, List.getLast?_nil, replyLatest]
    cases hfind : cache.find s.cache taskId with
    | some cached =>
      refine ⟨_, _, rfl, h, .cached hheld hnil (hv.trans ?_) ?_, fun k _ => ?_⟩
      · exact ⟨rfl, rfl, .inl (cache.find_get s.cache taskId taskId), List.suffix_rfl⟩
      · exact (cache.find_get s.cache taskId taskId).trans hfind
      · exact ⟨rfl, rfl, .inl (cache.find_get s.cache taskId k), List.suffix_rfl⟩
    | none => exact ⟨_, _, rfl, h, .buffered hheld hnil hv hfind rfl, fun k _ => .refl _⟩
  · rw [hconcat, List.getLast?_concat] at hid ⊢
    obtain rfl := hid m rfl
    have hset := kept_set cache s.cache m.taskId
    rw [replyLatest]
    split
    next hready =>
      obtain ⟨t, ht, hsound, htqueue, hcache, htheld, hmessages⟩ :=
        exists_onStateChange (s := setCacheByMessage cache s m.taskId m) h m
      simp only [hready, if_true, true_and, setCacheByMessage] at htheld hmessages hcache htqueue
      rw [hqueue] at htqueue
      refine ⟨_, t, by rw [ht]; rfl, hsound, .final hheld hconcat hready ⟨?_, ?_, ?_, ?_⟩,
        fun k hk => ⟨?_, ?_, ?_, ?_⟩⟩
      · rw [view, htqueue, List.filter_nil]
      · show t.outOfBand.get? m.taskId = none
        rw [htheld, OrderedDict.get?_pop, if_pos rfl]
      · have hset := hset m.taskId m
        rw [if_pos rfl, ← hcache] at hset
        exact hset
      · have hmessages := hmessages m.taskId
        rw [if_pos rfl] at hmessages
        exact hmessages.trans (suffix_concat hown.buffered m)
      · simp only [view, htqueue, hqueue]
      · show t.outOfBand.get? k = s.outOfBand.get? k
        rw [htheld, OrderedDict.get?_pop, if_neg hk]
      · have hset := hset k m
        rw [if_neg hk, ← hcache] at hset
        exact hset
      · have hmessages := hmessages k
        rw [if_neg hk] at hmessages
        exact hmessages
    next hready =>
      refine ⟨_, _, rfl, h, .state hheld hconcat hready ⟨?_, hheld_s, ?_, hown.buffered⟩,
        fun k hk => ⟨?_, rfl, ?_, List.suffix_rfl⟩⟩
      · show (m :: s.queue).filter (fun m' => m'.taskId = m.taskId) = [m]
        rw [hqueue, List.filter_cons_of_pos (by simp), List.filter_nil]
      · have hset := hset m.taskId m
        rw [if_pos rfl] at hset
        exact hset
      · show (m :: s.queue).filter (fun m' => m'.taskId = k) = _
        rw [List.filter_cons_of_neg (by simpa using Ne.symm hk)]
        rfl
      · have hset := hset k m
        rw [if_neg hk] at hset
        exact hset

/-- **A poll**: what it does to its task, and to the others. -/
theorem exists_getTaskMeta (h : Client.Sound id s.client) (taskId : K) (backlogLimit : ℕ) :
    ∃ reply t, getTaskMeta cache id s taskId backlogLimit = .ok (reply, t) ∧
      Client.Sound id t.client ∧
      Polled cache.Unlimited (view cache s taskId) reply (view cache t taskId) ∧
      ∀ k, k ≠ taskId → Change cache.Unlimited (view cache s k) (view cache t k) := by
  rw [getTaskMeta]
  cases hheld : s.outOfBand.get? taskId with
  | some buffered =>
    refine ⟨_, _, rfl, h, .held hheld ⟨rfl, ?_, ?_, List.suffix_rfl⟩, fun k hk => ?_⟩
    · show (s.outOfBand.pop taskId).get? taskId = none
      rw [OrderedDict.get?_pop, if_pos rfl]
    · have hset := kept_set cache s.cache taskId taskId buffered
      rwa [if_pos rfl] at hset
    · refine Idle.change ⟨rfl, ?_, ?_, List.suffix_rfl⟩
      · show (s.outOfBand.pop taskId).get? k = _
        rw [OrderedDict.get?_pop, if_neg hk]
        rfl
      · have hset := kept_set cache s.cache taskId k buffered
        rwa [if_neg hk] at hset
  | none =>
    dsimp only
    split
    · -- the backlog is too long
      have hdrop : ∀ k, (s.queue.drop backlogLimit).filter (fun m => m.taskId = k) <:+
          (view cache s k).queue := fun k => (List.drop_suffix _ _).filter _
      exact ⟨_, _, rfl, h, .exceeded (hdrop taskId) (.refl _), fun k _ => .idle (hdrop k) (.refl _)⟩
    · obtain ⟨hget, hkeys⟩ := latestById_spec s.queue
      set latest := latestById s.queue with hlatest
      set swept : RPCBackend C K R V B := { s with queue := [] } with hswept
      have hitems : ∀ e ∈ (latest.pop taskId).items, e.2.taskId = e.1 := fun e he =>
        hkeys e.1 e.2 (OrderedDict.get?_of_mem (List.mem_of_mem_filter he))
      obtain ⟨t, ht, hsound, hqueue, hhit, hmiss⟩ :=
        exists_sweep cache (s := swept) h (latest.pop taskId).items hitems
          (latest.pop taskId).nodup
      have hlookup : ∀ k, (latest.pop taskId).items.lookup k =
          if k = taskId then none else latest.get? k := OrderedDict.get?_pop latest taskId
      have hown : Idle cache.Unlimited (view cache swept taskId) (view cache t taskId) :=
        hmiss taskId (by rw [hlookup, if_pos rfl])
      have hothers : ∀ k, k ≠ taskId →
          Change cache.Unlimited (view cache s k) (view cache t k) := by
        intro k hk
        have hlatest_k := (hlookup k).trans ((if_neg hk).trans (hget k))
        rcases List.eq_nil_or_concat' (s.queue.filter fun m => m.taskId = k) with
          hnil | ⟨queue, m, hconcat⟩
        · rw [hnil] at hlatest_k
          exact .idle List.nil_suffix (hmiss k hlatest_k)
        · rw [hconcat, List.getLast?_concat] at hlatest_k
          exact .sweep hconcat (hhit k m hlatest_k)
      have hid : ∀ m, (view cache s taskId).queue.getLast? = some m → m.taskId = taskId :=
        fun m hm => hkeys taskId m ((hget taskId).trans hm)
      obtain ⟨reply, x, hx, hxsound, hpolled, hrest⟩ :=
        exists_replyLatest cache (v := view cache s taskId) hsound hqueue hheld hid hown
      refine ⟨reply, x, ?_, hxsound, hpolled, fun k hk => (hothers k hk).trans_idle (hrest k hk)⟩
      rw [ht, hget]
      exact hx

/-- The states of a task that an event stores. -/
def stored (k : K) : Event K R V → List (Meta K V)
  | .storeResult meta_ => if meta_.taskId = k then [meta_] else []
  | _ => []

/-- **An event never raises**, and this is what it does to each task. -/
theorem exists_step (h : Client.Sound id s.client) (e : Event K R V) :
    ∃ t, step cache id s e = .ok t ∧ Client.Sound id t.client ∧
      ∀ k, Moved cache.Unlimited (view cache s k) (stored k e) (view cache t k) := by
  have hpoll : ∀ {taskId k : K} {reply : Reply K V} {t : RPCBackend C K R V B},
      Polled cache.Unlimited (view cache s taskId) reply (view cache t taskId) →
      (∀ k, k ≠ taskId → Change cache.Unlimited (view cache s k) (view cache t k)) →
      Moved cache.Unlimited (view cache s k) [] (view cache t k) := by
    intro taskId k reply t hpolled hothers
    by_cases hk : k = taskId
    · rw [hk]
      exact .polled hpolled
    · exact .change (hothers k hk)
  cases e with
  | storeResult meta_ =>
    refine ⟨_, rfl, h, fun k => ?_⟩
    have hview : view cache { s with queue := s.queue ++ [meta_] } k =
        { view cache s k with
          queue := (view cache s k).queue ++ [meta_].filter (fun m => m.taskId = k) } := by
      simp only [view, List.filter_append]
    rw [hview, stored]
    split
    next hk =>
      rw [List.filter_cons_of_pos (by simpa using hk), List.filter_nil]
      exact .stored meta_
    next hk =>
      rw [List.filter_cons_of_neg (by simpa using hk), List.filter_nil, List.append_nil]
      exact .change (Idle.change (.refl _))
  | getTaskMeta taskId backlogLimit =>
    obtain ⟨reply, t, ht, hsound, hpolled, hothers⟩ :=
      exists_getTaskMeta cache h taskId backlogLimit
    exact ⟨t, by rw [step, ht]; rfl, hsound, fun k => hpoll hpolled hothers⟩
  | resultMeta result backlogLimit =>
    rw [step, resultMeta]
    cases s.client.cache result with
    | some _ => exact ⟨s, rfl, h, fun k => .change (Idle.change (.refl _))⟩
    | none =>
      obtain ⟨reply, t, ht, hsound, hpolled, hothers⟩ :=
        exists_getTaskMeta cache h (id result) backlogLimit
      have hmoved : ∀ k, Moved cache.Unlimited (view cache s k) [] (view cache t k) :=
        fun k => hpoll hpolled hothers
      simp only [ht]
      cases reply with
      | backlogLimitExceeded => exact ⟨t, rfl, hsound, hmoved⟩
      | meta_ reply =>
        cases reply with
        | none => exact ⟨t, rfl, hsound, hmoved⟩
        | some meta_ =>
          refine ⟨_, rfl, hsound.maybeSetCache result meta_, fun k => ?_⟩
          have hview : view cache { t with
              client := Client.maybeSetCache id t.client result meta_ } k = view cache t k := by
            simp only [view, Client.pendingMessages_maybeSetCache]
          rw [hview]
          exact hmoved k
  | drainEvents =>
    rw [step, drainEvents]
    cases hqueue : s.queue with
    | nil => exact ⟨s, rfl, h, fun k => .change (Idle.change (.refl _))⟩
    | cons message queue =>
      obtain ⟨t, ht, hsound, htqueue, hcache, hheld, hmessages⟩ :=
        exists_onStateChange (s := { s with queue }) h message
      refine ⟨t, ht, hsound, fun k => .change ?_⟩
      have hmessages := hmessages k
      have hcached : Kept cache.Unlimited (view cache s k).cached (view cache t k).cached :=
        .inl (by simp only [view, hcache])
      have hqueue_t : (view cache t k).queue = queue.filter fun m => m.taskId = k := by
        rw [view, htqueue]
      by_cases hfinal : message.ready = true ∧ k = message.taskId
      · rw [if_pos hfinal] at hmessages
        rw [if_pos hfinal.1] at hheld
        have hcons : (view cache s k).queue = message :: queue.filter fun m => m.taskId = k := by
          rw [view, hqueue, List.filter_cons_of_pos (by simpa using hfinal.2.symm)]
        refine .consume hcons hfinal.1 ⟨hqueue_t, ?_, hcached, hmessages⟩
        show t.outOfBand.get? k = none
        rw [hheld, OrderedDict.get?_pop, if_pos hfinal.2]
      · rw [if_neg hfinal] at hmessages
        have hsuffix : (queue.filter fun m => m.taskId = k) <:+ (view cache s k).queue := by
          rw [view, hqueue]
          exact (List.suffix_cons message queue).filter _
        refine .idle hsuffix ⟨hqueue_t, ?_, hcached, hmessages⟩
        show t.outOfBand.get? k = s.outOfBand.get? k
        rw [hheld]
        split
        next hready =>
          have hne : k ≠ message.taskId := fun hk => hfinal ⟨hready, hk⟩
          rw [OrderedDict.get?_pop, if_neg hne]
        · rfl
  | addPendingResult result weak =>
    refine ⟨_, rfl, h.addPendingResult result weak, fun k => .change (Idle.change ?_)⟩
    exact ⟨rfl, rfl, .refl _ _, Client.addPendingResult_suffix s.client result weak k⟩
  | removePendingResult result =>
    exact ⟨_, rfl, h.removePendingResult result, fun k => .change (Idle.change (.refl _))⟩
  | forget taskId =>
    refine ⟨_, rfl, h.forget taskId, fun k => .change ?_⟩
    have hmessages := s.client.pendingMessages.messages_popPending taskId k
    by_cases hk : k = taskId
    · rw [if_pos hk] at hmessages
      refine .forget ⟨rfl, ?_, .inl ?_, ?_⟩
      · show (s.outOfBand.pop taskId).get? k = none
        rw [OrderedDict.get?_pop, if_pos hk]
      · exact (cache.find_pop s.cache taskId k).trans (if_pos hk)
      · show (s.client.pendingMessages.popPending taskId).messages k <:+ []
        rw [hmessages]
    · rw [if_neg hk] at hmessages
      refine Idle.change ⟨rfl, ?_, .inl ?_, ?_⟩
      · show (s.outOfBand.pop taskId).get? k = s.outOfBand.get? k
        rw [OrderedDict.get?_pop, if_neg hk]
      · exact (cache.find_pop s.cache taskId k).trans (if_neg hk)
      · show (s.client.pendingMessages.popPending taskId).messages k <:+ _
        rw [hmessages]
        exact List.suffix_rfl

end Calls

end Rpc
end Celery
