/-
# `celery/backends/redis.py`: `ResultConsumer`

The consumer of results is to be subscribed to the channels in `subscribed_to`:
`_reconnect_pubsub` and `start` (lines 149-207), `drain_events` and `_drain_one` (lines
240-285), `consume_from`, `cancel_for` and what they call (lines 299-369), and
`reconnect_on_error` of `celery/backends/asynchronous.py` (lines 340-363).

While the lock is held, a cancel only leaves its key to the holder, who unsubscribes on the
way out.  A call to Redis may raise, and the reconnection that follows subscribes a new
pub/sub object to all of `subscribed_to`.  If it is given up, it leaves no object, or one
without these channels, and `start` would subscribe the next one to a single channel
(`synced_start_iff`).  So the object is subscribed to what is in `subscribed_to` after every
operation, as long as no reconnection is given up over its own subscribing, and none starts
anew with channels left (`synced_of_run`).

What is decoded of the messages, the callbacks of results, and the waiting for the socket
outside of the lock are left out, as are `stop` and `on_after_fork`, which close the object.
-/

import Celery.Library.Raising
import Celery.Library.Transition
import Mathlib.Data.Finset.Basic
import Mathlib.Data.Finset.Image

namespace Celery
namespace ResultConsumer

open Raising

variable {K : Type}

/-! ## What Redis answers -/

/-- A call to Redis: the keys that are cancelled while it runs, and if it raises a connection
error, the channels that the pub/sub object has then. -/
structure Answer (K : Type) where
  cancels : List K
  error : Option (Finset K)

/-- The answers to an attempt to reconnect, and the keys that are cancelled when
`_pending_unsubscribe` is about to be cleared. -/
structure Attempt (K : Type) where
  mget : Answer K
  clearing : List K
  subscribe : Answer K
  getConnection : Answer K

/-- The answer to a call of an operation, and the attempts to reconnect if it raises.  The
last of them is the one after which `retry_over_time` gives up. -/
structure Call (K : Type) where
  answer : Answer K
  attempt : Attempt K
  retries : List (Attempt K)

/-- A call that returns. -/
def Answer.returns : Answer K := ⟨[], none⟩

/-- A call that returns, of which no other attempts follow. -/
def Call.returns : Call K := ⟨.returns, ⟨.returns, [], .returns, .returns⟩, []⟩

/-- The attempt after which the reconnection is given up. -/
def Call.last (c : Call K) : Attempt K := (c.attempt :: c.retries).getLast (by simp)

/-! ## The consumer -/

/-- `ResultConsumer`: the channels of its pub/sub object, if it has one, and what it believes
to be subscribed to. -/
structure Consumer (K : Type) where
  pubsub : Option (Finset K)
  subscribedTo : Finset K
  pendingUnsubscribe : List K
  lockDepth : ℕ

/-- `ResultConsumer()`. -/
def init : Consumer K := ⟨none, ∅, [], 0⟩

/-- The consumer, the calls to come, and which of the pending keys will be popped. -/
structure World (K : Type) extends Consumer K where
  calls : List (Call K)
  picks : List ℕ

/-- The errors of the consumer: one of `_connection_errors`, or a `RuntimeError`. -/
inductive Error where
  | connection
  | runtime
deriving DecidableEq, Repr

/-- Code of the consumer. -/
abbrev Prog (K α : Type) := ExceptT Error (StateM (World K)) α

variable [DecidableEq K]

/-- `cancel_for`, where the lock is held: the keys are left to the holder. -/
def cancelLocked (keys : List K) : Prog K Unit :=
  modify fun w => { w with pendingUnsubscribe := keys.union w.pendingUnsubscribe }

/-- A call to Redis that nothing is subscribed by. -/
def respond (answer : Answer K) : Prog K Unit := do
  cancelLocked answer.cancels
  if answer.error.isSome then throw .connection

/-- A command of `_pubsub`, which changes its channels. -/
def command (change : Finset K → Finset K) (answer : Answer K) : Prog K Unit := do
  cancelLocked answer.cancels
  match answer.error with
  | none => modify fun w => { w with pubsub := w.pubsub.map change }
  | some channels => do
    modify fun w => { w with pubsub := w.pubsub.map fun _ => channels }
    throw .connection

/-- `_pubsub.subscribe`. -/
def subscribe (keys : Finset K) : Answer K → Prog K Unit := command (· ∪ keys)

/-- `_pubsub.unsubscribe`. -/
def unsubscribe (key : K) : Answer K → Prog K Unit := command (·.erase key)

/-- The next call. -/
def nextCall : Prog K (Call K) := do
  let w ← get
  set { w with calls := w.calls.tail }
  return w.calls.headD .returns

/-- `_locked`, with what is flushed on exit. -/
def locked (flush body : Prog K Unit) : Prog K Unit := do
  modify fun w => { w with lockDepth := w.lockDepth + 1 }
  tryCatch body fun e => do
    modify fun w => { w with lockDepth := w.lockDepth - 1 }
    tryCatch flush fun _ => pure ()
    throw e
  modify fun w => { w with lockDepth := w.lockDepth - 1 }
  flush

/-- The metas of all subscribed tasks are retrieved. -/
def retrieveMetas (attempt : Attempt K) : Prog K Unit := do
  if (← get).subscribedTo ≠ ∅ then respond attempt.mget

/-- The cancels that were queued are forgotten. -/
def forgetPending (attempt : Attempt K) : Prog K Unit := do
  modify fun w => { w with subscribedTo := w.subscribedTo \ w.pendingUnsubscribe.toFinset }
  cancelLocked attempt.clearing
  modify fun w => { w with pendingUnsubscribe := [] }

/-- The new object is subscribed, or gets its connection. -/
def resubscribe (attempt : Attempt K) : Prog K Unit := do
  let w ← get
  if w.subscribedTo ≠ ∅ then subscribe w.subscribedTo attempt.subscribe
  else respond attempt.getConnection

/-- `_reconnect_pubsub`.  The lock is held, so that nothing is flushed on exit. -/
def reconnectPubsub (attempt : Attempt K) : Prog K Unit :=
  locked (pure ()) do
    modify fun w => { w with pubsub := none }
    retrieveMetas attempt
    modify fun w => { w with pubsub := some ∅ }
    forgetPending attempt
    resubscribe attempt

/-- `_ensure`, of `_reconnect_pubsub`. -/
def ensure (attempt : Attempt K) : List (Attempt K) → Prog K Unit
  | [] => reconnectPubsub attempt
  | next :: retries => tryCatch (reconnectPubsub attempt) fun _ => ensure next retries

/-- `reconnect_on_error`. -/
def reconnectOnError (call : Call K) (body : Prog K Unit) : Prog K Unit :=
  tryCatch body fun e =>
    if e = .connection then
      tryCatch (ensure call.attempt call.retries) fun _ => throw .runtime
    else throw e

/-- `_pending_unsubscribe.pop`. -/
def World.pop (w : World K) : Option (K × World K) :=
  match w.pendingUnsubscribe[w.picks.headD 0 % w.pendingUnsubscribe.length]? with
  | none => none
  | some key =>
    some (key, { w with
      pendingUnsubscribe := w.pendingUnsubscribe.filter (· ≠ key)
      picks := w.picks.tail })

theorem World.pop_eq_none_iff {w : World K} : w.pop = none ↔ w.pendingUnsubscribe = [] := by
  rw [World.pop]
  split
  next hnone =>
    refine iff_of_true rfl (List.length_eq_zero_iff.mp ?_)
    by_contra hpos
    have hlt := Nat.mod_lt (w.picks.headD 0) (Nat.pos_of_ne_zero hpos)
    exact absurd (List.getElem?_eq_none_iff.mp hnone) (Nat.not_le.mpr hlt)
  next key hsome =>
    refine iff_of_false (Option.some_ne_none _) fun hnil => ?_
    rw [hnil, List.getElem?_nil] at hsome
    cases hsome

/-- What is popped was pending. -/
theorem World.pop_eq_some {w w' : World K} {key : K} (h : w.pop = some (key, w')) :
    key ∈ w.pendingUnsubscribe ∧ w' = { w with
      pendingUnsubscribe := w.pendingUnsubscribe.filter (· ≠ key), picks := w.picks.tail } := by
  rw [World.pop] at h
  split at h
  next => cases h
  next hsome =>
    obtain ⟨rfl, rfl⟩ := Prod.mk.inj (Option.some_inj.mp h)
    exact ⟨List.mem_of_getElem? hsome, rfl⟩

/-- The body of the loop, of a key that was popped. -/
def flushKey (key : K) : Prog K Unit := do
  if key ∈ (← get).subscribedTo then
    modify fun w => { w with subscribedTo := w.subscribedTo.erase key }
    if (← get).pubsub.isSome then
      let call ← nextCall
      reconnectOnError call (unsubscribe key call.answer)

/-- The loop of `_flush_pending_unsubscribe`. -/
def flushLoop : ℕ → Prog K Unit
  | 0 => pure ()
  | n + 1 => do
    match (← get).pop with
    | none => pure ()
    | some (key, w) => do
      set w
      flushKey key
      flushLoop n

/-- All cancels of an attempt. -/
def Attempt.cancels (attempt : Attempt K) : List K :=
  attempt.mget.cancels ++ attempt.clearing ++ attempt.subscribe.cancels ++
    attempt.getConnection.cancels

/-- All cancels of a call. -/
def Call.cancels (call : Call K) : List K :=
  call.answer.cancels ++ (call.attempt :: call.retries).flatMap Attempt.cancels

/-- The number of keys that may have to be flushed. -/
def World.rounds (w : World K) : ℕ :=
  w.pendingUnsubscribe.length + (w.calls.flatMap Call.cancels).length

/-- `_flush_pending_unsubscribe`. -/
def flushPendingUnsubscribe : Prog K Unit := do
  let w ← get
  if w.lockDepth ≠ 0 then pure ()
  else do
    modify fun w => { w with lockDepth := w.lockDepth + 1 }
    tryCatch (flushLoop (w.rounds + 1)) fun e => do
      modify fun w => { w with lockDepth := w.lockDepth - 1 }
      throw e
    modify fun w => { w with lockDepth := w.lockDepth - 1 }

/-- `_consume_from`. -/
def consumeFromLocked (key : K) : Prog K Unit := do
  modify fun w => { w with pendingUnsubscribe := w.pendingUnsubscribe.filter (· ≠ key) }
  if key ∉ (← get).subscribedTo then
    modify fun w => { w with subscribedTo := insert key w.subscribedTo }
    let call ← nextCall
    reconnectOnError call (subscribe {key} call.answer)

/-- `start`. -/
def start (key : K) : Prog K Unit :=
  locked flushPendingUnsubscribe do
    modify fun w => { w with pubsub := some ∅ }
    consumeFromLocked key

/-- `consume_from`, with the keys that are cancelled when it has got the lock. -/
def consumeFrom (key : K) (cancels : List K) : Prog K Unit :=
  locked flushPendingUnsubscribe do
    cancelLocked cancels
    if (← get).pubsub = none then start key else consumeFromLocked key

/-- `cancel_for`. -/
def cancelFor (key : K) : Prog K Unit := do
  cancelLocked [key]
  flushPendingUnsubscribe

/-- `drain_events`, as far as the lock is held: `_drain_one`, if there is a pub/sub object. -/
def drainEvents (cancels : List K) : Prog K Unit :=
  locked flushPendingUnsubscribe do
    cancelLocked cancels
    if (← get).pubsub.isSome then
      let call ← nextCall
      reconnectOnError call (respond call.answer)

/-! ## Runs -/

/-- An operation that is called from outside. -/
inductive Op (K : Type) where
  | consumeFrom (key : K) (cancels : List K)
  | cancelFor (key : K)
  | drainEvents (cancels : List K)

/-- An operation, and what happens to it. -/
structure Action (K : Type) where
  op : Op K
  calls : List (Call K)
  picks : List ℕ

/-- The code of an operation. -/
def Op.prog : Op K → Prog K Unit
  | consumeFrom key cancels => ResultConsumer.consumeFrom key cancels
  | cancelFor key => ResultConsumer.cancelFor key
  | drainEvents cancels => ResultConsumer.drainEvents cancels

/-- How an operation ends. -/
def Action.run (a : Action K) (s : Consumer K) : Except Error Unit × World K :=
  exec a.op.prog { s with calls := a.calls, picks := a.picks }

/-- The consumer after an operation. -/
def step (s : Consumer K) (a : Action K) : Consumer K := (a.run s).2.toConsumer

/-- **The object is subscribed to what the consumer believes.** -/
def Synced (s : Consumer K) : Prop := ∀ channels ∈ s.pubsub, channels = s.subscribedTo

instance : DecidablePred (Synced : Consumer K → Prop) := fun s =>
  inferInstanceAs (Decidable (∀ channels ∈ s.pubsub, channels = s.subscribedTo))

/-! ## What keeps the object subscribed -/

/-- The reconnection after this call, if it raises, is not given up over its subscribing. -/
def Call.Resubscribes (c : Call K) : Prop := c.answer.error.isSome → c.last.subscribe.error = none

/-- All reconnections to come are like that. -/
def World.Resubscribes (w : World K) : Prop := ∀ c ∈ w.calls, c.Resubscribes

omit [DecidableEq K] in
theorem synced_of_none {s : Consumer K} (h : s.pubsub = none) : Synced s := by
  intro channels hchannels
  rw [h] at hchannels
  cases hchannels

omit [DecidableEq K] in
theorem synced_iff_of_some {s : Consumer K} {channels : Finset K} (h : s.pubsub = some channels) :
    Synced s ↔ channels = s.subscribedTo := by
  rw [Synced, h]
  exact ⟨fun hs => hs channels rfl, fun heq channels' hc => Option.some_inj.mp hc ▸ heq⟩

omit [DecidableEq K] in
/-- What is changed on both sides. -/
theorem Synced.map {s : Consumer K} (hs : Synced s) (change : Finset K → Finset K) :
    ∀ channels ∈ s.pubsub.map change, channels = change s.subscribedTo := by
  intro channels hchannels
  obtain ⟨channels', hpubsub, rfl⟩ := Option.map_eq_some_iff.mp hchannels
  rw [hs channels' hpubsub]

/-- What an operation keeps. -/
def World.Kept (w : World K) : Prop := w.Resubscribes ∧ Synced w.toConsumer

section Rules

variable {P Q R : World K → Prop} {E : Error → World K → Prop}

theorem respond_spec (answer : Answer K)
    (hP : ∀ w keys, P w → Q { w with pendingUnsubscribe := keys }) :
    Triple P (respond answer) (fun _ => Q)
      fun e w => Q w ∧ e = .connection ∧ answer.error.isSome := by
  refine Triple.bind (Triple.modify fun w hw => hP w _ hw) fun _ => ?_
  exact Triple.ite (fun herror => Triple.throw fun w hw => ⟨hw, rfl, herror⟩)
    fun _ => Triple.pure fun w hw => hw

theorem command_spec {change : Finset K → Finset K} {answer : Answer K}
    (hQ : answer.error = none → ∀ w keys, P w → Q { w with
      pendingUnsubscribe := keys, pubsub := w.pubsub.map change })
    (hR : ∀ w keys pubsub, P w → R { w with pendingUnsubscribe := keys, pubsub := pubsub }) :
    Triple P (command change answer) (fun _ => Q)
      fun e w => R w ∧ e = .connection ∧ answer.error.isSome := by
  obtain ⟨cancels, error⟩ := answer
  -- what holds when the keys are left, and the channels are not yet changed
  refine Triple.bind (Q := fun _ w' => ∃ w keys, P w ∧ w' = { w with pendingUnsubscribe := keys })
    (Triple.modify fun w hw => ⟨w, _, hw, rfl⟩) fun _ => ?_
  cases error with
  | none =>
    refine Triple.modify fun w' hw => ?_
    obtain ⟨w, keys, hw, rfl⟩ := hw
    exact hQ rfl w keys hw
  | some channels =>
    refine Triple.bind (Triple.modify fun w' hw => ?_) fun _ =>
      Triple.throw fun w hw => ⟨hw, rfl, rfl⟩
    obtain ⟨w, keys, hw, rfl⟩ := hw
    exact hR w keys _ hw

omit [DecidableEq K] in
/-- Taking the next call: the rest may use what it is. -/
theorem nextCall_bind {f : Call K → Prog K Unit}
    (hf : ∀ w, P w → Triple (fun w' => w' = { w with calls := w.calls.tail })
      (f (w.calls.headD .returns)) (fun _ => Q) E) :
    Triple P (nextCall >>= f) (fun _ => Q) E := by
  intro w hw
  rw [exec_bind]
  exact hf w hw _ rfl

omit [DecidableEq K] in
/-- The rule for `_locked`. -/
theorem locked_spec {flush body : Prog K Unit} {A S : World K → Prop}
    {F G : Error → World K → Prop}
    (hP : ∀ w, P w → A { w with lockDepth := w.lockDepth + 1 })
    (hbody : Triple A body (fun _ => Q) E)
    (hQ : ∀ w, Q w → R { w with lockDepth := w.lockDepth - 1 })
    (hE : ∀ e w, E e w → F e { w with lockDepth := w.lockDepth - 1 })
    (hflush : Triple R flush (fun _ => S) G)
    (hraise : ∀ e, Triple (F e) flush (fun _ => G e) fun _ => G e) :
    Triple P (locked flush body) (fun _ => S) G := by
  refine Triple.bind (Triple.modify fun w hw => hP w hw) fun _ => ?_
  refine Triple.bind (Triple.tryCatch hbody fun e => ?_) fun _ => ?_
  · refine Triple.bind (Triple.modify fun w hw => hE e w hw) fun _ => ?_
    refine Triple.bind (Triple.tryCatch (hraise e) fun _ => Triple.pure fun w hw => hw) fun _ => ?_
    exact Triple.throw fun w hw => hw
  · exact Triple.bind (Triple.modify fun w hw => hQ w hw) fun _ => hflush

end Rules

/-! ## Every operation keeps it subscribed -/

/-- The errors of an attempt: without its subscribing, the object is subscribed, or missing. -/
def Attempt.Leaves (attempt : Attempt K) (_ : Error) (w : World K) : Prop :=
  w.Resubscribes ∧ (attempt.subscribe.error = none → Synced w.toConsumer)

theorem retrieveMetas_spec (attempt : Attempt K) :
    Triple (fun w => w.Resubscribes ∧ w.pubsub = none) (retrieveMetas attempt)
      (fun _ => World.Resubscribes) attempt.Leaves := by
  refine Triple.get_bind fun w hw => Triple.ite (fun _ => ?_) fun _ => Triple.pure ?_
  · have hmget := respond_spec attempt.mget (P := fun w => w.Resubscribes ∧ w.pubsub = none)
      (Q := fun w => w.Resubscribes ∧ w.pubsub = none) fun _ _ hw' => hw'
    exact ((hmget.of_state hw).post fun _ _ hw' => hw'.1).error fun _ _ hw' =>
      ⟨hw'.1.1, fun _ => synced_of_none hw'.1.2⟩
  · rintro w' rfl
    exact hw.1

theorem forgetPending_spec (attempt : Attempt K) {E : Error → World K → Prop} :
    Triple (fun w => w.Resubscribes ∧ w.pubsub = some ∅) (forgetPending attempt)
      (fun _ w => w.Resubscribes ∧ w.pubsub = some ∅) E := by
  refine Triple.bind (Q := fun _ w => w.Resubscribes ∧ w.pubsub = some ∅)
    (Triple.modify fun w hw => ⟨hw.1, hw.2⟩) fun _ => ?_
  exact Triple.bind (Q := fun _ w => w.Resubscribes ∧ w.pubsub = some ∅)
    (Triple.modify fun w hw => ⟨hw.1, hw.2⟩) fun _ => Triple.modify fun w hw => ⟨hw.1, hw.2⟩

theorem resubscribe_spec (attempt : Attempt K) :
    Triple (fun w => w.Resubscribes ∧ w.pubsub = some ∅) (resubscribe attempt)
      (fun _ => World.Kept) attempt.Leaves := by
  refine Triple.get_bind fun w hw => Triple.ite (fun _ => ?_) fun hempty => ?_
  · refine (command_spec (Q := World.Kept) (R := World.Resubscribes) ?_ ?_).error
      fun e w' hw' => ?_
    · rintro - w' keys rfl
      have hpubsub : w'.pubsub.map (· ∪ w'.subscribedTo) = some w'.subscribedTo := by
        rw [hw.2, Option.map_some, Finset.empty_union]
      exact ⟨hw.1, (synced_iff_of_some hpubsub).mpr rfl⟩
    · rintro w' keys pubsub rfl
      exact hw.1
    · exact ⟨hw'.1, fun hnone => by simp [hnone] at hw'⟩
  · refine (respond_spec _ (Q := World.Kept) ?_).error
      fun _ _ hw' => ⟨hw'.1.1, fun _ => hw'.1.2⟩
    rintro w' keys rfl
    exact ⟨hw.1, (synced_iff_of_some hw.2).mpr (not_not.mp hempty).symm⟩

/-- **An attempt to reconnect** ends with an object that is subscribed, or without one, unless
its subscribing raises. -/
theorem reconnectPubsub_spec (attempt : Attempt K) :
    Triple World.Resubscribes (reconnectPubsub attempt) (fun _ => World.Kept)
      attempt.Leaves := by
  refine locked_spec (A := World.Resubscribes) (Q := World.Kept) (R := World.Kept)
    (E := attempt.Leaves) (F := attempt.Leaves) (fun w hw => hw) ?_ (fun w hw => hw)
    (fun e w hw => hw) (Triple.pure fun w hw => hw) fun e => Triple.pure fun w hw => hw
  refine Triple.bind (Q := fun _ w => w.Resubscribes ∧ w.pubsub = none)
    (Triple.modify fun w hw => ⟨hw, rfl⟩) fun _ => ?_
  refine Triple.bind (retrieveMetas_spec attempt) fun _ => ?_
  refine Triple.bind (Q := fun _ w => w.Resubscribes ∧ w.pubsub = some ∅)
    (Triple.modify fun w hw => ⟨hw, rfl⟩) fun _ => ?_
  exact Triple.bind (forgetPending_spec attempt) fun _ => resubscribe_spec attempt

/-- **A reconnection**, however many attempts it takes. -/
theorem ensure_leads (attempt : Attempt K) (retries : List (Attempt K))
    (hlast : ((attempt :: retries).getLast (by simp)).subscribe.error = none) :
    Leads World.Resubscribes (ensure attempt retries) World.Kept := by
  induction retries generalizing attempt with
  | nil =>
    exact (reconnectPubsub_spec attempt).error fun _ _ hw => ⟨hw.1, hw.2 hlast⟩
  | cons next retries ih =>
    refine Triple.tryCatch (E := fun _ => World.Resubscribes)
      ((reconnectPubsub_spec attempt).error fun _ _ hw => hw.1) fun _ => ih next ?_
    rwa [List.getLast_cons (by simp)] at hlast

/-- A call that raises is followed by a reconnection. -/
theorem reconnectOnError_leads {call : Call K} {body : Prog K Unit} {P : World K → Prop}
    (hcall : call.Resubscribes) (hbody : Triple P body (fun _ => World.Kept)
      fun e w => w.Resubscribes ∧ e = .connection ∧ call.answer.error.isSome) :
    Leads P (reconnectOnError call body) World.Kept := by
  refine Triple.tryCatch hbody fun e => Triple.ite (fun _ => ?_) fun hne => ?_
  · intro w hw
    exact Triple.tryCatch (ensure_leads call.attempt call.retries (hcall hw.2.2))
      (fun _ => Triple.throw fun w hw => hw) w hw.1
  · exact Triple.throw fun w hw => absurd hw.2.1 hne

omit [DecidableEq K] in
/-- The next call is one of those to come. -/
theorem nextCall_resubscribes {w : World K} (hw : w.Resubscribes) :
    (w.calls.headD .returns).Resubscribes ∧
      World.Resubscribes { w with calls := w.calls.tail } := by
  refine ⟨?_, fun c hc => hw c (List.mem_of_mem_tail hc)⟩
  cases hcalls : w.calls with
  | nil => exact fun h => by cases h
  | cons c cs => exact hw c (hcalls ▸ List.mem_cons_self)

/-- A key that was popped is not subscribed to any more, on either side. -/
theorem flushKey_leads (key : K) : Leads World.Kept (flushKey key) World.Kept := by
  refine Triple.get_bind fun w hw => Triple.ite (fun _ => ?_) fun _ => Triple.pure fun w' hw' => ?_
  · -- now `subscribed_to` has lost the key, and the channels have not yet
    refine Triple.bind (Triple.modify (R := fun w' =>
      w' = { w with subscribedTo := w.subscribedTo.erase key }) fun w' hw' => by rw [hw'])
      fun _ => Triple.get_bind fun w' hw' => Triple.ite (fun hsome => ?_) fun hnone => ?_
    · refine nextCall_bind fun w'' hw'' => ?_
      subst hw'' hw'
      obtain ⟨hcall, htail⟩ := nextCall_resubscribes hw.1
      refine reconnectOnError_leads hcall (command_spec (fun _ => ?_) ?_)
      · rintro w' keys rfl
        exact ⟨htail, hw.2.map (·.erase key)⟩
      · rintro w' keys pubsub rfl
        exact htail
    · refine Triple.pure fun w'' hw'' => ?_
      subst hw'' hw'
      exact ⟨hw.1, synced_of_none (Option.not_isSome_iff_eq_none.mp hnone)⟩
  · exact hw' ▸ hw

theorem flushLoop_leads (n : ℕ) : Leads World.Kept (flushLoop n) (World.Kept : World K → Prop) := by
  induction n with
  | zero => exact Triple.pure fun w hw => hw
  | succ n ih =>
    refine Triple.get_bind fun w hw => ?_
    cases hpop : w.pop with
    | none => exact Triple.pure fun w' hw' => hw' ▸ hw
    | some popped =>
      obtain ⟨key, popped⟩ := popped
      have hpopped : popped.Kept := by
        obtain ⟨-, rfl⟩ := World.pop_eq_some hpop
        exact hw
      exact Triple.bind (Triple.set fun _ _ => hpopped) fun _ =>
        Triple.bind (flushKey_leads key) fun _ => ih

theorem flushPendingUnsubscribe_leads :
    Leads World.Kept flushPendingUnsubscribe (World.Kept : World K → Prop) := by
  refine Triple.get_bind fun w hw =>
    Triple.ite (fun _ => Triple.pure fun w' hw' => hw' ▸ hw) fun _ => ?_
  refine Triple.bind (Triple.modify (R := World.Kept) fun w' hw' => hw' ▸ hw) fun _ => ?_
  refine Triple.bind (Triple.tryCatch (flushLoop_leads _) fun e => ?_) fun _ =>
    Triple.modify fun w hw => ⟨hw.1, hw.2⟩
  exact Triple.bind (Triple.modify (R := World.Kept) fun w hw => ⟨hw.1, hw.2⟩) fun _ =>
    Triple.throw fun w hw => hw

/-- What is done under the lock may end in what an operation keeps. -/
theorem locked_leads {body : Prog K Unit} {P : World K → Prop}
    (hP : ∀ w d, P w → P { w with lockDepth := d }) (hbody : Leads P body World.Kept) :
    Leads P (locked flushPendingUnsubscribe body) World.Kept :=
  locked_spec (fun w => hP w _) hbody (fun _ hw => hw) (fun _ _ hw => hw)
    flushPendingUnsubscribe_leads fun _ => flushPendingUnsubscribe_leads

/-- Before `_consume_from`, the object is subscribed, or it will be by a reconnection. -/
def World.Entered (key : K) (w : World K) : Prop :=
  w.Resubscribes ∧ (Synced w.toConsumer ∨
    key ∉ w.subscribedTo ∧ (w.calls.headD .returns).answer.error.isSome)

/-- **A key is subscribed to on both sides**, if it was not. -/
theorem consumeFromLocked_leads (key : K) :
    Leads (World.Entered key) (consumeFromLocked key) World.Kept := by
  refine Triple.bind (Triple.modify (R := World.Entered key) fun w hw => hw) fun _ => ?_
  refine Triple.get_bind fun w hw => Triple.ite (fun hnew => ?_) fun hold => ?_
  · refine Triple.bind (Triple.modify (R := fun w' =>
      w' = { w with subscribedTo := insert key w.subscribedTo }) fun w' hw' => by rw [hw'])
      fun _ => nextCall_bind fun w' hw' => ?_
    subst hw'
    obtain ⟨hcall, htail⟩ := nextCall_resubscribes hw.1
    refine reconnectOnError_leads hcall (command_spec (fun hreturns => ?_) ?_)
    · rintro w' keys rfl
      have hsynced : Synced w.toConsumer := hw.2.resolve_right fun h => by
        rw [show (w.calls.headD .returns).answer.error = none from hreturns] at h
        cases h.2
      have hinsert : insert key w.subscribedTo = w.subscribedTo ∪ {key} := by
        rw [Finset.insert_eq, Finset.union_comm]
      refine ⟨htail, ?_⟩
      rw [hinsert]
      exact hsynced.map (· ∪ {key})
    · rintro w' keys pubsub rfl
      exact htail
  · refine Triple.pure fun w' hw' => ?_
    subst hw'
    exact ⟨hw.1, hw.2.resolve_right fun h => hold h.1⟩

/-- A new object is subscribed to one key, and so there must be no others. -/
theorem start_leads (key : K) :
    Leads (fun w => w.Resubscribes ∧ (w.subscribedTo = ∅ ∨
      key ∉ w.subscribedTo ∧ (w.calls.headD .returns).answer.error.isSome)) (start key)
      World.Kept := by
  refine locked_leads (fun _ _ hw => hw) ?_
  refine Triple.bind (Triple.modify (R := World.Entered key) fun w hw => ?_) fun _ =>
    consumeFromLocked_leads key
  refine ⟨hw.1, hw.2.imp_left fun hempty => ?_⟩
  exact (synced_iff_of_some rfl).mpr hempty.symm

/-- **When an operation may start anew.** -/
def Op.MayStart (calls : List (Call K)) (s : Consumer K) : Op K → Prop
  | consumeFrom key _ => s.pubsub = none → s.subscribedTo = ∅ ∨
      key ∉ s.subscribedTo ∧ (calls.headD .returns).answer.error.isSome
  | cancelFor _ => True
  | drainEvents _ => True

theorem consumeFrom_leads (key : K) (cancels : List K) :
    Leads (fun w => w.Kept ∧ (Op.consumeFrom key cancels).MayStart w.calls w.toConsumer)
      (consumeFrom key cancels) World.Kept := by
  refine locked_leads (fun _ _ hw => hw) ?_
  refine Triple.bind (Triple.modify (R := fun w =>
    w.Kept ∧ (Op.consumeFrom key cancels).MayStart w.calls w.toConsumer) fun w hw => hw) fun _ => ?_
  refine Triple.get_bind fun w hw => Triple.ite (fun hnone => ?_) fun _ => ?_
  · exact (start_leads key).of_state ⟨hw.1.1, hw.2 hnone⟩
  · exact (consumeFromLocked_leads key).of_state ⟨hw.1.1, Or.inl hw.1.2⟩

theorem cancelFor_leads (key : K) : Leads World.Kept (cancelFor key) World.Kept :=
  Triple.bind (Triple.modify (R := World.Kept) fun _ hw => hw) fun _ =>
    flushPendingUnsubscribe_leads

theorem drainEvents_leads (cancels : List K) :
    Leads World.Kept (drainEvents cancels) World.Kept := by
  refine locked_leads (fun _ _ hw => hw) ?_
  refine Triple.bind (Triple.modify (R := World.Kept) fun _ hw => hw) fun _ => ?_
  refine Triple.get_bind fun w hw => Triple.ite (fun _ => nextCall_bind fun w' hw' => ?_)
    fun _ => Triple.pure fun w' hw' => hw' ▸ hw
  subst hw'
  obtain ⟨hcall, htail⟩ := nextCall_resubscribes hw.1
  refine reconnectOnError_leads hcall ((respond_spec _ (Q := World.Kept) ?_).error
    fun _ _ hw' => ⟨hw'.1.1, hw'.2⟩)
  rintro w' keys rfl
  exact ⟨htail, hw.2⟩

/-- **What happens to an operation.**  No reconnection is given up over its subscribing, and
none starts anew with channels left, unless its own call raises. -/
structure Action.Allowed (s : Consumer K) (a : Action K) : Prop where
  resubscribes : ∀ c ∈ a.calls, c.Resubscribes
  mayStart : a.op.MayStart a.calls s

/-- **An operation keeps the object subscribed.** -/
theorem synced_step {s : Consumer K} {a : Action K} (hs : Synced s) (ha : a.Allowed s) :
    Synced (step s a) := by
  obtain ⟨op, calls, picks⟩ := a
  have hleads : Leads (fun w => w.Kept ∧ op.MayStart w.calls w.toConsumer) op.prog World.Kept := by
    cases op with
    | consumeFrom key cancels => exact consumeFrom_leads key cancels
    | cancelFor key => exact (cancelFor_leads key).pre fun _ hw => hw.1
    | drainEvents cancels => exact (drainEvents_leads cancels).pre fun _ hw => hw.1
  have hend := hleads { s with calls := calls, picks := picks } ⟨⟨ha.resubscribes, hs⟩, ha.mayStart⟩
  rw [step, Action.run]
  cases hexec : exec op.prog { s with calls := calls, picks := picks } with
  | mk r w =>
    cases r with
    | ok _ => exact (hend.1 () w hexec).2
    | error e => exact (hend.2 e w hexec).2

/-- **In every run, the object is subscribed to what the consumer believes**, as long as what
happens to the operations is allowed. -/
theorem synced_of_run {actions : List (Action K)} {s : Consumer K}
    (h : Transition.Run (fun s a t => a.Allowed s ∧ step s a = t) init actions s) : Synced s := by
  refine Transition.Run.invariant (P := fun _ => True) (I := Synced) ?_ h (synced_of_none rfl)
    fun _ _ => trivial
  intro t a u ht _ hstep
  exact hstep.2 ▸ synced_step ht hstep.1

/-- A call that raises, and the attempts after it. -/
def Call.raises (attempt : Attempt K) (retries : List (Attempt K)) : Call K :=
  ⟨⟨[], some ∅⟩, attempt, retries⟩

/-- An attempt that succeeds, where Redis does so. -/
def Attempt.returns : Attempt K := ⟨.returns, [], .returns, .returns⟩

/-- An attempt that fails when the metas are retrieved. -/
def Attempt.raises : Attempt K := { (Attempt.returns : Attempt K) with mget := ⟨[], some ∅⟩ }

/-- A connection error, and a reconnection at the second attempt. -/
theorem synced_of_run_reconnected :
    Synced (step (step init ⟨.consumeFrom 0 [], [], []⟩)
      ⟨.drainEvents [], [.raises .raises [.returns]], []⟩ : Consumer ℕ) := by
  have hreconnects : ∀ c ∈ [(.raises .raises [.returns] : Call ℕ)], c.Resubscribes := by
    intro c hc _
    rw [List.mem_singleton.mp hc]
    rfl
  have hfirst : Action.Allowed init (⟨.consumeFrom 0 [], [], []⟩ : Action ℕ) :=
    ⟨List.forall_mem_nil _, fun _ => Or.inl rfl⟩
  have hsecond : ∀ s, Action.Allowed s
      (⟨.drainEvents [], [.raises .raises [.returns]], []⟩ : Action ℕ) :=
    fun s => ⟨hreconnects, trivial⟩
  exact synced_of_run (.snoc (.snoc .nil ⟨hfirst, rfl⟩) ⟨hsecond _, rfl⟩)

/-- The reconnection is given up, and the next task starts anew: the channel of the first one
is lost. -/
theorem not_synced_after_start :
    ¬ ∀ actions : List (Action ℕ), Synced (actions.foldl step init) := by
  intro h
  have hlost := h [⟨.consumeFrom 0 [], [], []⟩, ⟨.drainEvents [], [.raises .raises []], []⟩,
    ⟨.consumeFrom 1 [], [], []⟩]
  exact absurd hlost (by decide)

/-! ## An operation that starts anew -/

theorem exec_flushPendingUnsubscribe_of_nil {w : World K} (hpending : w.pendingUnsubscribe = []) :
    exec flushPendingUnsubscribe w = (.ok (), w) := by
  have hpop : ∀ d, World.pop { w with lockDepth := d } = none := fun _ =>
    World.pop_eq_none_iff.mpr hpending
  rw [flushPendingUnsubscribe, exec_bind, exec_get]
  by_cases hdepth : w.lockDepth = 0
  · simp only [hdepth, ne_eq, not_true_eq_false, if_false, exec_bind, exec_modify, exec_tryCatch,
      flushLoop, exec_get, hpop, exec_pure]
    rw [Nat.zero_add, Nat.sub_self, ← hdepth]
  · simp only [hdepth, ne_eq, not_false_eq_true, if_true, exec_pure]

/-- Without calls that raise, a key is added. -/
theorem exec_consumeFromLocked {w : World K} (hcalls : w.calls = []) (key : K)
    (hpending : w.pendingUnsubscribe = []) :
    exec (consumeFromLocked key) w = (.ok (), { w with
      pubsub := if key ∈ w.subscribedTo then w.pubsub else w.pubsub.map (· ∪ {key})
      subscribedTo := insert key w.subscribedTo }) := by
  obtain ⟨⟨pubsub, subscribedTo, pendingUnsubscribe, lockDepth⟩, calls, picks⟩ := w
  obtain rfl : calls = [] := hcalls
  obtain rfl : pendingUnsubscribe = [] := hpending
  rw [consumeFromLocked, exec_bind, exec_modify]
  by_cases hkey : key ∈ subscribedTo
  · simp only [exec_bind, exec_get, hkey, not_true_eq_false, if_false, exec_pure, if_true,
      Finset.insert_eq_of_mem, List.filter_nil]
  · simp only [exec_bind, exec_get, hkey, not_false_eq_true, if_true, exec_modify, if_false]
    rfl

omit [DecidableEq K] in
theorem exec_locked_of_ok {flush body : Prog K Unit} {w w' : World K}
    (hbody : exec body { w with lockDepth := w.lockDepth + 1 } = (.ok (), w')) :
    exec (locked flush body) w = exec flush { w' with lockDepth := w'.lockDepth - 1 } := by
  rw [locked, exec_bind, exec_modify]
  simp only [exec_bind, exec_tryCatch, hbody, exec_modify]

/-- The new object has the one channel that is asked for, if any. -/
theorem exec_start (key : K) (subscribedTo : Finset K) (d : ℕ) :
    exec (start key) ⟨⟨none, subscribedTo, [], d⟩, [], []⟩ =
      (.ok (), ⟨⟨some (if key ∈ subscribedTo then ∅ else {key}), insert key subscribedTo, [], d⟩,
        [], []⟩) := by
  have hbody : exec (do
        modify fun w => { w with pubsub := some ∅ }
        consumeFromLocked key) ⟨⟨none, subscribedTo, [], d + 1⟩, [], []⟩ =
      (.ok (), ⟨⟨some (if key ∈ subscribedTo then ∅ else {key}), insert key subscribedTo, [],
        d + 1⟩, [], []⟩) := by
    rw [exec_bind, exec_modify]
    dsimp only
    rw [exec_consumeFromLocked rfl key rfl]
    by_cases hkey : key ∈ subscribedTo
    · simp only [hkey, if_true]
    · simp only [hkey, if_false, Option.map_some, Finset.empty_union]
  exact (exec_locked_of_ok hbody).trans (exec_flushPendingUnsubscribe_of_nil rfl)

/-- Without an object, an operation starts anew. -/
theorem run_consumeFrom (key : K) (subscribedTo : Finset K) :
    Action.run ⟨.consumeFrom key [], [], []⟩ ⟨none, subscribedTo, [], 0⟩ =
      (.ok (), ⟨⟨some (if key ∈ subscribedTo then ∅ else {key}), insert key subscribedTo, [], 0⟩,
        [], []⟩) := by
  have hconsume : exec (do
        cancelLocked []
        if (← get).pubsub = none then start key else consumeFromLocked key)
        ⟨⟨none, subscribedTo, [], 1⟩, [], []⟩ =
      exec (start key) ⟨⟨none, subscribedTo, [], 1⟩, [], []⟩ := by
    rw [exec_bind, cancelLocked, exec_modify]
    dsimp only
    rw [exec_bind, exec_get]
    dsimp only
    rw [if_pos rfl]
    rfl
  rw [Action.run, Op.prog, consumeFrom,
    exec_locked_of_ok (hconsume.trans (exec_start key subscribedTo 1)),
    exec_flushPendingUnsubscribe_of_nil rfl]
  rfl

/-- Without an error and a cancel, **an operation that starts anew keeps the object subscribed
exactly if no channels are left**. -/
theorem synced_start_iff {s : Consumer K} (hpubsub : s.pubsub = none)
    (hpending : s.pendingUnsubscribe = []) (hdepth : s.lockDepth = 0) (key : K) :
    Synced (step s ⟨.consumeFrom key [], [], []⟩) ↔ s.subscribedTo = ∅ := by
  obtain ⟨pubsub, subscribedTo, pendingUnsubscribe, lockDepth⟩ := s
  obtain rfl : pubsub = none := hpubsub
  obtain rfl : pendingUnsubscribe = [] := hpending
  obtain rfl : lockDepth = 0 := hdepth
  rw [step, run_consumeFrom, synced_iff_of_some rfl]
  by_cases hkey : key ∈ subscribedTo
  · rw [if_pos hkey, Finset.insert_eq_of_mem hkey]
    exact eq_comm
  · rw [if_neg hkey]
    constructor
    · intro heq
      refine Finset.eq_empty_of_forall_notMem fun key' hkey' => hkey ?_
      have hmem : key' ∈ ({key} : Finset K) := heq ▸ Finset.mem_insert_of_mem hkey'
      exact Finset.mem_singleton.mp hmem ▸ hkey'
    · rintro rfl
      rfl

end ResultConsumer
end Celery
