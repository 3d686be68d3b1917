/-
# `celery/events/dispatcher.py`: buffering and handing over events

`EventDispatcher.publish`, `_publish`, `send`, `flush`, `extend_buffer` and
`close` (lines 116-228), for a dispatcher with `buffer_while_offline`, and the
reconnection `celery/worker/consumer/events.py` makes of them (`Events.start` and
`_close`, lines 35-72).

An event that `send` takes is published, or waits in `_outbound_buffer` after a
failed attempt, or waits in `_group_buffer` for its batch.  A `send` or a `flush`
moves events between these and loses none, whichever attempts fail
(`left_publish_`, `flush_spec`).  A reconnection takes over the outbound
buffer only: the batches in the group buffer stay behind in the old dispatcher
(`conserved_iff`).
-/

import Mathlib.Data.List.Induction
import Mathlib.Data.List.Infix
import Mathlib.Data.List.Perm.Basic
import Mathlib.Tactic.Common

namespace Celery
namespace Events

open scoped List

variable {F : Type}

/-- An event, as `Event` makes it.  The timestamp and what else the caller gives
are its `fields`. -/
structure Event (F : Type) where
  type : String
  hostname : String
  utcoffset : ℤ
  pid : ℕ
  clock : Option ℕ
  fields : F
deriving DecidableEq, Repr

/-- `group_from`: what stands before the first dash. -/
def groupFrom (type : String) : String := String.ofList (type.toList.takeWhile (· != '-'))

/-- `type.replace('-', '.')`. -/
def routingKeyOf (type : String) : String :=
  String.ofList (type.toList.map fun c => if c = '-' then '.' else c)

/-- What `producer.publish` is given: one event, or the batch of a group. -/
inductive Body (F : Type) where
  | one (event : Event F)
  | batch (events : List (Event F))
deriving DecidableEq, Repr

/-- A member of `_outbound_buffer`. -/
structure Message (F : Type) where
  body : Body F
  routingKey : String
deriving DecidableEq, Repr

/-- The events a message carries. -/
def Message.events (m : Message F) : List (Event F) :=
  match m.body with
  | .one event => [event]
  | .batch events => events

/-- `EventDispatcher`, with `buffer_while_offline`.  `groups` empty is no filter,
`producer` is whether there is one, and `_group_buffer` is a `defaultdict(list)` in
the order its keys came. -/
structure Dispatcher (F : Type) where
  hostname : String
  pid : ℕ
  groups : List String
  bufferGroup : List String
  bufferLimit : ℕ
  enabled : Bool
  producer : Bool
  groupBuffer : List (String × List (Event F))
  outboundBuffer : List (Message F)
deriving DecidableEq, Repr

/-- What the worker makes its dispatchers with. -/
structure Settings where
  hostname : String
  pid : ℕ
  sendEvents : Bool
  bufferGroup : List String
  bufferLimit : ℕ
deriving DecidableEq, Repr

/-- `EventDispatcher.__init__`: `enable` makes the producer. -/
def Settings.dispatcher (cfg : Settings) (groups : List String) : Dispatcher F where
  hostname := cfg.hostname
  pid := cfg.pid
  groups := groups
  bufferGroup := cfg.bufferGroup
  bufferLimit := cfg.bufferLimit
  enabled := cfg.sendEvents
  producer := cfg.sendEvents
  groupBuffer := []
  outboundBuffer := []

/-- The worker's dispatcher, the logical clock, what has been published, how many
times `producer.publish` has been called, and which events `send` has taken. -/
structure World (F : Type) where
  dispatcher : Dispatcher F
  clock : ℕ
  published : List (Message F)
  calls : ℕ
  accepted : List (Event F)
deriving DecidableEq, Repr

/-! ## The operations -/

section Operations

-- `fails n` is whether the `n`-th call of `producer.publish` raises.
variable (fails : ℕ → Bool)

/-- `_publish`. -/
def publish_ (w : World F) (m : Message F) : World F :=
  if w.dispatcher.producer then
    if fails w.calls then
      { w with
        calls := w.calls + 1
        dispatcher := { w.dispatcher with outboundBuffer := w.dispatcher.outboundBuffer ++ [m] } }
    else { w with calls := w.calls + 1, published := w.published ++ [m] }
  else w

/-- The loop of `flush` over `_group_buffer.items()`.  `_publish` may append to
`_outbound_buffer`, and does nothing to the group buffer. -/
def flushGroups (w : World F) : List (String × List (Event F)) → World F ×
    List (String × List (Event F))
  | [] => (w, [])
  | (group, events) :: rest =>
    if events = [] then
      let (w', rest') := flushGroups w rest
      (w', (group, events) :: rest')
    else
      let batch := events
      let (w', rest') := flushGroups (publish_ fails w ⟨.batch batch, group ++ ".multi"⟩) rest
      (w', (group, events.drop batch.length) :: rest')

/-- `flush`, called without arguments, as everywhere in the program: both `errors` and `groups`
are true. -/
def flush (w : World F) : World F :=
  let buf := w.dispatcher.outboundBuffer
  let w₁ := { w with dispatcher := { w.dispatcher with outboundBuffer := [] } }
  let w₂ := buf.foldl (publish_ fails) w₁
  let (w₃, groupBuffer) := flushGroups fails w₂ w₂.dispatcher.groupBuffer
  { w₃ with dispatcher := { w₃.dispatcher with groupBuffer := groupBuffer } }

/-- `self._group_buffer[group]`. -/
def groupBuf (group : String) (buffer : List (String × List (Event F))) : List (Event F) :=
  (buffer.lookup group).getD []

/-- `self._group_buffer[group].append(event)`. -/
def appendGroup (group : String) (event : Event F) :
    List (String × List (Event F)) → List (String × List (Event F))
  | [] => [(group, [event])]
  | (g, events) :: rest =>
    if g = group then (g, events ++ [event]) :: rest
    else (g, events) :: appendGroup group event rest

/-- `Event(type, hostname=…, utcoffset=…, pid=…, clock=clock, **fields)`. -/
def World.event (w : World F) (type : String) (utcoffset : ℤ) (clock : Option ℕ) (fields : F) :
    Event F where
  type := type
  hostname := w.dispatcher.hostname
  utcoffset := utcoffset
  pid := w.dispatcher.pid
  clock := clock
  fields := fields

/-- `publish`: the logical clock goes forward unless the event is `blind`. -/
def publish (w : World F) (type : String) (blind : Bool) (utcoffset : ℤ) (fields : F) : World F :=
  let clock := if blind then w.clock else w.clock + 1
  let event := w.event type utcoffset (if blind then none else some clock) fields
  publish_ fails { w with clock := clock, accepted := w.accepted ++ [event] }
    ⟨.one event, routingKeyOf type⟩

/-- `send`.  `on_send_buffered` asks the event loop for a `flush`, which is a step
of its own. -/
def send (w : World F) (type : String) (blind : Bool) (utcoffset : ℤ) (fields : F) : World F :=
  let d := w.dispatcher
  let group := groupFrom type
  if d.enabled then
    if d.groups ≠ [] ∧ group ∉ d.groups then w
    else if group ∈ d.bufferGroup then
      let event := w.event type utcoffset (some (w.clock + 1)) fields
      let buffer := appendGroup group event d.groupBuffer
      let w' := { w with
        clock := w.clock + 1
        accepted := w.accepted ++ [event]
        dispatcher := { d with groupBuffer := buffer } }
      if d.bufferLimit ≤ (groupBuf group buffer).length then flush fails w' else w'
    else publish fails w type blind utcoffset fields
  else w

/-- `extend_buffer`. -/
def Dispatcher.extendBuffer (d other : Dispatcher F) : Dispatcher F :=
  { d with outboundBuffer := d.outboundBuffer ++ other.outboundBuffer }

/-- `disable` and `close`. -/
def Dispatcher.disable (d : Dispatcher F) : Dispatcher F :=
  if d.enabled then { d with enabled := false, producer := false } else d

/-- `Events.start` with a dispatcher there: `_close` disables it and remembers its
groups, the new one is extended from it and flushed. -/
def start (cfg : Settings) (w : World F) : World F :=
  let prev := w.dispatcher.disable
  let dis : Dispatcher F := cfg.dispatcher w.dispatcher.groups
  flush fails { w with dispatcher := dis.extendBuffer prev }

/-- What can happen to the dispatcher of a worker. -/
inductive Action (F : Type) where
  | send (type : String) (blind : Bool) (utcoffset : ℤ) (fields : F)
  | flush
  | reconnect
deriving DecidableEq, Repr

/-- One step. -/
def step (cfg : Settings) (w : World F) : Action F → World F
  | .send type blind utcoffset fields => send fails w type blind utcoffset fields
  | .flush => flush fails w
  | .reconnect => start fails cfg w

/-- A run. -/
def run (cfg : Settings) (w : World F) (as : List (Action F)) : World F :=
  as.foldl (step fails cfg) w

end Operations

/-! ## Where the events are -/

/-- The events in the group buffer. -/
def World.grouped (w : World F) : List (Event F) :=
  w.dispatcher.groupBuffer.flatMap Prod.snd

/-- The events in the outbound buffer. -/
def World.outbound (w : World F) : List (Event F) :=
  w.dispatcher.outboundBuffer.flatMap Message.events

/-- The events that have been published, each as often as it was. -/
def World.sent (w : World F) : List (Event F) := w.published.flatMap Message.events

/-- The three places an event can be in, with what is in more than one of them, or
in one of them twice, listed that often. -/
def World.places (w : World F) : List (Event F) := w.sent ++ w.outbound ++ w.grouped

/-- **Conservation.**  Every event `send` has taken is in exactly one place, once. -/
def World.Conserved (w : World F) : Prop := w.accepted ~ w.places

instance [DecidableEq F] (w : World F) : Decidable w.Conserved :=
  inferInstanceAs (Decidable (_ ~ _))

/-- The worker starts: an enabled dispatcher, and nothing sent. -/
def World.init (cfg : Settings) (groups : List String) (clock : ℕ) : World F where
  dispatcher := cfg.dispatcher groups
  clock := clock
  published := []
  calls := 0
  accepted := []

/-! ## What the operations do to them -/

section Ledger

variable (fails : ℕ → Bool) {cfg : Settings}

/-- The events that have left their group: published, or in the outbound buffer. -/
def World.left (w : World F) : List (Event F) := w.sent ++ w.outbound

/-- What `_publish` and the loops over it leave alone. -/
structure Keeps (w w' : World F) : Prop where
  accepted : w'.accepted = w.accepted
  enabled : w'.dispatcher.enabled = w.dispatcher.enabled
  producer : w'.dispatcher.producer = w.dispatcher.producer
  groupBuffer : w'.dispatcher.groupBuffer = w.dispatcher.groupBuffer

namespace Keeps

theorem refl (w : World F) : Keeps w w := ⟨rfl, rfl, rfl, rfl⟩

theorem trans {w w' w'' : World F} (h : Keeps w w') (h' : Keeps w' w'') : Keeps w w'' where
  accepted := h'.accepted.trans h.accepted
  enabled := h'.enabled.trans h.enabled
  producer := h'.producer.trans h.producer
  groupBuffer := h'.groupBuffer.trans h.groupBuffer

end Keeps

theorem keeps_publish_ (w : World F) (m : Message F) : Keeps w (publish_ fails w m) := by
  unfold publish_
  split
  · split <;> exact ⟨rfl, rfl, rfl, rfl⟩
  · exact Keeps.refl w

/-- An attempt that succeeds publishes the message, one that fails keeps it in the
outbound buffer. -/
theorem left_publish_ {w : World F} (hw : w.dispatcher.producer = true) (m : Message F) :
    (publish_ fails w m).left ~ w.left ++ m.events := by
  rw [publish_, if_pos hw]
  split
  · simp only [World.left, World.sent, World.outbound, List.flatMap_append, List.flatMap_cons,
      List.flatMap_nil, List.append_nil]
    rw [List.append_assoc]
  · simp only [World.left, World.sent, World.outbound, List.flatMap_append, List.flatMap_cons,
      List.flatMap_nil, List.append_nil]
    rw [List.append_assoc, List.append_assoc]
    exact List.Perm.append_left _ List.perm_append_comm

/-- The loop of `flush` over what was in the outbound buffer. -/
theorem foldl_publish_ (ms : List (Message F)) {w : World F}
    (hw : w.dispatcher.producer = true) :
    Keeps w (ms.foldl (publish_ fails) w) ∧
      (ms.foldl (publish_ fails) w).left ~ w.left ++ ms.flatMap Message.events := by
  induction ms generalizing w with
  | nil => exact ⟨Keeps.refl w, by simp⟩
  | cons m ms ih =>
    have hkeep := keeps_publish_ fails w m
    obtain ⟨hkeeps, hleft⟩ := ih (hkeep.producer.trans hw)
    refine ⟨hkeep.trans hkeeps, hleft.trans ?_⟩
    rw [List.flatMap_cons, ← List.append_assoc]
    exact (left_publish_ fails hw m).append_right _

/-- The loop of `flush` over the group buffer: every batch leaves its group. -/
theorem flushGroups_spec (buffer : List (String × List (Event F))) {w : World F}
    (hw : w.dispatcher.producer = true) :
    Keeps w (flushGroups fails w buffer).1 ∧
      (flushGroups fails w buffer).1.left ~ w.left ++ buffer.flatMap Prod.snd ∧
      (flushGroups fails w buffer).2.flatMap Prod.snd = [] := by
  induction buffer generalizing w with
  | nil => exact ⟨Keeps.refl w, by simp [flushGroups], rfl⟩
  | cons entry rest ih =>
    obtain ⟨group, events⟩ := entry
    rw [flushGroups]
    split
    next hempty =>
      obtain ⟨hkeeps, hleft, hnone⟩ := ih hw
      refine ⟨hkeeps, ?_, ?_⟩
      · rwa [List.flatMap_cons, hempty, List.nil_append]
      · rw [List.flatMap_cons, hempty, hnone, List.nil_append]
    next =>
      have hkeep := keeps_publish_ fails w ⟨.batch events, group ++ ".multi"⟩
      obtain ⟨hkeeps, hleft, hnone⟩ := ih (hkeep.producer.trans hw)
      refine ⟨hkeep.trans hkeeps, hleft.trans ?_, ?_⟩
      · rw [List.flatMap_cons, ← List.append_assoc]
        exact (left_publish_ fails hw _).append_right _
      · rw [List.flatMap_cons, hnone, List.append_nil]
        exact List.drop_length

/-- What `flush` does: every event that waited has been tried once, and is published
or in the outbound buffer. -/
theorem flush_spec {w : World F} (hw : w.dispatcher.producer = true) :
    (flush fails w).accepted = w.accepted ∧
      (flush fails w).dispatcher.enabled = w.dispatcher.enabled ∧
      (flush fails w).dispatcher.producer = w.dispatcher.producer ∧
      (flush fails w).places ~ w.places := by
  obtain ⟨hkeep₁, hleft₁⟩ := foldl_publish_ fails w.dispatcher.outboundBuffer
    (w := { w with dispatcher := { w.dispatcher with outboundBuffer := [] } }) hw
  generalize hw₂ : List.foldl (publish_ fails) _ w.dispatcher.outboundBuffer = w₂
    at hkeep₁ hleft₁
  obtain ⟨hkeep₂, hleft₂, hnone⟩ := flushGroups_spec fails w₂.dispatcher.groupBuffer
    (hkeep₁.producer.trans hw)
  have hkeep := hkeep₁.trans hkeep₂
  have hflush : flush fails w =
      { (flushGroups fails w₂ w₂.dispatcher.groupBuffer).1 with
        dispatcher := { (flushGroups fails w₂ w₂.dispatcher.groupBuffer).1.dispatcher with
          groupBuffer := (flushGroups fails w₂ w₂.dispatcher.groupBuffer).2 } } := by
    rw [flush, hw₂]
  rw [hflush]
  refine ⟨hkeep.accepted, hkeep.enabled, hkeep.producer, ?_⟩
  -- The group buffer is empty now, so all events have left their group.
  have hplaces : ∀ (v : World F) (buffer : List (String × List (Event F))),
      World.places { v with dispatcher := { v.dispatcher with groupBuffer := buffer } }
        = v.left ++ buffer.flatMap Prod.snd := fun _ _ => rfl
  have hw₁ : World.left { w with dispatcher := { w.dispatcher with outboundBuffer := [] } }
      = w.sent := by simp [World.left, World.sent, World.outbound]
  rw [hplaces, hnone, List.append_nil]
  refine hleft₂.trans ?_
  rw [hkeep₁.groupBuffer]
  refine (hleft₁.append_right _).trans ?_
  rw [hw₁]
  rfl

theorem flatMap_appendGroup (group : String) (event : Event F)
    (buffer : List (String × List (Event F))) :
    (appendGroup group event buffer).flatMap Prod.snd ~ buffer.flatMap Prod.snd ++ [event] := by
  induction buffer with
  | nil => simp [appendGroup]
  | cons entry rest ih =>
    obtain ⟨g, events⟩ := entry
    rw [appendGroup]
    split
    · simp only [List.flatMap_cons, List.append_assoc]
      exact List.Perm.append_left _ List.perm_append_comm
    · simp only [List.flatMap_cons, List.append_assoc]
      exact ih.append_left _

/-- The dispatcher is enabled and has its producer. -/
def World.Ready (w : World F) : Prop :=
  w.dispatcher.enabled = true ∧ w.dispatcher.producer = true

/-- The books: what `send` has taken is in the three places, or in `lost`. -/
def World.Ledger (w : World F) (lost : List (Event F)) : Prop := w.accepted ~ w.places ++ lost

theorem flush_ledger {w : World F} {lost : List (Event F)} (hw : w.Ready) (h : w.Ledger lost) :
    (flush fails w).Ready ∧ (flush fails w).Ledger lost := by
  obtain ⟨haccepted, henabled, hproducer, hplaces⟩ := flush_spec fails hw.2
  refine ⟨⟨henabled.trans hw.1, hproducer.trans hw.2⟩, ?_⟩
  rw [World.Ledger, haccepted]
  exact h.trans (hplaces.symm.append_right _)

/-- One more event that was taken, and is in one of the places. -/
theorem ledger_accept {w w' : World F} {lost : List (Event F)} {event : Event F}
    (h : w.Ledger lost) (haccepted : w'.accepted = w.accepted ++ [event])
    (hplaces : w'.places ~ w.places ++ [event]) : w'.Ledger lost := by
  rw [World.Ledger, haccepted]
  have hmove : w.places ++ lost ++ [event] ~ w.places ++ [event] ++ lost := by
    rw [List.append_assoc, List.append_assoc]
    exact List.Perm.append_left _ List.perm_append_comm
  exact ((h.append_right _).trans hmove).trans (hplaces.symm.append_right _)

theorem publish_ledger {w : World F} {lost : List (Event F)} (hw : w.Ready) (h : w.Ledger lost)
    (type : String) (blind : Bool) (utcoffset : ℤ) (fields : F) :
    (publish fails w type blind utcoffset fields).Ready ∧
      (publish fails w type blind utcoffset fields).Ledger lost := by
  rw [publish]
  generalize hclock : (if blind then w.clock else w.clock + 1) = clock
  generalize hevent : w.event type utcoffset (if blind then none else some clock) fields = event
  generalize hv : ({ w with clock := clock, accepted := w.accepted ++ [event] } : World F) = v
  have hkeep := keeps_publish_ fails v ⟨.one event, routingKeyOf type⟩
  have hready : v.Ready := hv ▸ hw
  refine ⟨⟨hkeep.enabled.trans hready.1, hkeep.producer.trans hready.2⟩, ?_⟩
  refine ledger_accept h (hkeep.accepted.trans (by rw [← hv])) ?_
  have hgrouped : (publish_ fails v ⟨.one event, routingKeyOf type⟩).grouped = w.grouped := by
    rw [World.grouped, hkeep.groupBuffer, ← hv]
    rfl
  have hleft : v.left = w.left := by
    rw [← hv]
    rfl
  have hpub := left_publish_ fails hready.2 ⟨.one event, routingKeyOf type⟩
  rw [hleft] at hpub
  change _ ++ World.grouped _ ~ _ ++ w.grouped ++ [event]
  rw [hgrouped]
  refine (hpub.append_right _).trans ?_
  rw [List.append_assoc, List.append_assoc]
  exact List.Perm.append_left _ List.perm_append_comm

theorem send_ledger {w : World F} {lost : List (Event F)} (hw : w.Ready) (h : w.Ledger lost)
    (type : String) (blind : Bool) (utcoffset : ℤ) (fields : F) :
    (send fails w type blind utcoffset fields).Ready ∧
      (send fails w type blind utcoffset fields).Ledger lost := by
  rw [send, if_pos hw.1]
  dsimp only
  split
  · exact ⟨hw, h⟩
  · split
    · generalize hevent : w.event type utcoffset (some (w.clock + 1)) fields = event
      have hbuffered : World.Ledger { w with
          clock := w.clock + 1
          accepted := w.accepted ++ [event]
          dispatcher := { w.dispatcher with
            groupBuffer := appendGroup (groupFrom type) event w.dispatcher.groupBuffer } }
          lost := by
        refine ledger_accept h rfl ?_
        change w.left ++ _ ~ w.left ++ w.grouped ++ [event]
        rw [List.append_assoc]
        exact (flatMap_appendGroup _ _ _).append_left _
      split
      · exact flush_ledger fails hw hbuffered
      · exact ⟨hw, hbuffered⟩
    · exact publish_ledger fails hw h type blind utcoffset fields

/-- The events a step leaves behind: a reconnection does not take over the group
buffer. -/
def lostBy (w : World F) : Action F → List (Event F)
  | .send .. => []
  | .flush => []
  | .reconnect => w.grouped

theorem start_ledger (hcfg : cfg.sendEvents = true) {w : World F} {lost : List (Event F)}
    (h : w.Ledger lost) :
    (start fails cfg w).Ready ∧ (start fails cfg w).Ledger (lost ++ w.grouped) := by
  have hbuffer : w.dispatcher.disable.outboundBuffer = w.dispatcher.outboundBuffer := by
    rw [Dispatcher.disable]
    split <;> rfl
  refine flush_ledger fails ⟨hcfg, hcfg⟩ ?_
  have hplaces : World.places { w with dispatcher :=
      (cfg.dispatcher w.dispatcher.groups).extendBuffer w.dispatcher.disable } = w.left := by
    simp only [World.places, World.left, World.sent, World.outbound, World.grouped,
      Dispatcher.extendBuffer, Settings.dispatcher, hbuffer, List.nil_append, List.flatMap_nil,
      List.append_nil]
  rw [World.Ledger, hplaces]
  refine h.trans ?_
  change w.left ++ w.grouped ++ lost ~ w.left ++ (lost ++ w.grouped)
  rw [List.append_assoc]
  exact List.Perm.append_left _ List.perm_append_comm

/-- **One step.**  The books stay right, with what a reconnection leaves behind
added to the losses. -/
theorem step_ledger (hcfg : cfg.sendEvents = true) {w : World F} {lost : List (Event F)}
    (hw : w.Ready) (h : w.Ledger lost) (a : Action F) :
    (step fails cfg w a).Ready ∧ (step fails cfg w a).Ledger (lost ++ lostBy w a) := by
  cases a with
  | send type blind utcoffset fields =>
    rw [lostBy, List.append_nil]
    exact send_ledger fails hw h type blind utcoffset fields
  | flush =>
    rw [lostBy, List.append_nil]
    exact flush_ledger fails hw h
  | reconnect => exact start_ledger fails hcfg h

/-! ## Runs -/

/-- All that a run leaves behind. -/
def lost (cfg : Settings) (w : World F) : List (Action F) → List (Event F)
  | [] => []
  | a :: as => lostBy w a ++ lost cfg (step fails cfg w a) as

/-- **One run.**  What `send` has taken is in one of the three places, or was left
behind by a reconnection. -/
theorem run_ledger (hcfg : cfg.sendEvents = true) (as : List (Action F)) {w : World F}
    {before : List (Event F)} (hw : w.Ready) (h : w.Ledger before) :
    (run fails cfg w as).Ledger (before ++ lost fails cfg w as) := by
  induction as generalizing w before with
  | nil => rwa [lost, List.append_nil]
  | cons a as ih =>
    obtain ⟨hready, hledger⟩ := step_ledger fails hcfg hw h a
    rw [lost, ← List.append_assoc]
    exact ih hready hledger

theorem ledger_init (cfg : Settings) (groups : List String) (clock : ℕ) :
    (World.init cfg groups clock : World F).Ledger [] := List.Perm.refl _

/-- Nothing has been left behind exactly if every event is in its one place. -/
theorem conserved_run_iff (hcfg : cfg.sendEvents = true) (groups : List String) (clock : ℕ)
    (as : List (Action F)) :
    (run fails cfg (World.init cfg groups clock) as).Conserved ↔
      lost fails cfg (World.init cfg groups clock) as = [] := by
  have hledger := run_ledger fails hcfg as ⟨hcfg, hcfg⟩ (ledger_init cfg groups clock)
  rw [List.nil_append] at hledger
  constructor
  · intro h
    have hlength := (h.symm.trans hledger).length_eq
    rw [List.length_append] at hlength
    exact List.length_eq_zero_iff.mp (by omega)
  · intro h
    rwa [h, World.Ledger, List.append_nil] at hledger

/-- Whenever a reconnection begins, no event waits in a group buffer. -/
def GroupsFlushed (cfg : Settings) (w : World F) (as : List (Action F)) : Prop :=
  ∀ before, before ++ [.reconnect] <+: as → (run fails cfg w before).grouped = []

theorem lost_eq_nil_iff (w : World F) (as : List (Action F)) :
    lost fails cfg w as = [] ↔ GroupsFlushed fails cfg w as := by
  induction as generalizing w with
  | nil =>
    refine ⟨fun _ before h => ?_, fun _ => rfl⟩
    exact absurd (List.prefix_nil.mp h) (by simp)
  | cons a as ih =>
    rw [lost, List.append_eq_nil_iff, ih]
    constructor
    · rintro ⟨hnow, hlater⟩ before hbefore
      cases before with
      | nil =>
        obtain ⟨rfl, -⟩ := List.cons_prefix_cons.mp hbefore
        exact hnow
      | cons b before =>
        obtain ⟨rfl, hrest⟩ := List.cons_prefix_cons.mp hbefore
        exact hlater before hrest
    · intro h
      refine ⟨?_, fun before hbefore => h (a :: before) (List.cons_prefix_cons.mpr ⟨rfl, hbefore⟩)⟩
      cases a with
      | send => rfl
      | flush => rfl
      | reconnect => exact h [] (List.cons_prefix_cons.mpr ⟨rfl, List.nil_prefix⟩)

/-- **When no event is lost.**  Whichever attempts to publish fail, every event that
`send` has taken is in exactly one place in every state of a run if and only if
whenever a reconnection begins no event waits in a group buffer. -/
theorem conserved_iff (hcfg : cfg.sendEvents = true) (groups : List String) (clock : ℕ)
    (as : List (Action F)) :
    (∀ before, before <+: as →
        (run fails cfg (World.init cfg groups clock) before).Conserved) ↔
      GroupsFlushed fails cfg (World.init cfg groups clock) as := by
  constructor
  · intro h
    rw [← lost_eq_nil_iff]
    exact (conserved_run_iff fails hcfg groups clock as).mp (h as (List.prefix_refl as))
  · intro h before hbefore
    rw [conserved_run_iff fails hcfg groups clock, lost_eq_nil_iff]
    exact fun first hfirst => h first (hfirst.trans hbefore)

end Ledger

/-- A worker with an event loop: task events are buffered, up to 24 of them. -/
def workerSettings : Settings := ⟨"celery@w1", 1, true, ["task"], 24⟩

/-- A task event is buffered and flushed, and the connection is lost after that. -/
theorem conserved_after_flush :
    workerSettings.sendEvents = true ∧
      ((∀ before, before <+: [.send "task-received" false 0 (), .flush, .reconnect] →
          (run (fun n => n == 0) workerSettings (World.init workerSettings [] 0)
            before).Conserved) ↔
        GroupsFlushed (fun n => n == 0) workerSettings (World.init workerSettings [] 0)
          [.send "task-received" false 0 (), .flush, .reconnect]) :=
  ⟨rfl, conserved_iff _ rfl _ _ _⟩

/-- **An event is lost.**  A task event waits in the group buffer when the worker
reconnects; no attempt to publish fails. -/
theorem event_lost_by_reconnect :
    ¬ (run (fun _ => false) workerSettings (World.init workerSettings [] 0)
      [.send "task-received" false 0 (), .reconnect]).Conserved := by
  decide

end Events
end Celery
