/-
# `celery/events/state.py`: the events of one task

`Task.event` (lines 305-332) takes over what an event says about a task.  An event that
logically happened before the current state does not change the state, and if
`merge_rules` has a rule for its own state, only the fields of the rule are taken over;
any other event brings its state with it.

Two things do not go as the comments say.  The rule for `RECEIVED` keeps that event from
overwriting other fields, but no other event from overwriting the fields of the rule, so
what is left there is what came last (`keeps_received_iff`).  And an event that brings
its state has it written into its own dict of fields.  If the same dict is delivered
once more, later, the old state comes back with it.  Up to that, the state is the best
one of all events, whatever their order (`converges_iff`).

The events are objects here, of any index type, and an order of delivery may have one
more than once.
-/

import Celery.Canvas.Dict
import Celery.Events.State
import Mathlib.Data.List.Count
import Mathlib.Data.List.Perm.Basic
import Mathlib.Logic.Function.Basic

namespace Celery
namespace TaskEvents

open EventState

/-! ## Events -/

/-- The value of a field: a string, or anything else. -/
inductive Value (V : Type) where
  | str (s : String)
  | other (v : V)
deriving DecidableEq, Repr

/-- A dict of fields.  Of two entries for a key the first one counts. -/
abbrev Fields (V : Type) := List (String × Value V)

/-- The arguments of a call to `Task.event`. -/
structure Event (V : Type) where
  type : String
  timestamp : Value V
  fields : Fields V
deriving DecidableEq, Repr

/-- The keys of `TASK_EVENT_TO_STATE`. -/
def eventTypes : List String :=
  ["sent", "received", "started", "failed", "retried", "succeeded", "revoked", "rejected"]

/-- The fields that `merge_rules` has for `RECEIVED`. -/
def receivedFields : List String :=
  ["name", "args", "kwargs", "parent_id", "root_id", "retries", "eta", "expires"]

/-- `merge_rules.get`. -/
def mergeRules (state : String) : Option (List String) :=
  if state = "RECEIVED" then some receivedFields else none

variable {V : Type}

/-- The state an event stands for. -/
def Event.state (e : Event V) : String := taskEventToState e.type

/-- `task.state`, of a task with the attributes `t`. -/
def stateOf (t : Fields V) : Value V := (t.lookup "state").getD (.str "PENDING")

/-- `precedence(task.state)`. -/
def statePrecedence : Value V → ℕ
  | .str s => precedence s
  | .other _ => precedenceList.idxOf none

/-- The event happened before the state that the task is in. -/
def Before (t : Fields V) (e : Event V) : Prop :=
  e.state ≠ "RETRY" ∧ stateOf t ≠ .str "RETRY" ∧ statePrecedence (stateOf t) < precedence e.state

instance [DecidableEq V] (t : Fields V) (e : Event V) : Decidable (Before t e) :=
  inferInstanceAs (Decidable (_ ∧ _ ∧ _))

section Deliveries

variable [DecidableEq V]

/-- `self.succeeded`, for example, is set to the time stamp. -/
def stamp (t : Fields V) (e : Event V) : Fields V :=
  if e.type ∈ eventTypes then (e.type, e.timestamp) :: t else t

/-- The fields of an event with its state. -/
def Event.withState (e : Event V) : Fields V :=
  ("state", .str e.state) :: ("timestamp", e.timestamp) :: e.fields

/-- `Task.event`: the attributes of the task, and the event with what has been written
into its dict.  An empty dict is replaced by a new one before. -/
def event (t : Fields V) (e : Event V) : Fields V × Event V :=
  let t := stamp t e
  if Before t e then
    match mergeRules e.state with
    | some keep => (e.fields.filter (fun field => field.1 ∈ keep) ++ t, e)
    | none => (e.fields ++ t, e)
  else (e.withState ++ t, if e.fields = [] then e else { e with fields := e.withState })

variable {ι : Type} [DecidableEq ι]

/-- An event is delivered. -/
def deliver (s : Fields V × (ι → Event V)) (i : ι) : Fields V × (ι → Event V) :=
  let (t, e) := event s.1 (s.2 i)
  (t, Function.update s.2 i e)

/-- Events are delivered to a new task, in an order. -/
def deliverAll (es : ι → Event V) (order : List ι) : Fields V × (ι → Event V) :=
  order.foldl deliver ([], es)

@[simp] theorem deliver_task (s : Fields V × (ι → Event V)) (i : ι) :
    (deliver s i).1 = (event s.1 (s.2 i)).1 := rfl

@[simp] theorem deliver_self (s : Fields V × (ι → Event V)) (i : ι) :
    (deliver s i).2 i = (event s.1 (s.2 i)).2 := Function.update_self _ _ _

theorem deliver_of_ne (s : Fields V × (ι → Event V)) {i j : ι} (h : j ≠ i) :
    (deliver s i).2 j = s.2 j := Function.update_of_ne h _ _

@[simp] theorem deliverAll_concat (es : ι → Event V) (order : List ι) (i : ι) :
    deliverAll es (order ++ [i]) = deliver (deliverAll es order) i := List.foldl_concat _ _ _ _

/-! ## What an event does -/

omit [DecidableEq V] in
theorem lookup_filter (keep : List String) (fields : Fields V) (f : String) :
    (fields.filter fun field => field.1 ∈ keep).lookup f =
      if f ∈ keep then fields.lookup f else none := by
  rw [Canvas.lookup_filter (fun key => decide (key ∈ keep))]
  simp only [decide_eq_true_eq]

omit [DecidableEq V] in
theorem lookup_cons_of_ne {f k : String} (h : f ≠ k) (v : Value V) (fields : Fields V) :
    ((k, v) :: fields).lookup f = fields.lookup f := by
  rw [Canvas.lookup_cons_eq_ite, if_neg h]

omit [DecidableEq V] in
theorem lookup_stamp (t : Fields V) (e : Event V) {f : String} (hf : f ∉ eventTypes) :
    (stamp t e).lookup f = t.lookup f := by
  rw [stamp]
  split
  next hmem => exact lookup_cons_of_ne (fun (heq : f = e.type) => hf (heq ▸ hmem)) _ _
  next => rfl

omit [DecidableEq V] in
theorem stateOf_stamp (t : Fields V) (e : Event V) : stateOf (stamp t e) = stateOf t := by
  rw [stateOf, lookup_stamp t e (by decide), ← stateOf]

omit [DecidableEq V] in
theorem lookup_withState (e : Event V) {f : String} (hstate : f ≠ "state")
    (htimestamp : f ≠ "timestamp") : e.withState.lookup f = e.fields.lookup f := by
  rw [Event.withState, lookup_cons_of_ne hstate, lookup_cons_of_ne htimestamp]

/-- **The cases of `Task.event`.** -/
theorem event_cases (t : Fields V) (e : Event V) :
    (Before t e ∧ e.state = "RECEIVED" ∧ event t e =
        (e.fields.filter (fun field => field.1 ∈ receivedFields) ++ stamp t e, e)) ∨
      (Before t e ∧ e.state ≠ "RECEIVED" ∧ event t e = (e.fields ++ stamp t e, e)) ∨
      (¬ Before t e ∧ event t e = (e.withState ++ stamp t e,
        if e.fields = [] then e else { e with fields := e.withState })) := by
  have hbefore : Before (stamp t e) e ↔ Before t e := by rw [Before, Before, stateOf_stamp]
  rw [event]
  by_cases hb : Before t e
  · rw [if_pos (hbefore.mpr hb), mergeRules]
    by_cases hreceived : e.state = "RECEIVED"
    · rw [if_pos hreceived]
      exact Or.inl ⟨hb, hreceived, rfl⟩
    · rw [if_neg hreceived]
      exact Or.inr (Or.inl ⟨hb, hreceived, rfl⟩)
  · rw [if_neg fun h => hb (hbefore.mp h)]
    exact Or.inr (Or.inr ⟨hb, rfl⟩)

/-! ## The fields of the merge rule -/

theorem receivedFields_spec : ∀ f ∈ receivedFields,
    f ∉ eventTypes ∧ f ≠ "state" ∧ f ≠ "timestamp" := by decide

/-- **Every event has its say** about the fields of the rule. -/
theorem lookup_event (t : Fields V) (e : Event V) {f : String} (hf : f ∈ receivedFields) :
    (event t e).1.lookup f = (e.fields.lookup f).or (t.lookup f) ∧
      (event t e).2.fields.lookup f = e.fields.lookup f := by
  obtain ⟨htype, hstate, htimestamp⟩ := receivedFields_spec f hf
  obtain ⟨-, -, heq⟩ | ⟨-, -, heq⟩ | ⟨-, heq⟩ := event_cases t e
  · rw [heq]
    exact ⟨by rw [List.lookup_append, lookup_filter, if_pos hf, lookup_stamp t e htype], rfl⟩
  · rw [heq]
    exact ⟨by rw [List.lookup_append, lookup_stamp t e htype], rfl⟩
  · rw [heq]
    have hfields := lookup_withState e hstate htimestamp
    refine ⟨by rw [List.lookup_append, hfields, lookup_stamp t e htype], ?_⟩
    split
    · rfl
    · exact hfields

/-- The value of a field in the last of the events that has one. -/
def lastCarried (es : ι → Event V) (f : String) (order : List ι) : Option (Value V) :=
  order.foldl (fun last i => ((es i).fields.lookup f).or last) none

omit [DecidableEq V] [DecidableEq ι] in
theorem lastCarried_append (es : ι → Event V) (f : String) (xs ys : List ι) :
    lastCarried es f (xs ++ ys) = (lastCarried es f ys).or (lastCarried es f xs) := by
  induction ys using List.reverseRecOn with
  | nil => rw [List.append_nil]; rfl
  | append_singleton ys i ih =>
    rw [← List.append_assoc, lastCarried, List.foldl_concat, ← lastCarried, ih,
      lastCarried.eq_def es f (ys ++ [i]), List.foldl_concat, ← lastCarried, Option.or_assoc]

theorem lookup_deliverAll (es : ι → Event V) (order : List ι) {f : String}
    (hf : f ∈ receivedFields) :
    (deliverAll es order).1.lookup f = lastCarried es f order ∧
      ∀ i, ((deliverAll es order).2 i).fields.lookup f = (es i).fields.lookup f := by
  induction order using List.reverseRecOn with
  | nil => exact ⟨rfl, fun _ => rfl⟩
  | append_singleton order i ih =>
    obtain ⟨htask, hfields⟩ := ih
    obtain ⟨hlookup, hkept⟩ := lookup_event (deliverAll es order).1 ((deliverAll es order).2 i) hf
    rw [deliverAll_concat]
    refine ⟨?_, fun j => ?_⟩
    · rw [deliver_task, hlookup, hfields, htask, lastCarried, lastCarried, List.foldl_concat]
    · by_cases hj : j = i
      · subst hj
        rw [deliver_self, hkept, hfields]
      · rw [deliver_of_ne _ hj, hfields]

/-- The fields of the rule that the event `e` has are as in `e`. -/
def Keeps (t : Fields V) (e : Event V) : Prop :=
  ∀ f ∈ receivedFields, ∀ v, e.fields.lookup f = some v → t.lookup f = some v

/-- **When a task keeps the fields of its `task-received` event**, or of any event `i`:
if and only if for none of the fields of the rule that it has, the last later event with
that field has another value. -/
theorem keeps_received_iff (es : ι → Event V) (before after : List ι) (i : ι) :
    Keeps (deliverAll es (before ++ i :: after)).1 (es i) ↔
      ∀ f ∈ receivedFields, ∀ v, (es i).fields.lookup f = some v →
        ∀ w, lastCarried es f after = some w → w = v := by
  refine forall₂_congr fun f hf => forall₂_congr fun v hv => ?_
  have hcons : lastCarried es f (before ++ i :: after) =
      ((lastCarried es f after).or (some v)).or (lastCarried es f before) := by
    have hsingle : lastCarried es f [i] = some v := by
      rw [lastCarried, List.foldl_cons, List.foldl_nil, hv, Option.some_or]
    rw [lastCarried_append, ← List.singleton_append, lastCarried_append, hsingle]
  rw [(lookup_deliverAll es _ hf).1, hcons]
  cases lastCarried es f after with
  | none => simp
  | some w => simp

/-- The event of a worker that has received a task. -/
def received : Event ℕ :=
  ⟨"received", .other 2, [("name", .str "tasks.add"), ("args", .str "(2, 2)")]⟩

/-- The event of the client that sent it. -/
def sent : Event ℕ :=
  ⟨"sent", .other 1, [("name", .str "tasks.add"), ("args", .str "[2, 2]")]⟩

/-- **The arguments of a late `task-sent` event are taken over.** -/
theorem received_overwritten_by_sent :
    (deliverAll (fun late => if late then sent else received) [false, true]).1.lookup "args" =
        some (.str "[2, 2]") ∧
      ¬ Keeps (deliverAll (fun late => if late then sent else received) [false, true]).1
        received := by
  have hargs : (deliverAll (fun late => if late then sent else received)
      [false, true]).1.lookup "args" = some (.str "[2, 2]") := by decide
  refine ⟨hargs, fun hkeeps => ?_⟩
  have hreceived := hkeeps "args" (by decide) (.str "(2, 2)") rfl
  rw [hargs] at hreceived
  exact absurd hreceived (by decide)

/-! ## The state of a task -/

/-- The types of the events of built-in states, but for `task-retried`. -/
def orderedTypes : List String :=
  ["sent", "received", "started", "failed", "succeeded", "revoked", "rejected"]

/-- Their states. -/
def orderedStates : List String :=
  ["PENDING", "RECEIVED", "STARTED", "FAILURE", "SUCCESS", "REVOKED", "REJECTED"]

omit [DecidableEq V] in
theorem state_mem_orderedStates {e : Event V} (h : e.type ∈ orderedTypes) :
    e.state ∈ orderedStates := by
  have hall : ∀ type ∈ orderedTypes, taskEventToState type ∈ orderedStates := by decide
  exact hall e.type h

theorem precedence_injOn : ∀ s ∈ orderedStates, ∀ s' ∈ orderedStates,
    precedence s = precedence s' → s = s' := by decide

theorem precedence_le_pending : ∀ s ∈ orderedStates, precedence s ≤ precedence "PENDING" := by
  decide

theorem ne_retry : ∀ s ∈ orderedStates, s ≠ "RETRY" := by decide

/-- The better of two states. -/
def better (s s' : String) : String := if precedence s' < precedence s then s' else s

/-- The state with the best precedence among those of the events and `PENDING`. -/
def bestState (es : ι → Event V) (order : List ι) : String :=
  order.foldl (fun s i => better s (es i).state) "PENDING"

omit [DecidableEq V] [DecidableEq ι] in
theorem bestState_concat (es : ι → Event V) (order : List ι) (i : ι) :
    bestState es (order ++ [i]) = better (bestState es order) (es i).state :=
  List.foldl_concat _ _ _ _

omit [DecidableEq V] [DecidableEq ι] in
/-- The best state is one of them, and none is better. -/
theorem bestState_spec (es : ι → Event V) (order : List ι) :
    (bestState es order = "PENDING" ∨ ∃ i ∈ order, bestState es order = (es i).state) ∧
      precedence (bestState es order) ≤ precedence "PENDING" ∧
      ∀ i ∈ order, precedence (bestState es order) ≤ precedence (es i).state := by
  induction order using List.reverseRecOn with
  | nil => exact ⟨Or.inl rfl, le_rfl, fun i hi => absurd hi List.not_mem_nil⟩
  | append_singleton order i ih =>
    obtain ⟨hmem, hpending, hleast⟩ := ih
    rw [bestState_concat, better]
    split
    next hlt =>
      refine ⟨Or.inr ⟨i, by simp, rfl⟩, hlt.le.trans hpending, fun j hj => ?_⟩
      rcases List.mem_append.mp hj with hj | hj
      · exact hlt.le.trans (hleast j hj)
      · rw [List.mem_singleton.mp hj]
    next hge =>
      refine ⟨hmem.imp_right fun ⟨j, hj, heq⟩ => ⟨j, by simp [hj], heq⟩, hpending, fun j hj => ?_⟩
      rcases List.mem_append.mp hj with hj | hj
      · exact hleast j hj
      · rw [List.mem_singleton.mp hj]
        exact not_lt.mp hge

omit [DecidableEq V] [DecidableEq ι] in
theorem mem_orderedStates {es : ι → Event V} {D : List ι} {x : String}
    (htypes : ∀ i ∈ D, (es i).type ∈ orderedTypes)
    (hx : x = "PENDING" ∨ ∃ i ∈ D, x = (es i).state) : x ∈ orderedStates := by
  rcases hx with rfl | ⟨i, hi, rfl⟩
  · decide
  · exact state_mem_orderedStates (htypes i hi)

omit [DecidableEq V] [DecidableEq ι] in
theorem bestState_le {es : ι → Event V} {D : List ι} {x : String}
    (hx : x = "PENDING" ∨ ∃ i ∈ D, x = (es i).state) :
    precedence (bestState es D) ≤ precedence x := by
  obtain ⟨-, hpending, hleast⟩ := bestState_spec es D
  rcases hx with rfl | ⟨i, hi, rfl⟩
  · exact hpending
  · exact hleast i hi

/-- **What an event does to the state.**  One that happened before the current state
leaves it, unless it is not of the merge rule and has a state in its own dict; any other
brings its state, and has it in its dict from then on. -/
theorem stateOf_event (t : Fields V) (e : Event V) :
    (Before t e ∧ (event t e).2 = e ∧ stateOf (event t e).1 =
        if e.state = "RECEIVED" then stateOf t else (e.fields.lookup "state").getD (stateOf t)) ∨
      (¬ Before t e ∧ stateOf (event t e).1 = .str e.state ∧ (event t e).2 =
        if e.fields = [] then e else { e with fields := e.withState }) := by
  obtain ⟨hb, hreceived, heq⟩ | ⟨hb, hreceived, heq⟩ | ⟨hb, heq⟩ := event_cases t e
  · refine Or.inl ⟨hb, by rw [heq], ?_⟩
    rw [heq, if_pos hreceived, ← stateOf_stamp t e, stateOf, List.lookup_append, lookup_filter,
      if_neg (by decide), Option.none_or, ← stateOf]
  · refine Or.inl ⟨hb, by rw [heq], ?_⟩
    rw [heq, if_neg hreceived, ← stateOf_stamp t e, stateOf, List.lookup_append, stateOf]
    cases e.fields.lookup "state" with
    | none => rfl
    | some v => rfl
  · exact Or.inr ⟨hb, by rw [heq]; rfl, by rw [heq]⟩

variable {es : ι → Event V} {D : List ι}

/-- What the events of `D` must not do, for the state not to fall back: one of another
state than `RECEIVED` and the best one must not be delivered twice as the same dict, and
must not have another state than the best one in its dict. -/
def Harmless (es : ι → Event V) (D : List ι) : Prop :=
  ∀ i ∈ D, (es i).state = "RECEIVED" ∨ (es i).state = bestState es D ∨
    ((D.count i = 1 ∨ (es i).fields = []) ∧
      ∀ v, (es i).fields.lookup "state" = some v → v = .str (bestState es D))

/-- The task ends in the best state, in whatever order it gets the events. -/
def Converges (es : ι → Event V) (D : List ι) : Prop :=
  ∀ order, order.Perm D → stateOf (deliverAll es order).1 = .str (bestState es D)

/-- What holds after the events of `done`. -/
structure Settling (es : ι → Event V) (D done : List ι) (s : Fields V × (ι → Event V)) :
    Prop where
  state : ∃ x, stateOf s.1 = .str x ∧ (x = "PENDING" ∨ ∃ i ∈ D, x = (es i).state) ∧
    ∀ i ∈ done, precedence x ≤ precedence (es i).state
  fresh : ∀ i ∉ done, s.2 i = es i
  type : ∀ i, (s.2 i).type = (es i).type
  empty : ∀ i, (es i).fields = [] → (s.2 i).fields = []

/-- What an event leaves of the events themselves. -/
theorem Settling.deliver_events {done : List ι} {s : Fields V × (ι → Event V)}
    (h : Settling es D done s) (i : ι) :
    (∀ j ∉ done ++ [i], (deliver s i).2 j = es j) ∧
      (∀ j, ((deliver s i).2 j).type = (es j).type) ∧
      ∀ j, (es j).fields = [] → ((deliver s i).2 j).fields = [] := by
  have hself : (event s.1 (s.2 i)).2.type = (s.2 i).type ∧
      ((s.2 i).fields = [] → (event s.1 (s.2 i)).2.fields = []) := by
    obtain ⟨-, heq, -⟩ | ⟨-, -, heq⟩ := stateOf_event s.1 (s.2 i)
    · rw [heq]
      exact ⟨rfl, id⟩
    · rw [heq]
      split
      next hnil => exact ⟨rfl, id⟩
      next hne => exact ⟨rfl, fun hnil => absurd hnil hne⟩
  refine ⟨fun j hj => ?_, fun j => ?_, fun j hnil => ?_⟩
  · rw [List.mem_append, List.mem_singleton, not_or] at hj
    rw [deliver_of_ne _ hj.2, h.fresh j hj.1]
  · by_cases hj : j = i
    · subst hj
      rw [deliver_self, hself.1, h.type]
    · rw [deliver_of_ne _ hj, h.type]
  · by_cases hj : j = i
    · subst hj
      rw [deliver_self]
      exact hself.2 (h.empty j hnil)
    · rw [deliver_of_ne _ hj, h.empty j hnil]

theorem settling_step (htypes : ∀ i ∈ D, (es i).type ∈ orderedTypes) (hharmless : Harmless es D)
    {done : List ι} {s : Fields V × (ι → Event V)} (h : Settling es D done s) {i : ι} (hi : i ∈ D)
    (honce : D.count i = 1 → i ∉ done) : Settling es D (done ++ [i]) (deliver s i) := by
  obtain ⟨hfresh, htype, hempty⟩ := h.deliver_events i
  obtain ⟨x, hx, hxmem, hxle⟩ := h.state
  have hbestx := bestState_le hxmem
  have hstate : (s.2 i).state = (es i).state := by rw [Event.state, Event.state, h.type]
  refine ⟨?_, hfresh, htype, hempty⟩
  rw [deliver_task]
  have hwith : ∀ y, precedence y ≤ precedence x → precedence y ≤ precedence (es i).state →
      ∀ j ∈ done ++ [i], precedence y ≤ precedence (es j).state := by
    intro y hyx hyi j hj
    rcases List.mem_append.mp hj with hj | hj
    · exact hyx.trans (hxle j hj)
    · rw [List.mem_singleton.mp hj]
      exact hyi
  obtain ⟨⟨-, -, hlt⟩, -, hafter⟩ | ⟨hnot, hafter, -⟩ := stateOf_event s.1 (s.2 i)
  · rw [hx, hstate, statePrecedence] at hlt
    -- The state is the one before, or the best one, out of the dict of the event.
    have hcases : stateOf (event s.1 (s.2 i)).1 = .str x ∨
        stateOf (event s.1 (s.2 i)).1 = .str (bestState es D) := by
      rw [hafter, hx, hstate]
      split
      next => exact Or.inl rfl
      next hnotReceived =>
        rcases hharmless i hi with hreceived | hisbest | ⟨hfew, hcarried⟩
        · exact absurd hreceived hnotReceived
        · rw [hisbest] at hlt
          exact absurd hlt (not_lt.mpr hbestx)
        · cases hlookup : (s.2 i).fields.lookup "state" with
          | none => exact Or.inl rfl
          | some v =>
            refine Or.inr ?_
            rcases hfew with hone | hnil
            · rw [h.fresh i (honce hone)] at hlookup
              exact hcarried v hlookup
            · rw [h.empty i hnil] at hlookup
              cases hlookup
    rcases hcases with hsame | hthebest
    · exact ⟨x, hsame, hxmem, hwith x le_rfl hlt.le⟩
    · exact ⟨_, hthebest, (bestState_spec es D).1,
        hwith _ hbestx (bestState_le (Or.inr ⟨i, hi, rfl⟩))⟩
  · have hle : precedence (es i).state ≤ precedence x := by
      by_contra hlt
      refine hnot ⟨?_, ?_, ?_⟩
      · rw [hstate]
        exact ne_retry _ (state_mem_orderedStates (htypes i hi))
      · rw [hx]
        exact fun heq => ne_retry x (mem_orderedStates htypes hxmem) (Value.str.inj heq)
      · rw [hx, hstate, statePrecedence]
        exact not_le.mp hlt
    rw [hafter, hstate]
    exact ⟨_, rfl, Or.inr ⟨i, hi, rfl⟩, hwith _ hle le_rfl⟩

theorem settling_run (htypes : ∀ i ∈ D, (es i).type ∈ orderedTypes) (hharmless : Harmless es D)
    {order : List ι} (hcount : ∀ i, order.count i ≤ D.count i) :
    Settling es D order (deliverAll es order) := by
  induction order using List.reverseRecOn with
  | nil =>
    exact ⟨⟨"PENDING", rfl, Or.inl rfl, fun i hi => absurd hi List.not_mem_nil⟩, fun _ _ => rfl,
      fun _ => rfl, fun _ hnil => hnil⟩
  | append_singleton order i ih =>
    have hlast := hcount i
    rw [List.count_append, List.count_singleton_self] at hlast
    have hbefore : ∀ j, order.count j ≤ D.count j := fun j =>
      (Nat.le_add_right _ _).trans (List.count_append.symm.le.trans (hcount j))
    rw [deliverAll_concat]
    refine settling_step htypes hharmless (ih hbefore) ?_ fun hone => ?_
    · exact List.count_pos_iff.mp (Nat.lt_of_lt_of_le (Nat.succ_pos _) hlast)
    · rw [hone] at hlast
      exact List.count_eq_zero.mp (by omega)

theorem deliverAll_of_notMem {order : List ι} {i : ι} (h : i ∉ order) :
    (deliverAll es order).2 i = es i := by
  induction order using List.reverseRecOn with
  | nil => rfl
  | append_singleton order j ih =>
    rw [List.mem_append, List.mem_singleton, not_or] at h
    rw [deliverAll_concat, deliver_of_ne _ h.2, ih h.1]

/-- An event that has a state in its dict leaves that one or its own. -/
theorem stateOf_deliver_of_carried {s : Fields V × (ι → Event V)} {i : ι} {v : Value V}
    (hreceived : (s.2 i).state ≠ "RECEIVED") (hcarried : (s.2 i).fields.lookup "state" = some v) :
    stateOf (deliver s i).1 = v ∨ stateOf (deliver s i).1 = .str (s.2 i).state := by
  rw [deliver_task]
  obtain ⟨-, -, hafter⟩ | ⟨-, hafter, -⟩ := stateOf_event s.1 (s.2 i)
  · rw [hafter, if_neg hreceived, hcarried]
    exact Or.inl rfl
  · exact Or.inr hafter

/-- An event that is delivered first has its state in its dict from then on. -/
theorem carried_of_first {i : ι} (htype : (es i).type ∈ orderedTypes) (hne : (es i).fields ≠ [])
    (rest : List ι) :
    ((deliverAll es (i :: rest)).2 i).type = (es i).type ∧
      ((deliverAll es (i :: rest)).2 i).fields.lookup "state" = some (.str (es i).state) := by
  induction rest using List.reverseRecOn with
  | nil =>
    have hfirst : ¬ Before ([] : Fields V) (es i) := fun hbefore =>
      absurd hbefore.2.2 (not_lt.mpr (precedence_le_pending _ (state_mem_orderedStates htype)))
    have hdict : (deliverAll es [i]).2 i = (event [] (es i)).2 := deliver_self ([], es) i
    obtain ⟨hbefore, -⟩ | ⟨-, -, heq⟩ := stateOf_event [] (es i)
    · exact absurd hbefore hfirst
    · rw [hdict, heq, if_neg hne]
      exact ⟨rfl, rfl⟩
  | append_singleton rest j ih =>
    obtain ⟨hsame, hcarried⟩ := ih
    rw [← List.cons_append, deliverAll_concat]
    by_cases hj : i = j
    · subst hj
      rw [deliver_self]
      have hstate : ((deliverAll es (i :: rest)).2 i).state = (es i).state := by
        rw [Event.state, Event.state, hsame]
      obtain ⟨-, heq, -⟩ | ⟨-, -, heq⟩ :=
        stateOf_event (deliverAll es (i :: rest)).1 ((deliverAll es (i :: rest)).2 i)
      · rw [heq]
        exact ⟨hsame, hcarried⟩
      · rw [heq]
        split
        next => exact ⟨hsame, hcarried⟩
        next => exact ⟨hsame, by rw [← hstate]; rfl⟩
    · rw [deliver_of_ne _ hj]
      exact ⟨hsame, hcarried⟩

/-- What is delivered again carries its fields then. -/
theorem few_of_converges {i : ι} (htype : (es i).type ∈ orderedTypes)
    (hconverges : Converges es D) (hi : i ∈ D) (hreceived : (es i).state ≠ "RECEIVED")
    (hbest : (es i).state ≠ bestState es D) : D.count i = 1 ∨ (es i).fields = [] := by
  by_contra hmany
  rw [not_or] at hmany
  have hagain : i ∈ D.erase i := by
    have hpos : 0 < D.count i := List.count_pos_iff.mpr hi
    have herase := List.count_erase_self (a := i) (l := D)
    exact List.count_pos_iff.mp (by omega)
  have horder : (i :: (D.erase i).erase i ++ [i]).Perm D :=
    (List.Perm.append_right _ (List.perm_cons_erase hagain).symm).trans
      ((List.perm_append_singleton _ _).trans (List.perm_cons_erase hi).symm)
  obtain ⟨hsame, hcarried⟩ := carried_of_first htype hmany.2 ((D.erase i).erase i)
  have hstate : ((deliverAll es (i :: (D.erase i).erase i)).2 i).state = (es i).state := by
    rw [Event.state, Event.state, hsame]
  have hend := hconverges _ horder
  rw [deliverAll_concat] at hend
  rcases stateOf_deliver_of_carried (hstate ▸ hreceived) hcarried with heq | heq
  · exact hbest (Value.str.inj (heq.symm.trans hend))
  · exact hbest (hstate ▸ Value.str.inj (heq.symm.trans hend))

/-- An event that is delivered last shows whether it is harmless. -/
theorem harmless_of_converges (htypes : ∀ i ∈ D, (es i).type ∈ orderedTypes)
    (hconverges : Converges es D) : Harmless es D := by
  intro i hi
  by_cases hreceived : (es i).state = "RECEIVED"
  · exact Or.inl hreceived
  by_cases hbest : (es i).state = bestState es D
  · exact Or.inr (Or.inl hbest)
  have hlast : ((D.erase i) ++ [i]).Perm D :=
    (List.perm_append_singleton _ _).trans (List.perm_cons_erase hi).symm
  have hfew := few_of_converges (htypes i hi) hconverges hi hreceived hbest
  refine Or.inr (Or.inr ⟨hfew, fun v hv => ?_⟩)
  have hend := hconverges _ hlast
  rw [deliverAll_concat] at hend
  have hfresh : (deliverAll es (D.erase i)).2 i = es i := by
    refine deliverAll_of_notMem fun hagain => ?_
    rcases hfew with hone | hnil
    · have herase := List.count_erase_self (a := i) (l := D)
      have hpos : 0 < (D.erase i).count i := List.count_pos_iff.mpr hagain
      omega
    · rw [hnil] at hv
      cases hv
  rcases stateOf_deliver_of_carried (hfresh ▸ hreceived) (hfresh ▸ hv) with heq | heq
  · exact heq.symm.trans hend
  · rw [hfresh] at heq
    exact absurd (Value.str.inj (heq.symm.trans hend)) hbest

/-- **When the state of a task converges**: for events of built-in states but `RETRY`, it
ends in the best of their states in every order of delivery, if and only if they are
harmless. -/
theorem converges_iff (htypes : ∀ i ∈ D, (es i).type ∈ orderedTypes) :
    Converges es D ↔ Harmless es D := by
  refine ⟨harmless_of_converges htypes, fun hharmless order hperm => ?_⟩
  have hcount : ∀ i, order.count i ≤ D.count i := fun i => (hperm.count_eq i).le
  obtain ⟨x, hx, hxmem, hxle⟩ := (settling_run htypes hharmless hcount).state
  have hxordered := mem_orderedStates htypes hxmem
  have hbest := (bestState_spec es D).1
  have hle : precedence x ≤ precedence (bestState es D) := by
    rcases hbest with hpending | ⟨i, hi, heq⟩
    · rw [hpending]
      exact precedence_le_pending x hxordered
    · rw [heq]
      exact hxle i (hperm.mem_iff.mpr hi)
  rw [hx, precedence_injOn x hxordered _ (mem_orderedStates htypes hbest)
    (le_antisymm hle (bestState_le hxmem))]

/-- The start of a task, and its success. -/
def startAndSuccess (success : Bool) : Event ℕ :=
  if success then ⟨"succeeded", .other 2, [("result", .str "4")]⟩
  else ⟨"started", .other 1, [("pid", .other 7)]⟩

/-- Each of the two is delivered once. -/
theorem startAndSuccess_converges :
    (∀ i ∈ [false, true], (startAndSuccess i).type ∈ orderedTypes) ∧
      Converges startAndSuccess [false, true] := by
  have htypes : ∀ i ∈ [false, true], (startAndSuccess i).type ∈ orderedTypes := by decide
  refine ⟨htypes, (converges_iff htypes).mpr fun i _ => Or.inr (Or.inr ⟨Or.inl ?_, fun v hv => ?_⟩)⟩
  · cases i with
    | false => rfl
    | true => rfl
  · cases i with
    | false => cases hv
    | true => cases hv

/-- **A dict that is delivered twice takes the task back** to the state it had before. -/
theorem startAgain_not_converges :
    stateOf (deliverAll startAndSuccess [false, false, true]).1 = .str "SUCCESS" ∧
      stateOf (deliverAll startAndSuccess [false, true, false]).1 = .str "STARTED" ∧
      ¬ Converges startAndSuccess [false, false, true] := by
  have hback : stateOf (deliverAll startAndSuccess [false, true, false]).1 = .str "STARTED" := by
    decide
  refine ⟨by decide, hback, fun hconverges => ?_⟩
  have hend := hconverges [false, true, false] (List.Perm.cons _ (List.Perm.swap _ _ _))
  rw [hback] at hend
  exact absurd hend (by decide)

end Deliveries

end TaskEvents
end Celery
