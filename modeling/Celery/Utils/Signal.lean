/-
# `celery/utils/dispatch/signal.py`: `Signal`

`_make_id` and `_make_lookup_key` (lines 21-61), `connect` with `retry` (lines 126-186),
`_connect_signal` and `disconnect` (lines 188-253), `send` and `_live_receivers` (lines 258-340),
without `use_caching`.  All receivers are alive and accept keyword arguments.

A connection is kept under what `_make_id` returns for the receiver, or under its `dispatch_uid`,
and for the sender.  `send_registered` has who is called where these keys are apart, and
`connect_method_of_other` that those of two methods of one function are not.

A sender may be a lazy task: a `PromiseProxy` (`celery/local.py`, lines 282-350) stands for an
object that it makes when it is first asked for it, and what is connected for it before is
connected then.  `Scene.made` has the calls in the order in which they take effect.
-/

import Mathlib.Data.List.Induction
import Mathlib.Data.List.Nodup
import Mathlib.Logic.Function.Basic

namespace Celery
namespace Signals

/-- What a dispatch uid may be, and what `_make_id` returns. -/
inductive Key (U : Type) where
  | id (n : ℕ)
  | str (s : String)
  | other (u : U)
  deriving DecidableEq

/-- A function, or an instance that is callable, and a method that is bound to an instance. -/
inductive Callable where
  | function (id : ℕ)
  | method (func self : ℕ)
  deriving DecidableEq

/-- What is connected and called: `retried` is the function that `connect` makes for `retry`, out
of `fun` and the `dispatch_uid` that it was given. -/
inductive Receiver (U : Type) where
  | plain (receiver : Callable)
  | retried (receiver : Callable) (dispatchUid : Option (Key U))
  deriving DecidableEq

/-- A sender.  `None` is the object `0`. -/
inductive Sender where
  | str (s : String)
  | object (id : ℕ)
  | method (func self : ℕ)
  | unhashable (id : ℕ)
  deriving DecidableEq

def Sender.none : Sender := .object 0

def Sender.Hashable : Sender → Prop
  | .unhashable _ => False
  | _ => True

instance : DecidablePred Sender.Hashable
  | .str _ => .isTrue trivial
  | .object _ => .isTrue trivial
  | .method _ _ => .isTrue trivial
  | .unhashable _ => .isFalse id

variable {U E R : Type}

/-- `_make_id` of a receiver: of a bound method that of its `__func__`. -/
def Callable.makeId : Callable → Key U
  | .function id => .id id
  | .method func _ => .id func

/-- `_make_id` of a sender. -/
def Sender.makeId : Sender → Key U
  | .str s => .str s
  | .object id => .id id
  | .method func _ => .id func
  | .unhashable id => .id id

/-- What `_retry_receiver` makes has the uid that it is looked up by. -/
def retryUid (fun_ : Callable) (dispatchUid : Option (Key U)) : Key U :=
  dispatchUid.getD fun_.makeId

/-- `_make_lookup_key`, where a `dispatch_uid` that is false is none. -/
def makeLookupKey (receiver : Receiver U) (sender : Sender) (dispatchUid : Option (Key U)) :
    Key U × Key U :=
  match dispatchUid, receiver with
  | some uid, _ => (uid, sender.makeId)
  | none, .retried receiver uid => (retryUid receiver uid, sender.makeId)
  | none, .plain receiver => (receiver.makeId, sender.makeId)

/-- The receivers of a signal, under their lookup keys. -/
structure Signal (U : Type) where
  receivers : List ((Key U × Key U) × Receiver U)

/-- What `send` raises of its own: the cache is asked for the sender. -/
inductive SignalError where
  | unhashable

namespace Signal

variable [DecidableEq U] (s : Signal U)

/-- `_connect_signal`. -/
def connectSignal (receiver : Receiver U) (sender : Sender) (dispatchUid : Option (Key U)) :
    Signal U :=
  let lookupKey := makeLookupKey receiver sender dispatchUid
  if lookupKey ∈ s.receivers.map Prod.fst then s else ⟨s.receivers ++ [(lookupKey, receiver)]⟩

/-- `connect`. -/
def connect (receiver : Callable) (sender : Sender) (dispatchUid : Option (Key U))
    (retry : Bool) : Signal U :=
  if retry then
    s.connectSignal (.retried receiver dispatchUid) sender (some (retryUid receiver dispatchUid))
  else s.connectSignal (.plain receiver) sender dispatchUid

/-- `disconnect`, where no receiver is the object `0`. -/
def disconnect (receiver : Receiver U) (sender : Sender) (dispatchUid : Option (Key U)) :
    Signal U :=
  ⟨s.receivers.eraseP fun r => r.1 = makeLookupKey receiver sender dispatchUid⟩

/-- `_live_receivers`. -/
def liveReceivers (sender : Sender) : List (Receiver U) :=
  (s.receivers.filter fun r =>
    r.1.2 = Sender.none.makeId ∨ r.1.2 = sender.makeId).map Prod.snd

/-- `send`: the responses, and what the receivers have raised, in the order of the calls. -/
def send (call : Receiver U → Except E R) (sender : Sender) :
    Except SignalError (List (Receiver U × Except E R)) :=
  if s.receivers = [] then .ok []
  else if sender.Hashable then .ok ((s.liveReceivers sender).map fun r => (r, call r))
  else .error .unhashable

end Signal

/-! ## Runs -/

/-- The calls that change a signal. -/
inductive Op (U : Type) where
  | connect (receiver : Callable) (sender : Sender) (dispatchUid : Option (Key U)) (retry : Bool)
  | disconnect (receiver : Receiver U) (sender : Sender) (dispatchUid : Option (Key U))

section Runs

variable [DecidableEq U]

def step (s : Signal U) : Op U → Signal U
  | .connect receiver sender dispatchUid retry => s.connect receiver sender dispatchUid retry
  | .disconnect receiver sender dispatchUid => s.disconnect receiver sender dispatchUid

/-- A new signal after the calls. -/
def run (ops : List (Op U)) : Signal U := ops.foldl step ⟨[]⟩

end Runs

/-! ## Lazy senders -/

/-- A sender as it is given: `lazy` is a `PromiseProxy`. -/
inductive SenderArg where
  | now (sender : Sender)
  | lazy (proxy : ℕ)
  deriving DecidableEq

/-- `_get_current_object`: the sender itself, where `current` has what the proxies stand for. -/
def SenderArg.resolve (current : ℕ → Sender) : SenderArg → Sender
  | .now sender => sender
  | .lazy proxy => current proxy

/-- The calls, and that something else asks a proxy for its object. -/
inductive Call (U : Type) where
  | connect (receiver : Callable) (sender : SenderArg) (dispatchUid : Option (Key U))
      (retry : Bool)
  | disconnect (receiver : Receiver U) (sender : SenderArg) (dispatchUid : Option (Key U))
  | send (sender : SenderArg)
  | evaluate (proxy : ℕ)

/-- What waits in a proxy: the receiver, its `dispatch_uid`, and whether it is retried.  The
function that was made for `retry`, and its uid, come out the same when it is connected then. -/
abbrev Waiting (U : Type) := Callable × Option (Key U) × Bool

/-- A signal and the proxies, with what waits in each of them. -/
structure Scene (U : Type) where
  signal : Signal U
  evaluated : ℕ → Bool
  pending : ℕ → List (Waiting U)

namespace Scene

variable [DecidableEq U] (current : ℕ → Sender) (s : Scene U)

/-- `__evaluate__`, once, with `_connect_proxy` for what waits. -/
def evaluate (proxy : ℕ) : Scene U :=
  if s.evaluated proxy then s
  else
    { signal := (s.pending proxy).foldl
        (fun signal w => signal.connect w.1 (current proxy) w.2.1 w.2.2) s.signal
      evaluated := Function.update s.evaluated proxy true
      pending := Function.update s.pending proxy [] }

/-- `_get_current_object` of a sender: a proxy is evaluated. -/
def ask : SenderArg → Scene U
  | .now _ => s
  | .lazy proxy => s.evaluate current proxy

/-- `connect`: for a proxy, `__then__`. -/
def connect (receiver : Callable) (sender : SenderArg) (dispatchUid : Option (Key U))
    (retry : Bool) : Scene U :=
  match sender with
  | .now sender => { s with signal := s.signal.connect receiver sender dispatchUid retry }
  | .lazy proxy =>
    if s.evaluated proxy then
      { s with signal := s.signal.connect receiver (current proxy) dispatchUid retry }
    else
      { s with
        pending := Function.update s.pending proxy
          (s.pending proxy ++ [(receiver, dispatchUid, retry)]) }

/-- `disconnect`: the lookup key asks the sender. -/
def disconnect (receiver : Receiver U) (sender : SenderArg) (dispatchUid : Option (Key U)) :
    Scene U :=
  let s := s.ask current sender
  { s with signal := s.signal.disconnect receiver (sender.resolve current) dispatchUid }

/-- What `send` leaves: the cache asks the sender, unless there is no receiver. -/
def afterSend (sender : SenderArg) : Scene U :=
  if s.signal.receivers = [] then s else s.ask current sender

/-- `send`. -/
def send (call : Receiver U → Except E R) (sender : SenderArg) :
    Except SignalError (List (Receiver U × Except E R)) :=
  (s.afterSend current sender).signal.send call (sender.resolve current)

def step : Call U → Scene U
  | .connect receiver sender dispatchUid retry =>
    s.connect current receiver sender dispatchUid retry
  | .disconnect receiver sender dispatchUid => s.disconnect current receiver sender dispatchUid
  | .send sender => s.afterSend current sender
  | .evaluate proxy => s.evaluate current proxy

/-- A new signal, and proxies that are not evaluated. -/
def init : Scene U := ⟨⟨[]⟩, fun _ => false, fun _ => []⟩

def run (calls : List (Call U)) : Scene U := calls.foldl (step current) init

end Scene

/-- Who is connected: a uid stands for the receiver that it was given for. -/
inductive Identity (U : Type) where
  | uid (uid : Key U)
  | receiver (receiver : Callable)
  deriving DecidableEq

def identity (receiver : Receiver U) (dispatchUid : Option (Key U)) : Identity U :=
  match dispatchUid, receiver with
  | some uid, _ => .uid uid
  | none, .retried _ (some uid) => .uid uid
  | none, .retried receiver none => .receiver receiver
  | none, .plain receiver => .receiver receiver

/-- What `connect` stands for: that `receiver` is called for a sender, under an identity. -/
structure Registration (U : Type) where
  identity : Identity U
  sender : Sender
  receiver : Receiver U
  deriving DecidableEq

/-- The same identity, for the same sender. -/
def Registration.Same (r : Registration U) (identity : Identity U) (sender : Sender) : Prop :=
  r.identity = identity ∧ r.sender = sender

/-- A connection as it is asked for. -/
def registration (receiver : Callable) (sender : Sender) (dispatchUid : Option (Key U))
    (retry : Bool) : Registration U :=
  ⟨identity (.plain receiver) dispatchUid, sender,
    if retry then .retried receiver dispatchUid else .plain receiver⟩

section Spec

variable [DecidableEq U]

instance (identity : Identity U) (sender : Sender) :
    DecidablePred fun r : Registration U => r.Same identity sender :=
  fun r => inferInstanceAs (Decidable (r.identity = identity ∧ r.sender = sender))

/-- What a call does to the registrations: a connection is added unless it is there, and is taken
out once it is disconnected. -/
def register (rs : List (Registration U)) : Op U → List (Registration U)
  | .connect receiver sender dispatchUid retry =>
    let r := registration receiver sender dispatchUid retry
    if ∃ r' ∈ rs, r'.Same r.identity sender then rs else rs ++ [r]
  | .disconnect receiver sender dispatchUid =>
    rs.filter fun r => ¬ r.Same (identity receiver dispatchUid) sender

/-- The registrations that have not been disconnected, in the order of the connections. -/
def registrations (ops : List (Op U)) : List (Registration U) := ops.foldl register []

/-- What waits in a proxy, if it has not been evaluated, as calls for its object. -/
def Scene.due (current : ℕ → Sender) (s : Scene U) : SenderArg → List (Op U)
  | .now _ => []
  | .lazy proxy =>
    if s.evaluated proxy then []
    else (s.pending proxy).map fun w => .connect w.1 (current proxy) w.2.1 w.2.2

/-- The calls that take effect by a call. -/
def Scene.madeBy (current : ℕ → Sender) (s : Scene U) : Call U → List (Op U)
  | .connect receiver (.now sender) dispatchUid retry =>
    [.connect receiver sender dispatchUid retry]
  | .connect receiver (.lazy proxy) dispatchUid retry =>
    if s.evaluated proxy then [.connect receiver (current proxy) dispatchUid retry] else []
  | .disconnect receiver sender dispatchUid =>
    s.due current sender ++ [.disconnect receiver (sender.resolve current) dispatchUid]
  | .send sender => if s.signal.receivers = [] then [] else s.due current sender
  | .evaluate proxy => s.due current (.lazy proxy)

/-- **The calls in the order in which they take effect:** a connection for a proxy that is not
evaluated takes effect when it is, for the object that the proxy stands for. -/
def Scene.made (current : ℕ → Sender) : Scene U → List (Call U) → List (Op U)
  | _, [] => []
  | s, call :: calls => s.madeBy current call ++ made current (s.step current call) calls

end Spec

/-- The identity and the sender of a call. -/
def Op.target : Op U → Identity U × Sender
  | .connect receiver sender dispatchUid _ => (identity (.plain receiver) dispatchUid, sender)
  | .disconnect receiver sender dispatchUid => (identity receiver dispatchUid, sender)

def Identity.key : Identity U → Key U
  | .uid k => k
  | .receiver c => c.makeId

/-- `_make_id` tells apart who is connected and disconnected, and the senders: no two methods of
one function, and no uid that is the id of a receiver. -/
structure Apart (ops : List (Op U)) (senders : List Sender) : Prop where
  identity : ∀ op ∈ ops, ∀ op' ∈ ops, op.target.1.key = op'.target.1.key →
    op.target.1 = op'.target.1
  sender : ∀ s ∈ Sender.none :: senders ++ ops.map fun op => op.target.2,
    ∀ s' ∈ Sender.none :: senders ++ ops.map fun op => op.target.2,
    (s.makeId : Key U) = s'.makeId → s = s'

/-! ## What a call keeps -/

variable {ops : List (Op U)} {op : Op U} {senders : List Sender} {rs : List (Registration U)}

/-- The lookup key is that of the identity. -/
theorem makeLookupKey_eq (receiver : Receiver U) (sender : Sender) (dispatchUid : Option (Key U)) :
    makeLookupKey receiver sender dispatchUid =
      ((identity receiver dispatchUid).key, sender.makeId) := by
  cases dispatchUid with
  | some uid => rfl
  | none =>
    cases receiver with
    | plain receiver => rfl
    | retried receiver uid => cases uid <;> rfl

/-- How a registration is kept. -/
def Registration.entry (r : Registration U) : (Key U × Key U) × Receiver U :=
  ((r.identity.key, r.sender.makeId), r.receiver)

theorem Apart.of_append {more : List (Op U)} (h : Apart (ops ++ more) senders) :
    Apart ops senders where
  identity op hop op' hop' :=
    h.identity op (List.mem_append_left _ hop) op' (List.mem_append_left _ hop')
  sender := by
    have hsub : ∀ s ∈ Sender.none :: senders ++ ops.map fun op => op.target.2,
        s ∈ Sender.none :: senders ++ (ops ++ more).map fun op => op.target.2 := by
      intro s hs
      rw [List.map_append, ← List.append_assoc]
      exact List.mem_append_left _ hs
    exact fun s hs s' hs' => h.sender s (hsub s hs) s' (hsub s' hs')

/-- The calls have equal keys only for equal targets. -/
theorem Apart.target_eq (h : Apart ops senders) {op op' : Op U} (hop : op ∈ ops) (hop' : op' ∈ ops)
    (hkey : op.target.1.key = op'.target.1.key)
    (hsender : (op.target.2.makeId : Key U) = op'.target.2.makeId) : op.target = op'.target :=
  Prod.ext (h.identity op hop op' hop' hkey)
    (h.sender _ (List.mem_append_right _ (List.mem_map_of_mem hop)) _
      (List.mem_append_right _ (List.mem_map_of_mem hop')) hsender)

variable [DecidableEq U]

theorem registrations_concat (ops : List (Op U)) (op : Op U) :
    registrations (ops ++ [op]) = register (registrations ops) op := List.foldl_concat ..

theorem run_concat (ops : List (Op U)) (op : Op U) : run (ops ++ [op]) = step (run ops) op :=
  List.foldl_concat ..

/-- A registration comes from one of the calls. -/
theorem exists_of_mem_registrations {r : Registration U} (h : r ∈ registrations ops) :
    ∃ op ∈ ops, op.target = (r.identity, r.sender) := by
  induction ops using List.reverseRecOn with
  | nil => cases h
  | append_singleton ops op ih =>
    have hold : r ∈ registrations ops → ∃ op' ∈ ops ++ [op], op'.target = (r.identity, r.sender) :=
      fun hr => (ih hr).imp fun op' h' => ⟨List.mem_append_left _ h'.1, h'.2⟩
    rw [registrations_concat] at h
    cases op with
    | connect receiver sender dispatchUid retry =>
      rw [register] at h
      split at h
      · exact hold h
      · rcases List.mem_append.mp h with h | h
        · exact hold h
        · obtain rfl := List.mem_singleton.mp h
          exact ⟨_, List.mem_append_right _ (List.mem_singleton_self _), rfl⟩
    | disconnect receiver sender dispatchUid => exact hold (List.mem_filter.mp h).1

/-- No two registrations are of the same identity for the same sender. -/
theorem pairwise_registrations (ops : List (Op U)) :
    (registrations ops).Pairwise fun r r' => ¬ r.Same r'.identity r'.sender := by
  induction ops using List.reverseRecOn with
  | nil => exact List.Pairwise.nil
  | append_singleton ops op ih =>
    rw [registrations_concat]
    cases op with
    | connect receiver sender dispatchUid retry =>
      rw [register]
      split
      · exact ih
      next hnew =>
        refine List.pairwise_append.mpr ⟨ih, List.pairwise_singleton _ _, fun r hr r' hr' => ?_⟩
        obtain rfl := List.mem_singleton.mp hr'
        exact fun hsame => hnew ⟨r, hr, hsame⟩
    | disconnect receiver sender dispatchUid => exact ih.filter _

/-- The call disconnects a registration. -/
def Op.Undoes (op : Op U) (r : Registration U) : Prop :=
  ∃ receiver dispatchUid, op = .disconnect receiver r.sender dispatchUid ∧
    identity receiver dispatchUid = r.identity

theorem mem_register_iff {r : Registration U} : r ∈ register rs op ↔
    r ∈ rs ∧ ¬ op.Undoes r ∨ (∀ r' ∈ rs, ¬ r'.Same r.identity r.sender) ∧
      ∃ receiver dispatchUid retry, op = .connect receiver r.sender dispatchUid retry ∧
        r = registration receiver r.sender dispatchUid retry := by
  cases op with
  | connect receiver sender dispatchUid retry =>
    have hundoes : ∀ r, ¬ (Op.connect receiver sender dispatchUid retry).Undoes r := by
      rintro r ⟨_, _, hop, _⟩
      cases hop
    rw [register]
    split
    next hsame =>
      refine ⟨fun hr => .inl ⟨hr, hundoes r⟩, ?_⟩
      rintro (⟨hr, -⟩ | ⟨hnew, _, _, _, hop, hr⟩)
      · exact hr
      · cases hop
        obtain ⟨r', hr', hsame⟩ := hsame
        rw [hr] at hnew
        exact absurd hsame (hnew r' hr')
    next hnew =>
      rw [List.mem_append, List.mem_singleton]
      constructor
      · rintro (hr | rfl)
        · exact .inl ⟨hr, hundoes r⟩
        · exact .inr ⟨fun r' hr' hsame => hnew ⟨r', hr', hsame⟩, receiver, dispatchUid, retry,
            rfl, rfl⟩
      · rintro (⟨hr, -⟩ | ⟨-, _, _, _, hop, hr⟩)
        · exact .inl hr
        · cases hop
          exact .inr hr
  | disconnect receiver sender dispatchUid =>
    have hundoes : (Op.disconnect receiver sender dispatchUid).Undoes r ↔
        r.Same (identity receiver dispatchUid) sender := by
      constructor
      · rintro ⟨_, _, hop, hidentity⟩
        cases hop
        exact ⟨hidentity.symm, rfl⟩
      · rintro ⟨hidentity, rfl⟩
        exact ⟨receiver, dispatchUid, rfl, hidentity.symm⟩
    rw [register, List.mem_filter, decide_eq_true_iff, hundoes]
    refine ⟨.inl, fun h => h.resolve_right ?_⟩
    rintro ⟨-, _, _, _, hop, -⟩
    cases hop

/-- **What is registered:** what has been connected, while there was no registration of the same
identity for the same sender, and has not been disconnected since. -/
theorem mem_registrations_iff {r : Registration U} : r ∈ registrations ops ↔
    ∃ before receiver dispatchUid retry after,
      ops = before ++ .connect receiver r.sender dispatchUid retry :: after ∧
      r = registration receiver r.sender dispatchUid retry ∧
      (∀ r' ∈ registrations before, ¬ r'.Same r.identity r.sender) ∧
      ∀ op ∈ after, ¬ op.Undoes r := by
  induction ops using List.reverseRecOn with
  | nil => exact ⟨nofun, fun ⟨_, _, _, _, _, h, _⟩ => absurd h (by simp)⟩
  | append_singleton ops op ih =>
    rw [registrations_concat, mem_register_iff]
    constructor
    · rintro (⟨hr, hundoes⟩ | ⟨hnew, receiver, dispatchUid, retry, rfl, hr⟩)
      · obtain ⟨before, receiver, dispatchUid, retry, after, rfl, heq, hnew, hafter⟩ := ih.mp hr
        refine ⟨before, receiver, dispatchUid, retry, after ++ [op], List.append_assoc .., heq,
          hnew, fun op' hop' => ?_⟩
        rcases List.mem_append.mp hop' with hop' | hop'
        · exact hafter op' hop'
        · exact List.mem_singleton.mp hop' ▸ hundoes
      · exact ⟨ops, receiver, dispatchUid, retry, [], rfl, hr, hnew, nofun⟩
    · rintro ⟨before, receiver, dispatchUid, retry, after, hops, heq, hnew, hafter⟩
      rcases List.eq_nil_or_concat' after with rfl | ⟨after, last, rfl⟩
      · obtain ⟨rfl, hop⟩ := List.append_inj' hops rfl
        exact .inr ⟨hnew, receiver, dispatchUid, retry, List.singleton_inj.mp hop, heq⟩
      · rw [← List.cons_append, ← List.append_assoc] at hops
        obtain ⟨rfl, hop⟩ := List.append_inj' hops rfl
        obtain rfl := List.singleton_inj.mp hop
        refine .inl ⟨ih.mpr ⟨before, receiver, dispatchUid, retry, after, rfl, heq, hnew,
          fun op' hop' => hafter op' (List.mem_append_left _ hop')⟩, ?_⟩
        exact hafter op (List.mem_append_right _ (List.mem_singleton_self _))

/-- Of elements of which one at most is such that `p`, `eraseP` leaves the others. -/
theorem eraseP_eq_filter {α : Type} {p : α → Bool} {l : List α}
    (h : l.Pairwise fun a b => ¬ (p a ∧ p b)) : l.eraseP p = l.filter fun a => !p a := by
  induction h with
  | nil => rfl
  | @cons a l hl _ ih =>
    cases hp : p a with
    | false => rw [List.eraseP_cons_of_neg (by simp [hp]), List.filter_cons_of_pos (by simp [hp]), ih]
    | true =>
      rw [List.eraseP_cons_of_pos hp, List.filter_cons_of_neg (by simp [hp])]
      refine (List.filter_eq_self.mpr fun b hb => ?_).symm
      simpa [hp] using hl b hb

/-- With `retry` or without, a connection is kept under the key of its identity. -/
theorem receivers_connect (s : Signal U) (receiver : Callable) (sender : Sender)
    (dispatchUid : Option (Key U)) (retry : Bool) :
    (s.connect receiver sender dispatchUid retry).receivers =
      let r := registration receiver sender dispatchUid retry
      if (r.identity.key, sender.makeId) ∈ s.receivers.map Prod.fst then s.receivers
      else s.receivers ++ [r.entry] := by
  have hkey : makeLookupKey (Receiver.retried receiver dispatchUid) sender
      (some (retryUid receiver dispatchUid)) =
      ((identity (.plain receiver) dispatchUid).key, sender.makeId) := by
    cases dispatchUid <;> rfl
  rw [Signal.connect]
  cases retry with
  | true =>
    rw [if_pos rfl, Signal.connectSignal, hkey]
    exact apply_ite Signal.receivers _ _ _
  | false =>
    rw [if_neg Bool.false_ne_true, Signal.connectSignal, makeLookupKey_eq]
    exact apply_ite Signal.receivers _ _ _

/-- **The receivers are kept as they are registered**, if `_make_id` tells them apart. -/
theorem receivers_run (h : Apart ops senders) :
    (run ops).receivers = (registrations ops).map Registration.entry := by
  induction ops using List.reverseRecOn with
  | nil => rfl
  | append_singleton ops op ih =>
    have ih := ih h.of_append
    rw [registrations_concat, run_concat]
    have hmem : ∀ {r}, r ∈ registrations ops →
        ((r.identity.key, (r.sender.makeId : Key U)) = (op.target.1.key, op.target.2.makeId) ↔
          r.Same op.target.1 op.target.2) := by
      intro r hr
      obtain ⟨op', hop', htarget⟩ := exists_of_mem_registrations hr
      constructor
      · intro heq
        obtain ⟨hkey, hsender⟩ := Prod.mk.inj heq
        have := h.target_eq (List.mem_append_left _ hop')
          (List.mem_append_right _ (List.mem_singleton_self op))
          (by rw [htarget]; exact hkey) (by rw [htarget]; exact hsender)
        rw [htarget] at this
        exact ⟨congrArg Prod.fst this, congrArg Prod.snd this⟩
      · rintro ⟨hidentity, hsender⟩
        rw [hidentity, hsender]
    cases op with
    | connect receiver sender dispatchUid retry =>
      have hiff : ((registration receiver sender dispatchUid retry).identity.key,
            (sender.makeId : Key U)) ∈ (run ops).receivers.map Prod.fst ↔
          ∃ r' ∈ registrations ops,
            r'.Same (registration receiver sender dispatchUid retry).identity sender := by
        rw [ih, List.map_map, List.mem_map]
        exact exists_congr fun r => and_congr_right fun hr => hmem hr
      refine (receivers_connect ..).trans ?_
      rw [register]
      dsimp only
      rw [apply_ite (List.map Registration.entry), List.map_append, ← ih]
      exact if_congr hiff rfl rfl
    | disconnect receiver sender dispatchUid =>
      have hkeys : ∀ r ∈ registrations ops,
          decide (r.entry.1 = makeLookupKey receiver sender dispatchUid) =
            decide (r.Same (identity receiver dispatchUid) sender) := by
        intro r hr
        rw [makeLookupKey_eq]
        exact decide_eq_decide.mpr (hmem hr)
      have hunique : (registrations ops).Pairwise fun r r' =>
          ¬ (decide (r.entry.1 = makeLookupKey receiver sender dispatchUid) ∧
            decide (r'.entry.1 = makeLookupKey receiver sender dispatchUid)) := by
        refine (pairwise_registrations ops).imp_of_mem fun hr hr' hne => ?_
        rw [hkeys _ hr, hkeys _ hr', decide_eq_true_iff, decide_eq_true_iff]
        rintro ⟨⟨hidentity, hsender⟩, hidentity', hsender'⟩
        exact hne ⟨hidentity.trans hidentity'.symm, hsender.trans hsender'.symm⟩
      show (run ops).receivers.eraseP _ = _
      rw [ih, List.eraseP_map]
      refine congrArg (List.map Registration.entry) ?_
      refine (eraseP_eq_filter hunique).trans (List.filter_congr fun r hr => ?_)
      rw [hkeys r hr, decide_not]

/-- The registrations for a sender are the receivers that `send` calls. -/
theorem liveReceivers_run (sender : Sender) (h : Apart ops [sender]) :
    (run ops).liveReceivers sender = ((registrations ops).filter fun r =>
      r.sender = Sender.none ∨ r.sender = sender).map Registration.receiver := by
  rw [Signal.liveReceivers, receivers_run h, List.filter_map, List.map_map]
  refine congrArg _ (List.filter_congr fun r hr => ?_)
  obtain ⟨op, hop, htarget⟩ := exists_of_mem_registrations hr
  have hsender : r.sender ∈ Sender.none :: [sender] ++ ops.map fun op => op.target.2 :=
    List.mem_append_right _ (List.mem_map.mpr ⟨op, hop, congrArg Prod.snd htarget⟩)
  have hiff : ∀ s ∈ Sender.none :: [sender] ++ ops.map fun op => op.target.2,
      ((r.sender.makeId : Key U) = s.makeId ↔ r.sender = s) := fun s hs =>
    ⟨h.sender _ hsender s hs, fun heq => congrArg _ heq⟩
  exact decide_eq_decide.mpr (or_congr (hiff _ (by simp)) (hiff _ (by simp)))

/-- `send` for an object: the receivers of the registrations for it and for any. -/
theorem Signal.send_run (sender : Sender) (call : Receiver U → Except E R)
    (h : Apart ops [sender]) (hsender : sender.Hashable) :
    (run ops).send call sender = .ok (((registrations ops).filter fun r =>
      r.sender = Sender.none ∨ r.sender = sender).map fun r => (r.receiver, call r.receiver)) := by
  rw [Signal.send, if_pos hsender, liveReceivers_run sender h, List.map_map]
  split
  next hnil =>
    rw [receivers_run h] at hnil
    rw [List.map_eq_nil_iff.mp hnil]
    rfl
  · rfl

/-! ## What takes effect -/

section Lazy

variable {current : ℕ → Sender}

/-- A sender that is asked connects what waits for it. -/
theorem Scene.signal_ask (s : Scene U) (sender : SenderArg) :
    (s.ask current sender).signal = (s.due current sender).foldl Signals.step s.signal := by
  cases sender with
  | now sender => rfl
  | lazy proxy =>
    rw [Scene.ask, Scene.evaluate, Scene.due]
    split
    · rfl
    · rw [List.foldl_map]
      rfl

/-- **What a call does to the signal** is what takes effect by it. -/
theorem Scene.signal_step (s : Scene U) (c : Call U) :
    (s.step current c).signal = (s.madeBy current c).foldl Signals.step s.signal := by
  cases c with
  | connect receiver sender dispatchUid retry =>
    cases sender with
    | now sender => rfl
    | lazy proxy =>
      rw [Scene.step, Scene.connect, Scene.madeBy]
      split
      · rfl
      · rfl
  | disconnect receiver sender dispatchUid =>
    rw [Scene.madeBy, List.foldl_append, ← signal_ask]
    rfl
  | send sender =>
    rw [Scene.step, Scene.afterSend, Scene.madeBy]
    split
    · rfl
    · exact s.signal_ask sender
  | evaluate proxy => exact s.signal_ask (.lazy proxy)

theorem Scene.signal_foldl (s : Scene U) (calls : List (Call U)) :
    (calls.foldl (Scene.step current) s).signal =
      (s.made current calls).foldl Signals.step s.signal := by
  induction calls generalizing s with
  | nil => rfl
  | cons c calls ih => rw [List.foldl_cons, ih, Scene.made, List.foldl_append, signal_step]

/-- **The signal after the calls** is that after the calls as they take effect. -/
theorem Scene.signal_run (calls : List (Call U)) :
    (Scene.run current calls).signal = Signals.run (Scene.init.made current calls) :=
  init.signal_foldl calls

/-- **`send`** calls the receivers of the registrations for its sender and for any, once for each
registration, in the order in which the connections took effect. -/
theorem send_registered (current : ℕ → Sender) (calls : List (Call U)) (sender : SenderArg)
    (call : Receiver U → Except E R)
    (h : Apart (Scene.init.made current (calls ++ [.send sender])) [sender.resolve current])
    (hsender : (sender.resolve current).Hashable) :
    (Scene.run current calls).send current call sender =
      .ok (((registrations (Scene.init.made current (calls ++ [.send sender]))).filter fun r =>
        r.sender = Sender.none ∨ r.sender = sender.resolve current).map
          fun r => (r.receiver, call r.receiver)) ∧
    (registrations (Scene.init.made current (calls ++ [.send sender]))).Pairwise
      fun r r' => ¬ r.Same r'.identity r'.sender := by
  refine ⟨?_, pairwise_registrations _⟩
  have hafter : ((Scene.run current calls).afterSend current sender).signal =
      run (Scene.init.made current (calls ++ [.send sender])) := by
    rw [← Scene.signal_run, Scene.run, Scene.run, List.foldl_concat]
    rfl
  rw [Scene.send, hafter]
  exact Signal.send_run _ call h hsender

/-- A method that is disconnected, and two functions: one for a lazy task, and one with a uid that
is retried. -/
def apartCalls : List (Call Unit) :=
  [.connect (.method 1 2) (.now (.str "add")) none false,
    .connect (.function 4) (.lazy 0) none false,
    .connect (.function 3) (.now .none) (some (.str "uid")) true,
    .disconnect (.plain (.method 1 2)) (.now (.str "add")) none]

theorem apartCalls_registered :
    (Scene.run (fun _ => .object 9) apartCalls).send (fun _ => .object 9)
        (fun _ => (.ok () : Except Unit Unit)) (.lazy 0) =
      .ok (((registrations (Scene.init.made (fun _ => .object 9)
        (apartCalls ++ [.send (.lazy 0)]))).filter fun r =>
          r.sender = Sender.none ∨ r.sender = .object 9).map fun r => (r.receiver, .ok ())) ∧
    (registrations (Scene.init.made (fun _ => .object 9)
      (apartCalls ++ [.send (.lazy 0)]))).Pairwise
        fun r r' => ¬ r.Same r'.identity r'.sender :=
  send_registered (fun _ => .object 9) apartCalls (.lazy 0) _ ⟨by decide, by decide⟩ trivial

end Lazy

/-- A function that is connected for any sender and for one is called twice for this one, and one
that is connected under the uid of another is not called.  What is connected for a lazy task is
called behind what is connected before the task is evaluated.  A sender that has no hash cannot be
sent from. -/
theorem registrations_not_receivers :
    (Scene.run (fun _ => .object 2) [.connect (.function 1) (.now .none) none false,
        .connect (.function 1) (.now (.object 2)) none false] : Scene Unit).send
      (fun _ => .object 2) (fun _ => (.ok () : Except Unit Unit)) (.now (.object 2)) =
      .ok [(.plain (.function 1), .ok ()), (.plain (.function 1), .ok ())] ∧
    (Scene.run (fun _ => .object 2) [.connect (.function 1) (.now .none) (some (.str "uid")) false,
        .connect (.function 2) (.now .none) (some (.str "uid")) false] : Scene Unit).send
      (fun _ => .object 2) (fun _ => (.ok () : Except Unit Unit)) (.now (.object 2)) =
      .ok [(.plain (.function 1), .ok ())] ∧
    (Scene.run (fun _ => .object 2) [.connect (.function 1) (.lazy 0) none false,
        .connect (.function 3) (.now (.object 2)) none false, .evaluate 0] : Scene Unit).send
      (fun _ => .object 2) (fun _ => (.ok () : Except Unit Unit)) (.now (.object 2)) =
      .ok [(.plain (.function 3), .ok ()), (.plain (.function 1), .ok ())] ∧
    (Scene.run (fun _ => .object 2) [.connect (.function 1) (.now .none) none false] :
        Scene Unit).send
      (fun _ => .object 2) (fun _ => (.ok () : Except Unit Unit)) (.now (.unhashable 4)) =
      .error .unhashable := ⟨rfl, rfl, rfl, rfl⟩

/-- **`_make_id` of a method is that of its function:** once it has been connected for one
instance, it cannot be connected for another. -/
theorem connect_method_of_other (s : Signal U) (func self other : ℕ)
    (sender : Sender) :
    (s.connect (.method func self) sender none false).connect (.method func other) sender none
      false = s.connect (.method func self) sender none false := by
  have hkey : ((Key.id func : Key U), (sender.makeId : Key U)) ∈
      (s.connect (.method func self) sender none false).receivers.map Prod.fst := by
    rw [receivers_connect]
    dsimp only
    split
    next hmem => exact hmem
    · rw [List.map_append]
      exact List.mem_append_right _ (List.mem_singleton_self _)
  exact if_pos hkey

end Signals
end Celery
