/-
# `celery/worker/consumer/gossip.py`: elections

`Gossip.election`, `on_elect` and `on_elect_ack` (lines 81-134), as `on_message`
(lines 183-206) calls them, for one election id.  A worker that calls an election
broadcasts its request; every worker that receives a request keeps it in a heap
and broadcasts an acknowledgement; a worker that has called the election counts
the acknowledgements, and decides by its heap once it has as many as there are
workers in its view.

The acknowledgements of all requests count together, and the view of a worker
leaves out the worker itself, whose own events `on_message` does not pass to the
state.  So a worker may decide while requests are still on their way to it, and
two of them may win (`two_workers_win`).  Where no worker decides before it holds
the request of every worker, at most one wins (`one_worker_wins`).
-/

import Celery.Library.Transition
import Mathlib.Data.Fintype.Card
import Mathlib.Data.Prod.Lex
import Mathlib.Logic.Function.Basic

namespace Celery
namespace Gossip

open Transition

/-- A member of `consensus_requests[id]`.  Workers are their full hostnames, the host
and the pid. -/
structure Request (ι : Type) where
  clock : ℕ
  name : ι
  topic : String
  action : Option String
deriving DecidableEq, Repr

/-- The events of an election; an acknowledgement names the host it comes from. -/
inductive Event (ι : Type) where
  | elect (request : Request ι)
  | ack (hostname : ι)
deriving DecidableEq, Repr

/-- One worker: its logical clock, the replies of the election (`none` where
`consensus_replies` has no entry for it), the heap of requests, and the actions its
election handlers were called with. -/
structure Worker (ι : Type) where
  clock : ℕ
  replies : Option (List ι)
  requests : List (Request ι)
  called : List (Option String)
deriving DecidableEq, Repr

variable {ι : Type}

/-- The workers, the events on their way from each to each, in the order they were
sent, and the request each worker has made. -/
structure Sys (ι : Type) where
  workers : ι → Worker ι
  channel : ι → ι → List (Event ι)
  made : ι → Option (Request ι)

/-- What happens: a worker calls the election, or gets the next event of a sender, or
its clock goes forward for another reason. -/
inductive Step (ι : Type) where
  | election (i : ι) (topic : String) (action : Option String)
  | deliver (sender receiver : ι)
  | forward (i : ι) (clock : ℕ)
deriving DecidableEq, Repr

/-- `dispatcher.send`: every worker will receive the event, the sender too. -/
def broadcast [DecidableEq ι] (s : Sys ι) (i : ι) (e : Event ι) : Sys ι :=
  { s with channel := Function.update s.channel i fun j => s.channel i j ++ [e] }

section

variable [LinearOrder ι]

/-- The order of requests, by clock and then by name. -/
def Request.Le (r r' : Request ι) : Prop :=
  r.clock < r'.clock ∨ r.clock = r'.clock ∧ r.name ≤ r'.name

instance (r r' : Request ι) : Decidable (r.Le r') := inferInstanceAs (Decidable (_ ∨ _))

/-- kombu's `clock.sort_heap`: the least request of a heap; it raises for an empty one. -/
def sortHeap : List (Request ι) → Option (Request ι)
  | [] => none
  | r :: rs =>
    match sortHeap rs with
    | none => some r
    | some m => if r.Le m then some r else some m

/-- `election`: the event carries the clock that `send` forwards. -/
def election (s : Sys ι) (i : ι) (topic : String) (action : Option String) : Sys ι :=
  let w := s.workers i
  let r : Request ι := ⟨w.clock + 1, i, topic, action⟩
  broadcast
    { s with
      workers := Function.update s.workers i { w with clock := w.clock + 1, replies := some [] }
      made := Function.update s.made i (some r) } i (.elect r)

/-- `on_elect`. -/
def onElect (s : Sys ι) (i : ι) (r : Request ι) : Sys ι :=
  let w := s.workers i
  broadcast
    { s with
      workers := Function.update s.workers i
        { w with clock := w.clock + 1, requests := r :: w.requests } } i (.ack i)

/-- The end of `on_elect_ack`, once there are enough replies: the leader calls its
handler, if there is one for the topic. -/
def decideElection (handlers : List String) (i : ι) (w : Worker ι) : Worker ι :=
  match sortHeap w.requests with
  | none => w
  | some leader =>
    { w with
      called := if leader.name = i ∧ leader.topic ∈ handlers then w.called ++ [leader.action]
        else w.called
      requests := []
      replies := none }

/-- `on_elect_ack`, with `view` alive workers. -/
def onElectAck (handlers : List String) (view : ℕ) (i : ι) (w : Worker ι) (hostname : ι) :
    Worker ι :=
  match w.replies with
  | none => w
  | some replies =>
    let w := { w with replies := some (replies ++ [hostname]) }
    if view ≤ replies.length + 1 then decideElection handlers i w else w

/-- The receiver takes an event. -/
def receive (handlers : List String) (view : ℕ) (s : Sys ι) (i : ι) : Event ι → Sys ι
  | .elect r => onElect s i r
  | .ack hostname =>
    { s with
      workers := Function.update s.workers i
        (onElectAck handlers view i (s.workers i) hostname) }

/-- **One step.**  Each worker calls the election at most once, and its view are the
other workers. -/
def step [Fintype ι] (handlers : List String) (s : Sys ι) : Step ι → Option (Sys ι)
  | .election i topic action =>
    if s.made i = none then some (election s i topic action) else none
  | .deliver j i =>
    match s.channel j i with
    | [] => none
    | e :: rest =>
      let channel := Function.update s.channel j (Function.update (s.channel j) i rest)
      some (receive handlers (Fintype.card ι - 1) { s with channel := channel } i e)
  | .forward i clock =>
    if (s.workers i).clock ≤ clock then
      some { s with workers := Function.update s.workers i { s.workers i with clock := clock } }
    else none

end

/-- Nobody has called the election; the clocks are anywhere. -/
def Sys.init (clock : ι → ℕ) : Sys ι where
  workers i := ⟨clock i, none, [], []⟩
  channel _ _ := []
  made _ := none

/-- **At most one worker** calls its election handler. -/
def AtMostOne (s : Sys ι) : Prop :=
  ∀ i j, (s.workers i).called ≠ [] → (s.workers j).called ≠ [] → i = j

section

variable [LinearOrder ι]

theorem Request.Le.refl (r : Request ι) : r.Le r := Or.inr ⟨rfl, le_rfl⟩

theorem Request.Le.trans {r r' r'' : Request ι} (h : r.Le r') (h' : r'.Le r'') : r.Le r'' := by
  rcases h with h | ⟨h, hn⟩ <;> rcases h' with h' | ⟨h', hn'⟩
  · exact Or.inl (h.trans h')
  · exact Or.inl (h' ▸ h)
  · exact Or.inl (h ▸ h')
  · exact Or.inr ⟨h.trans h', hn.trans hn'⟩

theorem Request.Le.of_not {r r' : Request ι} (h : ¬ r.Le r') : r'.Le r := by
  rw [Request.Le, not_or, not_lt, not_and_or] at h
  rcases h.1.lt_or_eq with hlt | heq
  · exact Or.inl hlt
  · exact Or.inr ⟨heq, (not_le.mp (h.2.resolve_left fun hne => hne heq.symm)).le⟩

theorem Request.Le.name_eq {r r' : Request ι} (h : r.Le r') (h' : r'.Le r) : r.name = r'.name := by
  rcases h with h | ⟨h, hn⟩ <;> rcases h' with h' | ⟨h', hn'⟩
  · omega
  · omega
  · omega
  · exact le_antisymm hn hn'

/-- `sort_heap` gives a least member. -/
theorem sortHeap_spec {heap : List (Request ι)} {m : Request ι} (h : sortHeap heap = some m) :
    m ∈ heap ∧ ∀ r ∈ heap, m.Le r := by
  induction heap generalizing m with
  | nil => cases h
  | cons r rs ih =>
    rw [sortHeap] at h
    split at h
    next hnone =>
      obtain rfl := Option.some_inj.mp h
      have hempty : rs = [] := by
        cases rs with
        | nil => rfl
        | cons r' rs' =>
          rw [sortHeap] at hnone
          split at hnone
          · cases hnone
          · split at hnone <;> cases hnone
      subst hempty
      simp [Request.Le.refl]
    next m' hsome =>
      obtain ⟨hmem, hle⟩ := ih hsome
      split at h
      next hlt =>
        obtain rfl := Option.some_inj.mp h
        refine ⟨List.mem_cons_self, fun r' hr' => ?_⟩
        rcases List.mem_cons.mp hr' with rfl | hr'
        · exact Request.Le.refl _
        · exact hlt.trans (hle r' hr')
      next hnot =>
        obtain rfl := Option.some_inj.mp h
        refine ⟨List.mem_cons_of_mem _ hmem, fun r' hr' => ?_⟩
        rcases List.mem_cons.mp hr' with rfl | hr'
        · exact Request.Le.of_not hnot
        · exact hle r' hr'

/-- **The requests are those that were made**, wherever they are, and a worker whose
handler was called has made the least of all, with every worker having made one. -/
structure Inv (s : Sys ι) : Prop where
  name : ∀ i r, s.made i = some r → r.name = i
  heap : ∀ i, ∀ r ∈ (s.workers i).requests, s.made r.name = some r
  channel : ∀ i j r, Event.elect r ∈ s.channel i j → s.made r.name = some r
  wins : ∀ i, (s.workers i).called ≠ [] → ∃ r, s.made i = some r ∧
    ∀ j, ∃ r', s.made j = some r' ∧ r.Le r'

/-- The step does not let a worker decide before it holds the request of every
worker. -/
def HoldsAll [Fintype ι] (s : Sys ι) : Step ι → Prop
  | .deliver j i => ∀ hostname rest replies, s.channel j i = .ack hostname :: rest →
      (s.workers i).replies = some replies → Fintype.card ι - 1 ≤ replies.length + 1 →
      ∀ k, ∃ r ∈ (s.workers i).requests, r.name = k
  | _ => True

theorem inv_init (clock : ι → ℕ) : Inv (Sys.init clock) := by
  constructor <;> simp [Sys.init]

theorem Inv.atMostOne {s : Sys ι} (h : Inv s) : AtMostOne s := by
  intro i j hi hj
  obtain ⟨r, hr, hle⟩ := h.wins i hi
  obtain ⟨r', hr', hle'⟩ := h.wins j hj
  obtain ⟨q, hq, hrq⟩ := hle j
  obtain ⟨q', hq', hrq'⟩ := hle' i
  rw [hr] at hq'
  rw [hr'] at hq
  obtain rfl := Option.some_inj.mp hq
  obtain rfl := Option.some_inj.mp hq'
  rw [← h.name i r hr, ← h.name j r' hr']
  exact hrq.name_eq hrq'

namespace Inv

variable {s : Sys ι} (h : Inv s)
include h

/-- One worker moves. -/
theorem worker (i : ι) (w : Worker ι) (hrequests : ∀ r ∈ w.requests, s.made r.name = some r)
    (hcalled : w.called ≠ [] → ∃ r, s.made i = some r ∧ ∀ j, ∃ r', s.made j = some r' ∧ r.Le r') :
    Inv { s with workers := Function.update s.workers i w } := by
  refine ⟨h.name, fun j => ?_, h.channel, fun j => ?_⟩
  · by_cases hj : j = i
    · subst hj
      simpa only [Function.update_self] using hrequests
    · simpa only [Function.update_of_ne hj] using h.heap j
  · by_cases hj : j = i
    · subst hj
      simpa only [Function.update_self] using hcalled
    · simpa only [Function.update_of_ne hj] using h.wins j

/-- An event is sent to every worker. -/
theorem broadcast (i : ι) (e : Event ι) (he : ∀ r, e = .elect r → s.made r.name = some r) :
    Inv (broadcast s i e) := by
  refine ⟨h.name, h.heap, fun j k r hmem => ?_, h.wins⟩
  rw [Gossip.broadcast] at hmem
  dsimp only at hmem
  by_cases hj : j = i
  · subst hj
    rw [Function.update_self, List.mem_append, List.mem_singleton] at hmem
    exact hmem.elim (h.channel j k r) fun heq => he r heq.symm
  · rw [Function.update_of_ne hj] at hmem
    exact h.channel j k r hmem

/-- An event is taken. -/
theorem take {i j : ι} {e : Event ι} {rest : List (Event ι)} (hc : s.channel j i = e :: rest) :
    Inv { s with
      channel := Function.update s.channel j (Function.update (s.channel j) i rest) } := by
  refine ⟨h.name, h.heap, fun j' i' r hmem => ?_, h.wins⟩
  dsimp only at hmem
  by_cases hj : j' = j
  · subst hj
    rw [Function.update_self] at hmem
    by_cases hi : i' = i
    · subst hi
      rw [Function.update_self] at hmem
      exact h.channel j' i' r (hc ▸ List.mem_cons_of_mem _ hmem)
    · rw [Function.update_of_ne hi] at hmem
      exact h.channel j' i' r hmem
  · rw [Function.update_of_ne hj] at hmem
    exact h.channel j' i' r hmem

theorem election {i : ι} (hi : s.made i = none) (topic : String) (action : Option String) :
    Inv (election s i topic action) := by
  have hother : ∀ {j r}, s.made j = some r → j ≠ i := by
    rintro j r hj rfl
    rw [hi] at hj
    cases hj
  generalize hr : (⟨(s.workers i).clock + 1, i, topic, action⟩ : Request ι) = r
  have hmade : Inv { s with made := Function.update s.made i (some r) } := by
    refine ⟨fun j r' hj => ?_, fun j r' hr' => ?_, fun j k r' hr' => ?_, fun j hj => ?_⟩
    · dsimp only at hj
      by_cases hji : j = i
      · subst hji
        rw [Function.update_self] at hj
        rw [← Option.some_inj.mp hj, ← hr]
      · rw [Function.update_of_ne hji] at hj
        exact h.name j r' hj
    · have hold := h.heap j r' hr'
      exact (Function.update_of_ne (hother hold) _ _).trans hold
    · have hold := h.channel j k r' hr'
      exact (Function.update_of_ne (hother hold) _ _).trans hold
    · -- Nobody wins before everybody has called the election.
      obtain ⟨_, -, hall⟩ := h.wins j hj
      obtain ⟨r', hr', -⟩ := hall i
      exact absurd rfl (hother hr')
  have hself : Function.update s.made i (some r) r.name = some r := by
    rw [← hr, Function.update_self]
  rw [Gossip.election, hr]
  refine (hmade.worker i _ ?_ ?_).broadcast i _ ?_
  · intro r' hr'
    exact hmade.heap i r' hr'
  · exact hmade.wins i
  · intro r' heq
    cases heq
    exact hself

theorem onElect (i : ι) {r : Request ι} (hr : s.made r.name = some r) : Inv (onElect s i r) := by
  have hw : Inv { s with workers := Function.update s.workers i { s.workers i with
      clock := (s.workers i).clock + 1, requests := r :: (s.workers i).requests } } := by
    refine h.worker i _ (fun r' hr' => ?_) (h.wins i)
    rcases List.mem_cons.mp hr' with rfl | hr'
    · exact hr
    · exact h.heap i r' hr'
  exact hw.broadcast i (.ack i) fun _ heq => by cases heq

omit h in
/-- What `on_elect_ack` does: it keeps no request that was not there, and calls the
handler only with enough replies, for the least request being the worker's own. -/
theorem onElectAck_spec (handlers : List String) (view : ℕ) (i : ι) (w : Worker ι)
    (hostname : ι) :
    (∀ r ∈ (onElectAck handlers view i w hostname).requests, r ∈ w.requests) ∧
      ((onElectAck handlers view i w hostname).called ≠ [] → w.called ≠ [] ∨
        ∃ replies leader, w.replies = some replies ∧ view ≤ replies.length + 1 ∧
          sortHeap w.requests = some leader ∧ leader.name = i) := by
  unfold onElectAck
  split
  next => exact ⟨fun _ hr => hr, Or.inl⟩
  next replies hreplies =>
    dsimp only
    split
    next hview =>
      unfold decideElection
      split
      next => exact ⟨fun _ hr => hr, Or.inl⟩
      next leader hleader =>
        refine ⟨fun _ hr => absurd hr List.not_mem_nil, fun hcalled => ?_⟩
        dsimp only at hcalled
        split at hcalled
        next hwins => exact Or.inr ⟨replies, leader, hreplies, hview, hleader, hwins.1⟩
        next => exact Or.inl hcalled
    next => exact ⟨fun _ hr => hr, Or.inl⟩

theorem onElectAck {handlers : List String} {view : ℕ} (i hostname : ι)
    (hall : ∀ replies, (s.workers i).replies = some replies → view ≤ replies.length + 1 →
      ∀ k, ∃ r ∈ (s.workers i).requests, r.name = k) :
    Inv { s with
      workers := Function.update s.workers i
        (onElectAck handlers view i (s.workers i) hostname) } := by
  obtain ⟨hrequests, hcalled⟩ := onElectAck_spec handlers view i (s.workers i) hostname
  refine h.worker i _ (fun r hr => h.heap i r (hrequests r hr)) fun hne => ?_
  obtain hold | ⟨replies, leader, hreplies, hview, hleader, rfl⟩ := hcalled hne
  · exact h.wins i hold
  · obtain ⟨hmem, hle⟩ := sortHeap_spec hleader
    refine ⟨leader, h.heap _ leader hmem, fun j => ?_⟩
    obtain ⟨r, hr, rfl⟩ := hall replies hreplies hview j
    exact ⟨r, h.heap _ r hr, hle r hr⟩

/-- **One step** that lets no worker decide too early. -/
theorem step [Fintype ι] {handlers : List String} {t : Sys ι} {a : Step ι} (ha : HoldsAll s a)
    (hstep : step handlers s a = some t) : Inv t := by
  cases a with
  | election i topic action =>
    simp only [Gossip.step, Option.ite_none_right_eq_some, Option.some.injEq] at hstep
    obtain ⟨hi, rfl⟩ := hstep
    exact h.election hi topic action
  | deliver j i =>
    rw [Gossip.step] at hstep
    split at hstep
    next => cases hstep
    next e rest hc =>
      obtain rfl := Option.some_inj.mp hstep
      have htake := h.take hc
      cases e with
      | elect r => exact htake.onElect i (h.channel j i r (hc ▸ List.mem_cons_self))
      | ack hostname => exact htake.onElectAck i hostname (ha hostname rest · hc)
  | forward i clock =>
    simp only [Gossip.step, Option.ite_none_right_eq_some, Option.some.injEq] at hstep
    obtain ⟨-, rfl⟩ := hstep
    exact h.worker i _ (h.heap i) (h.wins i)

end Inv

/-- **Only one worker runs an elected action**, in every run in which no worker
decides before it holds the request of every worker: whenever an acknowledgement
brings the replies of a worker to the number of workers in its view, the request of
every worker is in its heap. -/
theorem one_worker_wins [Fintype ι] {handlers : List String} {clock : ι → ℕ} {as : List (Step ι)}
    {t : Sys ι} (h : Run (fun s a t => step handlers s a = some t ∧ HoldsAll s a)
      (Sys.init clock) as t) : AtMostOne t := by
  have hinv : Inv t := Run.invariant (P := fun _ => True)
    (fun hs _ hstep => hs.step hstep.2 hstep.1) h (inv_init clock) fun _ _ => trivial
  exact hinv.atMostOne

end

/-- Two workers call the election; the first gets both requests and its own
acknowledgement after that. -/
theorem one_of_two_workers_wins :
    ∃ t : Sys (Fin 2), Run (fun s a t => step ["task"] s a = some t ∧ HoldsAll s a)
        (Sys.init fun _ => 0) [.election 0 "task" none, .election 1 "task" none, .deliver 0 0,
          .deliver 1 0, .deliver 0 0] t ∧
      (t.workers 0).called = [none] ∧ AtMostOne t := by
  have hrun : Run (fun s a t => step ["task"] s a = some t ∧ HoldsAll s a)
      (Sys.init fun _ : Fin 2 => 0) [.election 0 "task" none, .election 1 "task" none,
        .deliver 0 0, .deliver 1 0, .deliver 0 0] _ :=
    .snoc (.snoc (.snoc (.snoc (.snoc .nil ⟨rfl, trivial⟩) ⟨rfl, trivial⟩)
      ⟨rfl, fun _ _ _ h => by cases h⟩) ⟨rfl, fun _ _ _ h => by cases h⟩)
      ⟨rfl, fun _ _ _ _ _ _ => by decide⟩
  exact ⟨_, hrun, rfl, one_worker_wins hrun⟩

/-- Three workers call the election.  The request of the third arrives at the other two
first; each of these gets its own request and its own two acknowledgements next. -/
def tooEarly : List (Step (Fin 3)) :=
  [.election 0 "task" none, .election 1 "task" none, .election 2 "task" none,
    .deliver 2 0, .deliver 0 0, .deliver 0 0, .deliver 0 0,
    .deliver 2 1, .deliver 1 1, .deliver 1 1, .deliver 1 1]

/-- **Two workers win.**  The request of the first is still on its way to the second
when that one decides. -/
theorem two_workers_win :
    ∃ t : Sys (Fin 3), Run (fun s a t => step ["task"] s a = some t) (Sys.init fun _ => 0)
        tooEarly t ∧ ¬ AtMostOne t := by
  have hwins : (tooEarly.foldlM (step ["task"]) (Sys.init fun _ => 0)).map
      (fun t => ((t.workers 0).called, (t.workers 1).called)) = some ([none], [none]) := by
    decide
  obtain ⟨t, ht, hcalled⟩ := Option.map_eq_some_iff.mp hwins
  refine ⟨t, Run.of_foldlM ht, fun h => ?_⟩
  rw [Prod.mk.injEq] at hcalled
  have heq := h 0 1 (by simp [hcalled.1]) (by simp [hcalled.2])
  exact absurd heq (by decide)

end Gossip
end Celery
