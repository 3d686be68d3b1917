/-
# `celery/worker/consumer/consumer.py`: the prefetch count after a reconnection

With `worker_enable_prefetch_count_reduction`, and QoS applied globally, a worker
that loses its connection takes up fewer messages while the requests that are
active then are still running: `on_connection_error_after_connected` (lines
451-490) lowers `initial_prefetch_count`, which the new `QoS` starts with
(`Tasks.start` of `celery/worker/consumer/tasks.py`), and every acknowledgement
runs `_restore_prefetch_count_after_connection_restart` (lines 812-831), which
raises it again until `max_prefetch_count` is reached.

A request with an ETA raises the same count by one while it waits
(`celery/worker/strategy.py`, lines 193-210; `apply_eta_task`, lines 683-687).
The step that completes the restoration sets the count to `max_prefetch_count`,
whatever it was, and forgets the requests that wait at that moment
(`prefetch_accounted_iff`).
-/

import Celery.Library.Transition

namespace Celery
namespace Prefetch

open Transition

/-- What the counts are computed from; `qosGlobal` is false for `qos_global is
False`. -/
structure Settings where
  numProcesses : ℕ
  prefetchMultiplier : ℕ
  enablePrefetchCountReduction : Bool
  qosGlobal : Bool
deriving DecidableEq, Repr

/-- `max_prefetch_count`. -/
def Settings.maxPrefetchCount (cfg : Settings) : ℕ := cfg.numProcesses * cfg.prefetchMultiplier

/-- The counts of a consumer: `qos.value`, `initial_prefetch_count`,
`_maximum_prefetch_restored`, and how many requests with an ETA are waiting. -/
structure Consumer where
  qos : ℕ
  initialPrefetchCount : ℕ
  maximumPrefetchRestored : Bool
  waiting : ℕ
deriving DecidableEq, Repr

/-- A worker that has just started. -/
def Consumer.init (cfg : Settings) : Consumer where
  qos := cfg.maxPrefetchCount
  initialPrefetchCount := cfg.maxPrefetchCount
  maximumPrefetchRestored := true
  waiting := 0

/-- kombu's `QoS`, as far as the accounts rest on it: the first method adds one, and the second one
subtracts one but does not go below one.  A count of 0, which is no limit, kombu leaves as it is in
both. -/
structure QoS where
  incrementEventually : ℕ → ℕ
  decrementEventually : ℕ → ℕ
  incrementEventually_eq (value : ℕ) : incrementEventually value = value + 1
  decrementEventually_eq (value : ℕ) : decrementEventually value = max 1 (value - 1)

/-- `on_connection_error_after_connected`, where `active` requests are active. -/
def onConnectionErrorAfterConnected (cfg : Settings) (active : ℕ) (c : Consumer) : Consumer :=
  if cfg.enablePrefetchCountReduction then
    if cfg.qosGlobal = false then
      { c with
        initialPrefetchCount := cfg.maxPrefetchCount
        maximumPrefetchRestored := true }
    else
      let initial := max cfg.prefetchMultiplier
        (cfg.maxPrefetchCount - active * cfg.prefetchMultiplier)
      { c with
        initialPrefetchCount := initial
        maximumPrefetchRestored := initial == cfg.maxPrefetchCount }
  else c

/-- The rest of the reconnection: `on_close` cancels the timers of the requests that
wait, and `Tasks.start` makes a new `QoS`. -/
def Consumer.restart (c : Consumer) : Consumer :=
  { c with qos := c.initialPrefetchCount, waiting := 0 }

/-- `_new_prefetch_count`. -/
def newPrefetchCount (cfg : Settings) (c : Consumer) : ℕ := c.qos + cfg.prefetchMultiplier

/-- `_restore_prefetch_count_after_connection_restart`. -/
def restorePrefetchCount (cfg : Settings) (c : Consumer) : Consumer :=
  if cfg.enablePrefetchCountReduction = false ∨ c.maximumPrefetchRestored = true then c
  else
    let newCount := min cfg.maxPrefetchCount (newPrefetchCount cfg c)
    { c with
      qos := newCount
      initialPrefetchCount := newCount
      maximumPrefetchRestored := newCount == cfg.maxPrefetchCount }

/-- What happens to the counts. -/
inductive Action where
  /-- The connection is lost, with so many requests active, and made again. -/
  | reconnect (active : ℕ)
  | etaReceived
  | etaFires
  /-- A message is acknowledged or rejected. -/
  | acknowledged
deriving DecidableEq, Repr

/-- One step; an ETA can only come for a request that waits. -/
def step (q : QoS) (cfg : Settings) (c : Consumer) : Action → Option Consumer
  | .reconnect active => some (onConnectionErrorAfterConnected cfg active c).restart
  | .etaReceived => some { c with qos := q.incrementEventually c.qos, waiting := c.waiting + 1 }
  | .etaFires =>
    if c.waiting = 0 then none
    else some { c with qos := q.decrementEventually c.qos, waiting := c.waiting - 1 }
  | .acknowledged => some (restorePrefetchCount cfg c)

/-- **The accounts**: once the maximum is restored, the count is the maximum and one
more for every request that waits. -/
def Accounted (cfg : Settings) (c : Consumer) : Prop :=
  c.maximumPrefetchRestored = true → c.qos = cfg.maxPrefetchCount + c.waiting

instance (cfg : Settings) (c : Consumer) : Decidable (Accounted cfg c) :=
  inferInstanceAs (Decidable (_ → _))

/-- The acknowledgement that completes the restoration comes while no request waits.
A decrement is clamped only where there is no prefetch limit at all: the last
request that waits then leaves a count of one behind. -/
def Clean (cfg : Settings) (c : Consumer) : Action → Prop
  | .acknowledged => cfg.enablePrefetchCountReduction = true → c.maximumPrefetchRestored = false →
      cfg.maxPrefetchCount ≤ newPrefetchCount cfg c → c.waiting = 0
  | .etaFires => c.maximumPrefetchRestored = true → 0 < cfg.maxPrefetchCount ∨ 1 < c.waiting
  | _ => True

variable {q : QoS} {cfg : Settings} {c c' : Consumer} {a : Action} {as : List Action}

/-- Without the reduction nothing is ever restored. -/
def Settled (cfg : Settings) (c : Consumer) : Prop :=
  cfg.enablePrefetchCountReduction = false →
    c.initialPrefetchCount = cfg.maxPrefetchCount ∧ c.maximumPrefetchRestored = true

theorem settled_step (h : Settled cfg c) (hstep : step q cfg c a = some c') : Settled cfg c' := by
  intro hoff
  cases a with
  | reconnect active =>
    simp only [step, onConnectionErrorAfterConnected, hoff, Bool.false_eq_true, if_false,
      Option.some.injEq] at hstep
    subst hstep
    exact h hoff
  | etaReceived =>
    cases hstep
    exact h hoff
  | etaFires =>
    simp only [step, Option.ite_none_left_eq_some, Option.some.injEq] at hstep
    obtain ⟨-, rfl⟩ := hstep
    exact h hoff
  | acknowledged =>
    simp only [step, restorePrefetchCount, hoff, true_or, if_true, Option.some.injEq] at hstep
    subst hstep
    exact h hoff

/-- A new connection starts with nothing waiting. -/
theorem accounted_reconnect (h : Settled cfg c) (active : ℕ) :
    Accounted cfg (onConnectionErrorAfterConnected cfg active c).restart := by
  intro hrestored
  rw [onConnectionErrorAfterConnected] at hrestored ⊢
  split_ifs at hrestored ⊢ with henable hglobal
  · rfl
  · exact beq_iff_eq.mp hrestored
  · exact (h (Bool.eq_false_iff.mpr henable)).1

/-- An acknowledgement keeps the accounts exactly if it is clean. -/
theorem accounted_restore_iff (h : Accounted cfg c) :
    Accounted cfg (restorePrefetchCount cfg c) ↔ Clean cfg c .acknowledged := by
  rw [restorePrefetchCount]
  split
  next hcond =>
    refine iff_of_true h fun henable hrestored => ?_
    rw [henable, hrestored] at hcond
    simp at hcond
  next hcond =>
    rw [not_or, Bool.not_eq_false, Bool.not_eq_true] at hcond
    simp only [Accounted, Clean, beq_iff_eq, hcond.1, hcond.2, forall_const]
    constructor
    · intro hacc hle
      have := hacc (min_eq_left hle)
      omega
    · intro hclean hmin
      have := hclean (min_eq_left_iff.mp hmin)
      omega

/-- An ETA keeps the accounts exactly if it is clean. -/
theorem accounted_etaFires_iff (h : Accounted cfg c) (hwaiting : c.waiting ≠ 0) :
    Accounted cfg { c with qos := q.decrementEventually c.qos, waiting := c.waiting - 1 } ↔
      Clean cfg c .etaFires := by
  simp only [Accounted, Clean, q.decrementEventually_eq]
  refine forall_congr' fun hrestored => ?_
  rw [h hrestored]
  omega

/-- **One step** keeps the accounts exactly if it is clean. -/
theorem accounted_step_iff (hsettled : Settled cfg c) (h : Accounted cfg c)
    (hstep : step q cfg c a = some c') : Accounted cfg c' ↔ Clean cfg c a := by
  cases a with
  | reconnect active =>
    cases hstep
    exact iff_of_true (accounted_reconnect hsettled active) trivial
  | etaReceived =>
    cases hstep
    refine iff_of_true (fun hrestored => ?_) trivial
    have := h hrestored
    simp only [q.incrementEventually_eq]
    omega
  | etaFires =>
    simp only [step, Option.ite_none_left_eq_some, Option.some.injEq] at hstep
    obtain ⟨hwaiting, rfl⟩ := hstep
    exact accounted_etaFires_iff h hwaiting
  | acknowledged =>
    cases hstep
    exact accounted_restore_iff h

/-- The run `as` of a worker reaches `c`. -/
def Reaches (q : QoS) (cfg : Settings) (as : List Action) (c : Consumer) : Prop :=
  Run (fun c a c' => step q cfg c a = some c') (Consumer.init cfg) as c

theorem settled_of_reaches (h : Reaches q cfg as c) : Settled cfg c :=
  Run.invariant (P := fun _ => True) (fun hs _ hstep => settled_step hs hstep) h
    (fun _ => ⟨rfl, rfl⟩) fun _ _ => trivial

/-- **When the accounts stay right.**  Whatever the settings, and however
reconnections, requests with an ETA and acknowledgements follow each other, the
accounts are right in every state of a run if and only if every step of it is
clean. -/
theorem prefetch_accounted_iff (h : Reaches q cfg as c') :
    (∀ as₁ as₂ c, as = as₁ ++ as₂ → Reaches q cfg as₁ c → Accounted cfg c) ↔
      ∀ as₁ a as₂ c, as = as₁ ++ a :: as₂ → Reaches q cfg as₁ c → Clean cfg c a := by
  refine Run.invariant_iff (fun c a d e hd he => ?_) (fun hc hacc hstep => ?_) h fun _ => rfl
  · exact Option.some_inj.mp (hd.symm.trans he)
  · exact accounted_step_iff (settled_of_reaches hc) hacc hstep

instance (cfg : Settings) (c : Consumer) : ∀ a : Action, Decidable (Clean cfg c a)
  | .reconnect _ => inferInstanceAs (Decidable True)
  | .etaReceived => inferInstanceAs (Decidable True)
  | .etaFires => inferInstanceAs (Decidable (_ → _))
  | .acknowledged => inferInstanceAs (Decidable (_ → _ → _ → _))

/-- Whether the steps from `c` on are all clean. -/
def cleanFrom (q : QoS) (cfg : Settings) : Consumer → List Action → Bool
  | _, [] => true
  | c, a :: as => decide (Clean cfg c a) && (step q cfg c a).all fun c' => cleanFrom q cfg c' as

theorem clean_of_cleanFrom {as₁ as₂ : List Action} (h : cleanFrom q cfg c (as₁ ++ a :: as₂) = true)
    (hrun : as₁.foldlM (step q cfg) c = some c') : Clean cfg c' a := by
  induction as₁ generalizing c with
  | nil =>
    cases hrun
    rw [List.nil_append, cleanFrom, Bool.and_eq_true] at h
    exact of_decide_eq_true h.1
  | cons b as₁ ih =>
    rw [List.cons_append, cleanFrom, Bool.and_eq_true] at h
    rw [List.foldlM_cons] at hrun
    obtain ⟨d, hd, hrun⟩ := Option.bind_eq_some_iff.mp hrun
    exact ih (by simpa [hd] using h.2) hrun

theorem foldlM_of_reaches (h : Reaches q cfg as c) :
    as.foldlM (step q cfg) (Consumer.init cfg) = some c := by
  induction h with
  | nil => rfl
  | snoc _ hstep ih => simpa [List.foldlM_append, ih] using hstep

/-- The two methods. -/
def QoS.clamped : QoS where
  incrementEventually value := value + 1
  decrementEventually value := max 1 (value - 1)
  incrementEventually_eq _ := rfl
  decrementEventually_eq _ := rfl

/-- Four processes with a multiplier of one. -/
def fourProcesses : Settings := ⟨4, 1, true, true⟩

/-- Three requests are active when the connection is lost.  One with an ETA comes and goes before
the acknowledgement that completes the restoration, and of two that come after it one is left. -/
def restoration : List Action :=
  [.reconnect 3, .etaReceived, .acknowledged, .etaFires, .acknowledged, .acknowledged,
    .etaReceived, .etaReceived, .etaFires, .acknowledged]

theorem prefetch_accounted_fourProcesses :
    Reaches .clamped fourProcesses restoration ⟨5, 4, true, 1⟩ ∧
      ∀ as₁ as₂ c, restoration = as₁ ++ as₂ → Reaches .clamped fourProcesses as₁ c →
        Accounted fourProcesses c := by
  have hrun : Reaches .clamped fourProcesses restoration ⟨5, 4, true, 1⟩ := Run.of_foldlM rfl
  refine ⟨hrun, (prefetch_accounted_iff hrun).mpr fun as₁ a as₂ c has hc => ?_⟩
  have hclean :
      cleanFrom .clamped fourProcesses (Consumer.init fourProcesses) restoration = true := by decide
  rw [has] at hclean
  exact clean_of_cleanFrom hclean (foldlM_of_reaches hc)

/-- **A waiting request is forgotten.**  One active request, one that waits for its
ETA, and one acknowledgement: the maximum is restored, without the one that waits. -/
theorem waiting_request_forgotten :
    ∃ c, Reaches .clamped fourProcesses [.reconnect 1, .etaReceived, .acknowledged] c ∧
      c = ⟨4, 4, true, 1⟩ ∧ ¬ Accounted fourProcesses c :=
  ⟨_, .snoc (.snoc (.snoc .nil rfl) rfl) rfl, rfl, by decide⟩

end Prefetch
end Celery
