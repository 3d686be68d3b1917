/-
# `celery/backends/redis.py`: the cancels that `ResultConsumer` leaves to the lock holder

Lines 318-369.  Who holds the lock flushes the pending keys when it leaves the outermost
block.  So the lock is free between operations (`lockDepth_of_run`), and an operation that
returns leaves no key pending (`pendingUnsubscribe_of_returns`).

The model of the loop has a bound on its rounds.  A round takes a key from those that are
pending or may still be cancelled, and so the bound is never reached (`flushLoop_spec`).
The model of `_reconnect_pubsub` flushes nothing on exit, since the lock is held then
(`exec_locked_of_locked`).
-/

import Celery.Backends.ResultConsumer

namespace Celery
namespace ResultConsumer

open Raising

variable {K : Type} [DecidableEq K]

/-- The lock is held `d` times, and there are at most `n` keys to flush, and `k` less. -/
def World.Bounded (d n k : ℕ) (w : World K) : Prop := w.lockDepth = d ∧ w.rounds + k ≤ n

section Bounded

variable {d n k : ℕ} {E : Error → World K → Prop}

theorem length_union_le (keys pending : List K) :
    (keys.union pending).length ≤ keys.length + pending.length := by
  induction keys with
  | nil => simp [List.union]
  | cons key keys ih =>
    have hinsert : ((key :: keys).union pending).length ≤ (keys.union pending).length + 1 := by
      show ((keys.union pending).insert key).length ≤ _
      rw [List.length_insert]
      split
      · exact Nat.le_succ _
      · exact Nat.le_refl _
    rw [List.length_cons]
    omega

theorem cancelLocked_bounded (keys : List K) :
    Triple (World.Bounded d n (keys.length + k)) (cancelLocked keys)
      (fun _ => World.Bounded d n k) E := by
  refine Triple.modify fun w hw => ⟨hw.1, ?_⟩
  have hlength := length_union_le keys w.pendingUnsubscribe
  have hle := hw.2
  simp only [World.rounds] at hle ⊢
  omega

theorem respond_bounded (answer : Answer K) :
    Leads (World.Bounded d n (answer.cancels.length + k)) (respond answer)
      (World.Bounded d n k) :=
  Triple.bind (cancelLocked_bounded answer.cancels) fun _ =>
    Triple.ite (fun _ => Triple.throw fun _ hw => hw) fun _ => Triple.pure fun _ hw => hw

theorem command_bounded (change : Finset K → Finset K) (answer : Answer K) :
    Leads (World.Bounded d n (answer.cancels.length + k)) (command change answer)
      (World.Bounded d n k) := by
  refine Triple.bind (cancelLocked_bounded answer.cancels) fun _ => ?_
  cases answer.error with
  | none => exact Triple.modify fun w hw => ⟨hw.1, hw.2⟩
  | some channels =>
    exact Triple.bind (Triple.modify (R := World.Bounded d n k) fun w hw => ⟨hw.1, hw.2⟩)
      fun _ => Triple.throw fun _ hw => hw

omit [DecidableEq K] in
theorem World.Bounded.mono {l : ℕ} {w : World K} (h : w.Bounded d n k) (hl : l ≤ k) :
    w.Bounded d n l :=
  ⟨h.1, (Nat.add_le_add_left hl _).trans h.2⟩

theorem retrieveMetas_bounded (attempt : Attempt K) :
    Leads (World.Bounded d n (attempt.mget.cancels.length + k)) (retrieveMetas attempt)
      (World.Bounded d n k) := by
  refine Triple.get_bind fun w hw => Triple.ite (fun _ => ?_) fun _ => Triple.pure ?_
  · exact (respond_bounded attempt.mget).of_state hw
  · rintro w' rfl
    exact hw.mono (Nat.le_add_left k _)

theorem forgetPending_bounded (attempt : Attempt K) :
    Leads (World.Bounded d n (attempt.clearing.length + k)) (forgetPending attempt)
      (World.Bounded d n k) := by
  refine Triple.bind (Triple.modify (R := World.Bounded d n (attempt.clearing.length + k))
    fun w hw => ⟨hw.1, hw.2⟩) fun _ => ?_
  refine Triple.bind (cancelLocked_bounded attempt.clearing) fun _ =>
    Triple.modify fun w hw => ⟨hw.1, ?_⟩
  have hle := hw.2
  simp only [World.rounds, List.length_nil] at hle ⊢
  omega

theorem resubscribe_bounded (attempt : Attempt K) :
    Leads (World.Bounded d n (attempt.subscribe.cancels.length +
      (attempt.getConnection.cancels.length + k))) (resubscribe attempt)
      (World.Bounded d n k) := by
  refine Triple.get_bind fun w hw => Triple.ite (fun _ => ?_) fun _ => ?_
  · exact (((command_bounded _ attempt.subscribe).of_state hw).post
      fun _ _ hw' => hw'.mono (Nat.le_add_left k _)).error
      fun _ _ hw' => hw'.mono (Nat.le_add_left k _)
  · exact (respond_bounded attempt.getConnection).of_state (hw.mono (Nat.le_add_left _ _))

omit [DecidableEq K] in
/-- What is left for `f` is enough when `m` raises. -/
theorem bind_bounded {l : ℕ} {P : World K → Prop} {m : Prog K Unit} {f : Unit → Prog K Unit}
    (hm : Leads P m (World.Bounded d n l)) (hl : k ≤ l)
    (hf : ∀ a, Leads (World.Bounded d n l) (f a) (World.Bounded d n k)) :
    Leads P (m >>= f) (World.Bounded d n k) :=
  Triple.bind (hm.error fun _ _ hw => hw.mono hl) hf

/-- An attempt to reconnect adds no other cancels than its own. -/
theorem reconnectPubsub_bounded (attempt : Attempt K) :
    Leads (World.Bounded d n (attempt.cancels.length + k)) (reconnectPubsub attempt)
      (World.Bounded d n k) := by
  have hlength : attempt.cancels.length + k = attempt.mget.cancels.length +
      (attempt.clearing.length + (attempt.subscribe.cancels.length +
        (attempt.getConnection.cancels.length + k))) := by
    simp only [Attempt.cancels, List.length_append, Nat.add_assoc]
  rw [hlength]
  refine locked_spec (A := World.Bounded (d + 1) n _) (Q := World.Bounded (d + 1) n k)
    (R := World.Bounded d n k) (E := fun _ => World.Bounded (d + 1) n k)
    (F := fun _ => World.Bounded d n k) (fun w hw => ⟨congrArg (· + 1) hw.1, hw.2⟩) ?_
    (fun w hw => ⟨congrArg (· - 1) hw.1, hw.2⟩) (fun _ w hw => ⟨congrArg (· - 1) hw.1, hw.2⟩)
    (Triple.pure fun _ hw => hw) fun _ => Triple.pure fun _ hw => hw
  refine Triple.bind (Triple.modify (R := World.Bounded (d + 1) n _)
    fun w hw => ⟨hw.1, hw.2⟩) fun _ => ?_
  refine bind_bounded (retrieveMetas_bounded attempt) (by omega) fun _ => ?_
  refine Triple.bind (Triple.modify (R := World.Bounded (d + 1) n _)
    fun w hw => ⟨hw.1, hw.2⟩) fun _ => ?_
  exact bind_bounded (forgetPending_bounded attempt) (by omega) fun _ =>
    resubscribe_bounded attempt

theorem ensure_bounded (attempt : Attempt K) (retries : List (Attempt K)) :
    Leads (World.Bounded d n (((attempt :: retries).flatMap Attempt.cancels).length + k))
      (ensure attempt retries) (World.Bounded d n k) := by
  induction retries generalizing attempt with
  | nil =>
    rw [List.flatMap_singleton]
    exact reconnectPubsub_bounded attempt
  | cons next retries ih =>
    rw [List.flatMap_cons, List.length_append, Nat.add_assoc]
    exact Triple.tryCatch ((reconnectPubsub_bounded attempt).post
      fun _ _ hw => hw.mono (Nat.le_add_left k _)) fun _ => ih next

/-- A call of an operation adds no other cancels than its own. -/
theorem reconnectOnError_bounded {call : Call K} {body : Prog K Unit}
    (hbody : ∀ l, Leads (World.Bounded d n (call.answer.cancels.length + l)) body
      (World.Bounded d n l)) :
    Leads (World.Bounded d n (call.cancels.length + k)) (reconnectOnError call body)
      (World.Bounded d n k) := by
  rw [Call.cancels, List.length_append, Nat.add_assoc]
  refine Triple.tryCatch ((hbody _).post fun _ _ hw => hw.mono (Nat.le_add_left k _))
    fun e => ?_
  refine Triple.ite (fun _ => ?_) fun _ => Triple.throw fun _ hw => hw.mono (Nat.le_add_left k _)
  exact Triple.tryCatch (ensure_bounded call.attempt call.retries) fun _ =>
    Triple.throw fun _ hw => hw

omit [DecidableEq K] in
/-- The cancels of the next call are among those to come. -/
theorem nextCall_bounded {w : World K} (hw : w.Bounded d n k) :
    World.Bounded d n ((w.calls.headD .returns).cancels.length + k)
      { w with calls := w.calls.tail } := by
  refine ⟨hw.1, ?_⟩
  have hle := hw.2
  cases hcalls : w.calls with
  | nil =>
    have hnone : (Call.returns : Call K).cancels.length = 0 := rfl
    simp only [World.rounds, hcalls, List.headD_nil, List.tail_nil, hnone] at hle ⊢
    omega
  | cons c cs =>
    simp only [World.rounds, hcalls, List.headD_cons, List.tail_cons, List.flatMap_cons,
      List.length_append] at hle ⊢
    omega

theorem flushKey_bounded (key : K) :
    Leads (World.Bounded d n 0) (flushKey key) (World.Bounded d n 0) := by
  refine Triple.get_bind fun w hw => Triple.ite (fun _ => ?_) fun _ =>
    Triple.pure fun w' hw' => hw' ▸ hw
  refine Triple.bind (Triple.modify (R := World.Bounded d n 0) fun w' hw' => ?_) fun _ => ?_
  · rw [hw']
    exact ⟨hw.1, hw.2⟩
  · refine Triple.get_bind fun w hw => Triple.ite (fun _ => nextCall_bind fun w' hw' => ?_) fun _ =>
      Triple.pure fun w' hw' => hw' ▸ hw
    subst hw'
    exact (reconnectOnError_bounded fun l => command_bounded _ _).of_state (nextCall_bounded hw)

/-- **The rounds suffice.** -/
theorem flushLoop_spec :
    Triple (World.Bounded d n 0) (flushLoop (n + 1) : Prog K Unit)
      (fun _ w => w.lockDepth = d ∧ w.pendingUnsubscribe = []) fun _ w => w.lockDepth = d := by
  induction n with
  | zero =>
    refine Triple.get_bind fun w hw => ?_
    have hnil : w.pendingUnsubscribe = [] := by
      have hle := hw.2
      rw [World.rounds] at hle
      exact List.length_eq_zero_iff.mp (by omega)
    rw [World.pop_eq_none_iff.mpr hnil]
    exact Triple.pure fun w' hw' => hw' ▸ ⟨hw.1, hnil⟩
  | succ n ih =>
    refine Triple.get_bind fun w hw => ?_
    cases hpop : w.pop with
    | none => exact Triple.pure fun w' hw' => hw' ▸ ⟨hw.1, World.pop_eq_none_iff.mp hpop⟩
    | some popped =>
      obtain ⟨key, popped⟩ := popped
      obtain ⟨hmem, rfl⟩ := World.pop_eq_some hpop
      have hshorter : (w.pendingUnsubscribe.filter (· ≠ key)).length <
          w.pendingUnsubscribe.length :=
        List.length_filter_lt_length_iff_exists.mpr ⟨key, hmem, by simp⟩
      refine Triple.bind (Triple.set (R := World.Bounded d n 0) fun _ _ => ⟨hw.1, ?_⟩) fun _ => ?_
      · have hle := hw.2
        simp only [World.rounds] at hle ⊢
        omega
      · exact Triple.bind ((flushKey_bounded key).error fun _ _ hw => hw.1) fun _ => ih

end Bounded

/-! ## Nested in the lock -/

/-- Where the lock is held, nothing is flushed. -/
theorem exec_flushPendingUnsubscribe_of_locked {w : World K} (h : w.lockDepth ≠ 0) :
    exec flushPendingUnsubscribe w = (.ok (), w) := by
  rw [flushPendingUnsubscribe, exec_bind, exec_get]
  dsimp only
  rw [if_pos h, exec_pure]

/-- **A cancel by the lock holder** only leaves its key. -/
theorem exec_cancelFor_of_locked {w : World K} (h : w.lockDepth ≠ 0) (key : K) :
    exec (cancelFor key) w = exec (cancelLocked [key]) w := by
  rw [cancelFor, exec_bind, cancelLocked, exec_modify]
  exact exec_flushPendingUnsubscribe_of_locked h

/-- The lock is held `d` times. -/
def World.Held (d : ℕ) (w : World K) : Prop := w.lockDepth = d

/-- **A block inside of the lock** flushes nothing on exit. -/
theorem exec_locked_of_locked {w : World K} {body : Prog K Unit} (h : w.lockDepth ≠ 0)
    (hbody : Leads (World.Held (w.lockDepth + 1)) body (World.Held (w.lockDepth + 1))) :
    exec (locked flushPendingUnsubscribe body) w = exec (locked (pure ()) body) w := by
  have hend := hbody { w with lockDepth := w.lockDepth + 1 } rfl
  simp only [locked, exec_bind, exec_modify, exec_tryCatch]
  cases hexec : exec body { w with lockDepth := w.lockDepth + 1 } with
  | mk r w' =>
    have hdepth : w'.lockDepth - 1 ≠ 0 := by
      have hheld : w'.lockDepth = w.lockDepth + 1 := by
        cases r with
        | ok a => exact hend.1 a w' hexec
        | error e => exact hend.2 e w' hexec
      rwa [hheld, Nat.add_sub_cancel]
    have hflush := exec_flushPendingUnsubscribe_of_locked
      (w := { w' with lockDepth := w'.lockDepth - 1 }) hdepth
    cases r with
    | ok a => simp only [hflush, exec_pure]
    | error e => simp only [hflush, exec_pure, exec_throw]

/-! ## Operations -/

section Held

variable {d : ℕ}

/-- A call that raises is followed by a reconnection under the same locks. -/
theorem reconnectOnError_held {call : Call K} {body : Prog K Unit}
    (hbody : ∀ n l, Leads (World.Bounded d n (call.answer.cancels.length + l)) body
      (World.Bounded d n l)) :
    Leads (World.Held d) (reconnectOnError call body) (World.Held d) := by
  intro w hw
  have hbounded := reconnectOnError_bounded (k := 0)
    (hbody (w.rounds + (call.cancels.length + 0))) w ⟨hw, Nat.le_refl _⟩
  exact ⟨fun a w' hexec => (hbounded.1 a w' hexec).1, fun e w' hexec => (hbounded.2 e w' hexec).1⟩

/-- Who holds the outermost lock leaves no key pending. -/
theorem flushPendingUnsubscribe_spec :
    Triple (World.Held d) (flushPendingUnsubscribe : Prog K Unit)
      (fun _ w => w.Held d ∧ (d = 0 → w.pendingUnsubscribe = [])) fun _ => World.Held d := by
  refine Triple.get_bind fun w hw => Triple.ite (fun hlocked => ?_) fun hfree => ?_
  · refine Triple.pure fun w' hw' => hw' ▸ ⟨hw, fun hzero => absurd (hw.trans hzero) hlocked⟩
  · have hzero : d = 0 := hw.symm.trans (not_not.mp hfree)
    refine Triple.bind (Triple.modify (R := World.Bounded (d + 1) w.rounds 0)
      fun w' hw' => ?_) fun _ => ?_
    · rw [hw']
      exact ⟨congrArg (· + 1) hw, Nat.le_refl _⟩
    · refine Triple.bind (Triple.tryCatch flushLoop_spec fun e => ?_) fun _ =>
        Triple.modify fun w' hw' => ⟨congrArg (· - 1) hw'.1, fun _ => hw'.2⟩
      exact Triple.bind (Triple.modify (R := World.Held d) fun w' hw' => congrArg (· - 1) hw')
        fun _ => Triple.throw fun _ hw' => hw'

theorem locked_held {body : Prog K Unit}
    (hbody : Leads (World.Held (d + 1)) body (World.Held (d + 1))) :
    Triple (World.Held d) (locked flushPendingUnsubscribe body)
      (fun _ w => w.Held d ∧ (d = 0 → w.pendingUnsubscribe = [])) fun _ => World.Held d :=
  locked_spec (S := fun w => w.Held d ∧ (d = 0 → w.pendingUnsubscribe = []))
    (F := fun _ => World.Held d)
    (fun _ hw => congrArg (· + 1) hw) hbody (fun _ hw => congrArg (· - 1) hw)
    (fun _ _ hw => congrArg (· - 1) hw) flushPendingUnsubscribe_spec fun _ =>
    flushPendingUnsubscribe_spec.post fun _ _ hw => hw.1

theorem consumeFromLocked_held (key : K) :
    Leads (World.Held d) (consumeFromLocked key) (World.Held d) := by
  refine Triple.bind (Triple.modify (R := World.Held d) fun _ hw => hw) fun _ => ?_
  refine Triple.get_bind fun w hw => Triple.ite (fun _ => ?_) fun _ =>
    Triple.pure fun w' hw' => hw' ▸ hw
  refine Triple.bind (Triple.modify (R := World.Held d) fun w' hw' => hw' ▸ hw) fun _ => ?_
  refine nextCall_bind fun w hw => ?_
  exact (reconnectOnError_held fun _ _ => command_bounded _ _).of_state hw

theorem start_held (key : K) : Leads (World.Held d) (start key) (World.Held d) := by
  refine (locked_held ?_).post fun _ _ hw => hw.1
  exact Triple.bind (Triple.modify (R := World.Held (d + 1)) fun _ hw => hw) fun _ =>
    consumeFromLocked_held key

/-- **An operation that returns leaves no key pending**, and the lock free in any case. -/
theorem prog_spec (op : Op K) :
    Triple (World.Held 0) op.prog (fun _ w => w.Held 0 ∧ w.pendingUnsubscribe = [])
      fun _ => World.Held 0 := by
  cases op with
  | consumeFrom key cancels =>
    refine (locked_held ?_).post fun _ _ hw => ⟨hw.1, hw.2 rfl⟩
    refine Triple.bind (Triple.modify (R := World.Held 1) fun _ hw => hw) fun _ => ?_
    refine Triple.get_bind fun w hw => Triple.ite (fun _ => ?_) fun _ => ?_
    · exact (start_held key).of_state hw
    · exact (consumeFromLocked_held key).of_state hw
  | cancelFor key =>
    exact Triple.bind (Triple.modify (R := World.Held 0) fun _ hw => hw) fun _ =>
      flushPendingUnsubscribe_spec.post fun _ _ hw => ⟨hw.1, hw.2 rfl⟩
  | drainEvents cancels =>
    refine (locked_held ?_).post fun _ _ hw => ⟨hw.1, hw.2 rfl⟩
    refine Triple.bind (Triple.modify (R := World.Held 1) fun _ hw => hw) fun _ => ?_
    refine Triple.get_bind fun w hw => Triple.ite (fun _ => nextCall_bind fun w' hw' => ?_)
      fun _ => Triple.pure fun w' hw' => hw' ▸ hw
    subst hw'
    exact (reconnectOnError_held fun _ _ => respond_bounded _).of_state hw

end Held

/-- **An operation that returns leaves no key pending.** -/
theorem pendingUnsubscribe_of_returns {s : Consumer K} {a : Action K} (hs : s.lockDepth = 0)
    (h : (a.run s).1 = .ok ()) : (step s a).pendingUnsubscribe = [] :=
  ((prog_spec a.op { s with calls := a.calls, picks := a.picks } hs).1 () (a.run s).2
    (Prod.ext h rfl)).2

theorem lockDepth_step {s : Consumer K} (a : Action K) (hs : s.lockDepth = 0) :
    (step s a).lockDepth = 0 := by
  have hend := prog_spec a.op { s with calls := a.calls, picks := a.picks } hs
  cases hrun : (a.run s).1 with
  | ok u => exact (hend.1 u (a.run s).2 (Prod.ext hrun rfl)).1
  | error e => exact hend.2 e (a.run s).2 (Prod.ext hrun rfl)

/-- **Between the operations of a run, the lock is free**, whatever has been raised. -/
theorem lockDepth_of_run {actions : List (Action K)} {s : Consumer K}
    (h : Transition.Run (fun s a t => step s a = t) init actions s) : s.lockDepth = 0 := by
  refine Transition.Run.invariant (P := fun _ => True) (I := fun s => s.lockDepth = 0) ?_ h rfl
    fun _ _ => trivial
  intro t a u ht _ hstep
  exact hstep ▸ lockDepth_step a ht

/-- **Whoever cancels, and whatever raises,** the lock is free between the operations of a run, and
an operation that returns leaves no key pending.  In between, while the lock is held, a cancel does
no more than to leave its key, and a block inside of the lock flushes nothing on exit. -/
theorem released_of_run {actions : List (Action K)} {s : Consumer K}
    (h : Transition.Run (fun s a t => step s a = t) init actions s) (a : Action K) :
    s.lockDepth = 0 ∧
      ((a.run s).1 = .ok () → (step s a).pendingUnsubscribe = []) ∧
      ∀ w : World K, w.lockDepth ≠ 0 →
        (∀ key, exec (cancelFor key) w = exec (cancelLocked [key]) w) ∧
          ∀ body : Prog K Unit,
            Leads (World.Held (w.lockDepth + 1)) body (World.Held (w.lockDepth + 1)) →
              exec (locked flushPendingUnsubscribe body) w = exec (locked (pure ()) body) w :=
  ⟨lockDepth_of_run h, pendingUnsubscribe_of_returns (lockDepth_of_run h), fun _ hlocked =>
    ⟨exec_cancelFor_of_locked hlocked, fun _ hbody => exec_locked_of_locked hlocked hbody⟩⟩

/-- A key is cancelled while another one is being consumed from, after a drain has lost the
connection. -/
theorem released_of_cancelled :
    (step (step init ⟨.consumeFrom 0 [], [], []⟩)
        ⟨.drainEvents [0], [.raises .raises [.returns]], []⟩ : Consumer ℕ).lockDepth = 0 ∧
      (step (step (step init ⟨.consumeFrom 0 [], [], []⟩)
          ⟨.drainEvents [0], [.raises .raises [.returns]], []⟩)
        ⟨.consumeFrom 1 [0], [], []⟩ : Consumer ℕ).pendingUnsubscribe = [] :=
  have h := released_of_run (.snoc (.snoc .nil rfl) rfl)
    (⟨.consumeFrom 1 [0], [], []⟩ : Action ℕ)
  ⟨h.1, h.2.1 rfl⟩

end ResultConsumer
end Celery
