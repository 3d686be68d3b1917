/-
# Computations that keep their state when they raise

Rules of pre- and postconditions for `ExceptT ε (StateM σ)`: what a computation that raises
has done to the state stays done.  `Triple P m Q E` says that `m`, from a state in `P`,
returns in `Q` or raises in `E`.  Where it is to end in the same states either way,
`Leads P m Q` says it once.

There is one rule for each of the ways to put computations together, and one equation for
what it does to the state, `exec`.
-/

import Mathlib.Tactic.Common

namespace Raising

variable {σ ε α β : Type}

/-- How a computation ends, and the state that it leaves. -/
def exec (m : ExceptT ε (StateM σ) α) (s : σ) : Except ε α × σ := (m.run.run s).run

/-- From a state in `P`, `m` returns in `Q` or raises in `E`. -/
def Triple (P : σ → Prop) (m : ExceptT ε (StateM σ) α) (Q : α → σ → Prop)
    (E : ε → σ → Prop) : Prop :=
  ∀ s, P s → (∀ a t, exec m s = (.ok a, t) → Q a t) ∧ ∀ e t, exec m s = (.error e, t) → E e t

/-- From a state in `P`, `m` ends in `Q`, whether it returns or raises. -/
def Leads (P : σ → Prop) (m : ExceptT ε (StateM σ) α) (Q : σ → Prop) : Prop :=
  Triple P m (fun _ => Q) fun _ => Q

/-- First `m`, then `fin`, whether `m` returns or raises. -/
def finallyDo (m : ExceptT ε (StateM σ) α) (fin : ExceptT ε (StateM σ) PUnit) :
    ExceptT ε (StateM σ) α := do
  let a ← tryCatch m fun e => do fin; throw e
  fin
  return a

variable {m : ExceptT ε (StateM σ) α} {f : α → ExceptT ε (StateM σ) β}
  {h : ε → ExceptT ε (StateM σ) α} {s t : σ}

/-! ## How computations end -/

theorem exec_bind (m : ExceptT ε (StateM σ) α) (f : α → ExceptT ε (StateM σ) β) (s : σ) :
    exec (m >>= f) s =
      match exec m s with
      | (.ok a, t) => exec (f a) t
      | (.error e, t) => (.error e, t) := by
  show (ExceptT.bindCont f (m.run.run s).run.1 |>.run (m.run.run s).run.2).run = _
  unfold exec
  rcases (m.run.run s).run with ⟨_ | a, t⟩
  · rfl
  · rfl

theorem exec_tryCatch (m : ExceptT ε (StateM σ) α) (h : ε → ExceptT ε (StateM σ) α) (s : σ) :
    exec (tryCatch m h) s =
      match exec m s with
      | (.ok a, t) => (.ok a, t)
      | (.error e, t) => exec (h e) t := by
  show ((match (m.run.run s).run.1 with
    | .ok a => (Pure.pure (.ok a) : StateM σ (Except ε α))
    | .error e => (h e).run).run (m.run.run s).run.2).run = _
  unfold exec
  rcases (m.run.run s).run with ⟨_ | a, t⟩
  · rfl
  · rfl

@[simp] theorem exec_pure (a : α) (s : σ) :
    exec (pure a : ExceptT ε (StateM σ) α) s = (.ok a, s) := rfl

@[simp] theorem exec_throw (e : ε) (s : σ) :
    exec (throw e : ExceptT ε (StateM σ) α) s = (.error e, s) := rfl

@[simp] theorem exec_get (s : σ) :
    exec (get : ExceptT ε (StateM σ) σ) s = (.ok s, s) := rfl

@[simp] theorem exec_modify (g : σ → σ) (s : σ) :
    exec (modify g : ExceptT ε (StateM σ) PUnit) s = (.ok PUnit.unit, g s) := rfl

@[simp] theorem exec_ofExcept (x : Except ε α) (s : σ) :
    exec (ofExcept x : ExceptT ε (StateM σ) α) s = (x, s) := by
  cases x <;> rfl

/-- A change of the state is made in either case. -/
theorem exec_finallyDo_modify (m : ExceptT ε (StateM σ) α) (g : σ → σ) (s : σ) :
    exec (finallyDo m (modify g)) s = ((exec m s).1, g (exec m s).2) := by
  rw [finallyDo, exec_bind, exec_tryCatch]
  rcases exec m s with ⟨_ | a, t⟩
  · dsimp only
    rw [exec_bind, exec_modify]
    rfl
  · dsimp only
    rw [exec_bind, exec_modify]
    rfl

/-! ## Rules -/

variable {P P' R : σ → Prop} {Q Q' : α → σ → Prop} {E E' : ε → σ → Prop} {S : β → σ → Prop}

namespace Triple

/-- A stronger precondition. -/
theorem pre (hm : Triple P m Q E) (hP : ∀ s, P' s → P s) : Triple P' m Q E :=
  fun s hs => hm s (hP s hs)

/-- A weaker condition where `m` returns. -/
theorem post (hm : Triple P m Q E) (hQ : ∀ a s, Q a s → Q' a s) : Triple P m Q' E :=
  fun s hs => ⟨fun a t ht => hQ a t ((hm s hs).1 a t ht), (hm s hs).2⟩

/-- A weaker condition where `m` raises. -/
theorem error (hm : Triple P m Q E) (hE : ∀ e s, E e s → E' e s) : Triple P m Q E' :=
  fun s hs => ⟨(hm s hs).1, fun e t ht => hE e t ((hm s hs).2 e t ht)⟩

/-- From a state that is known. -/
theorem of_state (hm : Triple P m Q E) {s : σ} (hs : P s) : Triple (fun t => t = s) m Q E :=
  hm.pre fun _ ht => ht ▸ hs

theorem pure {a : α} (hQ : ∀ s, P s → Q a s) :
    Triple P (Pure.pure a : ExceptT ε (StateM σ) α) Q E := by
  refine fun s hs => ⟨fun b t ht => ?_, fun e t ht => ?_⟩
  · obtain ⟨hb, rfl⟩ := Prod.mk.inj ht
    obtain rfl := Except.ok.inj hb
    exact hQ s hs
  · cases (Prod.mk.inj ht).1

theorem throw {e : ε} (hE : ∀ s, P s → E e s) :
    Triple P (MonadExcept.throw e : ExceptT ε (StateM σ) α) Q E := by
  refine fun s hs => ⟨fun b t ht => ?_, fun e' t ht => ?_⟩
  · cases (Prod.mk.inj ht).1
  · obtain ⟨he, rfl⟩ := Prod.mk.inj ht
    obtain rfl := Except.error.inj he
    exact hE s hs

theorem modify {g : σ → σ} (hR : ∀ s, P s → R (g s)) :
    Triple P (modify g : ExceptT ε (StateM σ) PUnit) (fun _ => R) E := by
  refine fun s hs => ⟨fun b t ht => ?_, fun e t ht => ?_⟩
  · obtain ⟨-, rfl⟩ := Prod.mk.inj ht
    exact hR s hs
  · cases (Prod.mk.inj ht).1

theorem set {t : σ} (hR : ∀ s, P s → R t) :
    Triple P (MonadStateOf.set t : ExceptT ε (StateM σ) PUnit) (fun _ => R) E :=
  modify (g := fun _ => t) hR

/-- **First `m`, then `f`.** -/
theorem bind (hm : Triple P m Q E) (hf : ∀ a, Triple (Q a) (f a) S E) :
    Triple P (m >>= f) S E := by
  intro s hs
  rw [exec_bind]
  cases hexec : exec m s with
  | mk r t =>
    cases r with
    | ok a => exact hf a t ((hm s hs).1 a t hexec)
    | error e =>
      refine ⟨fun b u hu => ?_, fun e' u hu => ?_⟩
      · cases (Prod.mk.inj hu).1
      · obtain ⟨he, rfl⟩ := Prod.mk.inj hu
        obtain rfl := Except.error.inj he
        exact (hm s hs).2 e t hexec

/-- Reading the state: the rest may use what it has read. -/
theorem get_bind {f : σ → ExceptT ε (StateM σ) β}
    (hf : ∀ s, P s → Triple (fun t => t = s) (f s) S E) : Triple P (get >>= f) S E := by
  intro s hs
  rw [exec_bind, exec_get]
  exact hf s hs s rfl

/-- **`m`, and `h` if it raises.** -/
theorem tryCatch (hm : Triple P m Q E) (hh : ∀ e, Triple (E e) (h e) Q E') :
    Triple P (MonadExcept.tryCatch m h) Q E' := by
  intro s hs
  rw [exec_tryCatch]
  cases hexec : exec m s with
  | mk r t =>
    cases r with
    | ok a =>
      refine ⟨fun b u hu => ?_, fun e u hu => ?_⟩
      · obtain ⟨ha, rfl⟩ := Prod.mk.inj hu
        obtain rfl := Except.ok.inj ha
        exact (hm s hs).1 a t hexec
      · cases (Prod.mk.inj hu).1
    | error e => exact hh e t ((hm s hs).2 e t hexec)

theorem ite {c : Prop} [Decidable c] {m' : ExceptT ε (StateM σ) α}
    (hm : c → Triple P m Q E) (hm' : ¬ c → Triple P m' Q E) :
    Triple P (if c then m else m') Q E := by
  split
  next hc => exact hm hc
  next hc => exact hm' hc

end Triple

end Raising
