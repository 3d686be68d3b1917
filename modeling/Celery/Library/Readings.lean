/-
# Computations that read a clock

A computation that asks for the time as it goes is a tree: it returns, raises, or
reads the clock and goes on from what it reads.  `Gives x rs a` says that `x` returns
`a` having read `rs`, in this order, and `x.runAt r` is what it comes to while the
clock stands at `r` (`runAt_eq_ok_iff`).

The lemmas say how the two go through the operations of the monad, so that a
computation written with `do` is taken apart into its readings.
-/

import Mathlib.Data.List.Basic
import Mathlib.Tactic.Common

namespace Readings

/-- A computation with values in `α` that reads a clock of times `ρ` and may raise `ε`. -/
inductive Reads (ρ ε α : Type) where
  | ret (a : α)
  | raise (e : ε)
  | read (next : ρ → Reads ρ ε α)

namespace Reads

variable {ρ ε α β : Type}

/-- The one computation after the other. -/
def andThen : Reads ρ ε α → (α → Reads ρ ε β) → Reads ρ ε β
  | ret a, f => f a
  | raise e, _ => raise e
  | read next, f => read fun r => (next r).andThen f

instance : Monad (Reads ρ ε) where
  pure := ret
  bind := andThen

/-- One look at the clock. -/
def now : Reads ρ ε ρ := read ret

/-- A computation that does not look at the clock. -/
def lift : Except ε α → Reads ρ ε α
  | .ok a => ret a
  | .error e => raise e

/-- What a computation comes to while the clock stands at `r`. -/
def runAt (r : ρ) : Reads ρ ε α → Except ε α
  | ret a => .ok a
  | raise e => .error e
  | read next => (next r).runAt r

/-- `Gives x rs a`: with the readings `rs` the computation returns `a`. -/
inductive Gives : Reads ρ ε α → List ρ → α → Prop where
  | ret (a : α) : Gives (ret a) [] a
  | read {next : ρ → Reads ρ ε α} {r : ρ} {rs : List ρ} {a : α} :
      Gives (next r) rs a → Gives (read next) (r :: rs) a

variable {x : Reads ρ ε α} {f : α → Reads ρ ε β} {rs : List ρ} {r : ρ} {a : α} {b : β}

@[simp] theorem gives_pure {a' : α} : Gives (pure a : Reads ρ ε α) rs a' ↔ rs = [] ∧ a' = a := by
  constructor
  · intro h
    cases h
    exact ⟨rfl, rfl⟩
  · rintro ⟨rfl, rfl⟩
    exact .ret a'

@[simp] theorem gives_lift {e : Except ε α} :
    Gives (lift e : Reads ρ ε α) rs a ↔ rs = [] ∧ e = .ok a := by
  cases e with
  | ok a' =>
    rw [lift, Except.ok.injEq, eq_comm (a := a')]
    exact gives_pure
  | error e =>
    constructor
    · intro h
      cases h
    · rintro ⟨-, h⟩
      cases h

@[simp] theorem gives_now : Gives (now : Reads ρ ε ρ) rs r ↔ rs = [r] := by
  constructor
  · intro h
    cases h with
    | read hret =>
      cases hret
      rfl
  · rintro rfl
    exact .read (.ret r)

/-- **The readings of two computations, one after the other.** -/
@[simp] theorem gives_bind :
    Gives (x >>= f) rs b ↔ ∃ rs₁ rs₂ a, rs = rs₁ ++ rs₂ ∧ Gives x rs₁ a ∧ Gives (f a) rs₂ b := by
  change Gives (x.andThen f) rs b ↔ _
  induction x generalizing rs with
  | ret a =>
    constructor
    · intro h
      exact ⟨[], rs, a, rfl, .ret a, h⟩
    · rintro ⟨_, rs₂, a', rfl, ha, h⟩
      cases ha
      exact h
  | raise e =>
    constructor
    · intro h
      cases h
    · rintro ⟨_, _, _, -, ha, -⟩
      cases ha
  | read next ih =>
    constructor
    · intro h
      cases h with
      | @read _ r rs _ h =>
        obtain ⟨rs₁, rs₂, a, rfl, ha, hb⟩ := (ih r).mp h
        exact ⟨r :: rs₁, rs₂, a, rfl, .read ha, hb⟩
    · rintro ⟨_, rs₂, a, rfl, ha, hb⟩
      cases ha with
      | @read _ r rs₁ _ ha => exact .read ((ih r).mpr ⟨rs₁, rs₂, a, rfl, ha, hb⟩)

@[simp] theorem runAt_pure : runAt r (pure a : Reads ρ ε α) = .ok a := rfl

@[simp] theorem runAt_now : runAt r (now : Reads ρ ε ρ) = .ok r := rfl

@[simp] theorem runAt_lift {e : Except ε α} : runAt r (lift e : Reads ρ ε α) = e := by
  cases e <;> rfl

@[simp] theorem runAt_bind_eq_ok :
    runAt r (x >>= f) = .ok b ↔ ∃ a, runAt r x = .ok a ∧ runAt r (f a) = .ok b := by
  change runAt r (x.andThen f) = .ok b ↔ _
  induction x with
  | ret a => simp [andThen, runAt]
  | raise e => simp [andThen, runAt]
  | read next ih => exact ih r

theorem runAt_bind_eq_error {e : ε} :
    runAt r (x >>= f) = .error e ↔
      runAt r x = .error e ∨ ∃ a, runAt r x = .ok a ∧ runAt r (f a) = .error e := by
  change runAt r (x.andThen f) = .error e ↔ _
  induction x with
  | ret a => simp [andThen, runAt]
  | raise e => simp [andThen, runAt]
  | read next ih => exact ih r

/-- While the clock stands, all that is read is where it stands. -/
theorem runAt_eq_ok_iff : runAt r x = .ok a ↔ ∃ rs, (∀ r' ∈ rs, r' = r) ∧ Gives x rs a := by
  induction x with
  | ret a' =>
    constructor
    · intro h
      obtain rfl := Except.ok.inj h
      exact ⟨[], by simp, .ret a'⟩
    · rintro ⟨rs, -, h⟩
      cases h
      rfl
  | raise e =>
    constructor
    · intro h
      cases h
    · rintro ⟨rs, -, h⟩
      cases h
  | read next ih =>
    refine (ih r).trans ⟨fun ⟨rs, hrs, h⟩ => ⟨r :: rs, by simpa using hrs, .read h⟩, ?_⟩
    rintro ⟨rs, hrs, h⟩
    cases h with
    | read h =>
      obtain ⟨rfl, hrest⟩ := List.forall_mem_cons.mp hrs
      exact ⟨_, hrest, h⟩

end Reads

end Readings
