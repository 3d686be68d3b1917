/-
# Computations that return or raise

Rules for computations with a state that may raise, `StateT σ (Except ε)`.
`Gives m Q` says that `m` returns from every state, with a value in `Q`, and
`Fails m` that it raises from every state.  `GivesIff c m Q` decides between the
two: `m` returns exactly when `c` holds.  The rule for `bind` takes the
conjunction of the conditions, so that the condition of a loop is that of all its
rounds.
-/

import Mathlib.Tactic.Common

namespace Outcome

variable {σ ε α β : Type}

/-- From every state `m` returns, and with a value in `Q`. -/
def Gives (m : StateT σ (Except ε) α) (Q : α → Prop) : Prop :=
  ∀ s, ∃ a s', m s = .ok (a, s') ∧ Q a

/-- From every state `m` raises. -/
def Fails (m : StateT σ (Except ε) α) : Prop :=
  ∀ s, ∃ e, m s = .error e

/-- `m` returns, with a value in `Q`, if `c` holds, and raises if not. -/
structure GivesIff (c : Prop) (m : StateT σ (Except ε) α) (Q : α → Prop) : Prop where
  gives : c → Gives m Q
  fails : ¬ c → Fails m

variable {m : StateT σ (Except ε) α} {f : α → StateT σ (Except ε) β} {P Q : α → Prop}
  {R : β → Prop} {c d : Prop}

theorem bind_of_ok {s s' : σ} {a : α} (h : m s = .ok (a, s')) : (m >>= f) s = f a s' := by
  show (m s >>= fun p => f p.1 p.2) = _
  rw [h]
  rfl

theorem bind_of_error {s : σ} {e : ε} (h : m s = .error e) : (m >>= f) s = .error e := by
  show (m s >>= fun p => f p.1 p.2) = _
  rw [h]
  rfl

/-- A computation that returns has returned on the way. -/
theorem exists_of_bind_ok {s s'' : σ} {b : β} (h : (m >>= f) s = .ok (b, s'')) :
    ∃ a s', m s = .ok (a, s') ∧ f a s' = .ok (b, s'') := by
  cases hm : m s with
  | error e =>
    rw [bind_of_error hm] at h
    cases h
  | ok r =>
    obtain ⟨a, s'⟩ := r
    rw [bind_of_ok hm] at h
    exact ⟨a, s', rfl, h⟩

theorem Gives.pure {a : α} (h : Q a) : Gives (Pure.pure a : StateT σ (Except ε) α) Q :=
  fun s => ⟨a, s, rfl, h⟩

theorem Gives.mono (h : Gives m P) (hPQ : ∀ a, P a → Q a) : Gives m Q := by
  intro s
  obtain ⟨a, s', ha, hP⟩ := h s
  exact ⟨a, s', ha, hPQ a hP⟩

theorem Gives.bind (h : Gives m P) (hf : ∀ a, P a → Gives (f a) R) : Gives (m >>= f) R := by
  intro s
  obtain ⟨a, s', ha, hP⟩ := h s
  rw [bind_of_ok ha]
  exact hf a hP s'

theorem Gives.bind_fails (h : Gives m P) (hf : ∀ a, P a → Fails (f a)) : Fails (m >>= f) := by
  intro s
  obtain ⟨a, s', ha, hP⟩ := h s
  rw [bind_of_ok ha]
  exact hf a hP s'

theorem Fails.bind (h : Fails m) : Fails (m >>= f) := by
  intro s
  obtain ⟨e, he⟩ := h s
  exact ⟨e, bind_of_error he⟩

namespace GivesIff

theorem pure {a : α} (h : Q a) : GivesIff True (Pure.pure a : StateT σ (Except ε) α) Q :=
  ⟨fun _ => Gives.pure h, fun hc => absurd trivial hc⟩

theorem raise {e : ε} (hc : ¬ c) : GivesIff c (throw e : StateT σ (Except ε) α) Q :=
  ⟨fun h => absurd h hc, fun _ _ => ⟨e, rfl⟩⟩

theorem congr (h : GivesIff c m P) (hcd : c ↔ d) (hPQ : c → ∀ a, P a → Q a) : GivesIff d m Q :=
  ⟨fun hd => (h.gives (hcd.2 hd)).mono (hPQ (hcd.2 hd)), fun hd => h.fails (mt hcd.1 hd)⟩

/-- **First `m`, then `f`**: both have to return. -/
theorem bind (h : GivesIff c m P) (hf : c → ∀ a, P a → GivesIff d (f a) R) :
    GivesIff (c ∧ d) (m >>= f) R := by
  constructor
  · rintro ⟨hc, hd⟩
    exact (h.gives hc).bind fun a ha => (hf hc a ha).gives hd
  · intro hcd
    by_cases hc : c
    · exact (h.gives hc).bind_fails fun a ha => (hf hc a ha).fails fun hd => hcd ⟨hc, hd⟩
    · exact (h.fails hc).bind

/-- What has returned met the condition. -/
theorem of_ok (h : GivesIff c m Q) {s s' : σ} {a : α} (hok : m s = .ok (a, s')) : c ∧ Q a := by
  by_cases hc : c
  · obtain ⟨b, t, hok', hb⟩ := h.gives hc s
    rw [hok'] at hok
    cases hok
    exact ⟨hc, hb⟩
  · obtain ⟨e, he⟩ := h.fails hc s
    rw [he] at hok
    cases hok

end GivesIff

end Outcome
