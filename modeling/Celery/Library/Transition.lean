/-
# Labelled transition systems

Runs of a step relation `step : σ → α → σ → Prop`, `step s a t` for "the action
`a` takes the state `s` to `t`", and the rules the protocols of this
development are proved with:

* `Run.invariant`: what every allowed action preserves, every run of allowed
  actions preserves.
* `Run.length_add_le`, `exists_run_of_progress`: where every action decreases a
  measure, no run is longer than the measure, and every state that is not final
  having a step, a final one can be reached.
* `Run.invariant_iff`: where a step keeps an invariant exactly if a condition on it
  holds, a run keeps it throughout exactly if all of its steps meet the condition;
  `Run.foldl_invariant_iff` is the same for a function applied in turn.
* `sum_comp_update`: such a measure is often a sum over the parties, of whom one
  moves.

A run ends in every state it reaches, so a statement about the end of every run
is one about all states on the way.
-/

import Mathlib.Algebra.BigOperators.Group.Finset.Piecewise
import Mathlib.Algebra.Ring.Nat
import Mathlib.Data.List.Induction
import Mathlib.Tactic.Common

namespace Transition

variable {σ α : Type}

/-- `Run step s as t`: the actions `as`, in this order, take `s` to `t`. -/
inductive Run (step : σ → α → σ → Prop) (s : σ) : List α → σ → Prop where
  | nil : Run step s [] s
  | snoc {as : List α} {a : α} {t u : σ} :
      Run step s as t → step t a u → Run step s (as ++ [a]) u

namespace Run

variable {step : σ → α → σ → Prop} {s t u : σ} {as bs : List α}

/-- One step is a run. -/
theorem single {a : α} (h : step s a t) : Run step s [a] t := snoc nil h

theorem append (h : Run step s as t) (h' : Run step t bs u) : Run step s (as ++ bs) u := by
  induction h' with
  | nil => rwa [List.append_nil]
  | snoc _ hstep ih =>
    rw [← List.append_assoc]
    exact snoc ih hstep

/-- A run that ends with an action ends with a step. -/
theorem of_snoc {a : α} (h : Run step s (as ++ [a]) u) : ∃ t, Run step s as t ∧ step t a u := by
  generalize hbs : as ++ [a] = bs at h
  cases h with
  | nil => simp at hbs
  | snoc hrun hstep =>
    obtain ⟨rfl, ha⟩ := List.append_inj' hbs rfl
    obtain rfl : a = _ := by simpa using ha
    exact ⟨_, hrun, hstep⟩

/-- A run can be cut anywhere. -/
theorem of_append (h : Run step s (as ++ bs) u) : ∃ t, Run step s as t ∧ Run step t bs u := by
  induction bs using List.reverseRecOn generalizing u with
  | nil => exact ⟨u, by rwa [List.append_nil] at h, nil⟩
  | append_singleton bs b ih =>
    rw [← List.append_assoc] at h
    obtain ⟨v, hv, hstep⟩ := h.of_snoc
    obtain ⟨t, ht, hrun⟩ := ih hv
    exact ⟨t, ht, snoc hrun hstep⟩

/-- A partial function applied in turn is a run of it. -/
theorem of_foldlM {f : σ → α → Option σ} (h : as.foldlM f s = some t) :
    Run (fun s a t => f s a = some t) s as t := by
  induction as using List.reverseRecOn generalizing t with
  | nil => exact Option.some_inj.mp h ▸ nil
  | append_singleton as a ih =>
    rw [List.foldlM_append] at h
    obtain ⟨u, hu, hlast⟩ := Option.bind_eq_some_iff.mp h
    obtain ⟨v, hv, hpure⟩ := Option.bind_eq_some_iff.mp hlast
    exact snoc (ih hu) (hv.trans hpure)

/-- A function applied in turn is a run of it. -/
theorem foldl (f : σ → α → σ) (s : σ) (as : List α) :
    Run (fun s a t => f s a = t) s as (as.foldl f s) := by
  induction as using List.reverseRecOn with
  | nil => exact nil
  | append_singleton as a ih =>
    rw [List.foldl_append]
    exact snoc ih rfl

/-- **The invariant rule.**  What every action that `P` allows preserves holds at
the end of every run of such actions. -/
theorem invariant {P : α → Prop} {I : σ → Prop}
    (hstep : ∀ {t a u}, I t → P a → step t a u → I u) (h : Run step s as t)
    (hs : I s) (hP : ∀ a ∈ as, P a) : I t := by
  induction h with
  | nil => exact hs
  | snoc _ hlast ih =>
    refine hstep (ih fun a ha => hP a (List.mem_append_left _ ha)) ?_ hlast
    exact hP _ (List.mem_append_right _ (List.mem_singleton_self _))

/-- Where an action leads to one state at most, so does a run. -/
theorem unique (hdet : ∀ t a u v, step t a u → step t a v → u = v) (h : Run step s as t)
    (h' : Run step s as u) : t = u := by
  induction h generalizing u with
  | nil =>
    generalize has : ([] : List α) = as at h'
    cases h' with
    | nil => rfl
    | snoc => simp at has
  | snoc _ hlast ih =>
    obtain ⟨v, hv, hlast'⟩ := h'.of_snoc
    obtain rfl := ih hv
    exact hdet _ _ _ _ hlast hlast'

/-- **The exact invariant rule.**  Where a step from a state of the invariant stays
in it exactly if `C` allows the step, a run is in it throughout exactly if `C`
allows all of its steps. -/
theorem invariant_iff {I : σ → Prop} {C : σ → α → Prop}
    (hdet : ∀ t a u v, step t a u → step t a v → u = v)
    (hstep : ∀ {as t a u}, Run step s as t → I t → step t a u → (I u ↔ C t a))
    (h : Run step s as u) (hs : I s) :
    (∀ as₁ as₂ t, as = as₁ ++ as₂ → Run step s as₁ t → I t) ↔
      ∀ as₁ a as₂ t, as = as₁ ++ a :: as₂ → Run step s as₁ t → C t a := by
  constructor
  · rintro hI as₁ a as₂ t rfl ht
    have hcons : as₁ ++ a :: as₂ = as₁ ++ [a] ++ as₂ := by simp
    obtain ⟨v, hv, -⟩ := of_append (hcons ▸ h)
    obtain ⟨t', ht', hlast⟩ := hv.of_snoc
    obtain rfl := unique hdet ht ht'
    exact (hstep ht (hI as₁ _ t rfl ht) hlast).mp (hI _ as₂ v hcons hv)
  · rintro hC as₁ as₂ t rfl ht
    clear h
    induction ht generalizing as₂ with
    | nil => exact hs
    | @snoc bs a t v hrun hlast ih =>
      have hcons : bs ++ [a] ++ as₂ = bs ++ a :: as₂ := by simp
      have hprev : I t := ih (a :: as₂) fun as₁ b as₃ w heq => hC as₁ b as₃ w (hcons.trans heq)
      exact (hstep hrun hprev hlast).mpr (hC bs a as₂ t hcons hrun)

/-- The exact invariant rule for a function applied in turn. -/
theorem foldl_invariant_iff {f : σ → α → σ} {I : σ → Prop} {C : σ → α → Prop}
    (hstep : ∀ (as : List α) a, I (as.foldl f s) → (I (f (as.foldl f s) a) ↔ C (as.foldl f s) a))
    (hs : I s) (as : List α) :
    (∀ as₁ as₂, as = as₁ ++ as₂ → I (as₁.foldl f s)) ↔
      ∀ as₁ a as₂, as = as₁ ++ a :: as₂ → C (as₁.foldl f s) a := by
  have hdet : ∀ t a u v, f t a = u → f t a = v → u = v := fun t a u v h h' => h.symm.trans h'
  have hend : ∀ {as : List α} {t}, Run (fun s a t => f s a = t) s as t → t = as.foldl f s :=
    fun h => unique hdet h (foldl f s _)
  have hiff := invariant_iff (C := C) hdet (fun {as t a u} hrun hI heq => by
    obtain rfl := hend hrun
    obtain rfl := heq
    exact hstep as a hI) (foldl f s as) hs
  constructor
  · intro hI as₁ a as₂ heq
    refine hiff.mp (fun bs₁ bs₂ t hbs ht => ?_) as₁ a as₂ _ heq (foldl f s as₁)
    exact hend ht ▸ hI bs₁ bs₂ hbs
  · intro hC as₁ as₂ heq
    refine hiff.mpr (fun bs₁ a bs₂ t hbs ht => ?_) as₁ as₂ _ heq (foldl f s as₁)
    exact hend ht ▸ hC bs₁ a bs₂ hbs

/-- A measure that every action decreases bounds the length of a run. -/
theorem length_add_le {I : σ → Prop} {μ : σ → ℕ}
    (hI : ∀ {t a u}, I t → step t a u → I u) (hμ : ∀ {t a u}, I t → step t a u → μ u < μ t)
    (h : Run step s as t) (hs : I s) : as.length + μ t ≤ μ s := by
  have key : I t ∧ as.length + μ t ≤ μ s := by
    induction h with
    | nil => exact ⟨hs, by simp⟩
    | snoc _ hlast ih =>
      have := hμ ih.1 hlast
      refine ⟨hI ih.1 hlast, ?_⟩
      rw [List.length_append, List.length_singleton]
      omega
  exact key.2

end Run

/-- **Progress.**  Where every state of the invariant that is not final has a
step, and steps decrease `μ`, a final state can be reached from each. -/
theorem exists_run_of_progress {step : σ → α → σ → Prop} {I F : σ → Prop} {μ : σ → ℕ}
    (hI : ∀ {t a u}, I t → step t a u → I u) (hμ : ∀ {t a u}, I t → step t a u → μ u < μ t)
    (hprogress : ∀ {t}, I t → ¬ F t → ∃ a u, step t a u) (s : σ) (hs : I s) :
    ∃ as t, Run step s as t ∧ F t := by
  induction hn : μ s using Nat.strongRecOn generalizing s with
  | _ n ih =>
    by_cases hF : F s
    · exact ⟨[], s, .nil, hF⟩
    · obtain ⟨a, u, hstep⟩ := hprogress hs hF
      obtain ⟨as, t, hrun, ht⟩ := ih (μ u) (hn ▸ hμ hs hstep) u (hI hs hstep) rfl
      exact ⟨[a] ++ as, t, (Run.single hstep).append hrun, ht⟩

/-- What a sum over the parties becomes when one of them moves. -/
theorem sum_comp_update {ι β : Type} [Fintype ι] [DecidableEq ι] (w : β → ℕ) (f : ι → β) (i : ι)
    (b : β) : (∑ k, w (Function.update f i b k)) + w (f i) = (∑ k, w (f k)) + w b := by
  have hupdate : (fun k => w (Function.update f i b k))
      = Function.update (fun k => w (f k)) i (w b) := by
    funext k
    by_cases hk : k = i
    · subst hk
      rw [Function.update_self, Function.update_self]
    · rw [Function.update_of_ne hk, Function.update_of_ne hk]
  rw [hupdate, Finset.sum_update_of_mem (Finset.mem_univ i),
    Finset.sum_eq_add_sum_sdiff_singleton_of_mem (Finset.mem_univ i) fun k => w (f k)]
  omega

end Transition
