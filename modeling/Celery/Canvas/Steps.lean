/-
# The steps `prepare_steps` takes

Facts about `taken`, the second loop of `prepare_steps` without its effects: what
one round does (`taken_cons_ok`), that the shapes of the steps depend on the
shapes of the tasks alone (`survivors_of_takenSteps`), that the fuel is enough
(`taken_ok`), that the steps are no heavier than the tasks, that `_descend`
counts the last step (`descendChain_of_takenSteps`) and that they have what is
`Hereditary` of the tasks.
-/

import Celery.Canvas.Shape

namespace Celery
namespace Canvas

open Sig

variable {V : Type}

/-! ### The steps taken, by shape -/

@[simp] theorem prependArgs_nil (s : Sig V) : s.prependArgs [] = s := by
  cases s <;> rfl

/-- What the first task receives does not show in its shape. -/
theorem Prepare.shape_of_receive {c : Prepare V} {first : Bool} {s t : Sig V}
    (h : c.receive first s = .ok t) : t.shape = s.shape := by
  unfold Prepare.receive cloneWith at h
  split at h
  · split_ifs at h
    cases h
    simp
  · cases h
    simp
  · cases h
    simp [prependArgs]
  · cases h
    rfl

theorem weight_of_shape_eq {s t : Sig V} (h : t.shape = s.shape) : t.weight = s.weight := by
  rw [← weight_shape t, h, weight_shape]

theorem weight_maybeUnrollGroup_le (s : Sig V) : s.maybeUnrollGroup.weight ≤ s.weight := by
  unfold maybeUnrollGroup
  split
  · simp only [weight, weightAll]
    omega
  · exact le_rfl

/-- What is popped, unrolled and received is no heavier than it was. -/
theorem Prepare.weight_of_receive {c : Prepare V} {first : Bool} {s t : Sig V}
    (h : c.receive first s.maybeUnrollGroup = .ok t) : t.weight ≤ s.weight :=
  (weight_of_shape_eq (c.shape_of_receive h)).le.trans (weight_maybeUnrollGroup_le s)

section

variable {c : Prepare V} {n : ℕ} {prev : Bool} {s t : Sig V} {ts st : List (Sig V)}

/-- Whether a popped step is skipped. -/
def skipped (prev : Bool) (s : Sig V) (st : List (Sig V)) : Bool :=
  s.maybeUnrollGroup.isEmptyGroup && (!st.isEmpty || prev)

theorem taken_skip (hs : skipped prev s st = true) :
    taken c (n + 1) prev (s :: st) = taken c n prev st := by
  rw [skipped] at hs
  rw [taken]
  simp only [hs, if_true]

theorem taken_error {e : PyError} (hs : skipped prev s st = false)
    (hr : c.receive st.isEmpty s.maybeUnrollGroup = .error e) :
    taken c (n + 1) prev (s :: st) = .error e := by
  rw [skipped] at hs
  rw [taken]
  simp only [hs, Bool.false_eq_true, if_false, hr]
  rfl

theorem taken_splice {f : Fields V (Sig V)} (hs : skipped prev s st = false)
    (hr : c.receive st.isEmpty s.maybeUnrollGroup = .ok (.chain ts f)) :
    taken c (n + 1) prev (s :: st) = taken c n prev (ts.reverse ++ st) := by
  rw [skipped] at hs
  rw [taken]
  simp only [hs, Bool.false_eq_true, if_false, hr]
  rfl

theorem taken_take (hs : skipped prev s st = false)
    (hr : c.receive st.isEmpty s.maybeUnrollGroup = .ok t) (ht : t.isChain = false) :
    taken c (n + 1) prev (s :: st) = (taken c n (prev || t.staysTruthy) st).map (t :: ·) := by
  rw [skipped] at hs
  rw [taken]
  simp only [hs, Bool.false_eq_true, if_false, hr]
  cases t with
  | chain ts f => cases ht
  | _ =>
    show (taken c n _ st >>= fun rest => pure (_ :: rest)) = _
    cases taken c n _ st <;> rfl

/-- One round of `taken`: the step is skipped, cannot receive the arguments, is a
chain to splice, or is taken. -/
theorem taken_cons_ok {l : List (Sig V)} (h : taken c (n + 1) prev (s :: st) = .ok l) :
    (skipped prev s st = true ∧ taken c n prev st = .ok l) ∨
    skipped prev s st = false ∧
      ((∃ ts f, c.receive st.isEmpty s.maybeUnrollGroup = .ok (.chain ts f) ∧
          taken c n prev (ts.reverse ++ st) = .ok l) ∨
        ∃ t rest, c.receive st.isEmpty s.maybeUnrollGroup = .ok t ∧ t.isChain = false ∧
          taken c n (prev || t.staysTruthy) st = .ok rest ∧ l = t :: rest) := by
  cases hs : skipped prev s st with
  | true => exact .inl ⟨rfl, by rwa [taken_skip hs] at h⟩
  | false =>
    refine .inr ⟨rfl, ?_⟩
    cases hr : c.receive st.isEmpty s.maybeUnrollGroup with
    | error e =>
      rw [taken_error hs hr] at h
      cases h
    | ok t =>
      by_cases ht : t.isChain
      · cases t with
        | chain ts f =>
          rw [taken_splice hs hr] at h
          exact .inl ⟨ts, f, rfl, h⟩
        | _ => cases ht
      · rw [Bool.not_eq_true] at ht
        rw [taken_take hs hr ht] at h
        cases hrest : taken c n (prev || t.staysTruthy) st with
        | error e =>
          rw [hrest] at h
          cases h
        | ok rest =>
          rw [hrest] at h
          cases h
          exact .inr ⟨t, rest, rfl, ht, hrest, rfl⟩

end

/-- A run of the loop in which nothing raises, from the steps not yet taken, the
last one first, to those it takes. -/
inductive Takes (c : Prepare V) : Bool → List (Sig V) → List (Sig V) → Prop
  | nil (prev : Bool) : Takes c prev [] []
  | skip {prev : Bool} {s : Sig V} {st l : List (Sig V)} (hs : skipped prev s st = true)
      (h : Takes c prev st l) : Takes c prev (s :: st) l
  | splice {prev : Bool} {s : Sig V} {ts st l : List (Sig V)} {f : Fields V (Sig V)}
      (hs : skipped prev s st = false)
      (hr : c.receive st.isEmpty s.maybeUnrollGroup = .ok (.chain ts f))
      (h : Takes c prev (ts.reverse ++ st) l) : Takes c prev (s :: st) l
  | take {prev : Bool} {s t : Sig V} {st l : List (Sig V)} (hs : skipped prev s st = false)
      (hr : c.receive st.isEmpty s.maybeUnrollGroup = .ok t) (hch : t.isChain = false)
      (h : Takes c (prev || t.staysTruthy) st l) : Takes c prev (s :: st) (t :: l)

theorem takes_of_taken {c : Prepare V} {n : ℕ} {prev : Bool} {st l : List (Sig V)}
    (h : taken c n prev st = .ok l) : Takes c prev st l := by
  induction n generalizing prev st l with
  | zero =>
    cases st with
    | nil => cases h; exact .nil prev
    | cons s st => cases h
  | succ n ih =>
    cases st with
    | nil => cases h; exact .nil prev
    | cons s st =>
      rcases taken_cons_ok h with
        ⟨hs, h⟩ | ⟨hs, ⟨ts, f, hr, h⟩ | ⟨t, rest, hr, hch, hrest, rfl⟩⟩
      · exact .skip hs (ih h)
      · exact .splice hs hr (ih h)
      · exact .take hs hr hch (ih hrest)

/-- Without arguments to receive, the same steps are taken. -/
theorem taken_shape {c : Prepare V} {n : ℕ} {prev : Bool} {st l : List (Sig V)}
    (h : taken c n prev st = .ok l) :
    taken { clone := false } n prev (st.map shape) = .ok (l.map shape) := by
  induction n generalizing prev st l with
  | zero =>
    cases st with
    | nil => cases h; rfl
    | cons s st => cases h
  | succ n ih =>
    cases st with
    | nil => cases h; rfl
    | cons s st =>
      have hskip : skipped prev s.shape (st.map shape) = skipped prev s st := by
        simp [skipped, ← shape_maybeUnrollGroup]
      have hrec : Prepare.receive { clone := false } (st.map shape).isEmpty
          s.shape.maybeUnrollGroup = .ok s.maybeUnrollGroup.shape := by
        rw [← shape_maybeUnrollGroup]
        cases (st.map shape).isEmpty <;> simp [Prepare.receive]
      rw [List.map_cons]
      rcases taken_cons_ok h with
        ⟨hs, h⟩ | ⟨hs, ⟨ts, f, hr, h⟩ | ⟨t, rest, hr, hch, hrest, rfl⟩⟩
      · rw [taken_skip (hskip.trans hs)]
        exact ih h
      · rw [← c.shape_of_receive hr, shape] at hrec
        have := ih h
        rw [List.map_append, List.map_reverse, ← shapeAll_eq_map] at this
        rw [taken_splice (hskip.trans hs) hrec]
        exact this
      · rw [← c.shape_of_receive hr] at hrec
        have hch' : t.shape.isChain = false := by rw [← hch]; cases t <;> rfl
        rw [taken_take (hskip.trans hs) hrec hch', staysTruthy_shape, ih hrest]
        rfl

theorem normaliseHead_shape (clone : Bool) (n : ℕ) (ts : List (Sig V)) :
    (normaliseHead clone n ts).map shape = normaliseHead false n (ts.map shape) := by
  induction n generalizing ts with
  | zero => rfl
  | succ n ih =>
    match ts with
    | [] => rfl
    | .task .. :: st => rfl
    | .chord .. :: st => rfl
    | .chain ts f :: st =>
      rw [normaliseHead, ih, List.map_append, List.map_cons, shape, normaliseHead]
      cases clone <;> simp [← shapeAll_eq_map]
    | .group l ts f :: st =>
      have hun := shape_maybeUnrollGroup (.group l ts f)
      rw [shape] at hun
      rw [normaliseHead, List.map_cons, shape, normaliseHead]
      simp only [← hun, isEmptyGroup_shape, List.isEmpty_map]
      split_ifs
      · exact ih st
      · rfl

/-- **The shapes of the steps that `prepare_steps` takes** depend on the shapes of
the tasks alone. -/
theorem survivors_of_takenSteps {c : Prepare V} {ts l : List (Sig V)}
    (h : takenSteps c ts = .ok l) : survivors (shapeAll ts) = l.map shape := by
  have hn := normaliseHead_shape c.clone (weightAll ts) ts
  have ht := taken_shape h
  rw [List.map_reverse, hn] at ht
  have hw : weightAll (normaliseHead c.clone (weightAll ts) ts) =
      weightAll (normaliseHead false (weightAll ts) (ts.map shape)) := by
    rw [← hn, ← shapeAll_eq_map, weightAll_shapeAll]
  rw [hw] at ht
  unfold survivors takenSteps
  simp only [weightAll_shapeAll]
  rw [shapeAll_eq_map, ht]
  rfl

/-- **With enough fuel the loop raises nothing** if an invariant `A` lets it receive
every step that it does not skip. -/
theorem taken_ok {c : Prepare V} {A : Bool → List (Sig V) → Prop}
    (hskip : ∀ {prev s st}, A prev (s :: st) → skipped prev s st = true → A prev st)
    (hstep : ∀ {prev s st}, A prev (s :: st) → skipped prev s st = false →
      ∃ t, c.receive st.isEmpty s.maybeUnrollGroup = .ok t ∧
        (∀ ts f, t = .chain ts f → A prev (ts.reverse ++ st)) ∧
        (t.isChain = false → A (prev || t.staysTruthy) st))
    {n : ℕ} {prev : Bool} {st : List (Sig V)} (hn : weightAll st ≤ n) (hA : A prev st) :
    ∃ l, taken c n prev st = .ok l := by
  induction n generalizing prev st with
  | zero =>
    cases st with
    | nil => exact ⟨[], rfl⟩
    | cons s st =>
      have := s.weight_pos
      rw [weightAll] at hn
      omega
  | succ n ih =>
    cases st with
    | nil => exact ⟨[], rfl⟩
    | cons s st =>
      have hpos := s.weight_pos
      rw [weightAll] at hn
      cases hs : skipped prev s st with
      | true =>
        rw [taken_skip hs]
        exact ih (by omega) (hskip hA hs)
      | false =>
        obtain ⟨t, hr, hsplice, htake⟩ := hstep hA hs
        have hw := c.weight_of_receive hr
        by_cases ht : t.isChain
        · cases t with
          | chain ts f =>
            rw [weight] at hw
            rw [taken_splice hs hr]
            exact ih (by rw [weightAll_append, weightAll_reverse]; omega) (hsplice ts f rfl)
          | _ => cases ht
        · rw [Bool.not_eq_true] at ht
          obtain ⟨l, hl⟩ := ih (by omega) (htake ht)
          exact ⟨t :: l, by rw [taken_take hs hr ht, hl]; rfl⟩

theorem Takes.weightAll_le {c : Prepare V} {prev : Bool} {st l : List (Sig V)}
    (h : Takes c prev st l) : weightAll l ≤ weightAll st := by
  induction h with
  | nil prev => exact le_rfl
  | skip hs h ih =>
    rw [weightAll]
    omega
  | splice hs hr h ih =>
    have hw := c.weight_of_receive hr
    rw [weight] at hw
    rw [weightAll_append, weightAll_reverse] at ih
    rw [weightAll]
    omega
  | take hs hr hch h ih =>
    have hw := c.weight_of_receive hr
    rw [weightAll, weightAll]
    omega

theorem weightAll_normaliseHead_le (clone : Bool) (n : ℕ) (ts : List (Sig V)) :
    weightAll (normaliseHead clone n ts) ≤ weightAll ts := by
  induction n generalizing ts with
  | zero => exact le_rfl
  | succ n ih =>
    match ts with
    | [] => exact le_rfl
    | .task .. :: st => exact le_rfl
    | .chord .. :: st => exact le_rfl
    | .chain ts f :: st =>
      have hw : weightAll (if clone then cloneAll ts else ts) = weightAll ts := by
        cases clone with
        | false => rfl
        | true => rw [if_pos rfl, ← weightAll_shapeAll, shapeAll_cloneAll, weightAll_shapeAll]
      have := ih ((if clone then cloneAll ts else ts) ++ st)
      rw [weightAll_append, hw] at this
      rw [normaliseHead, weightAll, weight]
      omega
    | .group l ts f :: st =>
      have hw := weight_maybeUnrollGroup_le (.group l ts f)
      rw [normaliseHead]
      split_ifs
      · have := ih st
        rw [weightAll]
        omega
      · rw [weightAll, weightAll]
        omega

/-- `freeze` takes the steps of a chain without cloning them, which cannot fail. -/
theorem takenSteps_ok {c : Prepare V} (hc : c.clone = false) (ts : List (Sig V)) :
    ∃ l, takenSteps c ts = .ok l := by
  refine taken_ok (A := fun _ _ => True) (fun _ _ => trivial) (fun {_ s st} _ _ => ?_)
    (by rw [weightAll_reverse]) trivial
  unfold Prepare.receive
  rw [hc]
  cases st.isEmpty <;> exact ⟨_, rfl, fun _ _ _ => trivial, fun _ => trivial⟩

theorem weightAll_takenSteps_le {c : Prepare V} {ts l : List (Sig V)}
    (h : takenSteps c ts = .ok l) : weightAll l ≤ weightAll ts := by
  have := (takes_of_taken h).weightAll_le
  rw [weightAll_reverse] at this
  exact this.trans (weightAll_normaliseHead_le _ _ ts)

/-- A step that cannot receive the arguments raises a `TypeError`. -/
theorem Prepare.error_of_receive {c : Prepare V} {first : Bool} {s : Sig V} {e : PyError}
    (h : c.receive first s = .error e) : e = .typeError := by
  unfold Prepare.receive at h
  cases hc : c.clone with
  | false => cases first <;> simp only [hc] at h <;> cases h
  | true => cases first with
    | false =>
      simp only [hc] at h
      cases h
    | true =>
      simp only [hc, cloneWith] at h
      split_ifs at h
      cases h
      rfl

/-- The loop raises what its steps raise. -/
theorem error_of_taken {c : Prepare V} {n : ℕ} {prev : Bool} {st : List (Sig V)} {e : PyError}
    (hn : weightAll st ≤ n) (h : taken c n prev st = .error e) : e = .typeError := by
  induction n generalizing prev st with
  | zero =>
    cases st with
    | nil => cases h
    | cons s st =>
      have := s.weight_pos
      rw [weightAll] at hn
      omega
  | succ n ih =>
    cases st with
    | nil => cases h
    | cons s st =>
      have hpos := s.weight_pos
      rw [weightAll] at hn
      cases hs : skipped prev s st with
      | true =>
        rw [taken_skip hs] at h
        exact ih (by omega) h
      | false =>
        cases hr : c.receive st.isEmpty s.maybeUnrollGroup with
        | error e' =>
          rw [taken_error hs hr] at h
          cases h
          exact c.error_of_receive hr
        | ok t =>
          have hw := c.weight_of_receive hr
          by_cases ht : t.isChain
          · cases t with
            | chain ts f =>
              rw [weight] at hw
              rw [taken_splice hs hr] at h
              exact ih (by rw [weightAll_append, weightAll_reverse]; omega) h
            | _ => cases ht
          · rw [Bool.not_eq_true] at ht
            rw [taken_take hs hr ht] at h
            cases hrest : taken c n (prev || t.staysTruthy) st with
            | error e' =>
              rw [hrest] at h
              cases h
              exact ih (by omega) hrest
            | ok rest =>
              rw [hrest] at h
              cases h

theorem error_of_takenSteps {c : Prepare V} {ts : List (Sig V)} {e : PyError}
    (h : takenSteps c ts = .error e) : e = .typeError :=
  error_of_taken (by rw [weightAll_reverse]) h

/-! ### What the steps taken keep of the chain -/

theorem descendChain_append (ts us : List (Sig V)) :
    descendChain (ts ++ us) = if descendChain us > 0 then descendChain us else descendChain ts := by
  induction ts with
  | nil => simp [descendChain]
  | cons t ts ih =>
    rw [List.cons_append, descendChain, ih, descendChain]
    split_ifs <;> rfl

theorem descend_maybeUnrollGroup (s : Sig V) : s.maybeUnrollGroup.descend = s.descend := by
  unfold maybeUnrollGroup
  split
  · simp [descend, descendGroup]
  · rfl

theorem descend_of_shape_eq {s t : Sig V} (h : t.shape = s.shape) : t.descend = s.descend := by
  rw [← descend_shape t, h, descend_shape]

theorem descend_of_isEmptyGroup {s : Sig V} (h : s.isEmptyGroup = true) : s.descend = 0 := by
  cases s with
  | group l ts f => cases ts with
    | nil => rfl
    | cons t ts => cases h
  | _ => cases h

/-- **`_descend` counts the first step taken**, the last one of the chain, unless
nothing reports in it. -/
theorem Takes.descendChain_eq {c : Prepare V} {prev : Bool} {st l : List (Sig V)}
    (h : Takes c prev st l) :
    ∀ t ∈ l.head?, 0 < t.descend → descendChain st.reverse = t.descend := by
  induction h with
  | nil prev => intro t ht; cases ht
  | skip hs h ih =>
    intro t hhead ht
    rw [skipped, Bool.and_eq_true] at hs
    rw [List.reverse_cons, descendChain_append, descendChain, descendChain,
      ← descend_maybeUnrollGroup, descend_of_isEmptyGroup hs.1]
    exact ih t hhead ht
  | splice hs hr h ih =>
    intro t hhead ht
    have := ih t hhead ht
    rw [List.reverse_append, List.reverse_reverse, descendChain_append] at this
    rw [List.reverse_cons, descendChain_append, descendChain, descendChain,
      ← descend_maybeUnrollGroup, ← descend_of_shape_eq (c.shape_of_receive hr), descend]
    exact this
  | take hs hr hch h ih =>
    intro u hhead hu
    cases hhead
    rw [List.reverse_cons, descendChain_append, descendChain, descendChain,
      ← descend_maybeUnrollGroup, ← descend_of_shape_eq (c.shape_of_receive hr)]
    exact if_pos hu

theorem descendChain_normaliseHead (clone : Bool) (n : ℕ) (ts : List (Sig V)) :
    descendChain (normaliseHead clone n ts) = descendChain ts := by
  induction n generalizing ts with
  | zero => rfl
  | succ n ih =>
    match ts with
    | [] => rfl
    | .task .. :: st => rfl
    | .chord .. :: st => rfl
    | .chain ts f :: st =>
      have hc : descendChain (if clone then cloneAll ts else ts) = descendChain ts := by
        cases clone with
        | false => rfl
        | true => rw [if_pos rfl, ← (descend_shapeAll _).2, shapeAll_cloneAll, (descend_shapeAll _).2]
      rw [normaliseHead, ih, descendChain_append, hc, descendChain, descend]
    | .group l ts f :: st =>
      have hun := descend_maybeUnrollGroup (.group l ts f)
      rw [normaliseHead]
      split_ifs with hstrip
      · rw [Bool.and_eq_true] at hstrip
        rw [ih, descendChain, ← hun, descend_of_isEmptyGroup hstrip.2]
        split_ifs <;> omega
      · rw [descendChain, descendChain, hun]

theorem descendChain_of_takenSteps {c : Prepare V} {ts rest : List (Sig V)} {t : Sig V}
    (h : takenSteps c ts = .ok (t :: rest)) (ht : 0 < t.descend) :
    descendChain ts = t.descend := by
  have := (takes_of_taken h).descendChain_eq t rfl ht
  rwa [List.reverse_reverse, descendChain_normaliseHead] at this

/-- A property that the steps have if the chain has it. -/
structure Hereditary (P : Sig V → Prop) : Prop where
  unroll : ∀ s, P s → P s.maybeUnrollGroup
  splice : ∀ ts f, P (.chain ts f) → ∀ t ∈ ts, P t
  clone : ∀ s, P s → P s.clone
  receiveArgs : ∀ args kwargs s, P s → P (s.receiveArgs args kwargs)
  prependArgs : ∀ args s, P s → P (s.prependArgs args)

section Hereditary

variable {P : Sig V → Prop} (hP : Hereditary P)
include hP

theorem Hereditary.of_receive {c : Prepare V} {first : Bool} {s t : Sig V}
    (h : c.receive first s = .ok t) (hs : P s) : P t := by
  unfold Prepare.receive cloneWith at h
  split at h
  · split_ifs at h
    cases h
    exact hP.receiveArgs _ _ _ (hP.clone _ hs)
  · cases h
    exact hP.clone _ hs
  · cases h
    exact hP.prependArgs _ _ hs
  · cases h
    exact hs

theorem Hereditary.of_takes {c : Prepare V} {prev : Bool} {st l : List (Sig V)}
    (h : Takes c prev st l) (hst : ∀ s ∈ st, P s) : ∀ t ∈ l, P t := by
  induction h with
  | nil prev => simp
  | skip hs h ih => exact ih (List.forall_mem_cons.1 hst).2
  | splice hs hr h ih =>
    obtain ⟨hs, hst⟩ := List.forall_mem_cons.1 hst
    have hts := hP.splice _ _ (hP.of_receive hr (hP.unroll _ hs))
    refine ih fun t ht => ?_
    rw [List.mem_append, List.mem_reverse] at ht
    exact ht.elim (hts t) (hst t)
  | take hs hr hch h ih =>
    obtain ⟨hs, hst⟩ := List.forall_mem_cons.1 hst
    exact List.forall_mem_cons.2 ⟨hP.of_receive hr (hP.unroll _ hs), ih hst⟩

theorem Hereditary.of_normaliseHead (clone : Bool) (n : ℕ) {ts : List (Sig V)}
    (hts : ∀ t ∈ ts, P t) : ∀ t ∈ normaliseHead clone n ts, P t := by
  induction n generalizing ts with
  | zero => exact hts
  | succ n ih =>
    match ts with
    | [] => exact hts
    | .task .. :: st => exact hts
    | .chord .. :: st => exact hts
    | .chain us f :: st =>
      obtain ⟨hs, hst⟩ := List.forall_mem_cons.1 hts
      have hus := hP.splice us f hs
      rw [normaliseHead]
      refine ih (List.forall_mem_append.2 ⟨?_, hst⟩)
      cases clone with
      | false => exact hus
      | true =>
        rw [if_pos rfl, cloneAll_eq_map, List.forall_mem_map]
        exact fun u hu => hP.clone u (hus u hu)
    | .group l us f :: st =>
      obtain ⟨hs, hst⟩ := List.forall_mem_cons.1 hts
      rw [normaliseHead]
      split_ifs
      · exact ih hst
      · exact List.forall_mem_cons.2 ⟨hP.unroll _ hs, hst⟩

/-- **What is hereditary holds of the steps that `prepare_steps` takes.** -/
theorem Hereditary.of_takenSteps {c : Prepare V} {ts l : List (Sig V)}
    (h : takenSteps c ts = .ok l) (hts : ∀ t ∈ ts, P t) : ∀ t ∈ l, P t :=
  hP.of_takes (takes_of_taken h) fun s hs =>
    hP.of_normaliseHead c.clone (weightAll ts) hts s (List.mem_reverse.1 hs)

end Hereditary

/-- The options of the tasks in a signature. -/
def leafOptions (s : Sig V) : List (Options V (Sig V)) := s.leaves.map options

theorem leafOptions_chain (ts : List (Sig V)) (f : Fields V (Sig V)) :
    leafOptions (.chain ts f) = ts.flatMap leafOptions := by
  rw [leafOptions, leaves, leavesAll_eq_flatMap, List.map_flatMap]
  rfl

theorem Fields.merge_options (args : List V) (kwargs : List (String × V)) (f : Fields V (Sig V)) :
    (f.merge args kwargs).options = f.options := by
  unfold Fields.merge
  split_ifs <;> rfl

/-- Nothing changes the options of a task before its step is frozen. -/
theorem hereditary_leafOptions (Q : Options V (Sig V) → Prop) :
    Hereditary fun s => ∀ o ∈ leafOptions s, Q o where
  unroll s h := by rwa [leafOptions, leaves_maybeUnrollGroup, ← leafOptions]
  splice ts f h t ht o ho := by
    rw [leafOptions_chain] at h
    exact h o (List.mem_flatMap_of_mem ht ho)
  clone s h := by rwa [leafOptions, leaves_clone, ← leafOptions]
  receiveArgs args kwargs s h := by
    cases s with
    | task n f =>
      intro o ho
      rw [List.mem_singleton.1 ho]
      show Q (f.merge args kwargs).options
      rw [Fields.merge_options]
      exact h _ List.mem_cons_self
    | _ => exact h
  prependArgs args s h := by
    cases s <;> exact h

end Canvas
end Celery
