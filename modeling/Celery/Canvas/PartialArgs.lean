/-
# `_chain.prepare_steps`: where the partial arguments go

`prepare_steps` (`celery/canvas.py`, lines 1198-1349) prepares a chain that is
called with partial arguments.  They are for the first step that has a task in it:
`deliver` says what the tasks are then to be run with, the task alone if the step
is one, every member if it is a group.  `Delivered` says that the prepared steps
run just that, in the order of the nesting, and that nothing empty and no group of
one member is left among them.

The code does so in the cases of `Deliverable` (`prepareChain_delivers`).  The
partial arguments reach a task if the step at the head of the chain comes down to
one; a group that is cloned with arguments loses them in `from_dict`, whatever its
members are, and so does a chain without a task at its own head.
-/

import Celery.Canvas.Order
import Mathlib.Tactic.FinCases

namespace Celery
namespace Canvas

open Sig Outcome

variable {V : Type}

namespace Sig

mutual

/-- The labels of a step that is called with partial arguments: the first task of a
chain has them, and every member of a group or a header. -/
def deliver (args : List V) (kwargs : List (String × V)) : Sig V → List (Label V)
  | task n f => [Label.merge args kwargs ⟨n, f.args, f.kwargs⟩]
  | chain ts _ => deliverFirst args kwargs ts
  | group _ ts _ => deliverEach args kwargs ts
  | chord _ h _ b _ => deliverEach args kwargs h ++ b.labels

def deliverEach (args : List V) (kwargs : List (String × V)) : List (Sig V) → List (Label V)
  | [] => []
  | t :: ts => deliver args kwargs t ++ deliverEach args kwargs ts

/-- The labels of a chain that is called with partial arguments: they are for the
first step that has a task in it. -/
def deliverFirst (args : List V) (kwargs : List (String × V)) : List (Sig V) → List (Label V)
  | [] => []
  | t :: ts =>
    if t.labels.isEmpty then deliverFirst args kwargs ts else deliver args kwargs t ++ labelsAll ts

end

mutual

/-- The signature at the head of a chain: chains are spliced, a group of one is
unrolled, and an empty group is none. -/
def head : Sig V → Option (Sig V)
  | task n f => some (task n f)
  | chain ts _ => headAll ts
  | group _ [] _ => none
  | group _ [t] _ => if t.isEmptyGroup then none else some t
  | group l (t :: u :: ts) f => some (group l (t :: u :: ts) f)
  | chord l h hg b f => some (chord l h hg b f)

def headAll : List (Sig V) → Option (Sig V)
  | [] => none
  | t :: ts => (head t).or (headAll ts)

end

/-- A prepared step with a task in it that is no group of one.  The body of a chord
is a step of its own. -/
def compact : Sig V → Bool
  | task .. => true
  | chain .. => false
  | group _ ts _ => !(labelsAll ts).isEmpty && ts.length != 1
  | chord _ h _ _ _ => !(labelsAll h).isEmpty && h.length != 1

/-- Whether a step is compact once it is frozen: a group has a task, and more than
one member is left when it is flattened. -/
def compacts : Sig V → Bool
  | group l ts _ => !silentAll ts && (memberList l ts).length != 1
  | _ => true

mutual

/-- No signature in it is immutable. -/
def isMutable : Sig V → Bool
  | task _ f => !f.immutable
  | chain ts f => !f.immutable && areMutable ts
  | group _ ts f => !f.immutable && areMutable ts
  | chord _ h _ b f => !f.immutable && areMutable h && isMutable b

def areMutable : List (Sig V) → Bool
  | [] => true
  | t :: ts => isMutable t && areMutable ts

end

end Sig

/-- What `prepare_steps` should yield: steps that run the tasks from left to right,
with the partial arguments given once, nothing empty and no group of one. -/
structure Delivered (c : Prepare V) (ts steps : List (Sig V)) : Prop where
  labels : labelsAll steps = deliverFirst c.args c.kwargs ts
  compact : ∀ s ∈ steps.flatMap reached, s.compact = true

/-- `chain.prepare_steps(...)` returns such steps. -/
def Delivers (c : Prepare V) (ts : List (Sig V)) (app : App) : Prop :=
  ∃ steps app', prepareChain c ts app = .ok (steps, app') ∧ Delivered c ts (steps.map Prod.fst)

/-- The head of the chain can be cloned with the keyword arguments: one that is
called `tasks` takes the place of the members of a chain or a group. -/
def Accepts (c : Prepare V) (ts : List (Sig V)) : Prop :=
  dictHas c.kwargs "tasks" = false ∨
    ∃ s ∈ headAll ts, s.maybeUnrollGroup.isTask = true ∨ s.maybeUnrollGroup.isEmptyGroup = true

/-- **The chains that `prepare_steps` delivers partial arguments to.** -/
structure Deliverable (c : Prepare V) (ts : List (Sig V)) : Prop where
  accepts : Accepts c ts
  /-- A member of a group that is a chain has a step to freeze. -/
  freezes : Freezes (.chain (shapeAll ts) {})
  ordered : Ordered (.chain (shapeAll ts) {})
  compacts : ∀ t ∈ survivors (shapeAll ts), t.compacts = true
  /-- A task is at the head, or the partial arguments make no difference. -/
  receives : (headAll ts).any receives = true ∨ deliverFirst c.args c.kwargs ts = labelsAll ts

/-! ### The head of the chain -/

namespace Sig

mutual

theorem head_shape : ∀ s : Sig V, s.shape.head = s.head.map shape
  | task .. => rfl
  | chain ts _ => by rw [shape, head, head, headAll_shapeAll ts]
  | group _ [] _ => rfl
  | group _ [t] _ => by
    rw [shape, shapeAll, shapeAll, head, head, isEmptyGroup_shape]
    split_ifs <;> rfl
  | group _ (_ :: _ :: _) _ => rfl
  | chord .. => rfl

theorem headAll_shapeAll : ∀ ts : List (Sig V), headAll (shapeAll ts) = (headAll ts).map shape
  | [] => rfl
  | t :: ts => by
    rw [shapeAll, headAll, headAll, head_shape t, headAll_shapeAll ts]
    cases head t <;> rfl

end

mutual

theorem labels_eq_nil_of_head : ∀ {s : Sig V}, s.head = none → s.labels = []
  | task .., h => by cases h
  | chain ts _, h => by
    rw [head] at h
    exact labelsAll_eq_nil_of_headAll h
  | group _ [] _, _ => rfl
  | group _ [t] _, h => by
    rw [head, ite_eq_left_iff] at h
    have ht : t.isEmptyGroup = true := by
      by_contra ht
      cases h ht
    rw [labels_group, labelsAll_cons, labels_of_isEmptyGroup ht]
    rfl
  | group _ (_ :: _ :: _) _, h => by cases h
  | chord .., h => by cases h

theorem labelsAll_eq_nil_of_headAll : ∀ {ts : List (Sig V)}, headAll ts = none → labelsAll ts = []
  | [], _ => rfl
  | t :: ts, h => by
    rw [headAll, Option.or_eq_none_iff] at h
    rw [labelsAll_cons, labels_eq_nil_of_head h.1, labelsAll_eq_nil_of_headAll h.2]
    rfl

end

theorem headAll_append (ts us : List (Sig V)) :
    headAll (ts ++ us) = (headAll ts).or (headAll us) := by
  induction ts with
  | nil => rfl
  | cons t ts ih => rw [List.cons_append, headAll, headAll, ih, Option.or_assoc]

end Sig

/-- The first loop of `prepare_steps` brings the head of the chain to the front. -/
theorem head?_normaliseHead {n : ℕ} {ts : List (Sig V)} {u : Sig V} (hn : weightAll ts ≤ n)
    (hu : headAll ts = some u) : (normaliseHead false n ts).head? = some u := by
  induction n generalizing ts with
  | zero =>
    cases ts with
    | nil => cases hu
    | cons t ts =>
      have := t.weight_pos
      rw [weightAll] at hn
      omega
  | succ n ih =>
    match ts with
    | [] => cases hu
    | .task .. :: st => exact hu
    | .chord .. :: st => exact hu
    | .chain ts f :: st =>
      rw [weightAll, weight] at hn
      rw [normaliseHead]
      refine ih (by rw [if_neg Bool.false_ne_true, weightAll_append]; omega) ?_
      rw [if_neg Bool.false_ne_true, headAll_append]
      exact hu
    | .group l ts f :: st =>
      rw [weightAll] at hn
      have hpos := (Sig.group l ts f).weight_pos
      -- what follows an empty group is the chain
      have hstrip : headAll st = some u →
          st.isEmpty = false ∧ (normaliseHead false n st).head? = some u := by
        intro hst
        refine ⟨?_, ih (by omega) hst⟩
        cases st with
        | nil => cases hst
        | cons => rfl
      rw [normaliseHead]
      rcases ts with _ | ⟨t, _ | ⟨t', ts⟩⟩
      · obtain ⟨hne, hhead⟩ := hstrip hu
        simpa [maybeUnrollGroup, isEmptyGroup, hne] using hhead
      · rw [headAll, head] at hu
        split_ifs at hu with ht
        · obtain ⟨hne, hhead⟩ := hstrip hu
          simpa [maybeUnrollGroup, ht, hne] using hhead
        · simpa [maybeUnrollGroup, ht] using hu
      · simpa [maybeUnrollGroup, isEmptyGroup, headAll, head] using hu

/-- The signature that the second loop pops last. -/
theorem exists_normaliseHead_eq (clone : Bool) {ts : List (Sig V)} {u : Sig V}
    (hu : headAll ts = some u) :
    ∃ h st, normaliseHead clone (weightAll ts) ts = h :: st ∧ h.shape = u.shape := by
  have hhead : headAll (shapeAll ts) = some u.shape := by rw [headAll_shapeAll, hu]; rfl
  have hn := head?_normaliseHead (n := weightAll ts) (by rw [weightAll_shapeAll]) hhead
  rw [shapeAll_eq_map, ← normaliseHead_shape clone] at hn
  cases hst : normaliseHead clone (weightAll ts) ts with
  | nil =>
    rw [hst] at hn
    cases hn
  | cons h st =>
    rw [hst] at hn
    exact ⟨h, st, rfl, Option.some.inj hn⟩

theorem receivesFirst_normaliseHead (clone : Bool) {ts : List (Sig V)} {u : Sig V}
    (hu : headAll ts = some u) :
    receivesFirst (normaliseHead clone (weightAll ts) ts) = u.receives := by
  obtain ⟨h, st, hst, hshape⟩ := exists_normaliseHead_eq clone hu
  rw [hst, receivesFirst, ← receives_shape, hshape, receives_shape]

/-! ### What is to be delivered -/

section Deliver

variable {args : List V} {kwargs : List (String × V)}

mutual

/-- Partial arguments change no name. -/
theorem names_deliver : ∀ s : Sig V, names (deliver args kwargs s) = names s.labels
  | .task .. => rfl
  | .chain ts _ => by rw [deliver, labels_chain, names_deliverFirst ts]
  | .group _ ts _ => by rw [deliver, labels_group, names_deliverEach ts]
  | .chord _ h _ b _ => by
    rw [deliver, labels_chord, names_append, names_append, names_deliverEach h]

theorem names_deliverEach : ∀ ts : List (Sig V),
    names (deliverEach args kwargs ts) = names (labelsAll ts)
  | [] => rfl
  | t :: ts => by
    rw [deliverEach, labelsAll_cons, names_append, names_append, names_deliver t,
      names_deliverEach ts]

theorem names_deliverFirst : ∀ ts : List (Sig V),
    names (deliverFirst args kwargs ts) = names (labelsAll ts)
  | [] => rfl
  | t :: ts => by
    rw [deliverFirst, labelsAll_cons, names_append]
    split_ifs with ht
    · rw [List.isEmpty_iff.1 ht, names_deliverFirst ts]
      rfl
    · rw [names_append, names_deliver t]

end

/-- A step with a task in front gives way to nothing before it. -/
theorem deliverFirst_cons_of_ne_nil {t : Sig V} (ht : t.labels ≠ []) (ts : List (Sig V)) :
    deliverFirst args kwargs (t :: ts) = deliver args kwargs t ++ labelsAll ts := by
  rw [deliverFirst, if_neg (by rwa [List.isEmpty_iff])]

/-- A step that receives the partial arguments hands them to its first task. -/
theorem deliver_of_receives : ∀ {s : Sig V}, s.receives = true →
    deliver args kwargs s = s.labels.modifyHead (Label.merge args kwargs)
  | .task .., _ => rfl
  | .chain (t :: ts) _, h => by
    have ht : t.receives = true := h
    have hne := labels_ne_nil_of_receives ht
    rw [deliver, labels_chain, deliverFirst_cons_of_ne_nil hne, labelsAll_cons,
      modifyHead_append _ hne, deliver_of_receives ht]
  | .chain [] _, h => by cases h
  | .group _ [] _, h => by cases h
  | .group _ [t] _, h => by
    rw [receives, receivesOnly, Bool.and_eq_true] at h
    rw [deliver, deliverEach, deliverEach, labels_group, labelsAll_cons, labelsAll_nil,
      List.append_nil, List.append_nil, deliver_of_receives h.2]
  | .group _ (_ :: _ :: _) _, h => by cases h
  | .chord .., h => by cases h

mutual

theorem deliver_of_head : ∀ {s u : Sig V}, s.head = some u → u.receives = true →
    s.labels ≠ [] ∧ deliver args kwargs s = s.labels.modifyHead (Label.merge args kwargs)
  | .task .., _, _, _ => ⟨by simp, rfl⟩
  | .chain ts _, _, hu, h => by
    rw [head] at hu
    exact deliverFirst_of_headAll hu h
  | .group _ [] _, _, hu, _ => by cases hu
  | .group _ [t] _, u, hu, h => by
    rw [head] at hu
    split_ifs at hu
    cases hu
    rw [deliver, deliverEach, deliverEach, labels_group, labelsAll_cons, labelsAll_nil,
      List.append_nil, List.append_nil]
    exact ⟨labels_ne_nil_of_receives h, deliver_of_receives h⟩
  | .group l (t :: t' :: ts) f, u, hu, h => by
    cases hu
    cases h
  | .chord .., u, hu, h => by
    cases hu
    cases h

/-- **If the head of a chain receives the partial arguments**, they are for its first
task. -/
theorem deliverFirst_of_headAll : ∀ {ts : List (Sig V)} {u : Sig V}, headAll ts = some u →
    u.receives = true → labelsAll ts ≠ [] ∧
      deliverFirst args kwargs ts = (labelsAll ts).modifyHead (Label.merge args kwargs)
  | [], _, hu, _ => by cases hu
  | t :: ts, u, hu, h => by
    rw [headAll] at hu
    rw [labelsAll_cons]
    cases ht : t.head with
    | none =>
      rw [ht, Option.none_or] at hu
      rw [deliverFirst, labels_eq_nil_of_head ht]
      exact deliverFirst_of_headAll hu h
    | some v =>
      rw [ht, Option.some_or] at hu
      cases hu
      obtain ⟨hne, hd⟩ := deliver_of_head ht h
      refine ⟨List.append_ne_nil_of_left_ne_nil hne _, ?_⟩
      rw [deliverFirst_cons_of_ne_nil hne, modifyHead_append _ hne, hd]

end

end Deliver

/-! ### Keyword arguments called `tasks` -/

theorem areMutable_eq_true_iff {ts : List (Sig V)} :
    areMutable ts = true ↔ ∀ t ∈ ts, t.isMutable = true :=
  forall_of_cons rfl fun _ _ => rfl

mutual

theorem isMutable_clone : ∀ {s : Sig V}, s.isMutable = true → s.clone.isMutable = true
  | .task .., h => h
  | .chain ts _, h => by
    rw [isMutable, Bool.and_eq_true] at h
    rw [clone, isMutable, areMutable_cloneAll h.2]
    rfl
  | .group _ ts _, h => by
    rw [isMutable, Bool.and_eq_true] at h
    rw [clone, isMutable, h.2]
    rfl
  | .chord _ _ (some _) b _, h => by
    rw [isMutable, Bool.and_eq_true, Bool.and_eq_true] at h
    rw [clone, isMutable, h.1.1, h.1.2, isMutable_clone h.2]
    rfl
  | .chord _ _ none b _, h => by
    rw [isMutable, Bool.and_eq_true, Bool.and_eq_true] at h
    rw [clone, isMutable, h.1.1, areMutable_cloneAll h.1.2, isMutable_clone h.2]
    rfl

theorem areMutable_cloneAll : ∀ {ts : List (Sig V)}, areMutable ts = true →
    areMutable (cloneAll ts) = true
  | [], h => h
  | t :: ts, h => by
    rw [areMutable, Bool.and_eq_true] at h
    rw [cloneAll, areMutable, isMutable_clone h.1, areMutable_cloneAll h.2]
    rfl

end

theorem Fields.merge_immutable (args : List V) (kwargs : List (String × V))
    (f : Fields V (Sig V)) : (f.merge args kwargs).immutable = f.immutable := by
  unfold Fields.merge
  split_ifs <;> rfl

theorem hereditary_isMutable : Hereditary fun s : Sig V => s.isMutable = true where
  unroll s h := by
    unfold maybeUnrollGroup
    split
    · rw [isMutable, areMutable, Bool.and_eq_true, Bool.and_eq_true] at h
      exact h.2.1
    · exact h
  splice ts f h := by
    rw [isMutable, Bool.and_eq_true] at h
    exact areMutable_eq_true_iff.1 h.2
  clone s h := isMutable_clone h
  receiveArgs args kwargs s h := by
    cases s with
    | task n f =>
      rw [receiveArgs, isMutable, Fields.merge_immutable]
      exact h
    | chord l hd hg b f =>
      rw [receiveArgs, isMutable, Fields.merge_immutable]
      exact h
    | _ => exact h
  prependArgs args s h := by
    cases s <;> exact h

/-- The step popped last is the one on top if there is no other. -/
theorem mem_getLast?_cons {s u : Sig V} {st : List (Sig V)} :
    u ∈ (s :: st).getLast? ↔ (st = [] ∧ u = s) ∨ u ∈ st.getLast? := by
  cases st with
  | nil => simp [eq_comm]
  | cons v st => simp [List.getLast?_cons_cons]

section Accepts

variable {c : Prepare V}

/-- A clone with a keyword argument `tasks` is one of a task. -/
theorem isTask_of_receive (hc : c.clone = true) (hk : dictHas c.kwargs "tasks" = true)
    {s t : Sig V} (h : c.receive true s = .ok t) (hplain : s.plain = true)
    (hmut : s.isMutable = true) : s.isTask = true := by
  unfold Prepare.receive cloneWith at h
  rw [hc] at h
  split_ifs at h with hclob
  cases s with
  | task => rfl
  | chord => cases hplain
  | chain ts f =>
    rw [isMutable, Bool.and_eq_true] at hmut
    simp [clobbered, hk, hmut.1] at hclob
  | group l ts f =>
    rw [isMutable, Bool.and_eq_true] at hmut
    simp [clobbered, hk, hmut.1] at hclob

/-- With a keyword argument `tasks` the loop ends with a task or skips an empty
group. -/
theorem Takes.isTask_or_isEmptyGroup (hc : c.clone = true)
    (hk : dictHas c.kwargs "tasks" = true) {prev : Bool} {st l : List (Sig V)}
    (h : Takes c prev st l) : ∀ s ∈ st.getLast?, s.plain = true → s.isMutable = true →
      s.maybeUnrollGroup.isTask = true ∨ s.maybeUnrollGroup.isEmptyGroup = true := by
  induction h with
  | nil prev => intro s hs; cases hs
  | @skip prev s st l hs h ih =>
    intro u hu hplain hmut
    rcases mem_getLast?_cons.1 hu with ⟨rfl, rfl⟩ | hu
    · rw [skipped, Bool.and_eq_true] at hs
      exact .inr hs.1
    · exact ih u hu hplain hmut
  | @splice prev s ts st l f hs hr h ih =>
    intro u hu hplain hmut
    rcases mem_getLast?_cons.1 hu with ⟨rfl, rfl⟩ | hu
    · exact .inl (isTask_of_receive hc hk hr (hereditary_plain.unroll _ hplain)
        (hereditary_isMutable.unroll _ hmut))
    · refine ih u ?_ hplain hmut
      rw [List.getLast?_append, Option.mem_def.1 hu]
      rfl
  | @take prev s t st l hs hr hch h ih =>
    intro u hu hplain hmut
    rcases mem_getLast?_cons.1 hu with ⟨rfl, rfl⟩ | hu
    · exact .inl (isTask_of_receive hc hk hr (hereditary_plain.unroll _ hplain)
        (hereditary_isMutable.unroll _ hmut))
    · exact ih u hu hplain hmut

theorem exists_receive {first : Bool} {s : Sig V} (hplain : s.plain = true)
    (h : first = true → dictHas c.kwargs "tasks" = false ∨ s.isTask = true) :
    ∃ t, c.receive first s = .ok t := by
  unfold Prepare.receive cloneWith
  cases c.clone with
  | false => cases first <;> exact ⟨_, rfl⟩
  | true =>
    cases first with
    | false => exact ⟨_, rfl⟩
    | true =>
      have hclob : s.clobbered c.kwargs = false := by
        cases s with
        | task => rfl
        | chord => cases hplain
        | chain ts f =>
          rcases h rfl with hk | ht
          · simp [clobbered, hk]
          · cases ht
        | group l ts f =>
          rcases h rfl with hk | ht
          · simp [clobbered, hk]
          · cases ht
      simp [hclob]

/-- A step with a task in it stays true. -/
theorem staysTruthy_of_labels {s : Sig V} (h : s.labels ≠ []) : s.staysTruthy = true := by
  cases s with
  | group l ts f =>
    rw [labels_group] at h
    cases l with
    | true =>
      cases ts with
      | nil => exact absurd rfl h
      | cons => rfl
    | false =>
      rw [staysTruthy]
      by_contra hb
      rw [Bool.not_eq_true, ← flatRev_eq_nil_iff] at hb
      have hperm := labelsAll_flatRev_perm ts
      rw [hb] at hperm
      exact h (List.nil_perm.1 hperm)
  | _ => rfl

/-- The stacks from which the loop raises nothing: no keyword argument is called
`tasks`, or the step popped last is a task.  It may be an empty group, which is
skipped after a step with a task in it. -/
structure Acceptable (c : Prepare V) (prev : Bool) (st : List (Sig V)) : Prop where
  plain : ∀ s ∈ st, s.plain = true
  task : prev = true ∨ labelsAll st.reverse ≠ []
  last : dictHas c.kwargs "tasks" = false ∨ ∀ s ∈ st.getLast?,
    s.maybeUnrollGroup.isTask = true ∨ s.maybeUnrollGroup.isEmptyGroup = true

namespace Acceptable

variable {prev : Bool} {s t : Sig V} {st : List (Sig V)}

theorem unrolled_plain (h : Acceptable c prev (s :: st)) : s.maybeUnrollGroup.plain = true :=
  hereditary_plain.unroll s (h.plain s List.mem_cons_self)

theorem task_cons (h : Acceptable c prev (s :: st)) :
    prev = true ∨ labelsAll st.reverse ++ s.labels ≠ [] := by
  have := h.task
  rwa [List.reverse_cons, labelsAll_append, labelsAll_cons, labelsAll_nil, List.append_nil] at this

theorem last_tail (h : Acceptable c prev (s :: st)) :
    dictHas c.kwargs "tasks" = false ∨ ∀ s ∈ st.getLast?,
      s.maybeUnrollGroup.isTask = true ∨ s.maybeUnrollGroup.isEmptyGroup = true :=
  h.last.imp_right fun h u hu => h u (mem_getLast?_cons.2 (.inr hu))

theorem skip (h : Acceptable c prev (s :: st)) (hs : skipped prev s st = true) :
    Acceptable c prev st := by
  rw [skipped, Bool.and_eq_true] at hs
  have hnil := labels_of_isEmptyGroup hs.1
  rw [labels_maybeUnrollGroup] at hnil
  refine ⟨(List.forall_mem_cons.1 h.plain).2, ?_, h.last_tail⟩
  have := h.task_cons
  rwa [hnil, List.append_nil] at this

theorem receive (h : Acceptable c prev (s :: st)) (hs : skipped prev s st = false) :
    ∃ t, c.receive st.isEmpty s.maybeUnrollGroup = .ok t := by
  refine exists_receive h.unrolled_plain fun hst => h.last.imp_right fun hlast => ?_
  rw [List.isEmpty_iff] at hst
  subst hst
  refine (hlast s (mem_getLast?_cons.2 (.inl ⟨rfl, rfl⟩))).resolve_right fun hempty => ?_
  have hnil := labels_of_isEmptyGroup hempty
  rw [labels_maybeUnrollGroup] at hnil
  rw [skipped, hempty, List.isEmpty_nil, Bool.not_true, Bool.false_or, Bool.true_and] at hs
  have htask := h.task_cons
  rw [hnil, hs] at htask
  simp at htask

theorem splice {ts : List (Sig V)} {f : Fields V (Sig V)} (h : Acceptable c prev (s :: st))
    (hr : c.receive st.isEmpty s.maybeUnrollGroup = .ok (.chain ts f)) :
    Acceptable c prev (ts.reverse ++ st) := by
  have hsh := c.shape_of_receive hr
  have hchain : s.maybeUnrollGroup.isTask = false ∧ s.maybeUnrollGroup.isEmptyGroup = false := by
    cases hu : s.maybeUnrollGroup with
    | chain => exact ⟨rfl, rfl⟩
    | _ =>
      rw [hu] at hsh
      cases hsh
  have hlab : labelsAll ts = s.labels := by
    have := c.labels_of_receive hr h.unrolled_plain
    rw [hchain.1, Bool.and_false, labels_maybeUnrollGroup] at this
    exact this
  constructor
  · intro u hu
    rw [List.mem_append, List.mem_reverse] at hu
    exact hu.elim
      (hereditary_plain.splice ts f (hereditary_plain.of_receive hr h.unrolled_plain) u)
      fun hu => h.plain u (List.mem_cons_of_mem _ hu)
  · rw [List.reverse_append, List.reverse_reverse, labelsAll_append, hlab]
    exact h.task_cons
  · refine h.last.imp_right fun hlast u hu => ?_
    rw [List.getLast?_append] at hu
    cases st with
    | nil =>
      have := hlast s (mem_getLast?_cons.2 (.inl ⟨rfl, rfl⟩))
      rw [hchain.1, hchain.2] at this
      simp at this
    | cons v st =>
      refine hlast u (mem_getLast?_cons.2 (.inr ?_))
      rw [List.getLast?_cons] at hu ⊢
      exact hu

theorem take (h : Acceptable c prev (s :: st))
    (hr : c.receive st.isEmpty s.maybeUnrollGroup = .ok t) :
    Acceptable c (prev || t.staysTruthy) st := by
  refine ⟨(List.forall_mem_cons.1 h.plain).2, ?_, h.last_tail⟩
  by_cases ht : t.labels = []
  · have hnil : s.labels = [] := by
      have := c.labels_of_receive hr h.unrolled_plain
      rw [ht, labels_maybeUnrollGroup, eq_comm] at this
      split_ifs at this
      · exact List.modifyHead_eq_nil_iff.1 this
      · exact this
    have htask := h.task_cons
    rw [hnil, List.append_nil] at htask
    exact htask.imp_left fun hprev => by rw [hprev, Bool.true_or]
  · exact .inl (by rw [staysTruthy_of_labels ht, Bool.or_true])

end Acceptable

/-- **From an acceptable stack every step is taken.** -/
theorem Acceptable.exists_taken {n : ℕ} {prev : Bool} {st : List (Sig V)}
    (h : Acceptable c prev st) (hn : weightAll st ≤ n) : ∃ l, taken c n prev st = .ok l := by
  refine taken_ok (A := Acceptable c) Acceptable.skip (fun h hs => ?_) hn h
  obtain ⟨t, hr⟩ := h.receive hs
  refine ⟨t, hr, ?_, fun _ => h.take hr⟩
  rintro ts f rfl
  exact h.splice hr

theorem isTask_shape (s : Sig V) : s.shape.isTask = s.isTask := by
  cases s <;> rfl

theorem unrolled_of_shape_eq {s t : Sig V} (h : s.shape = t.shape) :
    s.maybeUnrollGroup.isTask = t.maybeUnrollGroup.isTask ∧
      s.maybeUnrollGroup.isEmptyGroup = t.maybeUnrollGroup.isEmptyGroup := by
  rw [← isTask_shape, ← isTask_shape t.maybeUnrollGroup, ← isEmptyGroup_shape,
    ← isEmptyGroup_shape t.maybeUnrollGroup, shape_maybeUnrollGroup, shape_maybeUnrollGroup, h]
  exact ⟨rfl, rfl⟩

theorem exists_headAll {ts : List (Sig V)} (hne : labelsAll ts ≠ []) : ∃ u, headAll ts = some u :=
  Option.ne_none_iff_exists'.1 (mt labelsAll_eq_nil_of_headAll hne)

theorem Accepts.exists_takenSteps {ts : List (Sig V)} (hts : plainAll ts = true)
    (hne : labelsAll ts ≠ []) (h : Accepts c ts) : ∃ l, takenSteps c ts = .ok l := by
  obtain ⟨u, hu⟩ := exists_headAll hne
  obtain ⟨v, st, hst, hshape⟩ := exists_normaliseHead_eq c.clone hu
  refine Acceptable.exists_taken ⟨fun s hs => ?_, .inr ?_, ?_⟩ (by rw [weightAll_reverse])
  · exact hereditary_plain.of_normaliseHead _ _ (plainAll_eq_true_iff.1 hts) s
      (List.mem_reverse.1 hs)
  · rw [List.reverse_reverse, labelsAll, leavesAll_normaliseHead]
    exact hne
  · refine h.imp_right ?_
    rintro ⟨s, hs, hunroll⟩ w hw
    rw [hu] at hs
    cases hs
    rw [hst, List.getLast?_reverse] at hw
    cases hw
    rwa [(unrolled_of_shape_eq hshape).1, (unrolled_of_shape_eq hshape).2]

theorem accepts_of_takenSteps (hc : c.clone = true) {ts l : List (Sig V)}
    (hts : plainAll ts = true) (hmut : areMutable ts = true) (hne : labelsAll ts ≠ [])
    (hl : takenSteps c ts = .ok l) : Accepts c ts := by
  obtain ⟨u, hu⟩ := exists_headAll hne
  obtain ⟨v, st, hst, hshape⟩ := exists_normaliseHead_eq c.clone hu
  cases hk : dictHas c.kwargs "tasks" with
  | false => exact .inl hk
  | true =>
    have hv : v ∈ normaliseHead c.clone (weightAll ts) ts := by rw [hst]; exact List.mem_cons_self
    refine .inr ⟨u, hu, ?_⟩
    rw [← (unrolled_of_shape_eq hshape).1, ← (unrolled_of_shape_eq hshape).2]
    refine (takes_of_taken hl).isTask_or_isEmptyGroup hc hk v (by rw [hst, List.getLast?_reverse]; rfl)
      (hereditary_plain.of_normaliseHead _ _ (plainAll_eq_true_iff.1 hts) v hv)
      (hereditary_isMutable.of_normaliseHead _ _ (areMutable_eq_true_iff.1 hmut) v hv)

end Accepts

/-! ### Steps without empty members -/

theorem compacts_shape (s : Sig V) : s.shape.compacts = s.compacts := by
  cases s with
  | group l ts f =>
    rw [shape, compacts, compacts, silentAll_shapeAll, memberList_shapeAll, List.length_map]
  | _ => rfl

/-- As many members are left of a group as there are on its worklist. -/
theorem Members.compact_eq {p : FreezeArgs V} {l : Bool} {ts ts' : List (Sig V)}
    (hm : Members LabelRel p l ts ts') (h : plainAll ts = true) :
    (!(labelsAll ts').isEmpty && ts'.length != 1) =
      (!silentAll ts && (memberList l ts).length != 1) := by
  have hperm := ((hm.settlesAll h).settles_group h {}).perm
  rw [labels_group] at hperm
  have hempty : (labelsAll ts').isEmpty = silentAll ts := by
    rw [Bool.eq_iff_iff, List.isEmpty_iff, ← labelsAll_eq_nil_iff h]
    constructor
    · intro hnil
      rw [hnil] at hperm
      exact List.nil_perm.1 hperm
    · intro hnil
      rw [hnil] at hperm
      exact List.perm_nil.1 hperm
  rw [hempty, hm.length_eq]

/-- What is frozen to a compact step. -/
def StepRel (p : FreezeArgs V) (s s' : Sig V) : Prop :=
  LabelRel p s s' ∧
    (s.plain = true → s.isChain = false → s'.reached = [s'] ∧ s'.compact = s.compacts)

theorem freezeRule_stepRel : FreezeRule (StepRel (V := V)) where
  task p n f tid oid := ⟨freezeRule_labelRel.task p n f tid oid, fun _ _ => ⟨rfl, rfl⟩⟩
  group p l ts f ts' gid hm :=
    have hm := hm.imp fun _ _ _ h => h.1
    ⟨freezeRule_labelRel.group p l ts f ts' gid hm, fun hplain _ => ⟨rfl, hm.compact_eq hplain⟩⟩
  chord p l h hg b f b' s' hb hh :=
    ⟨freezeRule_labelRel.chord p l h hg b f b' s' hb.1 (hh.imp fun _ _ _ h => h.1),
      fun hplain _ => by cases hplain⟩
  chain p ts f l steps tid hl hne hf :=
    ⟨freezeRule_labelRel.chain p ts f l steps tid hl hne (hf.imp fun _ _ _ h => h.1),
      fun _ hch => by cases hch⟩

/-- **The prepared steps are compact if the steps taken are.** -/
theorem Folded.compact_iff {c : Prepare V} {l prevs steps : List (Sig V)}
    (hf : Folded StepRel c l prevs steps)
    (hl : ∀ t ∈ l, t.plain = true ∧ t.isChain = false) :
    (∀ s ∈ steps.flatMap reached, s.compact = true) ↔
      (∀ t ∈ l, t.compacts = true) ∧ ∀ s ∈ prevs.flatMap reached, s.compact = true := by
  -- a step frozen in front of those prepared
  have hstep : ∀ {p t t'} {ts prevs : List (Sig V)}, StepRel p t t' →
      t.plain = true ∧ t.isChain = false →
      ((∀ u ∈ ts, u.compacts = true) ∧
          (∀ s ∈ (t' :: prevs).flatMap reached, s.compact = true) ↔
        (∀ u ∈ t :: ts, u.compacts = true) ∧ ∀ s ∈ prevs.flatMap reached, s.compact = true) := by
    intro p t t' ts prevs ht hplain
    obtain ⟨hreached, hcompact⟩ := ht.2 hplain.1 hplain.2
    rw [List.flatMap_cons, hreached, List.singleton_append, List.forall_mem_cons,
      List.forall_mem_cons, hcompact]
    tauto
  induction hf with
  | nil steps => simp
  | last ht _ ih =>
    obtain ⟨hhead, hl⟩ := List.forall_mem_cons.1 hl
    exact (ih hl).trans (hstep ht hhead)
  | upgrade _ hh _ ih =>
    obtain ⟨hhead, hl⟩ := List.forall_mem_cons.1 hl
    obtain ⟨h', gid, hm, rfl⟩ := hh
    have hcompact := (hm.imp fun _ _ _ h => h.1).compact_eq hhead.1
    refine (ih hl).trans ?_
    rw [List.flatMap_cons, reached, List.cons_append, List.forall_mem_cons, ← List.flatMap_cons,
      List.forall_mem_cons, compact, hcompact, compacts]
    tauto
  | step _ ht _ ih =>
    obtain ⟨hhead, hl⟩ := List.forall_mem_cons.1 hl
    exact (ih hl).trans (hstep ht hhead)

/-! ### The chains that are delivered to -/

section Delivers

variable {c : Prepare V} {ts l steps : List (Sig V)}

theorem survivors_compacts_iff (hl : takenSteps c ts = .ok l) :
    (∀ t ∈ survivors (shapeAll ts), t.compacts = true) ↔ ∀ t ∈ l, t.compacts = true := by
  rw [survivors_of_takenSteps hl, List.forall_mem_map]
  simp only [compacts_shape]

theorem Folded.compact_iff_of_takenSteps (hl : takenSteps c ts = .ok l)
    (hts : plainAll ts = true) (hf : Folded StepRel c l [] steps) :
    (∀ s ∈ steps.flatMap reached, s.compact = true) ↔
      ∀ t ∈ survivors (shapeAll ts), t.compacts = true := by
  rw [survivors_compacts_iff hl, hf.compact_iff fun t ht =>
    ⟨(bare_of_mem_takenSteps hl hts t ht).1, (takes_of_taken hl).isChain_eq_false t ht⟩]
  simp

/-- The labels of the steps taken are those to be delivered exactly if the head of
the chain receives the arguments, where they make a difference. -/
theorem takenSteps_labels_eq_deliverFirst_iff (hc : c.clone = true)
    (hl : takenSteps c ts = .ok l) (hts : plainAll ts = true) (hne : labelsAll ts ≠ []) :
    labelsAll l.reverse = deliverFirst c.args c.kwargs ts ↔
      (headAll ts).any receives = true ∨ deliverFirst c.args c.kwargs ts = labelsAll ts := by
  obtain ⟨u, hu⟩ := exists_headAll hne
  have hgiven : c.given = Label.merge c.args c.kwargs := by rw [Prepare.given, hc]; rfl
  rw [takenSteps_labels hl hts, receivesFirst_normaliseHead c.clone hu, hgiven, hu, Option.any_some]
  cases hr : u.receives with
  | true =>
    rw [if_pos rfl]
    exact iff_of_true (deliverFirst_of_headAll hu hr).2.symm (.inl rfl)
  | false =>
    rw [if_neg Bool.false_ne_true, eq_comm]
    simp

theorem names_takenSteps (hl : takenSteps c ts = .ok l) (hts : plainAll ts = true) :
    names (labelsAll l.reverse) = names (labelsAll ts) := by
  rw [takenSteps_labels hl hts]
  split_ifs
  · exact names_modifyHead (g := c.given) (fun _ => rfl) _
  · rfl

theorem ordered_reverse_iff (hl : takenSteps c ts = .ok l) :
    Ordered (.chain (shapeAll ts) {}) ↔ ∀ t ∈ l.reverse, Ordered t.shape := by
  rw [ordered_chain_iff hl]
  simp

theorem Deliverable.delivered (hc : c.clone = true) (hts : plainAll ts = true)
    (hne : labelsAll ts ≠ []) (hl : takenSteps c ts = .ok l) (hf : Folded StepRel c l [] steps)
    (h : Deliverable c ts) : Delivered c ts steps := by
  obtain ⟨xs, hxs, hsteps⟩ := (hf.imp fun _ _ _ h => h.1).settlesAll (bare_of_mem_takenSteps hl hts)
  refine ⟨?_, (hf.compact_iff_of_takenSteps hl hts).2 h.compacts⟩
  calc labelsAll steps = xs := by rw [hsteps, labelsAll_nil, List.append_nil]
    _ = labelsAll l.reverse := hxs.eq ((ordered_reverse_iff hl).1 h.ordered)
    _ = deliverFirst c.args c.kwargs ts :=
      (takenSteps_labels_eq_deliverFirst_iff hc hl hts hne).2 h.receives

/-- If the names tell the tasks apart, the order of the steps tells how they came
about. -/
theorem Delivered.deliverable (hc : c.clone = true) (hts : plainAll ts = true)
    (hne : labelsAll ts ≠ []) (hnd : (names (labelsAll ts)).Nodup) (hacc : Accepts c ts)
    (hl : takenSteps c ts = .ok l) (hall : ∀ t ∈ l, Freezes t.shape)
    (hf : Folded StepRel c l [] steps) (h : Delivered c ts steps) : Deliverable c ts := by
  obtain ⟨xs, hxs, hsteps⟩ := (hf.imp fun _ _ _ h => h.1).settlesAll (bare_of_mem_takenSteps hl hts)
  rw [labelsAll_nil, List.append_nil] at hsteps
  have hnames := names_takenSteps hl hts
  have hord : ∀ t ∈ l.reverse, Ordered t.shape := by
    refine hxs.ordered (by rwa [hnames]) ?_
    rw [← hsteps, h.labels, names_deliverFirst, hnames]
  have hlne : l ≠ [] := by
    rintro rfl
    rw [List.reverse_nil, labelsAll_nil, eq_comm, names, names, List.map_nil,
      List.map_eq_nil_iff] at hnames
    exact hne hnames
  refine ⟨hacc, (freezes_chain_iff hl).2 ⟨hall, hlne⟩, (ordered_reverse_iff hl).2 hord,
    (hf.compact_iff_of_takenSteps hl hts).1 h.compact, ?_⟩
  rw [← takenSteps_labels_eq_deliverFirst_iff hc hl hts hne, ← hxs.eq hord, ← hsteps]
  exact h.labels

end Delivers

/-- **`prepare_steps` delivers partial arguments** to every deliverable chain of
mutable tasks, and where the names tell the tasks apart and no chain or group is
immutable, to no other. -/
theorem prepareChain_delivers (c : Prepare V) (ts : List (Sig V)) (app : App)
    (hc : c.clone = true) (hts : plainAll ts = true) (hne : labelsAll ts ≠ []) :
    (Deliverable c ts → Delivers c ts app) ∧
      ((names (labelsAll ts)).Nodup → areMutable ts = true →
        (Delivers c ts app ↔ Deliverable c ts)) := by
  have hsuff : Deliverable c ts → Delivers c ts app := by
    intro h
    obtain ⟨l, hl⟩ := h.accepts.exists_takenSteps hts hne
    have hall := ((freezes_chain_iff hl).1 h.freezes).1
    obtain ⟨steps, app', hok, hf⟩ := (prepareChain_gives freezeRule_stepRel hl).gives hall app
    exact ⟨steps, app', hok, h.delivered hc hts hne hl hf⟩
  refine ⟨hsuff, fun hnd hmut => ⟨?_, hsuff⟩⟩
  rintro ⟨steps, app', hok, hd⟩
  obtain ⟨l, hl, hall, hf⟩ := folded_of_prepareChain freezeRule_stepRel hok
  exact hd.deliverable hc hts hne hnd (accepts_of_takenSteps hc hts hmut hne hl) hl hall hf

/-- `chain(chain(group(), add.s(4)), group(mul.s(), neg.s()), tsum.s())`. -/
def leadingEmptyGroup : List (Sig ℕ) :=
  [.chain [.group false [] {}, .task "add" { args := [4] }] {},
    .group false [.task "mul" {}, .task "neg" {}] {}, .task "tsum" {}]

/-- The partial argument passes the empty group and reaches `add`. -/
theorem leadingEmptyGroup_delivers :
    plainAll leadingEmptyGroup = true ∧ labelsAll leadingEmptyGroup ≠ [] ∧
      (names (labelsAll leadingEmptyGroup)).Nodup ∧ areMutable leadingEmptyGroup = true ∧
      Delivers { args := [2] } leadingEmptyGroup ⟨0, 1⟩ := by
  have hplain : plainAll leadingEmptyGroup = true := rfl
  have hne : labelsAll leadingEmptyGroup ≠ [] := by decide
  have hnd : (names (labelsAll leadingEmptyGroup)).Nodup := by decide
  have hmut : areMutable leadingEmptyGroup = true := rfl
  refine ⟨hplain, hne, hnd, hmut,
    ((prepareChain_delivers _ _ _ rfl hplain hne).2 hnd hmut).2 ⟨.inl rfl, ?_, ?_, ?_, .inl rfl⟩⟩
  · refine .chain _ _ (by decide) fun t ht => ?_
    fin_cases ht
    · exact .task _ _
    · refine .group _ _ _ fun t ht _ => ?_
      fin_cases ht <;> exact .task _ _
    · exact .task _ _
  · refine .chain _ _ fun t ht => ?_
    fin_cases ht
    · exact .task _ _
    · refine .group _ _ _ (fun _ t ht => ?_) fun t ht => ?_
      · fin_cases ht <;> rfl
      · fin_cases ht <;> exact .task _ _
    · exact .task _ _
  · intro t ht
    fin_cases ht <;> rfl

/-- `chain(group(add.s(), mul.s()), tsum.s())`. -/
def leadingGroup : List (Sig ℕ) :=
  [.group false [.task "add" {}, .task "mul" {}] {}, .task "tsum" {}]

/-- The leading group is cloned with the partial argument, `from_dict` drops it, and
neither member gets it. -/
theorem leadingGroup_not_delivers : ¬ Delivers { args := [2] } leadingGroup ⟨0, 1⟩ := by
  rintro ⟨steps, app', hok, hd⟩
  cases hok
  exact absurd hd.labels (by decide)

end Canvas
end Celery
