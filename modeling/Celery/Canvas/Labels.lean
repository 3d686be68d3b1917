/-
# The tasks of a chain and their arguments

What a task is run with is its `Label`: its name, its arguments and its keyword
arguments.  The labels of a signature stand in the order of its leaves, from left
to right.  The steps that `prepare_steps` takes have the labels of the tasks it
was given, in the same order, and only the first label may change: the step that
is popped last is cloned with the partial arguments, and `receives` says whether a
task is there to take them (`takenSteps_labels`).

Chains and groups of mutable tasks, and nothing else, are `plain`.
-/

import Celery.Canvas.Steps

namespace Celery
namespace Canvas

variable {V : Type}

/-- What a task is run with. -/
structure Label (V : Type) where
  name : String
  args : List V
  kwargs : List (String × V)
  deriving DecidableEq

/-- Partial arguments: `args` are prepended, `kwargs` are merged. -/
def Label.merge (args : List V) (kwargs : List (String × V)) (x : Label V) : Label V :=
  { x with args := args ++ x.args, kwargs := dictUpdate x.kwargs kwargs }

@[simp] theorem Label.merge_name (args : List V) (kwargs : List (String × V)) (x : Label V) :
    (x.merge args kwargs).name = x.name := rfl

@[simp] theorem Label.merge_nil (x : Label V) : x.merge [] [] = x := rfl

/-- The names of the tasks. -/
def names (xs : List (Label V)) : List String := xs.map Label.name

@[simp] theorem names_append (xs ys : List (Label V)) : names (xs ++ ys) = names xs ++ names ys :=
  List.map_append

@[simp] theorem length_names (xs : List (Label V)) : (names xs).length = xs.length :=
  List.length_map _

theorem modifyHead_append {α : Type} (g : α → α) {xs : List α} (hxs : xs ≠ []) (ys : List α) :
    (xs ++ ys).modifyHead g = xs.modifyHead g ++ ys := by
  obtain ⟨x, xs, rfl⟩ := List.exists_cons_of_ne_nil hxs
  rfl

theorem names_modifyHead {g : Label V → Label V} (hg : ∀ x, (g x).name = x.name)
    (xs : List (Label V)) : names (xs.modifyHead g) = names xs := by
  cases xs with
  | nil => rfl
  | cons x xs => simp [names, hg]

namespace Sig

/-- `sig.task`. -/
def name : Sig V → String
  | task n _ => n
  | chain .. => "celery.chain"
  | group .. => "celery.group"
  | chord .. => "celery.chord"

def label (s : Sig V) : Label V := ⟨s.name, s.fields.args, s.fields.kwargs⟩

/-- The labels of the tasks in a signature, from left to right. -/
def labels (s : Sig V) : List (Label V) := s.leaves.map label

/-- The labels of the tasks of a chain or a group. -/
def labelsAll (ts : List (Sig V)) : List (Label V) := (leavesAll ts).map label

@[simp] theorem labels_task (n : String) (f : Fields V (Sig V)) :
    (task n f).labels = [⟨n, f.args, f.kwargs⟩] := rfl

@[simp] theorem labels_chain (ts : List (Sig V)) (f : Fields V (Sig V)) :
    (chain ts f).labels = labelsAll ts := rfl

@[simp] theorem labels_group (l : Bool) (ts : List (Sig V)) (f : Fields V (Sig V)) :
    (group l ts f).labels = labelsAll ts := rfl

@[simp] theorem labels_chord (l : Bool) (h : List (Sig V)) (hg : Option (Options V (Sig V)))
    (b : Sig V) (f : Fields V (Sig V)) :
    (chord l h hg b f).labels = labelsAll h ++ b.labels := by
  rw [labels, leaves, List.map_append]
  rfl

@[simp] theorem labelsAll_nil : labelsAll ([] : List (Sig V)) = [] := rfl

@[simp] theorem labelsAll_cons (t : Sig V) (ts : List (Sig V)) :
    labelsAll (t :: ts) = t.labels ++ labelsAll ts := by
  rw [labelsAll, leavesAll, List.map_append]
  rfl

@[simp] theorem labelsAll_append (ts us : List (Sig V)) :
    labelsAll (ts ++ us) = labelsAll ts ++ labelsAll us := by
  induction ts with
  | nil => rfl
  | cons t ts ih => simp [ih]

@[simp] theorem labels_clone (s : Sig V) : s.clone.labels = s.labels := by
  rw [labels, leaves_clone, labels]

@[simp] theorem labelsAll_cloneAll (ts : List (Sig V)) : labelsAll (cloneAll ts) = labelsAll ts := by
  rw [labelsAll, leavesAll_cloneAll, labelsAll]

@[simp] theorem labels_maybeUnrollGroup (s : Sig V) : s.maybeUnrollGroup.labels = s.labels := by
  rw [labels, leaves_maybeUnrollGroup, labels]

theorem labels_of_isEmptyGroup {s : Sig V} (h : s.isEmptyGroup = true) : s.labels = [] := by
  cases s with
  | group l ts f => cases ts with
    | nil => rfl
    | cons t ts => cases h
  | _ => cases h

mutual

/-- Chains and groups of mutable tasks. -/
def plain : Sig V → Bool
  | task _ f => !f.immutable
  | chain ts _ => plainAll ts
  | group _ ts _ => plainAll ts
  | chord .. => false

def plainAll : List (Sig V) → Bool
  | [] => true
  | t :: ts => plain t && plainAll ts

end

theorem plainAll_eq_true_iff {ts : List (Sig V)} :
    plainAll ts = true ↔ ∀ t ∈ ts, plain t = true :=
  forall_of_cons rfl fun _ _ => rfl

mutual

theorem plain_clone : ∀ {s : Sig V}, s.plain = true → s.clone.plain = true
  | task .., h => h
  | chain _ _, h => plainAll_cloneAll h
  | group .., h => h
  | chord .., h => by cases h

theorem plainAll_cloneAll : ∀ {ts : List (Sig V)}, plainAll ts = true →
    plainAll (cloneAll ts) = true
  | [], h => h
  | t :: ts, h => by
    rw [plainAll, Bool.and_eq_true] at h
    rw [cloneAll, plainAll, plain_clone h.1, plainAll_cloneAll h.2]
    rfl

end

theorem Fields.merge_of_mutable {f : Fields V (Sig V)} (h : f.immutable = false) (args : List V)
    (kwargs : List (String × V)) :
    f.merge args kwargs =
      { f with args := args ++ f.args, kwargs := dictUpdate f.kwargs kwargs } := by
  rw [Fields.merge, h]
  rfl

theorem hereditary_plain : Hereditary fun s : Sig V => s.plain = true where
  unroll s h := by
    unfold maybeUnrollGroup
    split
    · rw [plain, plainAll, Bool.and_eq_true] at h
      exact h.1
    · exact h
  splice ts f h := plainAll_eq_true_iff.1 h
  clone s h := plain_clone h
  receiveArgs args kwargs s h := by
    cases s with
    | task n f =>
      have hm : f.immutable = false := by simpa [plain] using h
      rw [receiveArgs, Fields.merge_of_mutable hm]
      exact h
    | _ => exact h
  prependArgs args s h := by
    cases s <;> exact h

mutual

/-- In a plain signature nothing reports exactly if there is no task. -/
theorem labels_eq_nil_iff : ∀ {s : Sig V}, s.plain = true → (s.labels = [] ↔ s.silent = true)
  | task .., _ => by simp [silent]
  | chain ts _, h => by rw [labels_chain, silent]; exact labelsAll_eq_nil_iff h
  | group _ ts _, h => by rw [labels_group, silent]; exact labelsAll_eq_nil_iff h
  | chord .., h => by cases h

theorem labelsAll_eq_nil_iff : ∀ {ts : List (Sig V)}, plainAll ts = true →
    (labelsAll ts = [] ↔ silentAll ts = true)
  | [], _ => by simp [silentAll]
  | t :: ts, h => by
    rw [plainAll, Bool.and_eq_true] at h
    rw [labelsAll_cons, silentAll, List.append_eq_nil_iff, Bool.and_eq_true,
      labels_eq_nil_iff h.1, labelsAll_eq_nil_iff h.2]

end

mutual

/-- Whether a task takes the partial arguments when this signature is the step
popped last.  A group of one is unrolled once, a chain is spliced and its first
member is popped last in turn; any other group and a chain without members lose
the arguments. -/
def receives : Sig V → Bool
  | task .. => true
  | chain ts _ => receivesFirst ts
  | group _ ts _ => receivesOnly ts
  | chord .. => false

def receivesFirst : List (Sig V) → Bool
  | [] => false
  | t :: _ => receives t

def receivesOnly : List (Sig V) → Bool
  | [t] => !t.isGroup && receives t
  | _ => false

end

/-- What is popped last is unrolled first. -/
theorem receives_eq (s : Sig V) :
    s.receives = (!s.maybeUnrollGroup.isGroup && s.maybeUnrollGroup.receives) := by
  cases s with
  | group l ts f =>
    match ts with
    | [] => rfl
    | [t] => rfl
    | _ :: _ :: _ => rfl
  | _ => rfl

theorem receivesFirst_append (ts us : List (Sig V)) :
    receivesFirst (ts ++ us) = if ts.isEmpty then receivesFirst us else receivesFirst ts := by
  cases ts <;> rfl

theorem isGroup_shape (s : Sig V) : s.shape.isGroup = s.isGroup := by
  cases s <;> rfl

mutual

theorem receives_shape : ∀ s : Sig V, s.shape.receives = s.receives
  | task .. => rfl
  | chain ts _ => by rw [shape, receives, receives, receivesFirst_shapeAll ts]
  | group _ ts _ => by rw [shape, receives, receives, receivesOnly_shapeAll ts]
  | chord .. => rfl

theorem receivesFirst_shapeAll : ∀ ts : List (Sig V),
    receivesFirst (shapeAll ts) = receivesFirst ts
  | [] => rfl
  | t :: ts => by rw [shapeAll, receivesFirst, receivesFirst, receives_shape t]

theorem receivesOnly_shapeAll : ∀ ts : List (Sig V), receivesOnly (shapeAll ts) = receivesOnly ts
  | [] => rfl
  | [t] => by
    rw [shapeAll, shapeAll, receivesOnly, receivesOnly, receives_shape t, isGroup_shape]
  | _ :: _ :: _ => rfl

end

mutual

theorem labels_ne_nil_of_receives : ∀ {s : Sig V}, s.receives = true → s.labels ≠ []
  | task .., _ => by simp
  | chain ts _, h => by rw [labels_chain]; exact labels_ne_nil_of_receivesFirst h
  | group _ ts _, h => by rw [labels_group]; exact labels_ne_nil_of_receivesOnly h
  | chord .., h => by cases h

theorem labels_ne_nil_of_receivesFirst : ∀ {ts : List (Sig V)}, receivesFirst ts = true →
    labelsAll ts ≠ []
  | [], h => by cases h
  | t :: ts, h => by
    rw [labelsAll_cons]
    exact List.append_ne_nil_of_left_ne_nil (labels_ne_nil_of_receives (s := t) h) _

theorem labels_ne_nil_of_receivesOnly : ∀ {ts : List (Sig V)}, receivesOnly ts = true →
    labelsAll ts ≠ []
  | [], h => by cases h
  | [t], h => by
    rw [receivesOnly, Bool.and_eq_true] at h
    rw [labelsAll_cons]
    exact List.append_ne_nil_of_left_ne_nil (labels_ne_nil_of_receives h.2) _
  | _ :: _ :: _, h => by cases h

end

end Sig

open Sig

/-- What `prepare_steps` does to the label of a task that is popped last. -/
def Prepare.given (c : Prepare V) : Label V → Label V :=
  Label.merge c.args (if c.clone then c.kwargs else [])

/-- Only a task keeps the arguments it receives. -/
theorem Prepare.labels_of_receive {c : Prepare V} {first : Bool} {s t : Sig V}
    (h : c.receive first s = .ok t) (hs : s.plain = true) :
    t.labels = if first && s.isTask then s.labels.modifyHead c.given else s.labels := by
  unfold Prepare.receive cloneWith at h
  split at h
  case h_1 hc =>
    split_ifs at h
    cases h
    cases s with
    | task n f =>
      have hm : f.immutable = false := by simpa [plain] using hs
      rw [Sig.clone, receiveArgs, Fields.merge_of_mutable hm]
      simp [Prepare.given, hc, isTask, Label.merge]
    | chord => cases hs
    | chain ts f => exact labels_clone (chain ts f)
    | group l ts f => rfl
  case h_2 =>
    cases h
    exact labels_clone s
  case h_3 hc =>
    cases h
    cases s with
    | task n f => simp [Prepare.given, hc, isTask, Label.merge, prependArgs, dictUpdate, withFields,
        fields]
    | chord => cases hs
    | _ => rfl
  case h_4 =>
    cases h
    rfl

/-- **The labels of the steps taken** are those of the stack, but for the first
one, which the partial arguments may reach. -/
theorem Takes.labels_eq {c : Prepare V} {prev : Bool} {st l : List (Sig V)} (h : Takes c prev st l)
    (hst : ∀ s ∈ st, s.plain = true) :
    labelsAll l.reverse =
      if receivesFirst st.reverse then (labelsAll st.reverse).modifyHead c.given
      else labelsAll st.reverse := by
  induction h with
  | nil prev => rfl
  | @skip prev s st l hs h ih =>
    rw [skipped, Bool.and_eq_true] at hs
    have hnil : s.labels = [] := by
      rw [← labels_maybeUnrollGroup]
      exact labels_of_isEmptyGroup hs.1
    rw [ih (List.forall_mem_cons.1 hst).2, List.reverse_cons, receivesFirst_append]
    cases st with
    | nil => simp [hnil]
    | cons u st => simp [hnil]
  | @splice prev s ts st l f hs hr h ih =>
    obtain ⟨hs, hst⟩ := List.forall_mem_cons.1 hst
    have hplain := hereditary_plain.unroll s hs
    have hch := c.shape_of_receive hr
    have hlab := c.labels_of_receive hr hplain
    have hts := hereditary_plain.splice ts f (hereditary_plain.of_receive hr hplain)
    rw [ih fun t ht => (List.mem_append.1 ht).elim (fun ht => hts t (List.mem_reverse.1 ht)) (hst t)]
    rw [List.reverse_append, List.reverse_reverse, List.reverse_cons, receivesFirst_append,
      receivesFirst_append]
    cases hu : s.maybeUnrollGroup with
    | chain us g =>
      have hrec : s.receives = receivesFirst ts := by
        rw [receives_eq, hu, ← receives_shape, ← hu, ← hch, receives_shape, hu]
        rfl
      rw [hu] at hlab
      have hlab : labelsAll ts = s.labels := by
        rw [← labels_maybeUnrollGroup, hu, ← labels_chain ts f, hlab]
        simp [isTask]
      simp [hlab, receivesFirst, hrec]
    | _ =>
      rw [hu] at hch
      cases hch
  | @take prev s t st l hs hr hch h ih =>
    obtain ⟨hs, hst⟩ := List.forall_mem_cons.1 hst
    have hlab := c.labels_of_receive hr (hereditary_plain.unroll s hs)
    rw [labels_maybeUnrollGroup] at hlab
    rw [List.reverse_cons, List.reverse_cons, labelsAll_append, labelsAll_append, ih hst,
      receivesFirst_append]
    cases st with
    | nil =>
      have hrec : s.receives = s.maybeUnrollGroup.isTask := by
        rw [receives_eq]
        have hsh := c.shape_of_receive hr
        cases hu : s.maybeUnrollGroup with
        | chain us g =>
          rw [hu] at hsh
          cases t with
          | chain => cases hch
          | _ => cases hsh
        | _ => rfl
      simp [hlab, receivesFirst, hrec]
    | cons u st =>
      simp only [List.isEmpty_cons, Bool.false_and, Bool.false_eq_true, if_false] at hlab
      have hne : (u :: st).reverse.isEmpty = false := by simp
      simp only [hne, Bool.false_eq_true, if_false, labelsAll_cons, labelsAll_nil, List.append_nil,
        hlab]
      split_ifs with hrec
      · rw [modifyHead_append _ (labels_ne_nil_of_receivesFirst hrec)]
      · rfl

theorem leavesAll_normaliseHead (clone : Bool) (n : ℕ) (ts : List (Sig V)) :
    leavesAll (normaliseHead clone n ts) = leavesAll ts := by
  induction n generalizing ts with
  | zero => rfl
  | succ n ih =>
    match ts with
    | [] => rfl
    | .task .. :: st => rfl
    | .chord .. :: st => rfl
    | .chain ts f :: st =>
      have hc : leavesAll (if clone then cloneAll ts else ts) = leavesAll ts := by
        cases clone with
        | false => rfl
        | true => rw [if_pos rfl, leavesAll_cloneAll]
      rw [normaliseHead, ih, leavesAll_eq_flatMap, List.flatMap_append, ← leavesAll_eq_flatMap,
        ← leavesAll_eq_flatMap, hc, leavesAll, leaves]
    | .group l ts f :: st =>
      have hun := leaves_maybeUnrollGroup (.group l ts f)
      rw [normaliseHead]
      split_ifs with hstrip
      · rw [Bool.and_eq_true] at hstrip
        have hnil := labels_of_isEmptyGroup hstrip.2
        rw [labels, List.map_eq_nil_iff] at hnil
        rw [ih, leavesAll, ← hun, hnil, List.nil_append]
      · rw [leavesAll, leavesAll, hun]

/-- **The labels of the steps that `prepare_steps` takes.** -/
theorem takenSteps_labels {c : Prepare V} {ts l : List (Sig V)} (h : takenSteps c ts = .ok l)
    (hts : plainAll ts = true) :
    labelsAll l.reverse =
      if receivesFirst (normaliseHead c.clone (weightAll ts) ts) then
        (labelsAll ts).modifyHead c.given
      else labelsAll ts := by
  have hlab : labelsAll (normaliseHead c.clone (weightAll ts) ts) = labelsAll ts := by
    rw [labelsAll, leavesAll_normaliseHead, labelsAll]
  have := (takes_of_taken h).labels_eq fun s hs => hereditary_plain.of_normaliseHead _ _
    (plainAll_eq_true_iff.1 hts) s (List.mem_reverse.1 hs)
  rwa [List.reverse_reverse, hlab] at this

/-- Where there is nothing to receive, the labels stay. -/
theorem takenSteps_labels_eq {c : Prepare V} {ts l : List (Sig V)} (h : takenSteps c ts = .ok l)
    (hts : plainAll ts = true) (hc : c.clone = false) (hargs : c.args = []) :
    labelsAll l.reverse = labelsAll ts := by
  have hid : c.given = id := by
    funext x
    simp [Prepare.given, hc, hargs]
  rw [takenSteps_labels h hts, hid, List.modifyHead_id]
  exact ite_self _

end Canvas
end Celery
