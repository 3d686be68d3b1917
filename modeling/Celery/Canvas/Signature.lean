/-
# `celery/canvas.py`: signatures

A signature is a tree: a task, a chain or a group of signatures, or a chord, a
header of signatures with a body.  Every node is the dict
`{task, args, kwargs, options, subtask_type, immutable}` of the source; `Fields`
holds what all four kinds have, and the kind and its members take the place of
`task`, `subtask_type` and the `tasks`, `header` and `body` entries of `kwargs`.

Options name other signatures (the chord body a task reports to, its links, the
rest of its chain), so `Sig` is nested in its own `Options`.  Task ids, uuids in
the source, are numbers.

`descend` is `_chord._descend` (lines 2267-2296), the number of parts a chord
waits for from a signature, and `silent` its zero: a signature in which nothing
reports.
-/

import Mathlib.Data.List.Basic
import Mathlib.Algebra.BigOperators.Group.List.Basic
import Mathlib.Algebra.Order.BigOperators.Group.List
import Mathlib.Algebra.Ring.Nat
import Mathlib.Tactic.Common

namespace Celery
namespace Canvas

/-- A function that goes through a list member by member. -/
theorem map_of_cons {α β : Type} {f : α → β} {g : List α → List β} (hnil : g [] = [])
    (hcons : ∀ a l, g (a :: l) = f a :: g l) (l : List α) : g l = l.map f := by
  induction l with
  | nil => exact hnil
  | cons a l ih => rw [hcons, ih, List.map_cons]

/-- A test that a list passes if every member does. -/
theorem forall_of_cons {α : Type} {p : α → Bool} {q : List α → Bool} (hnil : q [] = true)
    (hcons : ∀ a l, q (a :: l) = (p a && q l)) {l : List α} :
    q l = true ↔ ∀ a ∈ l, p a = true := by
  induction l with
  | nil => simp [hnil]
  | cons a l ih => rw [hcons, Bool.and_eq_true, ih, List.forall_mem_cons]

/-- A task or group id. -/
abbrev TaskId := ℕ

/-- The execution options of a signature, over signatures `σ` and values `V`.
`rootId` and `parentId` may be there and be `None`; `extra` are the options no
canvas code looks at. -/
structure Options (V σ : Type) where
  taskId : Option TaskId := none
  groupId : Option TaskId := none
  chord : Option σ := none
  rootId : Option (Option TaskId) := none
  parentId : Option (Option TaskId) := none
  replyTo : Option TaskId := none
  groupIndex : Option ℕ := none
  link : List σ := []
  linkError : List σ := []
  chain : Option (List σ) := none
  extra : List (String × V) := []

/-- What every kind of signature has beside its members. -/
structure Fields (V σ : Type) where
  args : List V := []
  kwargs : List (String × V) := []
  options : Options V σ := {}
  immutable : Bool := false

/-- A signature.  `lazy` says that the members are a `_regen`, made from a
generator, and not a list or a tuple; `headerGroup` are the options of a chord
header that `freeze` has made a group. -/
inductive Sig (V : Type) where
  | task (name : String) (fields : Fields V (Sig V))
  | chain (tasks : List (Sig V)) (fields : Fields V (Sig V))
  | group (lazy : Bool) (tasks : List (Sig V)) (fields : Fields V (Sig V))
  | chord (lazy : Bool) (header : List (Sig V)) (headerGroup : Option (Options V (Sig V)))
      (body : Sig V) (fields : Fields V (Sig V))

namespace Sig

variable {V : Type}

/-- The fields of a node. -/
def fields : Sig V → Fields V (Sig V)
  | task _ f => f
  | chain _ f => f
  | group _ _ f => f
  | chord _ _ _ _ f => f

/-- The same node with other fields. -/
def withFields (f : Fields V (Sig V)) : Sig V → Sig V
  | task n _ => task n f
  | chain ts _ => chain ts f
  | group l ts _ => group l ts f
  | chord l h hg b _ => chord l h hg b f

/-- `sig.options`. -/
def options (s : Sig V) : Options V (Sig V) := s.fields.options

/-- `sig.args`. -/
def args (s : Sig V) : List V := s.fields.args

/-- `sig.options` changed in place. -/
def mapOptions (f : Options V (Sig V) → Options V (Sig V)) (s : Sig V) : Sig V :=
  s.withFields { s.fields with options := f s.options }

/-- A single task. -/
def isTask : Sig V → Bool
  | task .. => true
  | _ => false

/-- `isinstance(sig, group)`. -/
def isGroup : Sig V → Bool
  | group .. => true
  | _ => false

/-- `isinstance(sig, _chain)`. -/
def isChain : Sig V → Bool
  | chain .. => true
  | _ => false

/-- The body of a chord. -/
def body? : Sig V → Option (Sig V)
  | chord _ _ _ b _ => some b
  | _ => none

/-- How many chords a signature goes through, from body to body. -/
def bodyDepth : Sig V → ℕ
  | chord _ _ _ b _ => bodyDepth b + 1
  | _ => 0

/-- The signature, the body of the chord it is, the body of that one, ... -/
def reached : Sig V → List (Sig V)
  | chord l h hg b f => chord l h hg b f :: reached b
  | s => [s]

/-- `_is_empty_group`: a group with no members. -/
def isEmptyGroup : Sig V → Bool
  | group _ [] _ => true
  | _ => false

/-- `isinstance(sig, _chain) and not sig.tasks`. -/
def isEmptyChain : Sig V → Bool
  | chain [] _ => true
  | _ => false

/-- `maybe_unroll_group` on a group: its only member, if it has just one. -/
def maybeUnrollGroup : Sig V → Sig V
  | group _ [t] _ => t
  | s => s

/-- `bool(sig)`: a group is as long as its members, every other signature is a
non-empty dict. -/
def truthy : Sig V → Bool
  | group _ ts _ => !ts.isEmpty
  | _ => true

/-- A chord body as `if chord:` sees it. -/
def ifTruthy (b : Sig V) : Option (Sig V) := if b.truthy then some b else none

@[simp] theorem fields_withFields (f : Fields V (Sig V)) (s : Sig V) :
    (s.withFields f).fields = f := by
  cases s <;> rfl

@[simp] theorem options_mapOptions (f : Options V (Sig V) → Options V (Sig V)) (s : Sig V) :
    (s.mapOptions f).options = f s.options := by
  simp [mapOptions, options]

mutual

/-- `_chord._descend`: how many parts a signature contributes to the chord it is
a header member of. -/
def descend : Sig V → ℕ
  | task .. => 1
  | chain ts _ => descendChain ts
  | group _ ts _ => descendGroup ts
  | chord _ _ _ b _ => descend b

/-- Each task in a group counts toward the chord. -/
def descendGroup : List (Sig V) → ℕ
  | [] => 0
  | t :: ts => descend t + descendGroup ts

/-- The last non-empty element of a chain counts toward the chord. -/
def descendChain : List (Sig V) → ℕ
  | [] => 0
  | t :: ts => if descendChain ts > 0 then descendChain ts else descend t

end

mutual

/-- Nothing in the signature reports: its counting part is made of empty groups
and empty chains only. -/
def silent : Sig V → Bool
  | task .. => false
  | chain ts _ => silentAll ts
  | group _ ts _ => silentAll ts
  | chord _ _ _ b _ => silent b

def silentAll : List (Sig V) → Bool
  | [] => true
  | t :: ts => silent t && silentAll ts

end

mutual

/-- **`_descend` is zero exactly on what is silent.** -/
theorem descend_eq_zero_iff : ∀ s : Sig V, descend s = 0 ↔ silent s = true
  | task .. => by simp [descend, silent]
  | chain ts _ => by rw [descend, silent]; exact (descend_eq_zero_iff_all ts).2
  | group _ ts _ => by rw [descend, silent]; exact (descend_eq_zero_iff_all ts).1
  | chord _ _ _ b _ => by rw [descend, silent]; exact descend_eq_zero_iff b

theorem descend_eq_zero_iff_all : ∀ ts : List (Sig V),
    (descendGroup ts = 0 ↔ silentAll ts = true) ∧ (descendChain ts = 0 ↔ silentAll ts = true)
  | [] => by simp [descendGroup, descendChain, silentAll]
  | t :: ts => by
    have ht := descend_eq_zero_iff t
    obtain ⟨hg, hc⟩ := descend_eq_zero_iff_all ts
    rw [descendGroup, descendChain, silentAll, Bool.and_eq_true, ← ht]
    refine ⟨by rw [← hg]; omega, ?_⟩
    rw [← hc]
    split_ifs <;> omega

end

mutual

/-- Exactly one task in the signature reports. -/
def single : Sig V → Bool
  | task .. => true
  | chain ts _ => singleChain ts
  | group _ ts _ => singleGroup ts
  | chord _ _ _ b _ => single b

def singleGroup : List (Sig V) → Bool
  | [] => false
  | t :: ts => single t && silentAll ts || silent t && singleGroup ts

def singleChain : List (Sig V) → Bool
  | [] => false
  | t :: ts => singleChain ts || silentAll ts && single t

end

mutual

/-- **`_descend` is one exactly where one task reports.** -/
theorem descend_eq_one_iff : ∀ s : Sig V, descend s = 1 ↔ single s = true
  | task .. => by simp [descend, single]
  | chain ts _ => by rw [descend, single]; exact (descend_eq_one_iff_all ts).2
  | group _ ts _ => by rw [descend, single]; exact (descend_eq_one_iff_all ts).1
  | chord _ _ _ b _ => by rw [descend, single]; exact descend_eq_one_iff b

theorem descend_eq_one_iff_all : ∀ ts : List (Sig V),
    (descendGroup ts = 1 ↔ singleGroup ts = true) ∧ (descendChain ts = 1 ↔ singleChain ts = true)
  | [] => by simp [descendGroup, descendChain, singleGroup, singleChain]
  | t :: ts => by
    have ht := descend_eq_one_iff t
    have ht0 := descend_eq_zero_iff t
    obtain ⟨hg, hc⟩ := descend_eq_one_iff_all ts
    obtain ⟨hg0, hc0⟩ := descend_eq_zero_iff_all ts
    constructor
    · rw [descendGroup, singleGroup, Bool.or_eq_true, Bool.and_eq_true, Bool.and_eq_true, ← ht,
        ← ht0, ← hg, ← hg0]
      omega
    · rw [descendChain, singleChain, Bool.or_eq_true, Bool.and_eq_true, ← ht, ← hc, ← hc0]
      split_ifs <;> omega

end

theorem descendGroup_eq_sum (ts : List (Sig V)) : descendGroup ts = (ts.map descend).sum := by
  induction ts with
  | nil => rfl
  | cons t ts ih => rw [descendGroup, ih]; simp

end Sig

end Canvas
end Celery
