/-
# `celery/canvas.py`: the messages that `apply_async` sends

`apply_async` of a task (`Signature.apply_async`, lines 385-416), of a chain (`_chain.run`,
1080-1124), of a group (`group.apply_async` with `_prepared` and `_apply_tasks`, 1682-1711,
1780-1890) and of a chord (`_chord.apply_async` and `run`, 2230-2254, 2303-2355).  Only what
is to run at once is sent: the steps after the first one ride along in the `chain` option, the
body of a chord in the `chord` option.  Ids, and the other options, are left out; of
`prepare_steps` there is `takenSteps`, and of `freeze` that it flattens groups.

`send` has fuel for the nesting of signatures, and `applyAsync` gives it enough
(`send_ne_outOfFuel`).
-/

import Celery.Canvas.Labels
import Celery.Canvas.Rules

namespace Celery
namespace Canvas

open Sig

variable {V : Type}

/-- What the code asks of values: `bool(v)`, and the empty list as one. -/
class PyValue (V : Type) where
  truthy : V → Bool
  nil : V

/-- A task message: what the task is called with, and its options. -/
structure Message (V : Type) where
  label : Label V
  options : Options V (Sig V)

/-- What goes with a signature that is applied: the rest of the chain it is in, the next step
first, and the body of the chord that it reports to. -/
structure Riders (V : Type) where
  chain : List (Sig V) := []
  chord : Option (Sig V) := none

namespace Riders

/-- The options with those of the call. -/
def on (r : Riders V) (o : Options V (Sig V)) : Options V (Sig V) :=
  { o with
    chain := if r.chain.isEmpty then o.chain else some r.chain
    chord := r.chord.or o.chord }

/-- What the call and the options of the signature hand on. -/
def passed (r : Riders V) (o : Options V (Sig V)) : Riders V where
  chain := (r.on o).chain.getD []
  chord := (r.on o).chord

end Riders

namespace Sig

mutual

/-- `group._prepared`, of a member: nested groups are unrolled, and an empty chain contributes
no task. -/
def prepared : Sig V → List (Sig V)
  | task n f => [task n f]
  | chain [] _ => []
  | chain (t :: ts) f => [(chain (t :: ts) f).clone]
  | group _ ts _ => preparedAll ts
  | chord l h hg b f => [(chord l h hg b f).clone]

def preparedAll : List (Sig V) → List (Sig V)
  | [] => []
  | t :: ts => prepared t ++ preparedAll ts

end

/-- The members of a group, once it is frozen. -/
def settle : Sig V → Sig V
  | group l ts f => group l (memberList l ts) f
  | s => s

end Sig

/-- The steps of a chain as they are sent, from those that `prepare_steps` takes: a group before
another step is upgraded to a chord. -/
def upgradeSteps : List (Sig V) → List (Sig V)
  | [] => []
  | t :: ts =>
    match t.settle, upgradeSteps ts with
    | .group l us f, p :: ps =>
      if p.truthy then .chord l us none p {} :: ps else .group l us f :: p :: ps
    | t, ps => t :: ps

/-- The messages of all signatures in the list. -/
def sendAll (go : Sig V → Except PyError (List (Message V))) (ts : List (Sig V)) :
    Except PyError (List (Message V)) :=
  (ts.mapM go).map List.flatten

/-- The arguments that a chain or a chord passes on. -/
def Fields.handed (f : Fields V (Sig V)) (args : List V) : List V :=
  if f.immutable then f.args else args ++ f.args

section Send

variable [PyValue V]

/-- A body for the chord among the keyword arguments.  None of the values is a signature. -/
def bodyGiven (kwargs : List (String × V)) : Bool :=
  kwargs.any fun kv => kv.1 == "body" && PyValue.truthy kv.2

/-- `sig.apply_async(args, kwargs)`, with fuel: the messages it sends. -/
def send : ℕ → Sig V → List V → List (String × V) → Riders V → Except PyError (List (Message V))
  | 0, _, _, _, _ => .error .outOfFuel
  | n + 1, s, args, kwargs, r =>
    match s with
    | .task name f =>
      let g := f.merge args kwargs
      .ok [⟨⟨name, g.args, g.kwargs⟩, r.on g.options⟩]
    | .chain ts f => do
      let steps ← takenSteps { args := f.handed args, kwargs := kwargs } ts
      -- the last step reports for the chain
      let last := mapOptions fun o => { o with chord := (r.passed f.options).chord.or o.chord }
      match upgradeSteps (steps.modifyHead last).reverse with
      | [] => pure []
      | first :: rest => send n first [] [] { chain := rest ++ (r.passed f.options).chain }
    | .group _ ts f => sendAll (send n · args kwargs (r.passed f.options)) (preparedAll ts)
    | .chord l h _ b f =>
      if dictHas f.kwargs "kwargs" then .error .typeError
      else if bodyGiven kwargs then .error .attributeError
      else
        let body := b.clone.mapOptions (r.passed f.options).on
        let members := memberList l h
        -- with an empty header the body is executed at once
        if members.isEmpty then send n body [PyValue.nil] [] {}
        else sendAll
          (send n · (f.handed args) (kwargs.filter (·.1 != "body")) { chord := body.ifTruthy })
          (preparedAll members)

/-- **`sig.apply_async(args, kwargs)`**: the messages it sends. -/
def applyAsync (s : Sig V) (args : List V) (kwargs : List (String × V)) :
    Except PyError (List (Message V)) :=
  send s.weight s args kwargs {}

/-- `sig.clone(a, k).apply_async(b, l)`. -/
def cloneApply (s : Sig V) (a : List V) (k : List (String × V)) (b : List V)
    (l : List (String × V)) : Except PyError (List (Message V)) := do
  let s ← s.cloneWith a k
  applyAsync s b l

end Send

/-! ### Enough fuel -/

namespace Sig

mutual

/-- `freeze` and `_prepared` flatten groups alike, but in another order. -/
theorem prepared_perm_flat : ∀ s : Sig V, s.prepared.Perm s.flat
  | task .. => .refl _
  | chain [] _ => .refl _
  | chain (_ :: _) _ => .refl _
  | group _ ts _ => preparedAll_perm_flatRev ts
  | chord .. => .refl _

theorem preparedAll_perm_flatRev : ∀ ts : List (Sig V), (preparedAll ts).Perm (flatRev ts)
  | [] => .refl _
  | t :: ts =>
    ((prepared_perm_flat t).append (preparedAll_perm_flatRev ts)).trans List.perm_append_comm

end

theorem weightAll_of_perm {ts us : List (Sig V)} (h : ts.Perm us) :
    weightAll ts = weightAll us := by
  rw [weightAll_eq_sum, weightAll_eq_sum]
  exact (h.map weight).sum_eq

mutual

theorem weightAll_flat_le : ∀ s : Sig V, weightAll s.flat ≤ s.weight
  | task .. => le_rfl
  | chain [] _ => Nat.zero_le _
  | chain (t :: ts) f => by
    rw [flat, weightAll, weightAll, weight_of_shape_eq (shape_clone _), Nat.add_zero]
  | group _ ts _ => by
    rw [flat, weight]
    exact (weightAll_flatRev_le ts).trans (Nat.le_succ _)
  | chord .. => by
    rw [flat, weightAll, weightAll, weight_of_shape_eq (shape_clone _), Nat.add_zero]

theorem weightAll_flatRev_le : ∀ ts : List (Sig V), weightAll (flatRev ts) ≤ weightAll ts
  | [] => le_rfl
  | t :: ts => by
    rw [flatRev, weightAll_append, weightAll, Nat.add_comm]
    exact Nat.add_le_add (weightAll_flat_le t) (weightAll_flatRev_le ts)

end

theorem weight_le_of_mem_preparedAll {ts : List (Sig V)} {t : Sig V} (h : t ∈ preparedAll ts) :
    t.weight ≤ weightAll ts := by
  refine (weight_le_weightAll h).trans ?_
  rw [weightAll_of_perm (preparedAll_perm_flatRev ts)]
  exact weightAll_flatRev_le ts

theorem weightAll_memberList_le (lazy : Bool) (ts : List (Sig V)) :
    weightAll (memberList lazy ts) ≤ weightAll ts := by
  unfold memberList
  split_ifs
  · rw [← cloneAll_eq_map, weightAll_cloneAll]
  · have := weightAll_flatRev_le ts.reverse
    rwa [flatRev_eq_flatMap, List.reverse_reverse, weightAll_reverse] at this

theorem weight_mapOptions (g : Options V (Sig V) → Options V (Sig V)) (s : Sig V) :
    (s.mapOptions g).weight = s.weight := by
  cases s <;> rfl

theorem weight_settle_le (s : Sig V) : s.settle.weight ≤ s.weight := by
  cases s with
  | group l ts f => exact Nat.succ_le_succ (weightAll_memberList_le l ts)
  | _ => exact le_rfl

end Sig

theorem weightAll_upgradeSteps_le (ts : List (Sig V)) :
    weightAll (upgradeSteps ts) ≤ weightAll ts := by
  induction ts with
  | nil => exact le_rfl
  | cons t ts ih =>
    have ht := t.weight_settle_le
    rw [upgradeSteps]
    split
    next l us f p ps hsettle hps =>
      rw [hsettle, weight] at ht
      rw [hps, weightAll] at ih
      split_ifs <;> simp only [weightAll, weight] <;> omega
    next =>
      rw [weightAll, weightAll]
      omega

theorem weightAll_modifyHead {g : Sig V → Sig V} (hg : ∀ s, (g s).weight = s.weight)
    (ts : List (Sig V)) : weightAll (ts.modifyHead g) = weightAll ts := by
  cases ts with
  | nil => rfl
  | cons t ts => rw [List.modifyHead_cons, weightAll, weightAll, hg]

theorem sendAll_ne_error {go : Sig V → Except PyError (List (Message V))} {ts : List (Sig V)}
    {e : PyError} (h : ∀ t ∈ ts, go t ≠ .error e) : sendAll go ts ≠ .error e := by
  intro he
  have hmap : ts.mapM go = .error e := by
    unfold sendAll at he
    cases hts : ts.mapM go with
    | error e' =>
      rw [hts] at he
      cases he
      rfl
    | ok ms =>
      rw [hts] at he
      cases he
  clear he
  induction ts with
  | nil => cases hmap
  | cons t ts ih =>
    rw [List.mapM_cons] at hmap
    cases ht : go t with
    | error e' =>
      rw [ht] at hmap
      cases hmap
      exact h t List.mem_cons_self ht
    | ok ms =>
      rw [ht] at hmap
      refine ih (fun u hu => h u (List.mem_cons_of_mem _ hu)) ?_
      cases hts : ts.mapM go with
      | error e' =>
        rw [hts] at hmap
        cases hmap
        rfl
      | ok mss =>
        rw [hts] at hmap
        cases hmap

/-- **The weight of a signature is fuel enough.** -/
theorem send_ne_outOfFuel [PyValue V] (n : ℕ) (s : Sig V) (hn : s.weight ≤ n) (args : List V)
    (kwargs : List (String × V)) (r : Riders V) :
    send n s args kwargs r ≠ .error .outOfFuel := by
  induction n generalizing s args kwargs r with
  | zero =>
    have := s.weight_pos
    omega
  | succ n ih =>
    cases s with
    | task name f => exact fun h => by cases h
    | chain ts f =>
      rw [weight] at hn
      rw [send]
      cases hsteps : takenSteps { args := f.handed args, kwargs := kwargs } ts with
      | error e =>
        rw [error_of_takenSteps hsteps]
        exact fun h => by cases h
      | ok steps =>
        have hw := weightAll_takenSteps_le hsteps
        let last := mapOptions fun o : Options V (Sig V) =>
          { o with chord := (r.passed f.options).chord.or o.chord }
        have hup := weightAll_upgradeSteps_le (steps.modifyHead last).reverse
        rw [weightAll_reverse, weightAll_modifyHead (weight_mapOptions _)] at hup
        dsimp only [bind, Except.bind]
        cases hfirst : upgradeSteps (steps.modifyHead last).reverse with
        | nil => exact fun h => by cases h
        | cons first rest =>
          rw [hfirst, weightAll] at hup
          exact ih first (by omega) _ _ _
    | group lazy ts f =>
      rw [weight] at hn
      rw [send]
      refine sendAll_ne_error fun t ht => ?_
      have := weight_le_of_mem_preparedAll ht
      exact ih t (by omega) _ _ _
    | chord lazy hd hg body f =>
      rw [weight] at hn
      rw [send]
      split_ifs
      · exact fun h => by cases h
      · exact fun h => by cases h
      dsimp only
      split_ifs
      · refine ih _ ?_ _ _ _
        rw [weight_mapOptions, weight_of_shape_eq body.shape_clone]
        omega
      · refine sendAll_ne_error fun t ht => ?_
        have := weight_le_of_mem_preparedAll ht
        have := weightAll_memberList_le lazy hd
        exact ih t (by omega) _ _ _

/-! ### Generators -/

namespace Sig

/-- The members are a list, or a generator that could be one: it yields no group, whose members
would be taken in its place and in reverse, and no empty chain, which would be dropped. -/
def listLike (lazy : Bool) (ts : List (Sig V)) : Bool :=
  !lazy || ts.all fun t => !t.isGroup && !t.isEmptyChain

theorem memberList_of_listLike {lazy : Bool} {ts : List (Sig V)} (h : listLike lazy ts = true) :
    memberList lazy ts = memberList false ts := by
  cases lazy with
  | false => rfl
  | true =>
    rw [listLike, Bool.not_true, Bool.false_or, List.all_eq_true] at h
    have hflat : ∀ t ∈ ts, t.flat = [t.clone] := by
      intro t ht
      have := h t ht
      cases t with
      | task => rfl
      | chain us f => cases us with
        | nil => cases this
        | cons u us => rfl
      | group => cases this
      | chord => rfl
    rw [memberList, memberList, if_pos rfl, if_neg Bool.false_ne_true, List.flatMap_congr hflat,
      List.map_eq_flatMap]

end Sig

end Canvas
end Celery
