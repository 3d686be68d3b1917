/-
# `celery/backends/redis.py`: chords on Redis

A chord whose header is published by `group._apply_tasks`
(`celery/canvas.py`, lines 1834-1896) and whose members end in
`RedisBackend.on_chord_part_return` (lines 772-860), as a transition system: one
publisher and a worker for each member, over the keys that Redis keeps for the
group.

The publisher sends the members one after the other and sets the chord size
before the last.  A worker adds its part and reads the count and the size in one
pipeline, which Redis runs atomically; if they agree it fetches the parts, calls
the body, and deletes the keys.  Each of these is a step of its own, so that any
two workers can interleave anywhere between them.  Keys do not expire, and
`add_to_chord` is not used, so the key `.t` is never set.

The keys count the workers that have added their part, and the size is there
before the last of them can: exactly the worker that adds the last part sees
that the chord is complete.  So the body is called once, in every interleaving,
with the results of all members (`chord_calls_body_once`), in the order of their
`group_index` where the backend keeps them in a sorted set, which is what
`result_chord_ordered` asks for, and in the order of their arrival otherwise.
-/

import Celery.Backends.Base
import Celery.Library.Transition
import Mathlib.Algebra.BigOperators.Fin
import Mathlib.Data.Fintype.Card
import Mathlib.Data.Fintype.Sets
import Mathlib.Data.List.FinRange
import Mathlib.Data.List.Sort

namespace Celery
namespace Redis

open Canvas Transition

/-- A part of a chord: the encoded `[1, tid, state, result]`.  A task reports
once, so that its id tells its part from the others. -/
structure Part (V : Type) where
  tid : TaskId
  outcome : Except (Exc V) V

/-- The keys of a group: the parts under `.j`, with their scores, and the size
under `.s`. -/
structure Keys (V : Type) where
  j : List (ℕ × Part V) := []
  s : Option ℕ := none

variable {V : Type}

/-- `ZADD`: a member has one score, and the set is kept in the order of these. -/
def zadd (score : ℕ) (p : Part V) (l : List (ℕ × Part V)) : List (ℕ × Part V) :=
  (l.filter fun q => q.2.tid ≠ p.tid).orderedInsert (fun a b => a.1 ≤ b.1) (score, p)

/-- Add a part: to a sorted set (`_chord_zset`), or to the end of a list. -/
def addPart (zset : Bool) (score : ℕ) (p : Part V) (l : List (ℕ × Part V)) :
    List (ℕ × Part V) :=
  if zset then zadd score p l else l ++ [(score, p)]

/-- The pipeline of `on_chord_part_return`: add the part, count the parts and
read the size. -/
def partPipeline (zset : Bool) (score : ℕ) (p : Part V) (k : Keys V) : Keys V × ℕ × Option ℕ :=
  let j := addPart zset score p k.j
  ({ k with j := j }, j.length, k.s)

/-- The parts, as `ZRANGE 0 -1` or `LRANGE 0 total` gives them. -/
def range (zset : Bool) (total : ℕ) (k : Keys V) : List (Part V) :=
  ((if zset then k.j else k.j.take (total + 1))).map (·.2)

/-- `_unpack_chord_result`. -/
def unpackChordResult (p : Part V) : Except (Exc V) V :=
  match p.outcome with
  | .ok v => .ok v
  | .error e => .error (.chordError s!"Dependency {p.tid} raised" (some e))

/-- A chord header of simple members: each yields one part, and they have ids and
indices of their own. -/
structure Header (V : Type) where
  size : ℕ
  size_pos : 0 < size
  sig : Fin size → Sig V
  simple : ∀ i, (sig i).descend = 1
  tid : Fin size → TaskId
  tid_injective : Function.Injective tid
  groupIndex : Fin size → ℕ
  groupIndex_injective : Function.Injective groupIndex
  outcome : Fin size → Except (Exc V) V

namespace Header

/-- The part of a member. -/
def part (h : Header V) (i : Fin h.size) : Part V := ⟨h.tid i, h.outcome i⟩

/-- The `chord_size` of `group._apply_tasks`: what all members count. -/
def chordSize (h : Header V) : ℕ := ((List.finRange h.size).map fun i => (h.sig i).descend).sum

theorem chordSize_eq (h : Header V) : h.chordSize = h.size := by
  have hone : ((List.finRange h.size).map fun i => (h.sig i).descend)
      = (List.finRange h.size).map fun _ => 1 :=
    List.map_congr_left fun i _ => h.simple i
  rw [chordSize, hone]
  simp

/-- The order of the members by `group_index`. -/
def ByIndex (h : Header V) (a b : Fin h.size) : Prop := h.groupIndex a ≤ h.groupIndex b

instance (h : Header V) : DecidableRel h.ByIndex := fun a b =>
  inferInstanceAs (Decidable (h.groupIndex a ≤ h.groupIndex b))

instance (h : Header V) : Std.Total h.ByIndex := ⟨fun a _ => le_total (h.groupIndex a) _⟩

instance (h : Header V) : IsTrans _ h.ByIndex := ⟨fun _ _ _ hab hbc => le_trans hab hbc⟩

instance (h : Header V) : Std.Antisymm h.ByIndex :=
  ⟨fun _ _ hab hba => h.groupIndex_injective (le_antisymm hab hba)⟩

end Header

/-- Where a member is. -/
inductive Pc (V : Type) where
  /-- Not published yet. -/
  | waiting
  /-- Published; its part is not stored yet. -/
  | running
  /-- It has stored its part and seen that the `total` is reached. -/
  | counted (total : ℕ)
  /-- It has fetched and unpacked the parts. -/
  | fetched (resl : List V)
  /-- It has called the body. -/
  | called
  /-- It has returned. -/
  | finished

/-- The body of the chord is called, or its failure is announced. -/
inductive Event (V : Type) where
  | delay (resl : List V)
  | chordErrorFromStack (exc : Exc V)

/-- The publisher, the keys and the members. -/
structure Sys (h : Header V) where
  published : ℕ := 0
  /-- `set_chord_size` has run. -/
  sized : Bool := false
  keys : Keys V := {}
  pc : Fin h.size → Pc V := fun _ => .waiting
  events : List (Event V) := []

/-- Who moves. -/
inductive Action (h : Header V) where
  | setChordSize
  | publish
  | addPart (i : Fin h.size)
  | fetch (i : Fin h.size)
  | callBody (i : Fin h.size)
  | delete (i : Fin h.size)

/-- The member whose part an action stores. -/
def Action.arrival {h : Header V} : Action h → List (Fin h.size)
  | .addPart i => [i]
  | .setChordSize => []
  | .publish => []
  | .fetch _ => []
  | .callBody _ => []
  | .delete _ => []

/-- Whether a worker that has read `readycount` and `size` goes on to the body. -/
def isComplete (readycount : ℕ) (size : Option ℕ) : Bool := size = some readycount

/-- A member gets somewhere. -/
def Sys.move {h : Header V} (s : Sys h) (i : Fin h.size) (p : Pc V) : Sys h :=
  { s with pc := Function.update s.pc i p }

/-- **The steps.**  `zset` is `result_chord_ordered`. -/
inductive Step (zset : Bool) (h : Header V) : Sys h → Action h → Sys h → Prop where
  | setChordSize {s} : s.sized = false → s.published + 1 = h.size →
      Step zset h s .setChordSize
        { s with sized := true, keys := { s.keys with s := some h.chordSize } }
  | publish {s} (hlt : s.published < h.size) :
      (s.published + 1 = h.size → s.sized = true) →
      Step zset h s .publish
        { s.move ⟨s.published, hlt⟩ .running with published := s.published + 1 }
  | addPart {s i keys count size} : s.pc i = .running →
      partPipeline zset (h.groupIndex i) (h.part i) s.keys = (keys, count, size) →
      Step zset h s (.addPart i)
        { s.move i (if isComplete count size then .counted count else .finished) with
          keys := keys }
  | fetch {s i total resl} : s.pc i = .counted total →
      (range zset total s.keys).mapM unpackChordResult = .ok resl →
      Step zset h s (.fetch i) (s.move i (.fetched resl))
  | fetchError {s i total e} : s.pc i = .counted total →
      (range zset total s.keys).mapM unpackChordResult = .error e →
      Step zset h s (.fetch i)
        { s.move i .finished with events := s.events ++ [.chordErrorFromStack e] }
  | callBody {s i resl} : s.pc i = .fetched resl →
      Step zset h s (.callBody i)
        { s.move i .called with events := s.events ++ [.delay resl] }
  | delete {s i} : s.pc i = .called →
      Step zset h s (.delete i) { s.move i .finished with keys := {} }

/-! ### What the keys hold -/

section

variable (zset : Bool) (h : Header V)

/-- A member takes its place among those that have arrived. -/
def place (is : List (Fin h.size)) (i : Fin h.size) : List (Fin h.size) :=
  if zset then is.orderedInsert h.ByIndex i else is ++ [i]

/-- The members in the order in which their parts are kept, from the order in
which they arrive. -/
def arrange (arrived : List (Fin h.size)) : List (Fin h.size) := arrived.foldl (place zset h) []

/-- The parts that are stored once `arrived` have arrived. -/
def stored (arrived : List (Fin h.size)) : List (ℕ × Part V) :=
  (arrange zset h arrived).map fun i => (h.groupIndex i, h.part i)

variable {zset h}

theorem arrange_snoc (arrived : List (Fin h.size)) (i : Fin h.size) :
    arrange zset h (arrived ++ [i]) = place zset h (arrange zset h arrived) i := by
  simp [arrange]

theorem place_perm (is : List (Fin h.size)) (i : Fin h.size) :
    (place zset h is i).Perm (i :: is) := by
  unfold place
  split_ifs
  · exact List.perm_orderedInsert _ i is
  · exact List.perm_append_singleton i is

/-- All that have arrived are kept, and nobody else. -/
theorem arrange_perm (zset : Bool) (arrived : List (Fin h.size)) :
    (arrange zset h arrived).Perm arrived := by
  induction arrived using List.reverseRecOn with
  | nil => exact List.Perm.refl _
  | append_singleton is i ih =>
    rw [arrange_snoc]
    exact (place_perm _ i).trans ((ih.cons i).trans (List.perm_append_singleton i is).symm)

/-- A list keeps its members in the order of their arrival. -/
theorem arrange_false (arrived : List (Fin h.size)) : arrange false h arrived = arrived := by
  induction arrived using List.reverseRecOn with
  | nil => rfl
  | append_singleton is i ih =>
    rw [arrange_snoc, ih]
    rfl

theorem stored_length (arrived : List (Fin h.size)) :
    (stored zset h arrived).length = arrived.length := by
  rw [stored, List.length_map]
  exact (arrange_perm zset arrived).length_eq

/-- A sorted set keeps its members in the order of their scores. -/
theorem arrange_pairwise (arrived : List (Fin h.size)) :
    (arrange true h arrived).Pairwise h.ByIndex := by
  induction arrived using List.reverseRecOn with
  | nil => exact List.Pairwise.nil
  | append_singleton is i ih =>
    rw [arrange_snoc, place, if_pos rfl]
    exact ih.orderedInsert i _

/-- The part of a member that has not arrived takes the place of the member. -/
theorem addPart_stored {arrived : List (Fin h.size)} {i : Fin h.size} (hi : i ∉ arrived) :
    addPart zset (h.groupIndex i) (h.part i) (stored zset h arrived)
      = stored zset h (arrived ++ [i]) := by
  unfold stored
  rw [arrange_snoc]
  cases zset with
  | false => simp [addPart, place]
  | true =>
    have hfilter : ((arrange true h arrived).map fun i => (h.groupIndex i, h.part i)).filter
        (fun q => q.2.tid ≠ (h.part i).tid)
        = (arrange true h arrived).map fun i => (h.groupIndex i, h.part i) := by
      rw [List.filter_eq_self]
      rintro q hq
      obtain ⟨k, hk, rfl⟩ := List.mem_map.1 hq
      rw [decide_eq_true_iff]
      intro heq
      rw [h.tid_injective heq] at hk
      exact hi ((arrange_perm true arrived).mem_iff.1 hk)
    simp only [addPart, place, zadd, if_true, hfilter]
    exact (List.map_orderedInsert h.ByIndex (fun a b : ℕ × Part V => a.1 ≤ b.1)
      (fun i => (h.groupIndex i, h.part i)) _ i (fun _ _ => Iff.rfl) fun _ _ => Iff.rfl).symm

/-- The results of the members that have arrived, in the order they are kept. -/
def results (zset : Bool) (h : Header V) (value : Fin h.size → V) (arrived : List (Fin h.size)) :
    List V :=
  (arrange zset h arrived).map value

/-- The results of all members in the order of their `group_index`. -/
def orderedResults (h : Header V) (value : Fin h.size → V) : List V :=
  ((List.finRange h.size).insertionSort h.ByIndex).map value

/-- The parts of successful members unpack to their results. -/
theorem unpack_stored (zset : Bool) {value : Fin h.size → V}
    (hok : ∀ i, h.outcome i = .ok (value i)) {arrived : List (Fin h.size)} {total : ℕ} (htotal : arrived.length ≤ total) (size : Option ℕ) :
    (range zset total ⟨stored zset h arrived, size⟩).mapM unpackChordResult
      = .ok (results zset h value arrived) := by
  have hall : range zset total ⟨stored zset h arrived, size⟩
      = (arrange zset h arrived).map h.part := by
    unfold range
    have htake : (if zset then stored zset h arrived
        else (stored zset h arrived).take (total + 1)) = stored zset h arrived := by
      split_ifs
      · rfl
      · exact List.take_of_length_le (by rw [stored_length]; omega)
    rw [htake, stored, List.map_map]
    rfl
  rw [hall, results]
  generalize arrange zset h arrived = is
  induction is with
  | nil => rfl
  | cons i is ih =>
    have hi : unpackChordResult (h.part i) = .ok (value i) := by
      simp [unpackChordResult, Header.part, hok]
    rw [List.map_cons, List.mapM_cons, hi, ih]
    rfl

/-- Once as many members have arrived as there are, all have. -/
theorem perm_finRange {arrived : List (Fin h.size)} (hnodup : arrived.Nodup)
    (hlen : arrived.length = h.size) : arrived.Perm (List.finRange h.size) := by
  have huniv : arrived.toFinset = Finset.univ := by
    apply Finset.eq_univ_of_card
    rw [List.toFinset_card_of_nodup hnodup, hlen, Fintype.card_fin]
  rw [List.perm_ext_iff_of_nodup hnodup (List.nodup_finRange _)]
  intro i
  rw [← List.mem_toFinset, huniv]
  simp

theorem results_perm (value : Fin h.size → V) {arrived : List (Fin h.size)}
    (hnodup : arrived.Nodup) (hlen : arrived.length = h.size) :
    (results zset h value arrived).Perm ((List.finRange h.size).map value) :=
  ((arrange_perm zset arrived).trans (perm_finRange hnodup hlen)).map value

theorem results_ordered (value : Fin h.size → V) {arrived : List (Fin h.size)}
    (hnodup : arrived.Nodup) (hlen : arrived.length = h.size) :
    results true h value arrived = orderedResults h value := by
  have hperm := (arrange_perm true arrived).trans (perm_finRange hnodup hlen)
  have heq : arrange true h arrived = (List.finRange h.size).insertionSort h.ByIndex :=
    (hperm.trans (List.perm_insertionSort h.ByIndex _).symm).eq_of_pairwise'
      (arrange_pairwise arrived) (List.pairwise_insertionSort h.ByIndex _)
  rw [results, heq, orderedResults]

end

/-! ### The invariant -/

section

variable {zset : Bool} {h : Header V} {value : Fin h.size → V}

/-- The parties are somewhere the publisher has let them get to. -/
structure Published (s : Sys h) : Prop where
  published_le : s.published ≤ h.size
  waiting_iff : ∀ i, s.pc i = .waiting ↔ s.published ≤ i
  published_of_sized : s.sized = true → h.size ≤ s.published + 1
  sized_of_published : s.published = h.size → s.sized = true

/-- A member has stored its part. -/
def HasStored (s : Sys h) (i : Fin h.size) : Prop := s.pc i ≠ .waiting ∧ s.pc i ≠ .running

/-- How far the chord is, after the arrivals `arrived`: parts are collected, or
`w` has stored the last one and is on its way through the rest, or is done. -/
inductive Phase (zset : Bool) (h : Header V) (value : Fin h.size → V) (s : Sys h)
    (arrived : List (Fin h.size)) : Prop where
  | collecting : arrived.length < h.size → (∀ i ∈ arrived, s.pc i = .finished) →
      s.keys = ⟨stored zset h arrived, if s.sized then some h.size else none⟩ →
      s.events = [] → Phase zset h value s arrived
  | counted (w : Fin h.size) : arrived.length = h.size → (∀ i, i ≠ w → s.pc i = .finished) →
      s.keys = ⟨stored zset h arrived, some h.size⟩ →
      s.pc w = .counted h.size → s.events = [] → Phase zset h value s arrived
  | fetched (w : Fin h.size) : arrived.length = h.size → (∀ i, i ≠ w → s.pc i = .finished) →
      s.pc w = .fetched (results zset h value arrived) → s.events = [] →
      Phase zset h value s arrived
  | called (w : Fin h.size) : arrived.length = h.size → (∀ i, i ≠ w → s.pc i = .finished) →
      s.pc w = .called → s.events = [.delay (results zset h value arrived)] →
      Phase zset h value s arrived
  | fired : arrived.length = h.size → (∀ i, s.pc i = .finished) →
      s.events = [.delay (results zset h value arrived)] → Phase zset h value s arrived

/-- The invariant of the chord. -/
structure Inv (zset : Bool) (h : Header V) (value : Fin h.size → V) (s : Sys h)
    (arrived : List (Fin h.size)) : Prop where
  published : Published s
  nodup : arrived.Nodup
  arrived_iff : ∀ i, i ∈ arrived ↔ HasStored s i
  phase : Phase zset h value s arrived

theorem inv_init : Inv zset h value {} [] := by
  refine ⟨⟨Nat.zero_le _, fun i => by simp, nofun, fun hpub => ?_⟩, List.nodup_nil,
    fun i => by simp [HasStored], .collecting h.size_pos (by simp) rfl rfl⟩
  have := h.size_pos
  simp at hpub
  omega

section

variable {s : Sys h} {i k : Fin h.size} {p : Pc V}

@[simp] theorem move_pc_self : (s.move i p).pc i = p := Function.update_self ..

@[simp] theorem move_pc_of_ne (hk : k ≠ i) : (s.move i p).pc k = s.pc k :=
  Function.update_of_ne hk ..

/-- A published member stays published. -/
theorem Published.move (hs : Published s) (hi : s.pc i ≠ .waiting) (hp : p ≠ .waiting) :
    Published (s.move i p) := by
  refine ⟨hs.published_le, fun k => ?_, hs.published_of_sized, hs.sized_of_published⟩
  by_cases hk : k = i
  · subst hk
    rw [move_pc_self]
    exact iff_of_false hp fun hle => hi ((hs.waiting_iff k).2 hle)
  · rw [move_pc_of_ne hk]
    exact hs.waiting_iff k

/-- The keys and the events do not matter. -/
theorem Published.frame (hs : Published s) (keys : Keys V) (events : List (Event V)) :
    Published { s with keys := keys, events := events } :=
  ⟨hs.published_le, hs.waiting_iff, hs.published_of_sized, hs.sized_of_published⟩

theorem hasStored_move_of_ne (hk : k ≠ i) : HasStored (s.move i p) k ↔ HasStored s k := by
  rw [HasStored, move_pc_of_ne hk, HasStored]

theorem hasStored_move_self : HasStored (s.move i p) i ↔ p ≠ .waiting ∧ p ≠ .running := by
  rw [HasStored, move_pc_self]

end

namespace Inv

variable {s : Sys h} {arrived : List (Fin h.size)} {i : Fin h.size}

/-- Once all parts are stored, all members have stored theirs. -/
theorem hasStored (hinv : Inv zset h value s arrived) (hlen : arrived.length = h.size)
    (i : Fin h.size) : HasStored s i := by
  rw [← hinv.arrived_iff, (perm_finRange hinv.nodup hlen).mem_iff]
  exact List.mem_finRange i

/-- A member that has not stored its part: the chord is collecting. -/
theorem collecting (hinv : Inv zset h value s arrived) (hi : ¬ HasStored s i) :
    arrived.length < h.size ∧ (∀ i ∈ arrived, s.pc i = .finished) ∧
      s.keys = ⟨stored zset h arrived, if s.sized then some h.size else none⟩ ∧
      s.events = [] := by
  cases hinv.phase with
  | collecting hlen hfin hkeys hevents => exact ⟨hlen, hfin, hkeys, hevents⟩
  | counted w hlen => exact absurd (hinv.hasStored hlen i) hi
  | fetched w hlen => exact absurd (hinv.hasStored hlen i) hi
  | called w hlen => exact absurd (hinv.hasStored hlen i) hi
  | fired hlen => exact absurd (hinv.hasStored hlen i) hi

/-- While the publisher is not done, a member has not stored its part. -/
theorem not_hasStored_of_published (hinv : Inv zset h value s arrived)
    (hlt : s.published < h.size) : ¬ HasStored s ⟨s.published, hlt⟩ := fun hst =>
  hst.1 ((hinv.published.waiting_iff _).2 le_rfl)

theorem setChordSize (hinv : Inv zset h value s arrived) (hpub : s.published + 1 = h.size) :
    Inv zset h value { s with sized := true, keys := { s.keys with s := some h.chordSize } }
      arrived := by
  obtain ⟨hlen, hfin, hkeys, hevents⟩ :=
    hinv.collecting (hinv.not_hasStored_of_published (by omega))
  refine ⟨⟨hinv.published.published_le, hinv.published.waiting_iff, fun _ => hpub.ge,
    fun _ => rfl⟩, hinv.nodup, hinv.arrived_iff, .collecting hlen hfin ?_ hevents⟩
  rw [h.chordSize_eq, hkeys]
  rfl

theorem publish (hinv : Inv zset h value s arrived) (hlt : s.published < h.size)
    (hsized : s.published + 1 = h.size → s.sized = true) :
    Inv zset h value { s.move ⟨s.published, hlt⟩ .running with published := s.published + 1 }
      arrived := by
  have hnot := hinv.not_hasStored_of_published hlt
  obtain ⟨hlen, hfin, hkeys, hevents⟩ := hinv.collecting hnot
  have hnew : (⟨s.published, hlt⟩ : Fin h.size) ∉ arrived := fun hmem =>
    hnot ((hinv.arrived_iff _).1 hmem)
  have hne : ∀ i ∈ arrived, i ≠ ⟨s.published, hlt⟩ := fun i hi heq => hnew (heq ▸ hi)
  refine ⟨⟨hlt, fun i => ?_, fun hs => ?_, hsized⟩, hinv.nodup, fun i => ?_,
    .collecting hlen (fun i hi => (move_pc_of_ne (hne i hi)).trans (hfin i hi)) hkeys hevents⟩
  · by_cases hi : i = ⟨s.published, hlt⟩
    · subst hi
      exact iff_of_false (by simp) (by simp)
    · have hpos : (i : ℕ) ≠ s.published := fun heq => hi (Fin.ext heq)
      refine Iff.trans (by rw [move_pc_of_ne hi, hinv.published.waiting_iff]) ?_
      change s.published ≤ i ↔ s.published + 1 ≤ i
      omega
  · exact (hinv.published.published_of_sized hs).trans (Nat.le_succ _)
  · by_cases hi : i = ⟨s.published, hlt⟩
    · subst hi
      exact iff_of_false hnew fun hst => (hasStored_move_self.1 hst).2 rfl
    · exact (hinv.arrived_iff i).trans (hasStored_move_of_ne hi).symm

/-- The part of a running member joins those that are stored. -/
theorem partPipeline_eq (hinv : Inv zset h value s arrived) (hpc : s.pc i = .running) :
    partPipeline zset (h.groupIndex i) (h.part i) s.keys =
      (⟨stored zset h (arrived ++ [i]), s.keys.s⟩, arrived.length + 1, s.keys.s) := by
  have hnot : ¬ HasStored s i := fun hst => hst.2 hpc
  have hnew : i ∉ arrived := fun hmem => hnot ((hinv.arrived_iff i).1 hmem)
  obtain ⟨-, -, hkeys, -⟩ := hinv.collecting hnot
  rw [partPipeline, hkeys, addPart_stored hnew, stored_length, List.length_append,
    List.length_singleton]

/-- **The last part finds the size, and no other does**: the member that is
published last is published after the size is set. -/
theorem isComplete_iff (hinv : Inv zset h value s arrived) (hpc : s.pc i = .running) :
    isComplete (arrived.length + 1) s.keys.s = true ↔ arrived.length + 1 = h.size := by
  have hnot : ¬ HasStored s i := fun hst => hst.2 hpc
  have hnew : i ∉ arrived := fun hmem => hnot ((hinv.arrived_iff i).1 hmem)
  obtain ⟨-, -, hkeys, -⟩ := hinv.collecting hnot
  rw [hkeys, isComplete, decide_eq_true_iff]
  constructor
  · intro hsize
    dsimp only at hsize
    split_ifs at hsize
    exact (Option.some.inj hsize).symm
  · intro hlast
    have hnodup : (i :: arrived).Nodup := List.nodup_cons.2 ⟨hnew, hinv.nodup⟩
    have hsized : s.sized = true := by
      refine hinv.published.sized_of_published (le_antisymm hinv.published.published_le ?_)
      by_contra hlt
      rw [not_le] at hlt
      -- whoever is still to be published has stored its part, or is `i`
      have hmem := (perm_finRange hnodup hlast).mem_iff.2 (List.mem_finRange ⟨_, hlt⟩)
      have hwait := (hinv.published.waiting_iff ⟨_, hlt⟩).2 le_rfl
      rcases List.mem_cons.1 hmem with heq | hmem
      · rw [heq, hpc] at hwait
        cases hwait
      · exact ((hinv.arrived_iff _).1 hmem).1 hwait
    dsimp only
    rw [hsized, if_pos rfl, hlast]

theorem addPart (hinv : Inv zset h value s arrived) (hpc : s.pc i = .running) :
    Inv zset h value
      { s.move i (if isComplete (arrived.length + 1) s.keys.s then .counted (arrived.length + 1)
          else .finished) with
        keys := ⟨stored zset h (arrived ++ [i]), s.keys.s⟩ } (arrived ++ [i]) := by
  have hnot : ¬ HasStored s i := fun hst => hst.2 hpc
  have hnew : i ∉ arrived := fun hmem => hnot ((hinv.arrived_iff i).1 hmem)
  obtain ⟨hlen, hfin, hkeys, hevents⟩ := hinv.collecting hnot
  have hiff := hinv.isComplete_iff hpc
  have hnodup : (arrived ++ [i]).Nodup := by
    rw [List.nodup_append_comm]
    exact List.nodup_cons.2 ⟨hnew, hinv.nodup⟩
  have hlen' : (arrived ++ [i]).length = arrived.length + 1 := by simp
  have hwaiting : (if isComplete (arrived.length + 1) s.keys.s then
      Pc.counted (arrived.length + 1) else .finished) ≠ (.waiting : Pc V) := by
    split_ifs <;> simp
  have hrunning : (if isComplete (arrived.length + 1) s.keys.s then
      Pc.counted (arrived.length + 1) else .finished) ≠ (.running : Pc V) := by
    split_ifs <;> simp
  refine ⟨(hinv.published.move (by rw [hpc]; simp) hwaiting).frame _ _, hnodup,
    fun k => ?_, ?_⟩
  · by_cases hk : k = i
    · subst hk
      exact iff_of_true (by simp) (hasStored_move_self.2 ⟨hwaiting, hrunning⟩)
    · refine Iff.trans ?_ (hasStored_move_of_ne hk).symm
      rw [List.mem_append, List.mem_singleton, or_iff_left hk]
      exact hinv.arrived_iff k
  · by_cases hlast : arrived.length + 1 = h.size
    · have hsized : s.keys.s = some h.size := by
        have := hiff.2 hlast
        rw [isComplete, decide_eq_true_iff] at this
        rw [this, hlast]
      rw [hiff.2 hlast, if_pos rfl]
      refine .counted i (hlen'.trans hlast) (fun k hk => ?_) (by rw [hsized]) ?_ hevents
      · have hmem := (perm_finRange hnodup (hlen'.trans hlast)).mem_iff.2 (List.mem_finRange k)
        rw [List.mem_append, List.mem_singleton, or_iff_left hk] at hmem
        exact (move_pc_of_ne hk).trans (hfin k hmem)
      · exact move_pc_self.trans (by rw [hlast])
    · rw [Bool.eq_false_iff.2 (mt hiff.1 hlast), if_neg Bool.false_ne_true]
      refine .collecting (by omega) (fun k hk => ?_) (by rw [hkeys]; rfl) hevents
      by_cases hki : k = i
      · subst hki
        exact move_pc_self
      · rw [List.mem_append, List.mem_singleton, or_iff_left hki] at hk
        exact (move_pc_of_ne hki).trans (hfin k hk)

/-- The member that has stored the last part moves on; the others are done. -/
theorem move_firing (hinv : Inv zset h value s arrived) (hlen : arrived.length = h.size)
    {p : Pc V} (hwaiting : p ≠ .waiting) (hrunning : p ≠ .running) :
    Published (s.move i p) ∧ ∀ k, k ∈ arrived ↔ HasStored (s.move i p) k := by
  refine ⟨hinv.published.move (hinv.hasStored hlen i).1 hwaiting, fun k => ?_⟩
  by_cases hk : k = i
  · subst hk
    exact iff_of_true ((hinv.arrived_iff k).2 (hinv.hasStored hlen k))
      (hasStored_move_self.2 ⟨hwaiting, hrunning⟩)
  · exact (hinv.arrived_iff k).trans (hasStored_move_of_ne hk).symm

/-- The only member that has neither finished nor is still to store its part is
the one that stored the last. -/
theorem firing (hinv : Inv zset h value s arrived) (hst : HasStored s i)
    (hfin : s.pc i ≠ .finished) :
    arrived.length = h.size ∧ (∀ k, k ≠ i → s.pc k = .finished) ∧
      (s.pc i = .counted h.size ∧ s.keys = ⟨stored zset h arrived, some h.size⟩ ∧ s.events = [] ∨
        s.pc i = .fetched (results zset h value arrived) ∧ s.events = [] ∨
        s.pc i = .called ∧ s.events = [.delay (results zset h value arrived)]) := by
  cases hinv.phase with
  | collecting _ hall => exact absurd (hall i ((hinv.arrived_iff i).2 hst)) hfin
  | counted w hlen hothers hkeys hpc hevents =>
    obtain rfl : i = w := by_contra fun hne => hfin (hothers i hne)
    exact ⟨hlen, hothers, Or.inl ⟨hpc, hkeys, hevents⟩⟩
  | fetched w hlen hothers hpc hevents =>
    obtain rfl : i = w := by_contra fun hne => hfin (hothers i hne)
    exact ⟨hlen, hothers, Or.inr (Or.inl ⟨hpc, hevents⟩)⟩
  | called w hlen hothers hpc hevents =>
    obtain rfl : i = w := by_contra fun hne => hfin (hothers i hne)
    exact ⟨hlen, hothers, Or.inr (Or.inr ⟨hpc, hevents⟩)⟩
  | fired _ hall => exact absurd (hall i) hfin

theorem of_counted (hinv : Inv zset h value s arrived) {total : ℕ}
    (hpc : s.pc i = .counted total) :
    arrived.length = h.size ∧ (∀ k, k ≠ i → s.pc k = .finished) ∧ total = h.size ∧
      s.keys = ⟨stored zset h arrived, some h.size⟩ ∧ s.events = [] := by
  obtain ⟨hlen, hothers, ⟨hpc', hkeys, hevents⟩ | ⟨hpc', -⟩ | ⟨hpc', -⟩⟩ :=
    hinv.firing (i := i) (by rw [HasStored, hpc]; simp) (by rw [hpc]; simp)
  · rw [hpc] at hpc'
    exact ⟨hlen, hothers, Pc.counted.inj hpc', hkeys, hevents⟩
  · rw [hpc] at hpc'
    cases hpc'
  · rw [hpc] at hpc'
    cases hpc'

theorem of_fetched (hinv : Inv zset h value s arrived) {resl : List V}
    (hpc : s.pc i = .fetched resl) :
    arrived.length = h.size ∧ (∀ k, k ≠ i → s.pc k = .finished) ∧
      resl = results zset h value arrived ∧ s.events = [] := by
  obtain ⟨hlen, hothers, ⟨hpc', -⟩ | ⟨hpc', hevents⟩ | ⟨hpc', -⟩⟩ :=
    hinv.firing (i := i) (by rw [HasStored, hpc]; simp) (by rw [hpc]; simp)
  · rw [hpc] at hpc'
    cases hpc'
  · rw [hpc] at hpc'
    exact ⟨hlen, hothers, Pc.fetched.inj hpc', hevents⟩
  · rw [hpc] at hpc'
    cases hpc'

theorem of_called (hinv : Inv zset h value s arrived) (hpc : s.pc i = .called) :
    arrived.length = h.size ∧ (∀ k, k ≠ i → s.pc k = .finished) ∧
      s.events = [.delay (results zset h value arrived)] := by
  obtain ⟨hlen, hothers, ⟨hpc', -⟩ | ⟨hpc', -⟩ | ⟨-, hevents⟩⟩ :=
    hinv.firing (i := i) (by rw [HasStored, hpc]; simp) (by rw [hpc]; simp)
  · rw [hpc] at hpc'
    cases hpc'
  · rw [hpc] at hpc'
    cases hpc'
  · exact ⟨hlen, hothers, hevents⟩

end Inv

/-- **Every step keeps the invariant.** -/
theorem inv_step (hok : ∀ i, h.outcome i = .ok (value i)) {s t : Sys h} {a : Action h}
    {arrived : List (Fin h.size)} (hinv : Inv zset h value s arrived) (hstep : Step zset h s a t) :
    Inv zset h value t (arrived ++ a.arrival) := by
  cases hstep with
  | setChordSize _ hpub =>
    rw [Action.arrival, List.append_nil]
    exact hinv.setChordSize hpub
  | publish hlt hsized =>
    rw [Action.arrival, List.append_nil]
    exact hinv.publish hlt hsized
  | addPart hpc hpipe =>
    rw [hinv.partPipeline_eq hpc] at hpipe
    cases hpipe
    exact hinv.addPart hpc
  | @fetch i _ resl hpc hresl =>
    rw [Action.arrival, List.append_nil]
    obtain ⟨hlen, hothers, rfl, hkeys, hevents⟩ := hinv.of_counted hpc
    obtain ⟨hpub, harr⟩ := hinv.move_firing (i := i) (p := .fetched resl) hlen nofun nofun
    rw [hkeys, unpack_stored _ hok hlen.le] at hresl
    refine ⟨hpub, hinv.nodup, harr,
      .fetched i hlen (fun k hk => (move_pc_of_ne hk).trans (hothers k hk)) ?_ hevents⟩
    rw [move_pc_self, Except.ok.inj hresl]
  | fetchError hpc hresl =>
    obtain ⟨hlen, -, rfl, hkeys, -⟩ := hinv.of_counted hpc
    rw [hkeys, unpack_stored _ hok hlen.le] at hresl
    cases hresl
  | @callBody i resl hpc =>
    rw [Action.arrival, List.append_nil]
    obtain ⟨hlen, hothers, rfl, hevents⟩ := hinv.of_fetched hpc
    obtain ⟨hpub, harr⟩ := hinv.move_firing (i := i) (p := .called) hlen nofun nofun
    refine ⟨hpub.frame _ _, hinv.nodup, harr,
      .called i hlen (fun k hk => (move_pc_of_ne hk).trans (hothers k hk)) move_pc_self ?_⟩
    rw [hevents]
    rfl
  | @delete i hpc =>
    rw [Action.arrival, List.append_nil]
    obtain ⟨hlen, hothers, hevents⟩ := hinv.of_called hpc
    obtain ⟨hpub, harr⟩ := hinv.move_firing (i := i) (p := .finished) hlen nofun nofun
    refine ⟨hpub.frame _ _, hinv.nodup, harr, .fired hlen (fun k => ?_) hevents⟩
    by_cases hk : k = i
    · subst hk
      exact move_pc_self
    · exact (move_pc_of_ne hk).trans (hothers k hk)

/-- **Every run keeps the invariant**, with the arrivals there have been. -/
theorem inv_run (hok : ∀ i, h.outcome i = .ok (value i)) {as : List (Action h)} {s : Sys h}
    (hrun : Run (Step zset h) {} as s) : Inv zset h value s (as.flatMap Action.arrival) := by
  induction hrun with
  | nil => exact inv_init
  | snoc _ hlast ih =>
    rw [List.flatMap_append, List.flatMap_singleton]
    exact inv_step hok ih hlast

/-! ### Every run ends, and ends with the body called -/

/-- How many steps a member has before it. -/
def Pc.weight : Pc V → ℕ
  | waiting => 5
  | running => 4
  | counted _ => 3
  | fetched _ => 2
  | called => 1
  | finished => 0

/-- How many steps the system has before it. -/
def remainingSteps (s : Sys h) : ℕ := (∑ i, (s.pc i).weight) + if s.sized then 0 else 1

theorem sum_weight_move (s : Sys h) (i : Fin h.size) (p : Pc V) :
    (∑ k, ((s.move i p).pc k).weight) + (s.pc i).weight = (∑ k, (s.pc k).weight) + p.weight :=
  sum_comp_update Pc.weight s.pc i p

theorem remainingSteps_move_lt {s : Sys h} {i : Fin h.size} {p : Pc V}
    (hlt : p.weight < (s.pc i).weight) : remainingSteps (s.move i p) < remainingSteps s := by
  have hsum := sum_weight_move s i p
  have hsized : (s.move i p).sized = s.sized := rfl
  rw [remainingSteps, remainingSteps, hsized]
  omega

/-- Every step is one of them. -/
theorem remainingSteps_lt {s t : Sys h} {a : Action h} {arrived : List (Fin h.size)}
    (hinv : Inv zset h value s arrived) (hstep : Step zset h s a t) :
    remainingSteps t < remainingSteps s := by
  cases hstep with
  | setChordSize hsized _ => simp [remainingSteps, hsized]
  | publish hlt _ =>
    refine remainingSteps_move_lt (s := s) (i := ⟨s.published, hlt⟩) ?_
    rw [(hinv.published.waiting_iff _).2 le_rfl]
    exact Nat.lt_succ_self 4
  | @addPart i _ count size hpc _ =>
    refine remainingSteps_move_lt (s := s) (i := i) ?_
    rw [hpc]
    split_ifs
    · exact Nat.lt_succ_self 3
    · exact Nat.zero_lt_succ 3
  | @fetch i _ _ hpc _ =>
    refine remainingSteps_move_lt ?_
    rw [hpc]
    exact Nat.lt_succ_self 2
  | @fetchError i _ _ hpc _ =>
    refine remainingSteps_move_lt (s := s) (i := i) ?_
    rw [hpc]
    exact Nat.zero_lt_succ 2
  | @callBody i _ hpc =>
    refine remainingSteps_move_lt (s := s) (i := i) ?_
    rw [hpc]
    exact Nat.lt_succ_self 1
  | @delete i hpc =>
    refine remainingSteps_move_lt (s := s) (i := i) ?_
    rw [hpc]
    exact Nat.lt_succ_self 0

/-- **Until the body has been called and the keys deleted, somebody can move.** -/
theorem fired_of_terminal (hok : ∀ i, h.outcome i = .ok (value i)) {s : Sys h}
    {arrived : List (Fin h.size)} (hinv : Inv zset h value s arrived)
    (hterm : ∀ a t, ¬ Step zset h s a t) :
    s.events = [.delay (results zset h value arrived)] := by
  cases hinv.phase with
  | collecting hlen hfin hkeys hevents =>
    exfalso
    obtain ⟨i, hi⟩ : ∃ i, i ∉ arrived := by
      by_contra hall
      push Not at hall
      have hle := ((List.nodup_finRange h.size).subperm fun i _ => hall i).length_le
      rw [List.length_finRange] at hle
      omega
    rw [hinv.arrived_iff, HasStored, not_and_or, not_not, not_not] at hi
    rcases hi with hwait | hrun
    · have hlt : s.published < h.size :=
        ((hinv.published.waiting_iff i).1 hwait).trans_lt i.isLt
      by_cases hset : s.published + 1 = h.size ∧ s.sized = false
      · exact hterm _ _ (.setChordSize hset.2 hset.1)
      · refine hterm _ _ (.publish hlt fun hpub => ?_)
        by_contra hsized
        exact hset ⟨hpub, Bool.eq_false_iff.2 hsized⟩
    · exact hterm _ _ (.addPart hrun rfl)
  | counted w hlen hothers hkeys hpc hevents =>
    have hresl := unpack_stored zset hok hlen.le (some h.size)
    rw [← hkeys] at hresl
    exact absurd (Step.fetch hpc hresl) (hterm _ _)
  | fetched w hlen hothers hpc hevents => exact absurd (Step.callBody hpc) (hterm _ _)
  | called w hlen hothers hpc hevents => exact absurd (Step.delete hpc) (hterm _ _)
  | fired hlen hall hevents => exact hevents

end

/-- **The body of a chord is called exactly once, in every interleaving.**  The
members are successful, with the results `value`.

* Until the body is called nothing is, and then it has been called once, all
  members have stored their parts, and its argument is the list of all results:
  in the order of `group_index` with `result_chord_ordered`, and otherwise in the
  order in which the parts were stored.
* A run that cannot go on has called it.
* No run goes on for ever. -/
theorem chord_calls_body_once (zset : Bool) (h : Header V) (value : Fin h.size → V)
    (hok : ∀ i, h.outcome i = .ok (value i)) :
    (∀ as s, Run (Step zset h) {} as s → s.events = [] ∨
      ∃ resl, s.events = [.delay resl] ∧ (∀ i, HasStored s i) ∧
        resl.Perm ((List.finRange h.size).map value) ∧
        resl = if zset then orderedResults h value
          else (as.flatMap Action.arrival).map value) ∧
    (∀ as s, Run (Step zset h) {} as s → (∀ a t, ¬ Step zset h s a t) →
      ∃ resl, s.events = [.delay resl]) ∧
    (∀ as s, Run (Step zset h) {} as s → as.length ≤ 5 * h.size + 1) := by
  refine ⟨fun as s hrun => ?_, fun as s hrun hterm => ?_, fun as s hrun => ?_⟩
  · have hinv : Inv zset h value s (as.flatMap Action.arrival) := inv_run hok hrun
    have hcalled : (as.flatMap Action.arrival).length = h.size →
        s.events = [.delay (results zset h value (as.flatMap Action.arrival))] →
        ∃ resl, s.events = [.delay resl] ∧ (∀ i, HasStored s i) ∧
          resl.Perm ((List.finRange h.size).map value) ∧
          resl = if zset then orderedResults h value
            else (as.flatMap Action.arrival).map value := by
      intro hlen hevents
      refine ⟨_, hevents, hinv.hasStored hlen, results_perm value hinv.nodup hlen, ?_⟩
      cases zset with
      | true => exact results_ordered value hinv.nodup hlen
      | false =>
        rw [results, arrange_false]
        rfl
    cases hinv.phase with
    | collecting _ _ _ hevents => exact Or.inl hevents
    | counted _ _ _ _ _ hevents => exact Or.inl hevents
    | fetched _ _ _ _ hevents => exact Or.inl hevents
    | called _ hlen _ _ hevents => exact Or.inr (hcalled hlen hevents)
    | fired hlen _ hevents => exact Or.inr (hcalled hlen hevents)
  · exact ⟨_, fired_of_terminal hok (inv_run hok hrun) hterm⟩
  · have hle := hrun.length_add_le
      (I := fun s => ∃ arrived, Inv zset h value s arrived) (μ := remainingSteps)
      (fun ⟨_, hinv⟩ hstep => ⟨_, inv_step hok hinv hstep⟩)
      (fun ⟨_, hinv⟩ hstep => remainingSteps_lt hinv hstep) ⟨[], inv_init⟩
    have hinit : remainingSteps ({} : Sys h) = 5 * h.size + 1 := by
      simp [remainingSteps, Pc.weight]
      omega
    omega

/-- Two members, `"a"` with index 0 and `"b"` with index 1. -/
def twoMembers : Header String where
  size := 2
  size_pos := by decide
  sig _ := .task "add" {}
  simple _ := rfl
  tid i := i
  tid_injective := Fin.val_injective
  groupIndex i := i
  groupIndex_injective := Fin.val_injective
  outcome i := .ok (if i.val = 0 then "a" else "b")

theorem twoMembers_calls_body_once :
    (∀ i, twoMembers.outcome i = .ok (if i.val = 0 then "a" else "b")) ∧
      ∀ as s, Run (Step true twoMembers) {} as s → (∀ a t, ¬ Step true twoMembers s a t) →
        ∃ resl, s.events = [.delay resl] :=
  ⟨fun _ => rfl, (chord_calls_body_once true twoMembers
    (fun i => if i.val = 0 then "a" else "b") fun _ => rfl).2.1⟩

/-- Without `result_chord_ordered`, a second member that stores its part first
comes first, and not in the order of the indices. -/
theorem twoMembers_by_arrival :
    orderedResults twoMembers (fun i => if i.val = 0 then "a" else "b") = ["a", "b"] ∧
      ∃ as s, Run (Step false twoMembers) {} as s ∧ s.events = [.delay ["b", "a"]] := by
  refine ⟨rfl, _, _, ((((((Run.single (.publish (s := {}) (by decide) nofun)).snoc
    (.setChordSize rfl rfl)).snoc (.publish (by decide) fun _ => rfl)).snoc
    (.addPart (i := ⟨1, by decide⟩) rfl rfl)).snoc (.addPart (i := ⟨0, by decide⟩) rfl rfl)).snoc
    (.fetch (i := ⟨0, by decide⟩) rfl rfl)).snoc (.callBody (i := ⟨0, by decide⟩) rfl), rfl⟩

end Redis
end Celery
