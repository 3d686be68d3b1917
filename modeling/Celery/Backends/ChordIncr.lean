/-
# `celery/backends/base.py`: chords on a store that counts

A chord of simple members on a key/value backend with `implements_incr`, as a
transition system: `_apply_chord_incr` has saved the `GroupResult` of the header,
and each member ends in one call of `on_chord_part_return` (lines 1333-1401).

A call restores the group, from the cache of its worker or from the store,
increments the counter, and compares it with the number of members.  The one that
finds them equal joins the results, calls the body, and deletes the group and the
counter.  Each of these is a step of its own, so that any two calls can
interleave anywhere between them.  Keys do not expire, and the operations of the
store do not fail; joining the results and calling the body may.

Whoever increments has restored the group before, so the group is deleted only
when no call needs it any more, and the counter reaches the size in exactly one
call.  What that call reports depends on what goes wrong: a body that cannot be
called is called *and* announced as failed (`chord_completes_once`).
-/

import Celery.Backends.Redis

namespace Celery
namespace ChordIncr

open Canvas Transition Redis

variable {V W : Type}

/-- A chord and its calls of `on_chord_part_return`, one for each member, each in
a worker. -/
structure Chord (V W : Type) where
  gid : TaskId
  /-- The results of the `GroupResult` that was saved. -/
  tids : List TaskId
  tids_ne : tids ≠ []
  /-- The `chord_size` of the requests. -/
  chordSize : Option ℕ
  chordSize_eq : ∀ size ∈ chordSize, size = tids.length
  worker : Fin tids.length → W
  /-- What joining the results comes to: their values, or an exception and the
  first member that `_failed_join_report` names. -/
  join : Fin tids.length → List TaskId → Except (Exc V × Option TaskId) (List V)
  /-- What `callback.delay` raises. -/
  delay : Fin tids.length → List V → Option (Exc V)
  /-- `repr` of an exception. -/
  repr : Exc V → String

namespace Chord

variable (c : Chord V W)

/-- How many members, and calls, there are. -/
def size : ℕ := c.tids.length

/-- The `size` a call compares the counter with. -/
def partSize (deps : List TaskId) : ℕ := c.chordSize.getD deps.length

/-- The group is gone. -/
def missingError : Event V :=
  let gid := c.gid
  .chordErrorFromStack (.chordError s!"GroupResult {gid} no longer exists" none)

/-- The results cannot be joined. -/
def joinError (exc : Exc V) (culprit : Option TaskId) : Event V :=
  let shown := c.repr exc
  let reason := match culprit with
    | some id => s!"Dependency {id} raised {shown}"
    | none => shown
  .chordErrorFromStack (.chordError reason (some exc))

/-- The body is called, and if that raises this is announced. -/
def callBody (i : Fin c.size) (ret : List V) : List (Event V) :=
  .delay ret :: match c.delay i ret with
    | none => []
    | some exc =>
      let shown := c.repr exc
      [.chordErrorFromStack (.chordError s!"Callback error: {shown}" (some exc))]

/-- What the call that finds the chord complete has to report. -/
def report (i : Fin c.size) : List (Event V) :=
  match c.join i c.tids with
  | .ok ret => c.callBody i ret
  | .error (exc, culprit) => [c.joinError exc culprit]

theorem partSize_tids : c.partSize c.tids = c.size := by
  unfold partSize
  cases h : c.chordSize with
  | none => rfl
  | some size => exact c.chordSize_eq size (by rw [h]; rfl)

theorem size_pos : 0 < c.size := List.length_pos_of_ne_nil c.tids_ne

end Chord

/-- Where a call is. -/
inductive Pc (V : Type) where
  | start
  /-- It has not found the group. -/
  | missing
  | restored (deps : List TaskId)
  /-- It has incremented the counter to the size. -/
  | counted (deps : List TaskId)
  | joined (ret : List V)
  /-- It has called the body, or announced its failure. -/
  | called
  /-- It has deleted the group. -/
  | deleted
  | finished

/-- The keys of the store, the caches of the workers and the calls.  `completions`
are the calls that have seen the counter equal the size. -/
structure Sys (c : Chord V W) where
  group : Option (List TaskId)
  counter : ℕ := 0
  cache : W → Option (List TaskId)
  pc : Fin c.size → Pc V := fun _ => .start
  completions : List (Fin c.size) := []
  events : List (Event V) := []

/-- The header is published: the group is saved, and some workers may have it in
their cache. -/
def Chord.published (c : Chord V W) (cached : W → Bool) : Sys c where
  group := some c.tids
  cache w := if cached w then some c.tids else none

/-- One operation of a call. -/
inductive Action (c : Chord V W) where
  | restore (i : Fin c.size)
  | incr (i : Fin c.size)
  | join (i : Fin c.size)
  | delay (i : Fin c.size)
  | deleteGroup (i : Fin c.size)
  | deleteCounter (i : Fin c.size)

variable {c : Chord V W}

/-- A call gets somewhere. -/
def Sys.move (s : Sys c) (i : Fin c.size) (p : Pc V) : Sys c :=
  { s with pc := Function.update s.pc i p }

/-- **The steps of `on_chord_part_return`.**  A cache may be off, or have lost the
group, so that a call can always ask the store. -/
inductive Step [DecidableEq W] (c : Chord V W) : Sys c → Action c → Sys c → Prop where
  | restoreCached {s i deps} : s.pc i = .start → s.cache (c.worker i) = some deps →
      Step c s (.restore i) (s.move i (.restored deps))
  | restore {s i deps} : s.pc i = .start → s.group = some deps →
      Step c s (.restore i)
        { s.move i (.restored deps) with
          cache := Function.update s.cache (c.worker i) (some deps) }
  | restoreMissing {s i} : s.pc i = .start → s.group = none →
      Step c s (.restore i) { s.move i .missing with events := s.events ++ [c.missingError] }
  | incr {s i deps} : s.pc i = .restored deps → s.counter + 1 ≠ c.partSize deps →
      Step c s (.incr i) { s.move i .finished with counter := s.counter + 1 }
  | incrComplete {s i deps} : s.pc i = .restored deps → s.counter + 1 = c.partSize deps →
      Step c s (.incr i)
        { s.move i (.counted deps) with
          counter := s.counter + 1, completions := s.completions ++ [i] }
  | join {s i deps ret} : s.pc i = .counted deps → c.join i deps = .ok ret →
      Step c s (.join i) (s.move i (.joined ret))
  | joinError {s i deps exc culprit} : s.pc i = .counted deps →
      c.join i deps = .error (exc, culprit) →
      Step c s (.join i) { s.move i .called with events := s.events ++ [c.joinError exc culprit] }
  | delay {s i ret} : s.pc i = .joined ret →
      Step c s (.delay i) { s.move i .called with events := s.events ++ c.callBody i ret }
  | deleteGroup {s i} : s.pc i = .called →
      Step c s (.deleteGroup i)
        { s.move i .deleted with
          group := none, cache := Function.update s.cache (c.worker i) none }
  | deleteCounter {s i} : s.pc i = .deleted →
      Step c s (.deleteCounter i) { s.move i .finished with counter := 0 }

/-! ### The invariant -/

section

variable {s : Sys c} {i k : Fin c.size} {p : Pc V}

@[simp] theorem move_pc_self : (s.move i p).pc i = p := Function.update_self ..

@[simp] theorem move_pc_of_ne (hk : k ≠ i) : (s.move i p).pc k = s.pc k :=
  Function.update_of_ne hk ..

end

/-- What the call that completes the chord has reported so far. -/
inductive Reports (s : Sys c) (w : Fin c.size) : Prop where
  | counted : s.pc w = .counted c.tids → s.events = [] → Reports s w
  | joined {ret : List V} : s.pc w = .joined ret → c.join w c.tids = .ok ret → s.events = [] →
      Reports s w
  | reported : s.pc w = .called ∨ s.pc w = .deleted ∨ s.pc w = .finished →
      s.events = c.report w → Reports s w

namespace Reports

variable {s : Sys c} {w : Fin c.size}

theorem of_counted (h : Reports s w) {deps : List TaskId} (hpc : s.pc w = .counted deps) :
    deps = c.tids ∧ s.events = [] := by
  cases h with
  | counted hpc' hevents =>
    rw [hpc] at hpc'
    exact ⟨Pc.counted.inj hpc', hevents⟩
  | joined hpc' => simp [hpc] at hpc'
  | reported hpc' => simp [hpc] at hpc'

theorem of_joined (h : Reports s w) {ret : List V} (hpc : s.pc w = .joined ret) :
    c.join w c.tids = .ok ret ∧ s.events = [] := by
  cases h with
  | counted hpc' => simp [hpc] at hpc'
  | joined hpc' hret hevents =>
    rw [hpc] at hpc'
    rw [Pc.joined.inj hpc']
    exact ⟨hret, hevents⟩
  | reported hpc' => simp [hpc] at hpc'

theorem events_of (h : Reports s w)
    (hpc : s.pc w = .called ∨ s.pc w = .deleted ∨ s.pc w = .finished) :
    s.events = c.report w := by
  cases h with
  | counted hpc' => simp [hpc'] at hpc
  | joined hpc' => simp [hpc'] at hpc
  | reported _ hevents => exact hevents

end Reports

/-- How far the chord is, once `arrived` have incremented the counter: parts are
counted, or `w` has counted the last one. -/
inductive Phase (s : Sys c) (arrived : Finset (Fin c.size)) : Prop where
  | counting : arrived.card < c.size → (∀ i ∈ arrived, s.pc i = .finished) →
      s.group = some c.tids → s.counter = arrived.card → s.completions = [] → s.events = [] →
      Phase s arrived
  | completing (w : Fin c.size) : arrived.card = c.size → (∀ i, i ≠ w → s.pc i = .finished) →
      s.completions = [w] → Reports s w → Phase s arrived

/-- A call has yet to increment the counter. -/
def Waits (s : Sys c) (i : Fin c.size) : Prop :=
  s.pc i = .start ∨ s.pc i = .restored c.tids

/-- The invariant of the chord. -/
structure Inv (s : Sys c) (arrived : Finset (Fin c.size)) : Prop where
  cache : ∀ w deps, s.cache w = some deps → deps = c.tids
  waits : ∀ i, i ∉ arrived → Waits s i
  phase : Phase s arrived

theorem inv_published (cached : W → Bool) : Inv (c.published cached) ∅ := by
  refine ⟨fun w deps hw => ?_, fun i _ => Or.inl rfl, .counting ?_ (by simp) rfl rfl rfl rfl⟩
  · simp only [Chord.published] at hw
    split at hw
    · exact (Option.some_inj.mp hw).symm
    · cases hw
  · rw [Finset.card_empty]
    exact c.size_pos

namespace Inv

variable {s : Sys c} {arrived : Finset (Fin c.size)} {i : Fin c.size}

theorem mem_of_card (hcard : arrived.card = c.size) (i : Fin c.size) : i ∈ arrived := by
  have huniv : arrived = Finset.univ := Finset.eq_univ_of_card _ (by rw [hcard, Fintype.card_fin])
  rw [huniv]
  exact Finset.mem_univ i

/-- A cache that is set to the group, or to nothing, holds nothing else. -/
theorem cache_update [DecidableEq W] (hinv : Inv s arrived) (w : W) {v : Option (List TaskId)}
    (hv : ∀ deps, v = some deps → deps = c.tids) (w' : W) (deps : List TaskId)
    (h : Function.update s.cache w v w' = some deps) : deps = c.tids := by
  by_cases hw : w' = w
  · subst hw
    rw [Function.update_self] at h
    exact hv deps h
  · rw [Function.update_of_ne hw] at h
    exact hinv.cache w' deps h

/-- **A call that has yet to increment the counter finds the group**: the chord is
still counting. -/
theorem counting (hinv : Inv s arrived) (hstart : s.pc i = .start ∨ ∃ deps, s.pc i = .restored deps) :
    i ∉ arrived ∧ arrived.card < c.size ∧ (∀ i ∈ arrived, s.pc i = .finished) ∧
      s.group = some c.tids ∧ s.counter = arrived.card ∧ s.completions = [] ∧ s.events = [] := by
  cases hinv.phase with
  | counting hcard hfin hgroup hcounter hcompl hevents =>
    refine ⟨fun hi => ?_, hcard, hfin, hgroup, hcounter, hcompl, hevents⟩
    have hpc := hfin i hi
    rcases hstart with h | ⟨deps, h⟩ <;> rw [h] at hpc <;> cases hpc
  | completing w hcard hothers hcompl hrep =>
    exfalso
    by_cases hiw : i = w
    · subst hiw
      cases hrep with
      | counted hpc _ => rcases hstart with h | ⟨deps, h⟩ <;> rw [h] at hpc <;> cases hpc
      | joined hpc _ _ => rcases hstart with h | ⟨deps, h⟩ <;> rw [h] at hpc <;> cases hpc
      | reported hpc _ =>
        rcases hstart with h | ⟨deps, h⟩ <;> rw [h] at hpc <;> rcases hpc with hpc | hpc | hpc <;>
          cases hpc
    · have hpc := hothers i hiw
      rcases hstart with h | ⟨deps, h⟩ <;> rw [h] at hpc <;> cases hpc

/-- A call on its way from the counter to the end is the one that completes the
chord. -/
theorem completing (hinv : Inv s arrived) (hstart : s.pc i ≠ .start)
    (hrestored : ∀ deps, s.pc i ≠ .restored deps) (hfin : s.pc i ≠ .finished) :
    arrived.card = c.size ∧ (∀ k, k ≠ i → s.pc k = .finished) ∧ s.completions = [i] ∧
      Reports s i := by
  have harrived : i ∈ arrived := by
    by_contra hi
    exact (hinv.waits i hi).elim hstart (hrestored _)
  cases hinv.phase with
  | counting _ hall => exact absurd (hall i harrived) hfin
  | completing w hcard hothers hcompl hrep =>
    obtain rfl : i = w := by_contra fun hne => hfin (hothers i hne)
    exact ⟨hcard, hothers, hcompl, hrep⟩

/-- A call that has yet to increment the counter restores the group. -/
theorem restore (hinv : Inv s arrived) (hpc : s.pc i = .start) {cache : W → Option (List TaskId)}
    (hcache : ∀ w deps, cache w = some deps → deps = c.tids) :
    Inv { s.move i (.restored c.tids) with cache := cache } arrived := by
  obtain ⟨hi, hcard, hfin, hgroup, hcounter, hcompl, hevents⟩ := hinv.counting (Or.inl hpc)
  refine ⟨hcache, fun k hk => ?_, .counting hcard (fun k hk => ?_) hgroup hcounter hcompl hevents⟩
  · by_cases hki : k = i
    · subst hki
      exact Or.inr move_pc_self
    · have hpcK : (s.move i (.restored c.tids)).pc k = s.pc k := move_pc_of_ne hki
      rcases hinv.waits k hk with h | h
      · exact Or.inl (hpcK.trans h)
      · exact Or.inr (hpcK.trans h)
  · have hki : k ≠ i := fun heq => hi (heq ▸ hk)
    exact (move_pc_of_ne hki).trans (hfin k hk)

/-- What a call that has restored the group has. -/
theorem deps_eq (hinv : Inv s arrived) {deps : List TaskId} (hpc : s.pc i = .restored deps) :
    deps = c.tids := by
  obtain ⟨hi, -⟩ := hinv.counting (Or.inr ⟨deps, hpc⟩)
  rcases hinv.waits i hi with h | h
  · rw [hpc] at h
    cases h
  · rw [hpc] at h
    exact Pc.restored.inj h

/-- The counter goes up. -/
theorem incr (hinv : Inv s arrived) (hpc : s.pc i = .restored c.tids)
    (hne : s.counter + 1 ≠ c.size) :
    Inv { s.move i .finished with counter := s.counter + 1 } (insert i arrived) := by
  obtain ⟨hi, hcard, hfin, hgroup, hcounter, hcompl, hevents⟩ :=
    hinv.counting (Or.inr ⟨_, hpc⟩)
  have hcard' : (insert i arrived).card = arrived.card + 1 := Finset.card_insert_of_notMem hi
  refine ⟨hinv.cache, fun k hk => ?_, .counting ?_ (fun k hk => ?_) hgroup ?_ hcompl hevents⟩
  · obtain ⟨hki, hk⟩ := not_or.mp (mt Finset.mem_insert.mpr hk)
    have hpcK : (s.move i .finished).pc k = s.pc k := move_pc_of_ne hki
    rcases hinv.waits k hk with h | h
    · exact Or.inl (hpcK.trans h)
    · exact Or.inr (hpcK.trans h)
  · omega
  · by_cases hki : k = i
    · subst hki
      exact move_pc_self
    · exact (move_pc_of_ne hki).trans (hfin k (Finset.mem_of_mem_insert_of_ne hk hki))
  · change s.counter + 1 = _
    omega

/-- The counter reaches the size. -/
theorem incrComplete (hinv : Inv s arrived) (hpc : s.pc i = .restored c.tids)
    (heq : s.counter + 1 = c.size) :
    Inv { s.move i (.counted c.tids) with
      counter := s.counter + 1, completions := s.completions ++ [i] } (insert i arrived) := by
  obtain ⟨hi, hcard, hfin, hgroup, hcounter, hcompl, hevents⟩ :=
    hinv.counting (Or.inr ⟨_, hpc⟩)
  have hcard' : (insert i arrived).card = c.size := by
    rw [Finset.card_insert_of_notMem hi]
    omega
  refine ⟨hinv.cache, fun k hk => absurd (mem_of_card hcard' k) hk,
    .completing i hcard' (fun k hk => ?_) ?_ (.counted move_pc_self hevents)⟩
  · have hmem := Finset.mem_of_mem_insert_of_ne (mem_of_card hcard' k) hk
    exact (move_pc_of_ne hk).trans (hfin k hmem)
  · change s.completions ++ [i] = [i]
    rw [hcompl]
    rfl

theorem not_missing (hinv : Inv s arrived) (i : Fin c.size) : s.pc i ≠ .missing := by
  intro hpc
  obtain ⟨-, -, -, hrep⟩ := hinv.completing (i := i) (by simp [hpc]) (by simp [hpc]) (by simp [hpc])
  cases hrep with
  | counted hpc' => simp [hpc] at hpc'
  | joined hpc' => simp [hpc] at hpc'
  | reported hpc' => simp [hpc] at hpc'

theorem completions_le (hinv : Inv s arrived) : s.completions.length ≤ 1 := by
  cases hinv.phase with
  | counting _ _ _ _ hcompl => simp [hcompl]
  | completing _ _ _ hcompl => simp [hcompl]

/-- Once all calls have returned, one has completed the chord. -/
theorem of_finished (hinv : Inv s arrived) (hfin : ∀ i, s.pc i = .finished) :
    ∃ i, s.completions = [i] ∧ s.events = c.report i := by
  cases hinv.phase with
  | counting hcard =>
    obtain ⟨i, hi⟩ : ∃ i, i ∉ arrived := by
      by_contra hall
      have huniv : arrived = Finset.univ :=
        Finset.eq_univ_of_forall fun i => not_not.mp (not_exists.mp hall i)
      rw [huniv, Finset.card_univ, Fintype.card_fin] at hcard
      exact lt_irrefl _ hcard
    have hwait := hinv.waits i hi
    simp [Waits, hfin i] at hwait
  | completing w _ _ hcompl hrep =>
    exact ⟨w, hcompl, hrep.events_of (Or.inr (Or.inr (hfin w)))⟩

/-- The call that completes the chord moves on, whatever becomes of the keys. -/
theorem advance (hcard : arrived.card = c.size)
    (hothers : ∀ k, k ≠ i → s.pc k = .finished) (hcompl : s.completions = [i]) {t : Sys c}
    {p : Pc V} (hpc : t.pc = (s.move i p).pc) (htcompl : t.completions = s.completions)
    (hcache : ∀ w deps, t.cache w = some deps → deps = c.tids) (hrep : Reports t i) :
    Inv t arrived := by
  refine ⟨hcache, fun k hk => absurd (mem_of_card hcard k) hk,
    .completing i hcard (fun k hk => ?_) (htcompl.trans hcompl) hrep⟩
  rw [hpc, move_pc_of_ne hk]
  exact hothers k hk

end Inv

variable [DecidableEq W]

/-- **Every step keeps the invariant.** -/
theorem inv_step {s t : Sys c} {a : Action c} {arrived : Finset (Fin c.size)}
    (hinv : Inv s arrived) (hstep : Step c s a t) : ∃ arrived', Inv t arrived' := by
  cases hstep with
  | restoreCached hpc hcached =>
    rw [hinv.cache _ _ hcached]
    exact ⟨arrived, hinv.restore hpc hinv.cache⟩
  | @restore i deps hpc hgroup =>
    obtain ⟨-, -, -, hgroup', -⟩ := hinv.counting (Or.inl hpc)
    obtain rfl : deps = c.tids := Option.some_inj.mp (hgroup.symm.trans hgroup')
    exact ⟨arrived, hinv.restore hpc (hinv.cache_update _ fun deps h => (Option.some_inj.mp h).symm)⟩
  | restoreMissing hpc hgroup =>
    obtain ⟨-, -, -, hgroup', -⟩ := hinv.counting (Or.inl hpc)
    rw [hgroup] at hgroup'
    cases hgroup'
  | incr hpc hne =>
    obtain rfl := hinv.deps_eq hpc
    exact ⟨_, hinv.incr hpc (by rwa [c.partSize_tids] at hne)⟩
  | incrComplete hpc heq =>
    obtain rfl := hinv.deps_eq hpc
    exact ⟨_, hinv.incrComplete hpc (by rwa [c.partSize_tids] at heq)⟩
  | @join i deps ret hpc hret =>
    obtain ⟨hcard, hothers, hcompl, hrep⟩ :=
      hinv.completing (i := i) (by simp [hpc]) (by simp [hpc]) (by simp [hpc])
    obtain ⟨rfl, hevents⟩ := hrep.of_counted hpc
    exact ⟨arrived, .advance hcard hothers hcompl rfl rfl hinv.cache
      (.joined move_pc_self hret hevents)⟩
  | @joinError i deps exc culprit hpc herr =>
    obtain ⟨hcard, hothers, hcompl, hrep⟩ :=
      hinv.completing (i := i) (by simp [hpc]) (by simp [hpc]) (by simp [hpc])
    obtain ⟨rfl, hevents⟩ := hrep.of_counted hpc
    refine ⟨arrived, .advance hcard hothers hcompl rfl rfl hinv.cache
      (.reported (Or.inl move_pc_self) ?_)⟩
    simp only [Chord.report, herr, hevents, List.nil_append]
  | @delay i ret hpc =>
    obtain ⟨hcard, hothers, hcompl, hrep⟩ :=
      hinv.completing (i := i) (by simp [hpc]) (by simp [hpc]) (by simp [hpc])
    obtain ⟨hret, hevents⟩ := hrep.of_joined hpc
    refine ⟨arrived, .advance hcard hothers hcompl rfl rfl hinv.cache
      (.reported (Or.inl move_pc_self) ?_)⟩
    simp only [Chord.report, hret, hevents, List.nil_append]
  | @deleteGroup i hpc =>
    obtain ⟨hcard, hothers, hcompl, hrep⟩ :=
      hinv.completing (i := i) (by simp [hpc]) (by simp [hpc]) (by simp [hpc])
    exact ⟨arrived, .advance hcard hothers hcompl rfl rfl (hinv.cache_update _ nofun)
      (.reported (Or.inr (Or.inl move_pc_self)) (hrep.events_of (Or.inl hpc)))⟩
  | @deleteCounter i hpc =>
    obtain ⟨hcard, hothers, hcompl, hrep⟩ :=
      hinv.completing (i := i) (by simp [hpc]) (by simp [hpc]) (by simp [hpc])
    exact ⟨arrived, .advance hcard hothers hcompl rfl rfl hinv.cache
      (.reported (Or.inr (Or.inr move_pc_self)) (hrep.events_of (Or.inr (Or.inl hpc))))⟩

/-! ### Every run ends, and ends with the chord completed once -/

/-- How many steps a call has before it. -/
def Pc.weight : Pc V → ℕ
  | start => 6
  | missing => 0
  | restored _ => 5
  | counted _ => 4
  | joined _ => 3
  | called => 2
  | deleted => 1
  | finished => 0

/-- How many steps the system has before it. -/
def remainingSteps (s : Sys c) : ℕ := ∑ i, (s.pc i).weight

/-- Every step takes its call further. -/
theorem step_moves {s t : Sys c} {a : Action c} (hstep : Step c s a t) :
    ∃ i p, t.pc = (s.move i p).pc ∧ p.weight < (s.pc i).weight := by
  cases hstep with
  | restoreCached hpc _ => exact ⟨_, _, rfl, by simp [hpc, Pc.weight]⟩
  | restore hpc _ => exact ⟨_, _, rfl, by simp [hpc, Pc.weight]⟩
  | restoreMissing hpc _ => exact ⟨_, _, rfl, by simp [hpc, Pc.weight]⟩
  | incr hpc _ => exact ⟨_, _, rfl, by simp [hpc, Pc.weight]⟩
  | incrComplete hpc _ => exact ⟨_, _, rfl, by simp [hpc, Pc.weight]⟩
  | join hpc _ => exact ⟨_, _, rfl, by simp [hpc, Pc.weight]⟩
  | joinError hpc _ => exact ⟨_, _, rfl, by simp [hpc, Pc.weight]⟩
  | delay hpc => exact ⟨_, _, rfl, by simp [hpc, Pc.weight]⟩
  | deleteGroup hpc => exact ⟨_, _, rfl, by simp [hpc, Pc.weight]⟩
  | deleteCounter hpc => exact ⟨_, _, rfl, by simp [hpc, Pc.weight]⟩

theorem remainingSteps_lt {s t : Sys c} {a : Action c} (hstep : Step c s a t) :
    remainingSteps t < remainingSteps s := by
  obtain ⟨i, p, hpc, hlt⟩ := step_moves hstep
  have hsum := sum_comp_update Pc.weight s.pc i p
  rw [remainingSteps, hpc, remainingSteps]
  simp only [Sys.move]
  omega

/-- All calls have returned. -/
def Finished (s : Sys c) : Prop := ∀ i, s.pc i = .finished

/-- A chord that is not finished goes on. -/
theorem progress {s : Sys c} {arrived : Finset (Fin c.size)} (hinv : Inv s arrived)
    (hfin : ¬ Finished s) : ∃ a t, Step c s a t := by
  obtain ⟨i, hi⟩ := not_forall.mp hfin
  cases hpc : s.pc i with
  | start =>
    obtain ⟨-, -, -, hgroup, -⟩ := hinv.counting (Or.inl hpc)
    exact ⟨_, _, .restore hpc hgroup⟩
  | missing => exact absurd hpc (hinv.not_missing i)
  | restored deps =>
    by_cases heq : s.counter + 1 = c.partSize deps
    · exact ⟨_, _, .incrComplete hpc heq⟩
    · exact ⟨_, _, .incr hpc heq⟩
  | counted deps =>
    cases hjoin : c.join i deps with
    | ok ret => exact ⟨_, _, .join hpc hjoin⟩
    | error e => exact ⟨_, _, .joinError hpc hjoin⟩
  | joined ret => exact ⟨_, _, .delay hpc⟩
  | called => exact ⟨_, _, .deleteGroup hpc⟩
  | deleted => exact ⟨_, _, .deleteCounter hpc⟩
  | finished => exact absurd hpc hi

/-- **A chord on a counting store completes once.**  In every interleaving of the
steps of its calls, no call finds the group missing and at most one sees the
counter equal the size.  No run has more than six steps a call, and every run can
be finished; once it is, exactly one call `i` has seen the counter equal the size,
and what was invoked is what `i` had to report: `callback.delay` once if the
results could be joined, and `chord_error_from_stack` once if they could not, or if
`callback.delay` raised. -/
theorem chord_completes_once (cached : W → Bool) {as : List (Action c)} {s : Sys c}
    (h : Run (Step c) (c.published cached) as s) :
    (∀ i, s.pc i ≠ .missing) ∧ s.completions.length ≤ 1 ∧ as.length ≤ 6 * c.size ∧
      (∃ bs t, Run (Step c) s bs t ∧ Finished t) ∧
      (Finished s → ∃ i, s.completions = [i] ∧ s.events = c.report i) := by
  obtain ⟨arrived, hinv⟩ : ∃ arrived, Inv s arrived :=
    h.invariant (P := fun _ => True) (I := fun s => ∃ arrived, Inv s arrived)
      (fun ⟨_, hinv⟩ _ hstep => inv_step hinv hstep) ⟨∅, inv_published cached⟩ fun _ _ => trivial
  refine ⟨hinv.not_missing, hinv.completions_le, ?_, ?_, hinv.of_finished⟩
  · have hle := h.length_add_le (I := fun _ => True) (μ := remainingSteps) (fun _ _ => trivial)
      (fun _ hstep => remainingSteps_lt hstep) trivial
    have hpub : remainingSteps (c.published cached) = 6 * c.size := by
      simp [remainingSteps, Chord.published, Pc.weight, Nat.mul_comm]
    omega
  · exact exists_run_of_progress (I := fun s => ∃ arrived, Inv s arrived) (μ := remainingSteps)
      (fun ⟨_, hinv⟩ hstep => inv_step hinv hstep) (fun _ hstep => remainingSteps_lt hstep)
      (fun ⟨_, hinv⟩ hfin => progress hinv hfin) s ⟨arrived, hinv⟩

/-- A chord of three members, on two workers. -/
def addThree : Chord ℕ Bool where
  gid := 0
  tids := [1, 2, 3]
  tids_ne := nofun
  chordSize := some 3
  chordSize_eq := by simp
  worker i := i.1 == 2
  join _ _ := .ok [10, 20, 30]
  delay _ _ := none
  repr _ := ""

/-- The place of a member. -/
def addThreeMember (i : ℕ) (h : i < 3) : Fin addThree.size := ⟨i, h⟩

/-- The calls of the first and the third member overlap with that of the second, which is the last
one at the counter. -/
def addThreeCalls : List (Action addThree) :=
  [.restore (addThreeMember 1 (by decide)), .restore (addThreeMember 0 (by decide)),
    .restore (addThreeMember 2 (by decide)), .incr (addThreeMember 2 (by decide)),
    .incr (addThreeMember 0 (by decide)), .incr (addThreeMember 1 (by decide)),
    .join (addThreeMember 1 (by decide)), .delay (addThreeMember 1 (by decide)),
    .deleteGroup (addThreeMember 1 (by decide)), .deleteCounter (addThreeMember 1 (by decide))]

theorem chord_completes_once_addThree :
    ∃ s, Run (Step addThree) (addThree.published fun _ => false) addThreeCalls s ∧
      s.completions.length ≤ 1 ∧ (∃ i, s.completions = [i] ∧ s.events = addThree.report i) ∧
      s.events = [.delay [10, 20, 30]] := by
  have h : Run (Step addThree) (addThree.published fun _ => false) addThreeCalls _ :=
    .snoc (.snoc (.snoc (.snoc (.snoc (.snoc (.snoc (.snoc (.snoc (.snoc .nil
      (.restore rfl rfl)) (.restoreCached rfl rfl)) (.restore rfl rfl)) (.incr rfl (by decide)))
      (.incr rfl (by decide))) (.incrComplete rfl rfl)) (.join rfl rfl)) (.delay rfl))
      (.deleteGroup rfl)) (.deleteCounter rfl)
  obtain ⟨-, hle, -, -, hfin⟩ := chord_completes_once (fun _ => false) h
  refine ⟨_, h, hle, hfin fun i => ?_, rfl⟩
  match i with
  | ⟨0, _⟩ => rfl
  | ⟨1, _⟩ => rfl
  | ⟨2, _⟩ => rfl

/-- A chord of one member whose body cannot be sent. -/
def unsent : Chord ℕ Unit where
  gid := 0
  tids := [1]
  tids_ne := nofun
  chordSize := none
  chordSize_eq := nofun
  worker _ := ()
  join _ _ := .ok [1]
  delay _ _ := some .encodeError
  repr _ := "EncodeError()"

/-- Its member. -/
def unsentMember : Fin unsent.size := ⟨0, Nat.zero_lt_one⟩

/-- The call of its member. -/
def unsentCall : List (Action unsent) :=
  [.restore unsentMember, .incr unsentMember, .join unsentMember, .delay unsentMember,
    .deleteGroup unsentMember, .deleteCounter unsentMember]

/-- **The body is called and announced as failed.**  Both are invoked. -/
theorem chord_both_invoked :
    ∃ s, Run (Step unsent) (unsent.published fun _ => false) unsentCall s ∧ Finished s ∧
      s.events = [.delay [1],
        .chordErrorFromStack (.chordError "Callback error: EncodeError()" (some .encodeError))] := by
  have h : Run (Step unsent) (unsent.published fun _ => false) unsentCall _ :=
    .snoc (.snoc (.snoc (.snoc (.snoc (.snoc .nil (.restore rfl rfl)) (.incrComplete rfl rfl))
      (.join rfl rfl)) (.delay rfl)) (.deleteGroup rfl)) (.deleteCounter rfl)
  refine ⟨_, h, fun i => ?_, rfl⟩
  obtain rfl : i = unsentMember := @Subsingleton.elim (Fin 1) _ i unsentMember
  rfl

end ChordIncr
end Celery
