/-
# `celery/beat.py`: setting up the schedule

A beat scheduler starts with the entries that are stored and the `beat_schedule` of the
configuration: `ScheduleEntry.__init__` and `update` (lines 114-159),
`install_default_entries` (lines 268-277), `setup_schedule`, `update_from_dict` and
`merge_inplace` of `Scheduler` (lines 443-492), and `setup_schedule` and `_create_schedule`
of `PersistentScheduler` (lines 551-613).

`merge_inplace` removes the entries that are not configured, and updates or adds those that
are, so that a stored entry keeps its history (`lookup_mergeInplace`).  The one default entry,
`celery.backend_cleanup`, is not configured as a rule.  `Scheduler` adds it first, and the
merge removes it.  `PersistentScheduler` merges first, which removes the stored one, and adds
it again without its history.  `setup_keeps_iff` says when neither matters.

A schedule says what the time is.  The types of raw schedules, schedules, values and times
are arbitrary, and so is what `maybe_schedule` makes of a raw one.
-/

import Celery.Canvas.Dict
import Mathlib.Data.List.Nodup

namespace Celery
namespace Beat
namespace Setup

open Canvas (Kwargs dictSet lookup_dictSet lookup_filter)

/-! ## Entries -/

/-- What an entry is made from: a dict of `beat_schedule`. -/
structure EntryDict (R V T : Type) where
  task : Option String
  schedule : Option R
  args : List V
  kwargs : List (String × V)
  options : List (String × V)
  relative : Bool
  lastRunAt : Option T
  totalRunCount : Option ℕ

/-- The editable fields of a `ScheduleEntry`. -/
structure Editable (S V : Type) where
  task : Option String
  schedule : Option S
  args : List V
  kwargs : List (String × V)
  options : List (String × V)
deriving DecidableEq

/-- `ScheduleEntry`. -/
structure Entry (S V T : Type) where
  name : String
  editable : Editable S V
  lastRunAt : T
  totalRunCount : ℕ
deriving DecidableEq

/-- The world of a scheduler. -/
structure Env (R S V T : Type) where
  /-- `maybe_schedule(schedule, relative)`, for a schedule that is given. -/
  maybeSchedule : R → Bool → S
  /-- `schedule.now()`, or `app.now()` without a schedule. -/
  now : Option S → T
  /-- `crontab('0', '4', '*')`. -/
  fourOClock : R
  /-- A number among the options. -/
  number : ℕ → V

variable {R S V T : Type} (env : Env R S V T)

/-- `ScheduleEntry(name=name, ...)`. -/
def Entry.new (name : String) (d : EntryDict R V T) : Entry S V T :=
  let schedule := d.schedule.map fun schedule => env.maybeSchedule schedule d.relative
  { name := name
    editable := ⟨d.task, schedule, d.args, d.kwargs, d.options⟩
    lastRunAt := d.lastRunAt.getD (env.now schedule)
    totalRunCount := d.totalRunCount.getD 0 }

/-- `ScheduleEntry.update`. -/
def Entry.update (e other : Entry S V T) : Entry S V T := { e with editable := other.editable }

/-! ## Schedulers -/

/-- The configuration of the app, and whether its backend supports `autoexpire`.
`resultExpires` says if there is such a time, and that it is not zero. -/
structure Conf (R V T : Type) where
  beatSchedule : Kwargs (EntryDict R V T)
  resultExpires : Bool
  supportsAutoexpire : Bool
  timezone : Option String
  enableUtc : Bool

variable (conf : Conf R V T)

/-- A name is configured. -/
def Conf.Has (name : String) : Prop := (conf.beatSchedule.1.lookup name).isSome

/-- The name of the default entry. -/
def cleanup : String := "celery.backend_cleanup"

/-- The default entry. -/
def cleanupDict : EntryDict R V T where
  task := some cleanup
  schedule := some env.fourOClock
  args := []
  kwargs := []
  options := [("expires", env.number (12 * 3600))]
  relative := false
  lastRunAt := none
  totalRunCount := none

/-- The default entry is needed. -/
def Conf.Needs : Prop := conf.resultExpires = true ∧ conf.supportsAutoexpire = false

instance : Decidable conf.Needs := inferInstanceAs (Decidable (_ ∧ _))

/-- `install_default_entries`, on the schedule. -/
def installDefaultEntries (schedule : List (String × Entry S V T)) :
    List (String × Entry S V T) :=
  if conf.Needs ∧ (schedule.lookup cleanup).isNone then
    dictSet cleanup (Entry.new env cleanup (cleanupDict env)) schedule
  else schedule

/-- `merge_inplace`. -/
def mergeInplace (b : Kwargs (EntryDict R V T)) (schedule : List (String × Entry S V T)) :
    List (String × Entry S V T) :=
  let schedule := schedule.filter fun entry => (b.1.lookup entry.1).isSome
  b.1.foldl (fun schedule d =>
    let entry := Entry.new env d.1 d.2
    match schedule.lookup d.1 with
    | some stored => dictSet d.1 (stored.update entry) schedule
    | none => dictSet d.1 entry schedule) schedule

/-- `Scheduler.setup_schedule`. -/
def setupSchedule (data : List (String × Entry S V T)) : List (String × Entry S V T) :=
  mergeInplace env conf.beatSchedule (installDefaultEntries env conf data)

/-- The schedule db: each key with its value, if it is there and can be read. -/
structure Store (S V T : Type) where
  entries : Option (List (String × Entry S V T))
  version : Option String
  tz : Option (Option String)
  utcEnabled : Option Bool

/-- A store after `clear`, or a new one. -/
def Store.empty : Store S V T := ⟨none, none, none, none⟩

/-- `_create_schedule`. -/
def createSchedule (store : Store S V T) : Store S V T :=
  match store.entries with
  | none => { store with entries := some [] }
  | some _ =>
    if store.version = none ∨ store.tz = none ∨ store.utcEnabled = none then .empty else store

/-- The store that `_open_schedule` opens, or a new one if that is corrupted, unless it was
written with other settings. -/
def openStore (opened : Option (Store S V T)) : Store S V T :=
  let store := createSchedule (opened.getD .empty)
  let storedTz := store.tz.join
  let store := if storedTz ≠ none ∧ storedTz ≠ conf.timezone then .empty else store
  if store.utcEnabled ≠ none ∧ store.utcEnabled ≠ some conf.enableUtc then .empty else store

/-- `PersistentScheduler.setup_schedule`. -/
def persistentSetupSchedule (version : String) (opened : Option (Store S V T)) : Store S V T :=
  let entries := (openStore conf opened).entries.getD []
  let entries := installDefaultEntries env conf (mergeInplace env conf.beatSchedule entries)
  ⟨some entries, some version, some conf.timezone, some conf.enableUtc⟩

/-! ## What a merge leaves -/

section Merge

variable {env} {conf} {schedule : List (String × Entry S V T)} {name : String}

/-- A stored entry is updated from a new one. -/
def Entry.updated (stored : Option (Entry S V T)) (entry : Entry S V T) : Entry S V T :=
  stored.elim entry fun stored => stored.update entry

/-- **What a merge leaves**: under a configured name the stored entry with the configured
fields, or a new one; and under no other name. -/
theorem lookup_mergeInplace (b : Kwargs (EntryDict R V T))
    (schedule : List (String × Entry S V T)) (name : String) :
    (mergeInplace env b schedule).lookup name =
      (b.1.lookup name).map fun d => Entry.updated (schedule.lookup name) (Entry.new env name d) := by
  obtain ⟨b, hnodup⟩ := b
  have hfold : ∀ (b' : List (String × EntryDict R V T)) (schedule : List (String × Entry S V T)),
      (b'.map Prod.fst).Nodup →
      (b'.foldl (fun schedule d =>
        let entry := Entry.new env d.1 d.2
        match schedule.lookup d.1 with
        | some stored => dictSet d.1 (stored.update entry) schedule
        | none => dictSet d.1 entry schedule) schedule).lookup name =
      ((b'.lookup name).map fun d =>
        Entry.updated (schedule.lookup name) (Entry.new env name d)).or (schedule.lookup name) := by
    intro b'
    induction b' with
    | nil => exact fun _ _ => rfl
    | cons d b' ih =>
      intro schedule hnodup
      obtain ⟨hfirst, hrest⟩ := List.nodup_cons.mp hnodup
      have hset : (match schedule.lookup d.1 with
          | some stored => dictSet d.1 (stored.update (Entry.new env d.1 d.2)) schedule
          | none => dictSet d.1 (Entry.new env d.1 d.2) schedule) =
          dictSet d.1 (Entry.updated (schedule.lookup d.1) (Entry.new env d.1 d.2)) schedule := by
        cases schedule.lookup d.1 with
        | none => rfl
        | some stored => rfl
      rw [List.foldl_cons, ih _ hrest]
      dsimp only
      rw [hset, lookup_dictSet, Canvas.lookup_cons_eq_ite]
      by_cases hname : name = d.1
      · have hnone : b'.lookup name = none := by
          rw [List.lookup_eq_none_iff]
          intro entry hentry
          have hne : name ≠ entry.1 := by
            rintro heq
            exact hfirst (hname ▸ heq ▸ List.mem_map_of_mem hentry)
          simpa using hne
        rw [if_pos hname, if_pos hname, hnone, hname]
        rfl
      · rw [if_neg hname, if_neg hname]
  rw [mergeInplace, hfold b _ hnodup, lookup_filter fun name => (b.lookup name).isSome]
  cases hd : b.lookup name with
  | none => simp
  | some d => simp

theorem lookup_installDefaultEntries (schedule : List (String × Entry S V T)) (name : String) :
    (installDefaultEntries env conf schedule).lookup name =
      if name = cleanup ∧ conf.Needs then
        some ((schedule.lookup cleanup).getD (Entry.new env cleanup (cleanupDict env)))
      else schedule.lookup name := by
  rw [installDefaultEntries]
  by_cases hneeds : conf.Needs
  · cases hstored : schedule.lookup cleanup with
    | none =>
      rw [if_pos ⟨hneeds, rfl⟩, lookup_dictSet]
      simp only [hneeds, and_true]
      rfl
    | some stored =>
      rw [if_neg (by simp)]
      by_cases hname : name = cleanup
      · rw [if_pos ⟨hname, hneeds⟩, hname, hstored]
        rfl
      · rw [if_neg fun h => hname h.1]
  · rw [if_neg fun h => hneeds h.1, if_neg fun h => hneeds h.2]

end Merge

/-! ## Defaults and history -/

/-- What an entry of the schedule should be made from: it is configured, or the default. -/
def configured (name : String) : Option (EntryDict R V T) :=
  (conf.beatSchedule.1.lookup name).or
    (if name = cleanup ∧ conf.Needs then some (cleanupDict env) else none)

/-- **Setting up keeps defaults and history.**  The names are those configured and the
default ones; what was stored under one of them keeps its history; and the editable fields
are those configured. -/
structure SetUp (stored final : List (String × Entry S V T)) : Prop where
  names : ∀ name, (final.lookup name).isSome ↔ conf.Has name ∨ name = cleanup ∧ conf.Needs
  history : ∀ name e e', stored.lookup name = some e → final.lookup name = some e' →
    e'.lastRunAt = e.lastRunAt ∧ e'.totalRunCount = e.totalRunCount
  editable : ∀ name d e', configured env conf name = some d → final.lookup name = some e' →
    e'.editable = (Entry.new env name d).editable

/-- The timezone and UTC settings are those with which the store was written. -/
def Store.Unchanged (store : Store S V T) : Prop :=
  store.entries ≠ none →
    store.version ≠ none ∧ store.tz = some conf.timezone ∧ store.utcEnabled = some conf.enableUtc

/-- What is stored in a db that can be opened. -/
def storedEntries (opened : Option (Store S V T)) : List (String × Entry S V T) :=
  (opened.bind Store.entries).getD []

/-- A default entry that is stored is as if it were new: never run, and of now. -/
def NeverRun (stored : List (String × Entry S V T)) : Prop :=
  ∀ e, stored.lookup cleanup = some e →
    e.lastRunAt = env.now (some (env.maybeSchedule env.fourOClock false)) ∧ e.totalRunCount = 0

section SetUp

variable {env} {conf} {stored : List (String × Entry S V T)}

/-- A merged entry has the configured fields, and the history of the stored one. -/
theorem updated_spec (stored : Option (Entry S V T)) (entry : Entry S V T) :
    (Entry.updated stored entry).editable = entry.editable ∧
      ∀ e, stored = some e → (Entry.updated stored entry).lastRunAt = e.lastRunAt ∧
        (Entry.updated stored entry).totalRunCount = e.totalRunCount := by
  cases stored with
  | none => exact ⟨rfl, fun _ h => nomatch h⟩
  | some stored =>
    refine ⟨rfl, ?_⟩
    rintro e ⟨⟩
    exact ⟨rfl, rfl⟩

/-- For a configured name the default plays no part. -/
theorem configured_of_lookup {name : String} {d : EntryDict R V T}
    (hd : conf.beatSchedule.1.lookup name = some d) : configured env conf name = some d := by
  rw [configured, hd, Option.some_or]

/-- A merge of a schedule that has the history of what was stored sets it up, where the
default is not needed or configured. -/
theorem setUp_of_lookup {final base : List (String × Entry S V T)}
    (hneeds : ¬ conf.Needs ∨ conf.Has cleanup)
    (hbase : ∀ name e, stored.lookup name = some e → base.lookup name = some e)
    (hfinal : ∀ name, final.lookup name = (conf.beatSchedule.1.lookup name).map fun d =>
      Entry.updated (base.lookup name) (Entry.new env name d)) :
    SetUp env conf stored final := by
  have hdefault : ∀ name, name = cleanup ∧ conf.Needs → conf.Has name := by
    rintro name ⟨rfl, h⟩
    exact hneeds.resolve_left fun hnot => hnot h
  refine ⟨fun name => ?_, fun name e e' he he' => ?_, fun name d e' hd he' => ?_⟩
  · rw [hfinal, Option.isSome_map]
    exact (or_iff_left_of_imp (hdefault name)).symm
  · rw [hfinal] at he'
    obtain ⟨d, -, rfl⟩ := Option.map_eq_some_iff.mp he'
    exact (updated_spec _ _).2 e (hbase name e he)
  · rw [hfinal] at he'
    obtain ⟨d', hd', rfl⟩ := Option.map_eq_some_iff.mp he'
    rw [configured_of_lookup hd'] at hd
    obtain rfl := Option.some_inj.mp hd
    exact (updated_spec _ _).1

/-- **`Scheduler`** keeps defaults and history as long as the default is not needed, or is
configured. -/
theorem setUp_setupSchedule_iff (data : List (String × Entry S V T)) :
    SetUp env conf data (setupSchedule env conf data) ↔ ¬ conf.Needs ∨ conf.Has cleanup := by
  constructor
  · intro h
    by_cases hneeds : conf.Needs
    · have hsome := (h.names cleanup).mpr (Or.inr ⟨rfl, hneeds⟩)
      rw [setupSchedule, lookup_mergeInplace, Option.isSome_map] at hsome
      exact Or.inr hsome
    · exact Or.inl hneeds
  · intro hneeds
    refine setUp_of_lookup hneeds (fun name e he => ?_)
      fun name => lookup_mergeInplace conf.beatSchedule (installDefaultEntries env conf data) name
    rw [lookup_installDefaultEntries]
    split
    next hname =>
      rw [← hname.1, he]
      rfl
    next => exact he

variable (env) in
/-- The default entry comes last, and so it is new wherever it is needed and not configured. -/
theorem lookup_installed_merged (stored : List (String × Entry S V T)) (hneeds : conf.Needs)
    (hnone : conf.beatSchedule.1.lookup cleanup = none) (name : String) :
    (installDefaultEntries env conf (mergeInplace env conf.beatSchedule stored)).lookup name =
      if name = cleanup then some (Entry.new env cleanup (cleanupDict env))
      else (conf.beatSchedule.1.lookup name).map fun d =>
        Entry.updated (stored.lookup name) (Entry.new env name d) := by
  rw [lookup_installDefaultEntries, lookup_mergeInplace, lookup_mergeInplace, hnone]
  simp only [hneeds, and_true]
  rfl

/-- Without a history of the default, nothing is lost when it is new. -/
theorem setUp_of_neverRun {final : List (String × Entry S V T)} (hneeds : conf.Needs)
    (hnone : conf.beatSchedule.1.lookup cleanup = none) (hnever : NeverRun env stored)
    (hfinal : ∀ name, final.lookup name =
      if name = cleanup then some (Entry.new env cleanup (cleanupDict env))
      else (conf.beatSchedule.1.lookup name).map fun d =>
        Entry.updated (stored.lookup name) (Entry.new env name d)) :
    SetUp env conf stored final := by
  refine ⟨fun name => ?_, fun name e e' he he' => ?_, fun name d e' hd he' => ?_⟩
  · rw [hfinal]
    split
    next hname => simp [hname, hneeds]
    next hname =>
      rw [Option.isSome_map, and_comm, or_iff_left fun h => hname h.2]
      exact Iff.rfl
  · rw [hfinal] at he'
    split at he'
    next hname =>
      obtain rfl := Option.some_inj.mp he'
      obtain ⟨hlast, hcount⟩ := hnever e (hname ▸ he)
      exact ⟨hlast.symm, hcount.symm⟩
    next =>
      obtain ⟨d, -, rfl⟩ := Option.map_eq_some_iff.mp he'
      exact (updated_spec _ _).2 e he
  · rw [hfinal] at he'
    split at he'
    next hname =>
      obtain rfl := Option.some_inj.mp he'
      rw [configured, hname, hnone, Option.none_or, if_pos ⟨rfl, hneeds⟩] at hd
      obtain rfl := Option.some_inj.mp hd
      rw [hname]
    next =>
      obtain ⟨d', hd', rfl⟩ := Option.map_eq_some_iff.mp he'
      rw [configured_of_lookup hd'] at hd
      obtain rfl := Option.some_inj.mp hd
      exact (updated_spec _ _).1

/-- **`PersistentScheduler`** does so too where there is no history of the default. -/
theorem setUp_persistent_iff (stored : List (String × Entry S V T)) :
    SetUp env conf stored
        (installDefaultEntries env conf (mergeInplace env conf.beatSchedule stored)) ↔
      ¬ conf.Needs ∨ conf.Has cleanup ∨ NeverRun env stored := by
  by_cases hneeds : ¬ conf.Needs ∨ conf.Has cleanup
  · have hcond : ¬ conf.Needs ∨ conf.Has cleanup ∨ NeverRun env stored :=
      hneeds.imp_right Or.inl
    refine iff_of_true (setUp_of_lookup hneeds (fun _ _ he => he) fun name => ?_) hcond
    rw [lookup_installDefaultEntries, lookup_mergeInplace, lookup_mergeInplace]
    split
    next hname =>
      obtain ⟨d, hd⟩ := Option.isSome_iff_exists.mp
        (hneeds.resolve_left fun hnot => hnot hname.2 : conf.Has cleanup)
      rw [hname.1, hd]
      rfl
    next => rfl
  · simp only [not_or, not_not] at hneeds
    obtain ⟨hneeds, hnot⟩ := hneeds
    have hnone : conf.beatSchedule.1.lookup cleanup = none := Option.not_isSome_iff_eq_none.mp hnot
    have hfinal := lookup_installed_merged env stored hneeds hnone
    constructor
    · intro h
      refine Or.inr (Or.inr fun e he => ?_)
      have hhistory := h.history cleanup e _ he ((hfinal cleanup).trans (if_pos rfl))
      exact ⟨hhistory.1.symm, hhistory.2.symm⟩
    · intro hcond
      have hnever : NeverRun env stored :=
        (hcond.resolve_left fun hno => hno hneeds).resolve_left hnot
      exact setUp_of_neverRun hneeds hnone hnever hfinal

/-- With the settings unchanged, nothing that is stored is cleared. -/
theorem entries_openStore {opened : Option (Store S V T)}
    (h : ∀ store ∈ opened, store.Unchanged conf) :
    (openStore conf opened).entries.getD [] = storedEntries opened := by
  have hreset : ∀ (p q : Prop) [Decidable p] [Decidable q] (store : Store S V T),
      store.entries = some [] → (if q then Store.empty else
        if p then Store.empty else store).entries.getD [] = [] := by
    intro p q _ _ store hstore
    split
    · rfl
    · split
      · rfl
      · rw [hstore, Option.getD_some]
  cases opened with
  | none => rfl
  | some store =>
    cases hentries : store.entries with
    | none =>
      have hcreate : createSchedule store = { store with entries := some [] } := by
        rw [createSchedule, hentries]
      rw [storedEntries, Option.bind_some, hentries, openStore, Option.getD_some, hcreate]
      exact hreset _ _ _ rfl
    | some entries =>
      obtain ⟨hversion, htz, hutc⟩ := h store rfl (hentries ▸ Option.some_ne_none entries)
      have hcreate : createSchedule store = store := by
        rw [createSchedule, hentries]
        exact if_neg (by simp [hversion, htz, hutc])
      have htzKept : ¬ (store.tz.join ≠ none ∧ store.tz.join ≠ conf.timezone) := by
        rw [htz]
        exact fun hne => hne.2 rfl
      have hutcKept :
          ¬ (store.utcEnabled ≠ none ∧ store.utcEnabled ≠ some conf.enableUtc) :=
        fun hne => hne.2 hutc
      rw [storedEntries, Option.bind_some, hentries, openStore, Option.getD_some, hcreate,
        if_neg htzKept, if_neg hutcKept, hentries]

/-- **When setting up a schedule keeps defaults and history.**  With the timezone and UTC
settings unchanged, `Scheduler` does so exactly if the default entry is not needed or is
configured, and `PersistentScheduler` also if it had no history yet. -/
theorem setup_keeps_iff (env : Env R S V T) (conf : Conf R V T)
    (data : List (String × Entry S V T)) (version : String) (opened : Option (Store S V T))
    (h : ∀ store ∈ opened, store.Unchanged conf) :
    (SetUp env conf data (setupSchedule env conf data) ↔ ¬ conf.Needs ∨ conf.Has cleanup) ∧
      ∃ final, (persistentSetupSchedule env conf version opened).entries = some final ∧
        (SetUp env conf (storedEntries opened) final ↔
          ¬ conf.Needs ∨ conf.Has cleanup ∨ NeverRun env (storedEntries opened)) :=
  ⟨setUp_setupSchedule_iff data, _, rfl,
    (entries_openStore h).symm ▸ setUp_persistent_iff (storedEntries opened)⟩

/-- An environment where schedules are numbers and the time is 100. -/
def at100 : Env ℕ ℕ ℕ ℕ := ⟨fun schedule _ => schedule, fun _ => 100, 4, fun n => n⟩

/-- Results expire, in a backend that leaves it to the default entry. -/
def oneTask : Conf ℕ ℕ ℕ where
  beatSchedule := ⟨[("add", ⟨some "tasks.add", some 30, [1, 2], [], [], false, none, none⟩)],
    List.nodup_singleton _⟩
  resultExpires := true
  supportsAutoexpire := false
  timezone := none
  enableUtc := true

/-- What beat has left: the task has been run nine times, and the default entry three times. -/
def leftAt90 : List (String × Entry ℕ ℕ ℕ) :=
  [("add", ⟨"add", ⟨some "tasks.add", some 60, [1, 2], [], []⟩, 90, 9⟩),
    (cleanup, ⟨cleanup, ⟨some cleanup, some 4, [], [], [("expires", 43200)]⟩, 80, 3⟩)]

/-- The db with these entries. -/
def storeAt90 : Store ℕ ℕ ℕ := ⟨some leftAt90, some "5.6", some none, some true⟩

/-- The hypothesis of `setup_keeps_iff` is satisfiable: these settings are unchanged. -/
theorem setup_keeps_at90 :
    (SetUp at100 oneTask leftAt90 (setupSchedule at100 oneTask leftAt90) ↔
      ¬ oneTask.Needs ∨ oneTask.Has cleanup) ∧
    ∃ final, (persistentSetupSchedule at100 oneTask "5.6" (some storeAt90)).entries = some final ∧
      (SetUp at100 oneTask (storedEntries (some storeAt90)) final ↔
        ¬ oneTask.Needs ∨ oneTask.Has cleanup ∨ NeverRun at100 (storedEntries (some storeAt90))) :=
  setup_keeps_iff at100 oneTask leftAt90 "5.6" (some storeAt90) fun store hstore => by
    obtain rfl := Option.some_inj.mp hstore
    exact fun _ => ⟨Option.some_ne_none _, rfl, rfl⟩

/-- **`Scheduler` drops the default entry, and `PersistentScheduler` its history**: of the
entry that was run three times, the last time at 80, nothing is left with the one, and a new
one that was never run with the other. -/
theorem leftAt90_not_setUp :
    (setupSchedule at100 oneTask leftAt90).lookup cleanup = none ∧
      ¬ SetUp at100 oneTask leftAt90 (setupSchedule at100 oneTask leftAt90) ∧
      (persistentSetupSchedule at100 oneTask "5.6" (some storeAt90)).entries.map
        (fun final => (final.lookup cleanup).map fun e => (e.lastRunAt, e.totalRunCount)) =
          some (some (100, 0)) ∧
      ¬ ∃ final,
        (persistentSetupSchedule at100 oneTask "5.6" (some storeAt90)).entries = some final ∧
          SetUp at100 oneTask leftAt90 final := by
  have hdropped : (setupSchedule at100 oneTask leftAt90).lookup cleanup = none := by decide
  have hreset : (persistentSetupSchedule at100 oneTask "5.6" (some storeAt90)).entries.map
      (fun final => (final.lookup cleanup).map fun e => (e.lastRunAt, e.totalRunCount)) =
        some (some (100, 0)) := by decide
  refine ⟨hdropped, fun h => ?_, hreset, ?_⟩
  · have hsome := (h.names cleanup).mpr (Or.inr ⟨rfl, rfl, rfl⟩)
    rw [hdropped] at hsome
    cases hsome
  · rintro ⟨final, hfinal, h⟩
    rw [hfinal, Option.map_some, Option.some_inj] at hreset
    obtain ⟨e, he, heq⟩ := Option.map_eq_some_iff.mp hreset
    have hcount := (h.history cleanup _ e rfl he).2
    exact absurd (hcount.symm.trans (Prod.mk.inj heq).2) (by decide)

end SetUp

end Setup
end Beat
end Celery
