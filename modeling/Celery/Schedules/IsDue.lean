/-
# `celery/schedules.py`: whether a crontab is due

`crontab.is_due` (lines 642-690) asks for the next run up to three times: from
`last_run_at`, to see whether one was missed, from a microsecond before the starting
deadline, to see whether one is recent enough, and from now, for the time of the
next check.  Each time the clock is read again.

Matching times are whole minutes, so a run after the minute of a time is a run after
that time (`runsAfter_eq`), and the first run after `now - deadline - 1 µs` is the
first one that is not before `now - deadline`.  That makes the three answers fit
together: while the clock stands, a crontab is due exactly if it has run neither
before nor at a matching time within the deadline.  Which datetimes are computed
depends on what is found on the way, and where one of them is out of the years 1 to
9999 `is_due` raises (`isDue_spec`), as it does for a run that was missed and a deadline
of three thousand years (`isDue_overflow`).
-/

import Celery.Library.Readings
import Celery.Schedules.NextRun

namespace Celery

open Gregorian Readings

/-- A computation that reads the clock, and may raise. -/
abbrev Clocked (α : Type) : Type := Reads Datetime PyError α

namespace Crontab

variable (c : Crontab)

/-- `crontab.remaining_estimate`, in microseconds. -/
def remainingEstimate (lastRunAt : Datetime) : Clocked ℤ := do
  let now ← Reads.now
  let (start, endsIn, now) ← Reads.lift (c.remainingDelta lastRunAt now)
  let endDate ← Reads.lift (endsIn.radd start)
  Reads.lift (remaining endDate now)

/-- `deadline_since`: a microsecond before `now - deadline`, in the zone of `now`. -/
def deadlineSince (now : Datetime) (deadline : ℕ) : Except PyError Datetime := do
  let now ← maybeMakeAware now c.tz true
  let utc ← now.astimezone .utc
  let since ← utc.add (-(deadline + 1))
  since.astimezone (now.tzinfo.getD .utc)

/-- `has_passed_deadline`: no run is in `[now - deadline, now]`. -/
def hasPassedDeadline (deadline : Option ℕ) (remSecs : ℤ) : Clocked Bool :=
  match deadline with
  | none => pure false
  | some d =>
    if remSecs < 0 then do
      let now ← Reads.now
      let since ← Reads.lift (c.deadlineSince now d)
      let rem ← c.remainingEstimate since
      return decide (0 < rem)
    else pure false

/-- `crontab.is_due`, with `beat_cron_starting_deadline` and all times in microseconds. -/
def isDue (deadline : Option ℕ) (lastRunAt : Datetime) : Clocked (Bool × ℤ) := do
  let remSecs ← c.remainingEstimate lastRunAt
  let passed ← c.hasPassedDeadline deadline remSecs
  let due := decide (max remSecs 0 = 0) && !passed
  if due || passed then do
    let now ← Reads.now
    let rem ← c.remainingEstimate now
    return (due, max rem 0)
  else return (due, max remSecs 0)

variable {c} {last : Datetime}

/-! ## The first run after an instant -/

/-- `r` is the first run of the crontab after the instant `i`. -/
def FirstAfter (c : Crontab) (i : ℤ) (r : Datetime) : Prop :=
  IsLeast {t | c.Occurs t ∧ i < t.instant} r

/-- Runs are at whole minutes: one after the minute of `last` is after `last`. -/
theorem floorMinute_lt_iff_instant (htz : last.tzinfo = some c.tz) {t : Datetime}
    (ht : c.Occurs t) : last.floorMinute < t ↔ last.instant < t.instant := by
  have hsecond := last.second_lt
  have hmicro := last.microsecond_lt
  rw [← Datetime.lt_iff_instant, Datetime.lt_iff_wall (htz.trans ht.1.symm),
    Datetime.lt_iff_wall (show last.floorMinute.tzinfo = t.tzinfo from htz.trans ht.1.symm)]
  simp only [Datetime.wall, Datetime.floorMinute, Datetime.timeOfDay, ht.2.1, ht.2.2.1]
  omega

theorem runsAfter_eq (htz : last.tzinfo = some c.tz) :
    c.RunsAfter last = {t | c.Occurs t ∧ last.instant < t.instant} := by
  ext t
  exact and_congr_right fun ht => floorMinute_lt_iff_instant htz ht

theorem FirstAfter.instant_eq {i : ℤ} {r r' : Datetime} (h : c.FirstAfter i r)
    (h' : c.FirstAfter i r') : r.instant = r'.instant :=
  le_antisymm (h.2 h'.1) (h'.2 h.1)

/-- The first run after one time is the first after any other that no run is between. -/
theorem FirstAfter.of_le {i j : ℤ} {r : Datetime} (h : c.FirstAfter i r) (hij : i ≤ j)
    (hjr : j < r.instant) : c.FirstAfter j r :=
  ⟨⟨h.1.1, hjr⟩, fun _ ht => h.2 ⟨ht.1, hij.trans_lt ht.2⟩⟩

theorem remainingDelta_eq_ok {t now start now' : Datetime} {δ : Ffwd}
    (h : c.remainingDelta t now = .ok (start, δ, now')) :
    c.toScheduleTz t = .ok start ∧ c.toScheduleTz now = .ok now' ∧ c.deltaFrom start = .ok δ := by
  simp only [remainingDelta, bind_eq_ok_iff] at h
  obtain ⟨_, hstart, _, hnow, _, hδ, hpure⟩ := h
  obtain ⟨rfl, rfl, rfl⟩ : _ = start ∧ _ = δ ∧ _ = now' := by simpa [pure, Except.pure] using hpure
  exact ⟨hstart, hnow, hδ⟩

/-- The sum that `remaining_estimate` computes is the first run. -/
theorem firstAfter_of_radd {t r : Datetime} {δ : Ffwd} (hlast : c.toScheduleTz t = .ok last)
    (hδ : c.deltaFrom last = .ok δ) (hr : δ.radd last = .ok r) : c.FirstAfter t.instant r := by
  obtain ⟨htz, hinstant⟩ := toScheduleTz_spec hlast
  obtain ⟨_, _, hδ', hr', hleast⟩ := deltaFrom_isLeast htz (runsAfter_nonempty htz hδ hr)
  obtain rfl := Except.ok.inj (hδ.symm.trans hδ')
  obtain rfl := Except.ok.inj (hr.symm.trans hr')
  rwa [runsAfter_eq htz, hinstant] at hleast

/-- **What `remaining_estimate` returns**, whenever it returns. -/
theorem gives_remainingEstimate {t : Datetime} {rs : List Datetime} {rem : ℤ}
    (h : Reads.Gives (c.remainingEstimate t) rs rem) :
    ∃ now r, rs = [now] ∧ c.FirstAfter t.instant r ∧ rem = r.instant - now.instant := by
  simp only [remainingEstimate, Reads.gives_bind, Reads.gives_now, Reads.gives_lift] at h
  obtain ⟨_, _, now, rfl, rfl, _, _, ⟨start, endsIn, now'⟩, rfl, ⟨rfl, hdelta⟩, _, _, endDate, rfl,
    ⟨rfl, hend⟩, rfl, hrem⟩ := h
  obtain ⟨hstart, hnow, hδ⟩ := remainingDelta_eq_ok hdelta
  obtain ⟨-, -, rfl⟩ := remaining_eq_ok_iff.mp hrem
  refine ⟨now, endDate, rfl, firstAfter_of_radd hstart hδ hend, ?_⟩
  rw [(toScheduleTz_spec hnow).2]

theorem exists_firstAfter {t : Datetime} (hlast : c.toScheduleTz t = .ok last)
    (hex : ∃ m, c.Occurs m ∧ t.instant < m.instant) : ∃ r, c.FirstAfter t.instant r := by
  obtain ⟨htz, hinstant⟩ := toScheduleTz_spec hlast
  have hruns : (c.RunsAfter last).Nonempty := by
    rw [runsAfter_eq htz, hinstant]
    exact hex
  obtain ⟨δ, r, hδ, hr, -⟩ := deltaFrom_isLeast htz hruns
  exact ⟨r, firstAfter_of_radd hlast hδ hr⟩

/-- **It returns**, where the zones can represent the times. -/
theorem runAt_remainingEstimate {t now now' r : Datetime} (hlast : c.toScheduleTz t = .ok last)
    (hnow : c.toScheduleTz now = .ok now') (hutc : now.InUtc) (hr : c.FirstAfter t.instant r)
    (hrutc : r.InUtc) : (c.remainingEstimate t).runAt now = .ok (r.instant - now.instant) := by
  obtain ⟨htz, hinstant⟩ := toScheduleTz_spec hlast
  have hruns : (c.RunsAfter last).Nonempty := by
    rw [runsAfter_eq htz, hinstant]
    exact ⟨r, hr.1⟩
  obtain ⟨δ, r', hδ, hr', -⟩ := deltaFrom_isLeast htz hruns
  have hfirst := firstAfter_of_radd hlast hδ hr'
  obtain rfl : r = r' :=
    Datetime.eq_of_instant (hr.1.1.1.trans hfirst.1.1.1.symm) (hr.instant_eq hfirst)
  have hsame := (toScheduleTz_spec hnow).2
  have hutc' : now'.InUtc := by rwa [Datetime.inUtc_iff, hsame, ← Datetime.inUtc_iff]
  have hrem : remaining r now' = .ok (r.instant - now.instant) :=
    remaining_eq_ok_iff.mpr ⟨hutc', hrutc, by rw [hsame]⟩
  have hdelta : c.remainingDelta t now = .ok (last, δ, now') := by
    simp only [remainingDelta, hlast, hnow, hδ, bind, Except.bind, pure, Except.pure]
  simp only [remainingEstimate, Reads.runAt_bind_eq_ok, Reads.runAt_now, Reads.runAt_lift]
  exact ⟨now, rfl, _, hdelta, r, hr', hrem⟩

/-! ## The deadline -/

theorem deadlineSince_spec {now since : Datetime} {d : ℕ} (h : c.deadlineSince now d = .ok since) :
    since.instant = now.instant - d - 1 ∧ since.InUtc := by
  simp only [deadlineSince, bind_eq_ok_iff] at h
  obtain ⟨aware, haware, utc, hutc, past, hpast, hsince⟩ := h
  obtain ⟨hwall, htz⟩ := Datetime.wall_of_ofWall (orRaise_eq_ok_iff.1 hpast)
  obtain ⟨hutctz, hutci⟩ := Datetime.astimezone_spec hutc
  have hpastutc : past.tzinfo = some .utc := htz.trans hutctz
  have hinstant := (Datetime.astimezone_spec hsince).2
  have hpasti : past.instant = now.instant - d - 1 := by
    rw [Datetime.instant_utc hpastutc, hwall, ← Datetime.instant_utc hutctz, hutci,
      (maybeMakeAware_spec haware).2]
    omega
  refine ⟨hinstant.trans hpasti, ?_⟩
  rw [Datetime.inUtc_iff, hinstant, ← Datetime.inUtc_iff]
  exact ⟨past, Datetime.astimezone_self hpastutc⟩

/-- The crontab has passed its deadline: a run was missed, and there is none in
`[now - deadline, now]`. -/
def Passed (c : Crontab) (deadline : Option ℕ) (rem : ℤ) (now : Datetime) : Prop :=
  rem < 0 ∧ ∃ d, deadline = some d ∧ ∀ m, c.Occurs m → m ≤ now → m.instant < now.instant - d

theorem not_passed_none {rem : ℤ} {now : Datetime} : ¬ c.Passed none rem now := by
  rintro ⟨-, d, hd, -⟩
  cases hd

theorem passed_some_iff {rem : ℤ} {d : ℕ} {now : Datetime} (hneg : rem < 0) :
    c.Passed (some d) rem now ↔ ∀ m, c.Occurs m → m ≤ now → m.instant < now.instant - d := by
  constructor
  · rintro ⟨-, d', hd, hall⟩
    cases hd
    exact hall
  · exact fun hall => ⟨hneg, d, rfl, hall⟩

/-- The first run after a microsecond before `now - d` is beyond `now` if no run is
in `[now - d, now]`. -/
theorem firstAfter_since_lt {now since r : Datetime} {d : ℕ}
    (hsince : since.instant = now.instant - d - 1) (hr : c.FirstAfter since.instant r) :
    now.instant < r.instant ↔ ∀ m, c.Occurs m → m ≤ now → m.instant < now.instant - d := by
  constructor
  · intro hlt m hm hle
    by_contra hge
    have hmr : r.instant ≤ m.instant := hr.2 ⟨hm, by omega⟩
    have hmnow : m.instant ≤ now.instant := hle
    omega
  · intro hall
    by_contra hge
    have hearly := hall r hr.1.1 (not_lt.1 hge)
    have hlate := hr.1.2
    omega

/-- **`has_passed_deadline`** looks for a run since the deadline only where one was missed. -/
theorem runAt_hasPassedDeadline {deadline : Option ℕ} {rem : ℤ} {now now' next : Datetime}
    (hnow : c.toScheduleTz now = .ok now') (hutc : now.InUtc)
    (hnext : c.FirstAfter now.instant next)
    (hneeds : rem < 0 → next.InUtc ∧ ∀ d, deadline = some d →
      ∃ since start, c.deadlineSince now d = .ok since ∧ c.toScheduleTz since = .ok start) :
    ∃ passed, (c.hasPassedDeadline deadline rem).runAt now = .ok passed ∧
      (passed = true ↔ c.Passed deadline rem now) := by
  cases deadline with
  | none => exact ⟨false, rfl, iff_of_false Bool.false_ne_true not_passed_none⟩
  | some d =>
    by_cases hneg : rem < 0
    · obtain ⟨hnextutc, hdeadline⟩ := hneeds hneg
      obtain ⟨since, start, hsince, hstart⟩ := hdeadline d rfl
      obtain ⟨hinstant, hsinceutc⟩ := deadlineSince_spec hsince
      have hafter : since.instant < next.instant := by
        have := hnext.1.2
        omega
      obtain ⟨r, hr⟩ := exists_firstAfter hstart ⟨next, hnext.1.1, hafter⟩
      have hrutc : r.InUtc := hsinceutc.of_between hnextutc hr.1.2.le (hr.2 ⟨hnext.1.1, hafter⟩)
      have hrem := runAt_remainingEstimate hstart hnow hutc hr hrutc
      refine ⟨decide (0 < r.instant - now.instant), ?_, ?_⟩
      · simp only [hasPassedDeadline, if_pos hneg, Reads.runAt_bind_eq_ok, Reads.runAt_now,
          Reads.runAt_lift]
        exact ⟨now, rfl, since, hsince, _, hrem, rfl⟩
      · rw [decide_eq_true_iff, sub_pos, firstAfter_since_lt hinstant hr, passed_some_iff hneg]
    · refine ⟨false, ?_, iff_of_false Bool.false_ne_true fun h => hneg h.1⟩
      simp only [hasPassedDeadline, if_neg hneg, Reads.runAt_pure]

/-- What `remaining_estimate` returns while the clock stands. -/
theorem firstAfter_of_runAt {t now : Datetime} {rem : ℤ}
    (h : (c.remainingEstimate t).runAt now = .ok rem) :
    ∃ r, c.FirstAfter t.instant r ∧ rem = r.instant - now.instant := by
  obtain ⟨rs, hrs, hgives⟩ := Reads.runAt_eq_ok_iff.mp h
  obtain ⟨now', r, rfl, hr, hrem⟩ := gives_remainingEstimate hgives
  obtain rfl := hrs now' (List.mem_singleton_self now')
  exact ⟨r, hr, hrem⟩

theorem passed_of_runAt {deadline : Option ℕ} {rem : ℤ} {now : Datetime} {passed : Bool}
    (h : (c.hasPassedDeadline deadline rem).runAt now = .ok passed) :
    passed = true ↔ c.Passed deadline rem now := by
  cases deadline with
  | none =>
    obtain rfl : false = passed := Except.ok.inj h
    exact iff_of_false Bool.false_ne_true not_passed_none
  | some d =>
    by_cases hneg : rem < 0
    · simp only [hasPassedDeadline, if_pos hneg, Reads.runAt_bind_eq_ok, Reads.runAt_now,
        Reads.runAt_lift] at h
      obtain ⟨_, hread, since, hsince, _, hrem, hpassed⟩ := h
      obtain rfl := Except.ok.inj hread
      obtain ⟨r, hr, rfl⟩ := firstAfter_of_runAt hrem
      obtain rfl : decide (0 < r.instant - now.instant) = passed := Except.ok.inj hpassed
      rw [decide_eq_true_iff, sub_pos, firstAfter_since_lt (deadlineSince_spec hsince).1 hr,
        passed_some_iff hneg]
    · simp only [hasPassedDeadline, if_neg hneg] at h
      obtain rfl : false = passed := Except.ok.inj h
      exact iff_of_false Bool.false_ne_true fun hall => hneg hall.1

/-- **What `is_due` says while the clock stands**: due at a run that was missed, late
for the next one if it was missed for too long, and else early. -/
theorem isDue_cases {deadline : Option ℕ} {t now : Datetime} {due : Bool} {next : ℤ}
    (h : (c.isDue deadline t).runAt now = .ok (due, next)) :
    ∃ r, c.FirstAfter t.instant r ∧
      ((due = true ∧ r ≤ now ∧ ¬ c.Passed deadline (r.instant - now.instant) now ∧
          ∃ n, c.FirstAfter now.instant n ∧ next = n.instant - now.instant) ∨
        (due = false ∧ c.Passed deadline (r.instant - now.instant) now ∧
          ∃ n, c.FirstAfter now.instant n ∧ next = n.instant - now.instant) ∨
        (due = false ∧ now < r ∧ next = r.instant - now.instant)) := by
  simp only [isDue, Reads.runAt_bind_eq_ok] at h
  obtain ⟨_, hrem, passed, hpassed, hresult⟩ := h
  obtain ⟨r, hr, rfl⟩ := firstAfter_of_runAt hrem
  have hiff := passed_of_runAt hpassed
  refine ⟨r, hr, ?_⟩
  split at hresult
  next hnext =>
    simp only [Reads.runAt_bind_eq_ok, Reads.runAt_now] at hresult
    obtain ⟨_, hread, _, hremnext, hpair⟩ := hresult
    obtain rfl := Except.ok.inj hread
    obtain ⟨n, hn, rfl⟩ := firstAfter_of_runAt hremnext
    obtain ⟨rfl, rfl⟩ := Prod.mk.inj (Except.ok.inj hpair)
    have hwait : max (n.instant - now.instant) 0 = n.instant - now.instant :=
      max_eq_left (sub_nonneg.mpr hn.1.2.le)
    cases passed with
    | true => exact Or.inr (Or.inl ⟨Bool.and_false _, hiff.mp rfl, n, hn, hwait⟩)
    | false =>
      have hmax : max (r.instant - now.instant) 0 = 0 := by simpa using hnext
      rw [max_eq_right_iff, sub_nonpos] at hmax
      refine Or.inl ⟨by simpa using hnext, hmax, fun hp => ?_, n, hn, hwait⟩
      exact Bool.false_ne_true (hiff.mpr hp)
  next hnot =>
    obtain ⟨rfl, rfl⟩ := Prod.mk.inj (Except.ok.inj hresult)
    rw [Bool.or_eq_true, not_or] at hnot
    have hmax : ¬ max (r.instant - now.instant) 0 = 0 := by
      intro hzero
      refine hnot.1 ?_
      rw [hzero, Bool.eq_false_iff.mpr hnot.2]
      rfl
    rw [max_eq_right_iff, sub_nonpos, not_le] at hmax
    exact Or.inr (Or.inr ⟨Bool.eq_false_iff.mpr hnot.1, hmax,
      max_eq_left (sub_nonneg.mpr hmax.le)⟩)

/-- The first case: the crontab is due. -/
theorem of_due {deadline : Option ℕ} {t now : Datetime} {next : ℤ}
    (h : (c.isDue deadline t).runAt now = .ok (true, next)) :
    (∃ r, c.FirstAfter t.instant r ∧ r ≤ now ∧
        ¬ c.Passed deadline (r.instant - now.instant) now) ∧
      ∃ n, c.FirstAfter now.instant n ∧ next = n.instant - now.instant := by
  obtain ⟨r, hr, ⟨-, hle, hnot, hnext⟩ | ⟨hfalse, -⟩ | ⟨hfalse, -⟩⟩ := isDue_cases h
  · exact ⟨⟨r, hr, hle, hnot⟩, hnext⟩
  · cases hfalse
  · cases hfalse

/-- The other two: it waits for the next run. -/
theorem of_not_due {deadline : Option ℕ} {t now : Datetime} {next : ℤ}
    (h : (c.isDue deadline t).runAt now = .ok (false, next)) :
    ∃ r, c.FirstAfter t.instant r ∧
      ((c.Passed deadline (r.instant - now.instant) now ∧
          ∃ n, c.FirstAfter now.instant n ∧ next = n.instant - now.instant) ∨
        next = r.instant - now.instant) := by
  obtain ⟨r, hr, ⟨hfalse, -⟩ | ⟨-, hpassed⟩ | ⟨-, -, hnext⟩⟩ := isDue_cases h
  · cases hfalse
  · exact ⟨r, hr, Or.inl hpassed⟩
  · exact ⟨r, hr, Or.inr hnext⟩

/-- If `is_due` says so, a run was missed at its first look at the clock. -/
theorem gives_isDue {deadline : Option ℕ} {t : Datetime} {rs : List Datetime} {next : ℤ}
    (h : Reads.Gives (c.isDue deadline t) rs (true, next)) :
    ∃ now ∈ rs, ∃ r, c.FirstAfter t.instant r ∧ r ≤ now := by
  simp only [isDue, Reads.gives_bind] at h
  obtain ⟨rs₁, _, _, rfl, hrem, _, rs₃, passed, rfl, -, hresult⟩ := h
  obtain ⟨now, r, rfl, hr, rfl⟩ := gives_remainingEstimate hrem
  refine ⟨now, by simp, r, hr, ?_⟩
  have hdue : (decide (max (r.instant - now.instant) 0 = 0) && !passed) = true := by
    split at hresult
    next =>
      simp only [Reads.gives_bind, Reads.gives_pure] at hresult
      obtain ⟨_, _, _, -, -, _, _, _, -, -, -, hpair⟩ := hresult
      exact (Prod.mk.inj hpair).1.symm
    next => exact (Prod.mk.inj (Reads.gives_pure.mp hresult).2).1.symm
  rw [Bool.and_eq_true, decide_eq_true_iff, max_eq_right_iff, sub_nonpos] at hdue
  exact hdue.1

/-- A run was missed and the deadline has not passed, exactly if there is a run after
the last one that is within the deadline. -/
theorem missed_iff {i : ℤ} {r : Datetime} (hr : c.FirstAfter i r) (deadline : Option ℕ)
    (now : Datetime) :
    r ≤ now ∧ ¬ c.Passed deadline (r.instant - now.instant) now ↔
      ∃ m, c.Occurs m ∧ i < m.instant ∧ m ≤ now ∧
        ∀ d, deadline = some d → now.instant - d ≤ m.instant := by
  constructor
  · rintro ⟨hle, hnot⟩
    rcases (Datetime.le_iff_instant.1 hle).lt_or_eq with hlt | heq
    · cases deadline with
      | none => exact ⟨r, hr.1.1, hr.1.2, hle, fun d hd => by cases hd⟩
      | some d =>
        -- Some run is within the deadline: that one, or the first after the last if it is later.
        obtain ⟨m, hm, hmle, hge⟩ : ∃ m, c.Occurs m ∧ m ≤ now ∧ now.instant - d ≤ m.instant := by
          by_contra hnone
          refine hnot ⟨by omega, d, rfl, fun m hm hmle => ?_⟩
          by_contra hge
          exact hnone ⟨m, hm, hmle, not_lt.1 hge⟩
        by_cases hafter : i < m.instant
        · exact ⟨m, hm, hafter, hmle, fun e he => by cases he; exact hge⟩
        · have hri := hr.1.2
          exact ⟨r, hr.1.1, hri, hle, fun e he => by cases he; omega⟩
    · exact ⟨r, hr.1.1, hr.1.2, hle, fun d _ => by omega⟩
  · rintro ⟨m, hm, hafter, hmle, hdeadline⟩
    have hrm : r.instant ≤ m.instant := hr.2 ⟨hm, hafter⟩
    refine ⟨hrm.trans hmle, fun ⟨_, d, hd, hall⟩ => ?_⟩
    have hearly := hall m hm hmle
    have hlate := hdeadline d hd
    omega

/-! ## What is raised -/

/-- `remaining_estimate` of a time that a run follows only raises `OverflowError`. -/
theorem overflow_of_remainingEstimate {t now : Datetime} {e : PyError}
    (hex : ∃ m, c.Occurs m ∧ t.instant < m.instant)
    (h : (c.remainingEstimate t).runAt now = .error e) : e = .overflowError := by
  simp only [remainingEstimate, Reads.runAt_bind_eq_error, Reads.runAt_now, Reads.runAt_lift,
    Except.ok.injEq, reduceCtorEq, false_or] at h
  obtain ⟨_, rfl, hdelta | ⟨⟨start, δ, now'⟩, hdelta, hend | ⟨endDate, -, hrem⟩⟩⟩ := h
  · rcases bind_eq_error_iff.mp hdelta with h | ⟨start, hstart, h⟩
    · exact overflow_of_toScheduleTz h
    rcases bind_eq_error_iff.mp h with h | ⟨_, -, h⟩
    · exact overflow_of_toScheduleTz h
    obtain ⟨htz, hinstant⟩ := toScheduleTz_spec hstart
    have hruns : (c.RunsAfter start).Nonempty := by
      rw [runsAfter_eq htz, hinstant]
      exact hex
    obtain ⟨δ, _, hδ, -⟩ := deltaFrom_isLeast htz hruns
    rw [hδ] at h
    rcases bind_eq_error_iff.mp h with h | ⟨_, -, h⟩
    · cases h
    · cases h
  · obtain ⟨hstart, -, hδ⟩ := remainingDelta_eq_ok hdelta
    obtain ⟨htz, hinstant⟩ := toScheduleTz_spec hstart
    have hruns : (c.RunsAfter start).Nonempty := by
      rw [runsAfter_eq htz, hinstant]
      exact hex
    obtain ⟨δ', r, hδ', hr, -⟩ := deltaFrom_isLeast htz hruns
    obtain rfl := Except.ok.inj (hδ.symm.trans hδ')
    rw [hr] at hend
    cases hend
  · exact overflow_of_remaining hrem

theorem overflow_of_deadlineSince {now : Datetime} {d : ℕ} {e : PyError}
    (h : c.deadlineSince now d = .error e) : e = .overflowError := by
  rcases bind_eq_error_iff.mp h with h | ⟨_, -, h⟩
  · exact overflow_of_maybeMakeAware h
  rcases bind_eq_error_iff.mp h with h | ⟨_, -, h⟩
  · exact Datetime.overflow_of_astimezone h
  rcases bind_eq_error_iff.mp h with h | ⟨_, -, h⟩
  · exact Datetime.overflow_of_add h
  · exact Datetime.overflow_of_astimezone h

theorem overflow_of_hasPassedDeadline {deadline : Option ℕ} {rem : ℤ} {now : Datetime}
    {e : PyError} (hex : ∃ m, c.Occurs m ∧ now < m)
    (h : (c.hasPassedDeadline deadline rem).runAt now = .error e) : e = .overflowError := by
  cases deadline with
  | none => cases h
  | some d =>
    rw [hasPassedDeadline] at h
    split at h
    · simp only [Reads.runAt_bind_eq_error, Reads.runAt_now, Reads.runAt_lift, Except.ok.injEq,
        reduceCtorEq, false_or] at h
      obtain ⟨_, rfl, h | ⟨since, hsince, h | ⟨_, -, h⟩⟩⟩ := h
      · exact overflow_of_deadlineSince h
      · obtain ⟨m, hm, hlt⟩ := hex
        refine overflow_of_remainingEstimate ⟨m, hm, ?_⟩ h
        have hinstant := (deadlineSince_spec hsince).1
        have hmi := Datetime.lt_iff_instant.1 hlt
        omega
      · cases h
    · cases h

/-- **`is_due` only raises `OverflowError`**, where the crontab runs again. -/
theorem overflow_of_isDue {deadline : Option ℕ} {t now : Datetime} {e : PyError} (hle : t ≤ now)
    (hex : ∃ m, c.Occurs m ∧ now < m) (h : (c.isDue deadline t).runAt now = .error e) :
    e = .overflowError := by
  obtain ⟨m, hm, hlt⟩ := hex
  rcases Reads.runAt_bind_eq_error.mp h with h | ⟨remSecs, -, h⟩
  · exact overflow_of_remainingEstimate ⟨m, hm, hle.trans_lt hlt⟩ h
  rcases Reads.runAt_bind_eq_error.mp h with h | ⟨passed, -, h⟩
  · exact overflow_of_hasPassedDeadline ⟨m, hm, hlt⟩ h
  dsimp only at h
  split at h
  · rcases Reads.runAt_bind_eq_error.mp h with h | ⟨now', hnow, h⟩
    · cases h
    obtain rfl := Except.ok.inj hnow
    rcases Reads.runAt_bind_eq_error.mp h with h | ⟨rem, -, h⟩
    · exact overflow_of_remainingEstimate ⟨m, hm, hlt⟩ h
    · cases h
  · cases h

/-- **The datetimes that `is_due` computes are in the years 1 to 9999**: `last_run_at` and now in
the zone of the schedule, now and the next run in UTC; if a run was missed, the run after now; and
if it was missed before now, the start of the deadline. -/
structure Representable (c : Crontab) (deadline : Option ℕ) (lastRunAt now : Datetime) : Prop where
  lastZone : ∃ u, c.toScheduleTz lastRunAt = .ok u
  nowZone : ∃ u, c.toScheduleTz now = .ok u
  nowUtc : now.InUtc
  firstUtc : ∀ r, c.FirstAfter lastRunAt.instant r → r.InUtc
  nextUtc : ∀ r, c.FirstAfter lastRunAt.instant r → r ≤ now →
    ∀ n, c.FirstAfter now.instant n → n.InUtc
  sinceZone : ∀ r, c.FirstAfter lastRunAt.instant r → r < now → ∀ d, deadline = some d →
    ∃ since start, c.deadlineSince now d = .ok since ∧ c.toScheduleTz since = .ok start

theorem FirstAfter.inUtc {i : ℤ} {r r' : Datetime} (h : c.FirstAfter i r) (hr : r.InUtc)
    (h' : c.FirstAfter i r') : r'.InUtc := by
  rwa [Datetime.inUtc_iff, h'.instant_eq h, ← Datetime.inUtc_iff]

/-- What `remaining_estimate` has computed if it returns. -/
theorem inUtc_of_remainingEstimate {t now : Datetime} {rem : ℤ}
    (h : (c.remainingEstimate t).runAt now = .ok rem) :
    (∃ u, c.toScheduleTz t = .ok u) ∧ (∃ u, c.toScheduleTz now = .ok u) ∧ now.InUtc ∧
      ∃ r, c.FirstAfter t.instant r ∧ r.InUtc ∧ rem = r.instant - now.instant := by
  simp only [remainingEstimate, Reads.runAt_bind_eq_ok, Reads.runAt_now, Reads.runAt_lift] at h
  obtain ⟨_, hread, ⟨start, δ, now'⟩, hdelta, endDate, hend, hrem⟩ := h
  obtain rfl := Except.ok.inj hread
  obtain ⟨hstart, hnow, hδ⟩ := remainingDelta_eq_ok hdelta
  obtain ⟨hutc, hendutc, rfl⟩ := remaining_eq_ok_iff.mp hrem
  have hsame := (toScheduleTz_spec hnow).2
  have hnowutc : now.InUtc := by rwa [Datetime.inUtc_iff, ← hsame, ← Datetime.inUtc_iff]
  exact ⟨⟨start, hstart⟩, ⟨now', hnow⟩, hnowutc, endDate, firstAfter_of_radd hstart hδ hend,
    hendutc, by rw [hsame]⟩

theorem exists_since_of_hasPassedDeadline {deadline : Option ℕ} {rem : ℤ} {now : Datetime}
    {passed : Bool} (hneg : rem < 0)
    (h : (c.hasPassedDeadline deadline rem).runAt now = .ok passed) (d : ℕ)
    (hd : deadline = some d) :
    ∃ since start, c.deadlineSince now d = .ok since ∧ c.toScheduleTz since = .ok start := by
  subst hd
  simp only [hasPassedDeadline, if_pos hneg, Reads.runAt_bind_eq_ok, Reads.runAt_now,
    Reads.runAt_lift] at h
  obtain ⟨_, hread, since, hsince, _, hrem, -⟩ := h
  obtain rfl := Except.ok.inj hread
  obtain ⟨⟨start, hstart⟩, -⟩ := inUtc_of_remainingEstimate hrem
  exact ⟨since, start, hsince, hstart⟩

/-- What `is_due` has computed if it returns. -/
theorem representable_of_isDue {deadline : Option ℕ} {t now : Datetime} {result : Bool × ℤ}
    (h : (c.isDue deadline t).runAt now = .ok result) : c.Representable deadline t now := by
  simp only [isDue, Reads.runAt_bind_eq_ok] at h
  obtain ⟨_, hrem, passed, hpassed, hresult⟩ := h
  obtain ⟨hlast, hnow, hutc, r, hr, hrutc, rfl⟩ := inUtc_of_remainingEstimate hrem
  refine ⟨hlast, hnow, hutc, fun r' hr' => hr.inUtc hrutc hr', fun r' hr' hle n hn => ?_,
    fun r' hr' hlt => ?_⟩
  · rw [Datetime.le_iff_instant, hr'.instant_eq hr] at hle
    have hzero : max (r.instant - now.instant) 0 = 0 := max_eq_right (sub_nonpos.mpr hle)
    have hlooks : (decide (max (r.instant - now.instant) 0 = 0) && !passed || passed) = true := by
      rw [hzero]
      cases passed <;> rfl
    rw [if_pos hlooks] at hresult
    simp only [Reads.runAt_bind_eq_ok, Reads.runAt_now] at hresult
    obtain ⟨_, hread, _, hremnext, -⟩ := hresult
    obtain rfl := Except.ok.inj hread
    obtain ⟨-, -, -, n', hn', hnutc, -⟩ := inUtc_of_remainingEstimate hremnext
    exact hn'.inUtc hnutc hn
  · rw [Datetime.lt_iff_instant, hr'.instant_eq hr] at hlt
    exact exists_since_of_hasPassedDeadline (sub_neg.mpr hlt) hpassed

/-- `is_due` where all datetimes can be represented. -/
theorem isDue_of_representable {deadline : Option ℕ} {lastRunAt now : Datetime}
    (hle : lastRunAt ≤ now) (hex : ∃ t, c.Occurs t ∧ now < t)
    (h : c.Representable deadline lastRunAt now) :
    ∃ due rem last next, (c.isDue deadline lastRunAt).runAt now = .ok (due, rem) ∧
      c.toScheduleTz lastRunAt = .ok last ∧
      (due = true ↔ ∃ m, c.Occurs m ∧ last.floorMinute < m ∧ m ≤ now ∧
        ∀ d, deadline = some d → now.instant - d ≤ m.instant) ∧
      IsLeast {t | c.Occurs t ∧ now < t} next ∧ rem = next.instant - now.instant := by
  obtain ⟨last, hlast⟩ := h.lastZone
  obtain ⟨now', hnow⟩ := h.nowZone
  obtain ⟨htz, hlasti⟩ := toScheduleTz_spec hlast
  obtain ⟨t, ht, hnowt⟩ := hex
  have hnowti := Datetime.lt_iff_instant.1 hnowt
  have hlei := Datetime.le_iff_instant.1 hle
  -- The first run after `last_run_at`, and the first after now.
  obtain ⟨r, hr⟩ := exists_firstAfter hlast ⟨t, ht, hlei.trans_lt hnowti⟩
  obtain ⟨next, hnext⟩ := exists_firstAfter hnow ⟨t, ht, hnowti⟩
  have hrem := runAt_remainingEstimate hlast hnow h.nowUtc hr (h.firstUtc r hr)
  obtain ⟨passed, hpassed, hiff⟩ := @runAt_hasPassedDeadline c deadline (r.instant - now.instant)
    now now' next hnow h.nowUtc hnext fun hneg => by
      have hmissed : r < now := Datetime.lt_iff_instant.2 (sub_neg.mp hneg)
      exact ⟨h.nextUtc r hr hmissed.le next hnext, h.sinceZone r hr hmissed⟩
  have hpos : max (next.instant - now.instant) 0 = next.instant - now.instant :=
    max_eq_left (sub_nonneg.mpr hnext.1.2.le)
  have hdue : (decide (max (r.instant - now.instant) 0 = 0) && !passed) = true ↔
      r ≤ now ∧ ¬ c.Passed deadline (r.instant - now.instant) now := by
    rw [Bool.and_eq_true, decide_eq_true_iff, Bool.not_eq_true', ← Bool.not_eq_true, hiff,
      max_eq_right_iff, sub_nonpos, Datetime.le_iff_instant]
  have hspec : (∃ m, c.Occurs m ∧ last.floorMinute < m ∧ m ≤ now ∧
        ∀ d, deadline = some d → now.instant - d ≤ m.instant) ↔
      r ≤ now ∧ ¬ c.Passed deadline (r.instant - now.instant) now := by
    rw [missed_iff hr]
    refine exists_congr fun m => and_congr_right fun hm => ?_
    rw [floorMinute_lt_iff_instant htz hm, hlasti]
  refine ⟨decide (max (r.instant - now.instant) 0 = 0) && !passed, next.instant - now.instant,
    last, next, ?_, hlast, hdue.trans hspec.symm, hnext, rfl⟩
  simp only [isDue, Reads.runAt_bind_eq_ok]
  refine ⟨_, hrem, passed, hpassed, ?_⟩
  split
  next hlooks =>
    have hmissed : r ≤ now := by
      rw [Bool.or_eq_true, hdue, hiff] at hlooks
      rcases hlooks with hlooks | hlooks
      · exact hlooks.1
      · exact Datetime.le_iff_instant.2 (sub_neg.mp hlooks.1).le
    have hnextutc := h.nextUtc r hr hmissed next hnext
    have hremnext := runAt_remainingEstimate hnow hnow h.nowUtc hnext hnextutc
    simp only [Reads.runAt_bind_eq_ok, Reads.runAt_now]
    exact ⟨now, rfl, _, hremnext, by rw [hpos]; rfl⟩
  next hnot =>
    rw [Bool.or_eq_true, not_or] at hnot
    have hnotpassed : ¬ c.Passed deadline (r.instant - now.instant) now :=
      fun h => hnot.2 (hiff.2 h)
    have hlate : now.instant < r.instant := by
      by_contra hearly
      exact hnot.1 (hdue.2 ⟨not_lt.1 hearly, hnotpassed⟩)
    rw [(hr.of_le hlei hlate).instant_eq hnext, hpos]
    rfl

/-- **When a crontab is due.**  While the clock stands at `now`, `is_due` returns `True` if and
only if the crontab matches some time after the minute of `last_run_at`, up to now and not before
the starting deadline.  With it comes the time to the first match after now.  It raises
`OverflowError` exactly if a datetime that it computes is not in the years 1 to 9999. -/
theorem isDue_spec {deadline : Option ℕ} {lastRunAt now : Datetime} (hle : lastRunAt ≤ now)
    (hex : ∃ t, c.Occurs t ∧ now < t) :
    (c.Representable deadline lastRunAt now →
      ∃ due rem last next, (c.isDue deadline lastRunAt).runAt now = .ok (due, rem) ∧
        c.toScheduleTz lastRunAt = .ok last ∧
        (due = true ↔ ∃ m, c.Occurs m ∧ last.floorMinute < m ∧ m ≤ now ∧
          ∀ d, deadline = some d → now.instant - d ≤ m.instant) ∧
        IsLeast {t | c.Occurs t ∧ now < t} next ∧ rem = next.instant - now.instant) ∧
      (¬ c.Representable deadline lastRunAt now →
        (c.isDue deadline lastRunAt).runAt now = .error .overflowError) := by
  refine ⟨isDue_of_representable hle hex, fun hnot => ?_⟩
  rcases hresult : (c.isDue deadline lastRunAt).runAt now with e | result
  · rw [overflow_of_isDue hle hex hresult]
  · exact absurd (representable_of_isDue hresult) hnot

/-- `crontab(minute='0,30', hour=12, day_of_month=29, month_of_year=2)` in UTC. -/
def leapNoon : Crontab :=
  { leapDay with
    minute := ⟨[0, 30], by simp, by simp, by simp⟩
    hour := ⟨[12], by simp, by simp, by simp⟩ }

/-- A time between noon and one o'clock of `2024-02-29`. -/
def onLeapDay (minute : ℕ) : Datetime := leapNoon.atTime ((date? 2024 2 29).get rfl) 12 minute

/-- Noon of the next leap day. -/
def nextLeapNoon : Datetime := leapNoon.atTime ((date? 2028 2 29).get rfl) 12 0

theorem occurs_nextLeapNoon :
    leapNoon.Occurs nextLeapNoon ∧ onLeapDay 45 < nextLeapNoon :=
  ⟨⟨rfl, rfl, rfl, by decide, by decide, by decide, by decide, by decide⟩, by decide⟩

/-- At a quarter to one, with a deadline of an hour. -/
theorem isDue_leapNoon :
    ∃ due rem last next, (leapNoon.isDue (some 3600000000) (onLeapDay 0)).runAt (onLeapDay 45) =
        .ok (due, rem) ∧
      leapNoon.toScheduleTz (onLeapDay 0) = .ok last ∧
      (due = true ↔ ∃ m, leapNoon.Occurs m ∧ last.floorMinute < m ∧ m ≤ onLeapDay 45 ∧
        ∀ d, some 3600000000 = some d → (onLeapDay 45).instant - (d : ℕ) ≤ m.instant) ∧
      IsLeast {t | leapNoon.Occurs t ∧ onLeapDay 45 < t} next ∧
      rem = next.instant - (onLeapDay 45).instant := by
  have hresult : (leapNoon.isDue (some 3600000000) (onLeapDay 0)).runAt (onLeapDay 45) =
      .ok (true, 126227700000000) := by
    decide +kernel
  have hex : ∃ t, leapNoon.Occurs t ∧ onLeapDay 45 < t :=
    ⟨nextLeapNoon, occurs_nextLeapNoon.1, occurs_nextLeapNoon.2⟩
  exact (isDue_spec (by decide) hex).1 (representable_of_isDue hresult)

/-- **A deadline before the year 1** cannot be computed: the run at half past twelve is
missed, and then `is_due` raises. -/
theorem isDue_overflow :
    onLeapDay 0 ≤ onLeapDay 45 ∧ leapNoon.Occurs nextLeapNoon ∧ onLeapDay 45 < nextLeapNoon ∧
      (leapNoon.isDue (some 100000000000000000) (onLeapDay 0)).runAt (onLeapDay 45) =
        .error .overflowError :=
  ⟨by decide, occurs_nextLeapNoon.1, occurs_nextLeapNoon.2, by decide⟩

end Crontab

/-! ## Intervals -/

/-- `schedule`: an interval in microseconds, its end rounded down if it is `relative`. -/
structure Interval where
  runEvery : ℤ
  relative : Bool
  tz : TzInfo
deriving DecidableEq

namespace Interval

variable (i : Interval)

/-- `schedule.seconds`. -/
def seconds : ℤ := max i.runEvery 0

/-- The `end_date` of `remaining`, after a start. -/
def endDate (start : Datetime) : Except PyError Datetime := do
  let start ← maybeMakeAware start i.tz true
  let endDate ← start.add i.runEvery
  return if i.relative then
    { deltaResolution endDate i.runEvery with
      microsecond := 0, microsecond_lt := Datetime.zero_lt_1000000 }
  else endDate

/-- `schedule.remaining_estimate`. -/
def remainingEstimate (lastRunAt : Datetime) : Clocked ℤ := do
  let now ← Reads.now
  let now ← Reads.lift (maybeMakeAware now i.tz true)
  let endDate ← Reads.lift (i.endDate lastRunAt)
  Reads.lift (remaining endDate now)

/-- `schedule.is_due`. -/
def isDue (lastRunAt : Datetime) : Clocked (Bool × ℤ) := do
  let lastRunAt ← Reads.lift (maybeMakeAware lastRunAt i.tz true)
  let remDelta ← i.remainingEstimate lastRunAt
  let remaining := max remDelta 0
  if remaining = 0 then return (true, i.seconds) else return (false, remaining)

variable {i} {t e : Datetime}

theorem endDate_aware {u : Datetime} (h : maybeMakeAware t i.tz true = .ok u) :
    i.endDate u = i.endDate t := by
  obtain ⟨z, hz⟩ := Option.ne_none_iff_exists'.mp (maybeMakeAware_spec h).1
  rw [endDate, endDate, h, maybeMakeAware_aware hz]

/-- An interval that is not relative ends after its length. -/
theorem endDate_instant (hrel : i.relative = false) (h : i.endDate t = .ok e) :
    e.instant = t.instant + i.runEvery := by
  simp only [endDate, bind_eq_ok_iff, hrel, Bool.false_eq_true, if_false] at h
  obtain ⟨u, hu, v, hv, he⟩ := h
  obtain rfl : v = e := Except.ok.inj he
  obtain ⟨hwall, htz⟩ := Datetime.wall_of_ofWall (orRaise_eq_ok_iff.1 hv)
  rw [← (maybeMakeAware_spec hu).2, Datetime.instant, Datetime.instant, hwall, htz]
  omega

/-- **An interval is due from its end on**, and then the next check is after its
length; before, it is at its end. -/
theorem gives_isDue {rs : List Datetime} {due : Bool} {next : ℤ}
    (h : Reads.Gives (i.isDue t) rs (due, next)) :
    ∃ now e, rs = [now] ∧ i.endDate t = .ok e ∧
      ((due = true ∧ e ≤ now ∧ next = i.seconds) ∨
        (due = false ∧ now < e ∧ next = e.instant - now.instant)) := by
  simp only [isDue, remainingEstimate, Reads.gives_bind, Reads.gives_now, Reads.gives_lift] at h
  obtain ⟨_, _, u, rfl, ⟨rfl, hu⟩, _, _, rem, rfl, ⟨_, _, now, rfl, rfl, _, _, now', rfl,
    ⟨rfl, hnow⟩, _, _, e, rfl, ⟨rfl, he⟩, rfl, hrem⟩, hresult⟩ := h
  obtain ⟨-, -, rfl⟩ := remaining_eq_ok_iff.mp hrem
  rw [endDate_aware hu] at he
  rw [(maybeMakeAware_spec hnow).2] at hresult
  refine ⟨now, e, ?_⟩
  split at hresult
  next hzero =>
    obtain ⟨rfl, heq⟩ := Reads.gives_pure.mp hresult
    obtain ⟨rfl, rfl⟩ := Prod.mk.inj heq
    refine ⟨rfl, he, Or.inl ⟨rfl, ?_, rfl⟩⟩
    rw [max_eq_right_iff] at hzero
    exact Datetime.le_iff_instant.2 (sub_nonpos.mp hzero)
  next hpos =>
    obtain ⟨rfl, heq⟩ := Reads.gives_pure.mp hresult
    obtain ⟨rfl, rfl⟩ := Prod.mk.inj heq
    rw [max_eq_right_iff, sub_nonpos, not_le] at hpos
    exact ⟨rfl, he, Or.inr ⟨rfl, hpos, max_eq_left (sub_nonneg.mpr hpos.le)⟩⟩

/-- What `is_due` says while the clock stands. -/
theorem isDue_cases {now : Datetime} {due : Bool} {next : ℤ}
    (h : (i.isDue t).runAt now = .ok (due, next)) :
    ∃ e, i.endDate t = .ok e ∧
      ((due = true ∧ e ≤ now ∧ next = i.seconds) ∨
        (due = false ∧ now < e ∧ next = e.instant - now.instant)) := by
  obtain ⟨rs, hrs, hgives⟩ := Reads.runAt_eq_ok_iff.mp h
  obtain ⟨now', e, rfl, he, hcases⟩ := gives_isDue hgives
  obtain rfl := hrs now' (List.mem_singleton_self now')
  exact ⟨e, he, hcases⟩

theorem of_due {now : Datetime} {next : ℤ} (h : (i.isDue t).runAt now = .ok (true, next)) :
    next = i.seconds ∧ ∃ e, i.endDate t = .ok e ∧ e ≤ now := by
  obtain ⟨e, he, ⟨-, hle, hnext⟩ | ⟨hfalse, -⟩⟩ := isDue_cases h
  · exact ⟨hnext, e, he, hle⟩
  · cases hfalse

theorem of_not_due {now : Datetime} {next : ℤ} (h : (i.isDue t).runAt now = .ok (false, next)) :
    ∃ e, i.endDate t = .ok e ∧ next = e.instant - now.instant := by
  obtain ⟨e, he, ⟨hfalse, -⟩ | ⟨-, -, hnext⟩⟩ := isDue_cases h
  · cases hfalse
  · exact ⟨e, he, hnext⟩

end Interval

end Celery
