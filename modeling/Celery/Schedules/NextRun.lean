/-
# The next run of a crontab is its least match

`crontab.remaining_delta` returns a relative delta along one of four paths: a
later minute of this hour, a later hour of today, a fast-forward to a weekday
when day and month were given as `'*'`, or `_delta_to_next`.  Whichever it takes,
`last_run_at + delta` is the least minute after that of `last_run_at` in all five
sets (`remainingDelta_isLeast`).

The first two paths answer when `last_run_at`'s own date still has a match; when
it has none (`no_run_today`), the answer is the first matching date at the least
hour and minute (`isLeast_atTime`), which `deltaToNext_spec` and
`weekdayDelta_spec` find.
-/

import Celery.Schedules.NextDay

namespace Celery

open Gregorian

/-- The minute a datetime is in. -/
def Datetime.floorMinute (t : Datetime) : Datetime :=
  { t with second := 0, microsecond := 0, second_lt := zero_lt_60, microsecond_lt := zero_lt_1000000 }

theorem Datetime.addDays_zero (t : Datetime) : t.addDays 0 = .ok t :=
  Datetime.addDays_eq_ok_iff.2 ⟨t.date, by simp, rfl⟩

namespace Crontab

/-- A time at which the crontab runs: a whole minute of the schedule's zone
whose minute, hour, weekday, day of month and month are in the five sets. -/
def Occurs (c : Crontab) (t : Datetime) : Prop :=
  t.tzinfo = some c.tz ∧ t.second = 0 ∧ t.microsecond = 0 ∧
    t.minute ∈ c.minute ∧ t.hour ∈ c.hour ∧ c.DateMatches t.date

/-- The runs of the crontab after the minute of `last`. -/
def RunsAfter (c : Crontab) (last : Datetime) : Set Datetime :=
  {t | c.Occurs t ∧ last.floorMinute < t}

variable {c : Crontab} {last : Datetime}

theorem floorMinute_lt_iff (htz : last.tzinfo = some c.tz) {t : Datetime} (ht : c.Occurs t) :
    last.floorMinute < t ↔ last.date < t.date ∨ (last.date = t.date ∧
      (last.hour < t.hour ∨ (last.hour = t.hour ∧ last.minute < t.minute))) := by
  have h₁ := last.minute_lt
  have h₂ := t.minute_lt
  rw [Datetime.lt_iff_wall (show last.floorMinute.tzinfo = t.tzinfo from htz.trans ht.1.symm),
    Datetime.wall_lt_iff]
  simp only [Datetime.floorMinute, Datetime.timeOfDay, ht.2.1, ht.2.2.1]
  refine or_congr_right (and_congr_right fun _ => ?_)
  omega

theorem occurs_le {r t : Datetime} (hr : c.Occurs r) (ht : c.Occurs t)
    (h : r.date < t.date ∨ (r.date = t.date ∧
      (r.hour < t.hour ∨ (r.hour = t.hour ∧ r.minute ≤ t.minute)))) : r ≤ t := by
  have h₁ := r.minute_lt
  have h₂ := t.minute_lt
  rw [Datetime.le_iff_wall (hr.1.trans ht.1.symm), ← not_lt, Datetime.wall_lt_iff]
  simp only [Datetime.timeOfDay, hr.2.1, hr.2.2.1, ht.2.1, ht.2.2.1]
  rcases h with h | ⟨hd, h⟩
  · rintro (hlt | ⟨heq, -⟩)
    · exact absurd h hlt.not_gt
    · exact absurd h (by rw [heq]; exact lt_irrefl _)
  · rintro (hlt | ⟨-, hlt⟩)
    · exact absurd hlt (by rw [hd]; exact lt_irrefl _)
    · omega

theorem atTime_hour {D : Date} {h m : ℕ} (hh : h ∈ c.hour) : (c.atTime D h m).hour = h :=
  Nat.mod_eq_of_lt (CronField.lt_hi hh)

theorem atTime_minute {D : Date} {h m : ℕ} (hm : m ∈ c.minute) : (c.atTime D h m).minute = m :=
  Nat.mod_eq_of_lt (CronField.lt_hi hm)

theorem occurs_atTime {D : Date} {h m : ℕ} (hD : c.DateMatches D) (hh : h ∈ c.hour)
    (hm : m ∈ c.minute) : c.Occurs (c.atTime D h m) :=
  ⟨rfl, rfl, rfl, (atTime_minute hm).symm ▸ hm, (atTime_hour hh).symm ▸ hh, hD⟩

/-- `other.replace(...)` in `ffwd.__radd__`: the fields given, the others kept. -/
theorem replace_eq_atTime {δ : Ffwd} {D : Date} {h m : ℕ} (htz : last.tzinfo = some c.tz)
    (hh : h ∈ c.hour) (hm : m ∈ c.minute) (hhour : δ.hour.getD last.hour = h)
    (hminute : δ.minute.getD last.minute = m) (hsecond : δ.second = some 0)
    (hmicro : δ.microsecond = some 0) :
    last.replace D.year D.month (min (daysInMonth D.year D.month) D.day) δ.hour δ.minute δ.second
      δ.microsecond = .ok (c.atTime D h m) := by
  have hlt := CronField.lt_hi hh
  have hlt' := CronField.lt_hi hm
  simp only [Nat.min_eq_right D.day_le, Datetime.replace, date?_self, hhour, hminute, hsecond,
    hmicro, Option.getD_some]
  rw [dif_pos ⟨hlt, hlt', by decide, by decide⟩]
  congr 1
  ext <;> simp [atTime, Nat.mod_eq_of_lt hlt, Nat.mod_eq_of_lt hlt', htz]

/-- **The sum of a datetime and a delta without weekday.** -/
theorem radd_eq {δ : Ffwd} {D : Date} {h m : ℕ} (htz : last.tzinfo = some c.tz)
    (hh : h ∈ c.hour) (hm : m ∈ c.minute)
    (hweekday : δ.weekday = none) (hweeks : δ.weeks = 0)
    (hyear : orElse δ.year last.date.year = D.year)
    (hmonth : orElse δ.month last.date.month = D.month)
    (hday : orElse δ.day last.date.day = D.day)
    (hhour : δ.hour.getD last.hour = h) (hminute : δ.minute.getD last.minute = m)
    (hsecond : δ.second = some 0) (hmicro : δ.microsecond = some 0) :
    δ.radd last = .ok (c.atTime D h m) := by
  simp only [Ffwd.radd, hyear, hmonth, hday,
    replace_eq_atTime htz hh hm hhour hminute hsecond hmicro, bind, Except.bind, Ffwd.toWeekday,
    hweekday, Ffwd.days, hweeks]
  exact Datetime.addDays_zero _

theorem addDays_atTime {D E : Date} {h m n : ℕ} (hE : E.toOrdinal = D.toOrdinal + n) :
    (c.atTime D h m).addDays n = .ok (c.atTime E h m) :=
  Datetime.addDays_eq_ok_iff.2 ⟨E, by simp only [atTime]; omega, rfl⟩

/-- No run is left on the date of `last_run_at`. -/
theorem no_run_today (htz : last.tzinfo = some c.tz) (hhour : c.executeThisHour last = false)
    (htoday : c.executeToday last = false) {t : Datetime} (ht : t ∈ c.RunsAfter last) :
    last.date < t.date := by
  obtain ⟨hocc, hlt⟩ := ht
  rcases (floorMinute_lt_iff htz hocc).1 hlt with hlt | ⟨hdate, hlt⟩
  · exact hlt
  · exfalso
    obtain ⟨-, -, -, hm, hh, hmatch⟩ := hocc
    have hthis : c.executeThisDate last = true := by
      rw [← hdate] at hmatch
      simp only [executeThisDate, dowNum, hmatch.1, hmatch.2.1, hmatch.2.2, decide_true,
        Bool.and_self]
    simp only [executeThisHour, executeToday, hthis, Bool.true_and, Bool.and_eq_false_iff,
      decide_eq_false_iff_not, not_lt] at hhour htoday
    have hle := CronField.le_max hh
    have hle' := CronField.le_max hm
    rcases hlt with hlt | ⟨heq, hlt⟩
    · omega
    · rcases hhour with hn | hn
      · exact hn (heq ▸ hh)
      · omega

/-- **With no run left today, the next run is the first matching date at the
least hour and minute.** -/
theorem isLeast_atTime (htz : last.tzinfo = some c.tz)
    (htoday : ∀ t ∈ c.RunsAfter last, last.date < t.date) {th : Date}
    (hth : IsLeast {D | c.DateMatches D ∧ last.date < D} th) :
    IsLeast (c.RunsAfter last) (c.atTime th c.hour.min c.minute.min) := by
  have hocc := occurs_atTime hth.1.1 c.hour.min_mem c.minute.min_mem
  refine ⟨⟨hocc, (floorMinute_lt_iff htz hocc).2 (Or.inl hth.1.2)⟩, fun t ht => ?_⟩
  refine occurs_le hocc ht.1 ?_
  have hle := hth.2 ⟨ht.1.2.2.2.2.2, htoday t ht⟩
  have hh := CronField.min_le ht.1.2.2.2.2.1
  have hm := CronField.min_le ht.1.2.2.2.1
  rw [atTime_hour c.hour.min_mem, atTime_minute c.minute.min_mem]
  rcases lt_or_eq_of_le hle with hlt | heq
  · exact Or.inl hlt
  · exact Or.inr ⟨heq, by omega⟩

/-- How far the weekday fast-forward goes: to `next_day`, a whole week if that
is today's weekday. -/
def weekdayShift (c : Crontab) (last : Datetime) : ℕ :=
  (7 + c.nextDay last - dowNum last) % 7 + if c.nextDay last = dowNum last then 7 else 0

theorem nextDay_mem (c : Crontab) (last : Datetime) : c.nextDay last ∈ c.dayOfWeek := by
  unfold nextDay
  cases h : (c.dayOfWeek.above (dowNum last)).head? with
  | none => exact c.dayOfWeek.min_mem
  | some n => exact (CronField.above_head? h).1

/-- No weekday of the set comes before `next_day`. -/
theorem weekdayShift_le {D : Date} (hD : c.DateMatches D) (hlt : last.date < D) :
    1 ≤ c.weekdayShift last ∧ last.date.toOrdinal + c.weekdayShift last ≤ D.toOrdinal := by
  have hmem := hD.2.2
  have hord := Date.lt_iff_toOrdinal.1 hlt
  rw [Date.isoweekday_mod] at hmem
  have hdow : dowNum last = last.date.toOrdinal % 7 := Date.isoweekday_mod _
  have hnext := CronField.lt_hi (nextDay_mem c last)
  have hcases : (dowNum last < c.nextDay last ∧ ∀ m ∈ c.dayOfWeek, dowNum last < m → c.nextDay last ≤ m) ∨
      (c.nextDay last = c.dayOfWeek.min ∧ ∀ m ∈ c.dayOfWeek, m ≤ dowNum last) := by
    unfold nextDay
    cases h : (c.dayOfWeek.above (dowNum last)).head? with
    | none =>
      refine Or.inr ⟨rfl, fun m hm => ?_⟩
      by_contra hgt
      have := CronField.mem_above.2 ⟨hm, not_le.1 hgt⟩
      rw [List.head?_eq_none_iff] at h
      rw [h] at this
      cases this
    | some n => exact Or.inl (CronField.above_head? h).2
  unfold weekdayShift
  rcases hcases with ⟨hgt, hleast⟩ | ⟨hmin, hall⟩
  · have h := hleast _ hmem
    rw [if_neg hgt.ne']
    omega
  · have h := hall _ hmem
    have h' := CronField.min_le hmem
    have h'' := hall _ c.dayOfWeek.min_mem
    rw [← hmin] at h' h''
    split_ifs with heq <;> omega

/-- The date that the weekday fast-forward goes to matches. -/
theorem weekday_matches (hall : c.allDomMoy = true) {th : Date}
    (hth : th.toOrdinal = last.date.toOrdinal + c.weekdayShift last) :
    c.DateMatches th ∧ last.date < th := by
  simp only [allDomMoy, Bool.and_eq_true, decide_eq_true_eq] at hall
  have hdow : dowNum last = last.date.toOrdinal % 7 := Date.isoweekday_mod _
  have hnext := CronField.lt_hi (nextDay_mem c last)
  have hmod : (last.date.toOrdinal + c.weekdayShift last) % 7 = c.nextDay last := by
    unfold weekdayShift
    split_ifs with heq <;> omega
  have hpos : 1 ≤ c.weekdayShift last := by
    unfold weekdayShift
    split_ifs with heq <;> omega
  refine ⟨⟨c.star_monthOfYear hall.2 _ th.month_pos (by have := th.month_le; omega),
    c.star_dayOfMonth hall.1 _ th.day_pos ?_, ?_⟩, Date.lt_iff_toOrdinal.2 (by omega)⟩
  · have := th.day_le
    have h31 : daysInMonth th.year th.month ≤ 31 := by unfold daysInMonth; split_ifs <;> omega
    omega
  · rw [Date.isoweekday_mod, hth, hmod]
    exact nextDay_mem c last

/-- **The weekday fast-forward finds the first matching date**, when every day
of every month is in the lists. -/
theorem weekdayDelta_spec (htz : last.tzinfo = some c.tz) (hall : c.allDomMoy = true)
    (hE : ∃ E, c.DateMatches E ∧ last.date < E) :
    ∃ th, IsLeast {D | c.DateMatches D ∧ last.date < D} th ∧
      (c.weekdayDelta last c.hour.min c.minute.min).radd last =
        .ok (c.atTime th c.hour.min c.minute.min) := by
  obtain ⟨E, hE, hlast⟩ := hE
  obtain ⟨hpos, hle⟩ := weekdayShift_le hE hlast
  have hmax := E.toOrdinal_bounds.2
  obtain ⟨th, hth⟩ := exists_toOrdinal_eq
    (show 1 ≤ last.date.toOrdinal + c.weekdayShift last by omega) (by omega)
  have hdow : dowNum last = last.date.toOrdinal % 7 := Date.isoweekday_mod _
  have hnext := CronField.lt_hi (nextDay_mem c last)
  refine ⟨th, ⟨weekday_matches hall hth, fun D hD => ?_⟩, ?_⟩
  · rw [Date.le_iff_toOrdinal, hth]
    exact (weekdayShift_le hD.1 hD.2).2
  · have hle' : (7 + c.nextDay last - dowNum last) % 7 ≤ c.weekdayShift last := Nat.le_add_right _ _
    have hone := last.date.toOrdinal_bounds.1
    obtain ⟨mid, hmid⟩ := exists_toOrdinal_eq
      (show 1 ≤ last.date.toOrdinal + (7 + c.nextDay last - dowNum last) % 7 by omega) (by omega)
    have hshift : (7 - last.date.weekday + (c.nextDay last + 6) % 7) % 7 =
        (7 + c.nextDay last - dowNum last) % 7 := by
      unfold Date.weekday
      omega
    have hweeks : th.toOrdinal =
        mid.toOrdinal + (if c.nextDay last = dowNum last then 1 else 0) * 7 := by
      rw [hth, hmid, weekdayShift]
      split_ifs <;> omega
    have hrep := replace_eq_atTime (δ := c.weekdayDelta last c.hour.min c.minute.min)
      (D := last.date) htz c.hour.min_mem c.minute.min_mem rfl rfl rfl rfl
    simp only [Ffwd.radd, weekdayDelta, orElse, bind, Except.bind, Ffwd.toWeekday, Ffwd.days] at hrep ⊢
    rw [hrep]
    simp only [show (c.atTime last.date c.hour.min c.minute.min).date = last.date from rfl, hshift]
    rw [addDays_atTime hmid]
    exact addDays_atTime hweeks

/-- The weekday fast-forward overflows if no matching date is left. -/
theorem weekdayDelta_matches {r : Datetime} (htz : last.tzinfo = some c.tz)
    (hall : c.allDomMoy = true)
    (h : (c.weekdayDelta last c.hour.min c.minute.min).radd last = .ok r) :
    ∃ E, c.DateMatches E ∧ last.date < E := by
  have hrep := replace_eq_atTime (δ := c.weekdayDelta last c.hour.min c.minute.min)
    (D := last.date) htz c.hour.min_mem c.minute.min_mem rfl rfl rfl rfl
  simp only [Ffwd.radd, weekdayDelta, orElse, bind, Except.bind, Ffwd.toWeekday, Ffwd.days] at hrep h
  rw [hrep] at h
  simp only [show (c.atTime last.date c.hour.min c.minute.min).date = last.date from rfl] at h
  cases hmid : (c.atTime last.date c.hour.min c.minute.min).addDays
      ((7 - last.date.weekday + (c.nextDay last + 6) % 7) % 7 : ℕ) with
  | error e =>
    rw [hmid] at h
    cases h
  | ok mid =>
    rw [hmid] at h
    obtain ⟨D, hD, rfl⟩ := Datetime.addDays_eq_ok_iff.1 hmid
    obtain ⟨E, hE, rfl⟩ := Datetime.addDays_eq_ok_iff.1 h
    have hdow : dowNum last = last.date.toOrdinal % 7 := Date.isoweekday_mod _
    have hnext := CronField.lt_hi (nextDay_mem c last)
    refine ⟨E, weekday_matches hall ?_⟩
    simp only [atTime] at hD hE
    unfold weekdayShift
    unfold Date.weekday at hD
    split_ifs at hE ⊢ <;> omega

/-- The next run in this hour. -/
theorem thisHour_spec (htz : last.tzinfo = some c.tz) (h : c.executeThisHour last = true) :
    ∃ δ r, c.deltaFrom last = .ok δ ∧ δ.radd last = .ok r ∧ IsLeast (c.RunsAfter last) r := by
  have h' := h
  simp only [executeThisHour, executeThisDate, Bool.and_eq_true, decide_eq_true_eq] at h'
  obtain ⟨⟨⟨⟨hmonth, hday⟩, hdow⟩, hhour⟩, hmax⟩ := h'
  obtain ⟨n, hn⟩ := CronField.exists_above_head? hmax
  obtain ⟨hmem, hgt, hleast⟩ := CronField.above_head? hn
  have hocc : c.Occurs (c.atTime last.date last.hour n) :=
    occurs_atTime ⟨hmonth, hday, hdow⟩ hhour hmem
  refine ⟨_, c.atTime last.date last.hour n, by simp only [deltaFrom, h, if_true, hn, orRaise]; rfl,
    radd_eq htz hhour hmem rfl rfl rfl rfl rfl rfl rfl rfl rfl,
    ⟨hocc, (floorMinute_lt_iff htz hocc).2 (Or.inr ⟨rfl, Or.inr ?_⟩)⟩, fun t ht => ?_⟩
  · rw [atTime_hour hhour, atTime_minute hmem]
    exact ⟨rfl, hgt⟩
  · refine occurs_le hocc ht.1 ?_
    rw [atTime_hour hhour, atTime_minute hmem]
    rcases (floorMinute_lt_iff htz ht.1).1 ht.2 with hlt | ⟨hd, hlt | ⟨hh, hlt⟩⟩
    · exact Or.inl hlt
    · exact Or.inr ⟨hd, Or.inl hlt⟩
    · exact Or.inr ⟨hd, Or.inr ⟨hh, hleast _ ht.1.2.2.2.1 hlt⟩⟩

/-- The next run later today. -/
theorem today_spec (htz : last.tzinfo = some c.tz) (hhour : c.executeThisHour last = false)
    (h : c.executeToday last = true) :
    ∃ δ r, c.deltaFrom last = .ok δ ∧ δ.radd last = .ok r ∧ IsLeast (c.RunsAfter last) r := by
  have h' := h
  simp only [executeToday, executeThisDate, Bool.and_eq_true, decide_eq_true_eq] at h'
  obtain ⟨⟨⟨hmonth, hday⟩, hdow⟩, hmax⟩ := h'
  obtain ⟨n, hn⟩ := CronField.exists_above_head? hmax
  obtain ⟨hmem, hgt, hleast⟩ := CronField.above_head? hn
  have hocc : c.Occurs (c.atTime last.date n c.minute.min) :=
    occurs_atTime ⟨hmonth, hday, hdow⟩ hmem c.minute.min_mem
  refine ⟨_, c.atTime last.date n c.minute.min, by
      simp only [deltaFrom, hhour, h, Bool.false_eq_true, if_false, if_true, hn, orRaise]; rfl,
    radd_eq htz hmem c.minute.min_mem rfl rfl rfl rfl rfl rfl rfl rfl rfl,
    ⟨hocc, (floorMinute_lt_iff htz hocc).2 (Or.inr ⟨rfl, Or.inl ?_⟩)⟩, fun t ht => ?_⟩
  · rw [atTime_hour hmem]
    exact hgt
  · refine occurs_le hocc ht.1 ?_
    rw [atTime_hour hmem, atTime_minute c.minute.min_mem]
    have hmin := CronField.min_le ht.1.2.2.2.1
    rcases (floorMinute_lt_iff htz ht.1).1 ht.2 with hlt | ⟨hd, hlt | ⟨hh, hlt⟩⟩
    · exact Or.inl hlt
    · have := hleast _ ht.1.2.2.2.2.1 hlt
      exact Or.inr ⟨hd, by omega⟩
    · -- a later minute of this hour would have been `execute_this_hour`
      have hmem' : last.hour ∈ c.hour := hh ▸ ht.1.2.2.2.2.1
      have hle := CronField.le_max ht.1.2.2.2.1
      simp only [executeThisHour, executeThisDate, hmonth, hday, hdow, hmem', decide_true,
        Bool.and_self, Bool.true_and, decide_eq_false_iff_not] at hhour
      omega

/-- **The next run from a `last_run_at` in the schedule's zone.** -/
theorem deltaFrom_isLeast (htz : last.tzinfo = some c.tz) (hex : (c.RunsAfter last).Nonempty) :
    ∃ δ r, c.deltaFrom last = .ok δ ∧ δ.radd last = .ok r ∧ IsLeast (c.RunsAfter last) r := by
  cases hhour : c.executeThisHour last with
  | true => exact thisHour_spec htz hhour
  | false =>
    cases htoday : c.executeToday last with
    | true => exact today_spec htz hhour htoday
    | false =>
      obtain ⟨t, ht⟩ := hex
      have hlater : ∀ t ∈ c.RunsAfter last, last.date < t.date :=
        fun t ht => no_run_today htz hhour htoday ht
      have hE : ∃ E, c.DateMatches E ∧ last.date < E := ⟨t.date, ht.1.2.2.2.2.2, hlater t ht⟩
      cases hall : c.allDomMoy with
      | true =>
        obtain ⟨th, hth, hradd⟩ := weekdayDelta_spec htz hall hE
        refine ⟨_, _, ?_, hradd, isLeast_atTime htz hlater hth⟩
        simp only [deltaFrom, hhour, htoday, hall, Bool.false_eq_true, if_false, if_true]
        rfl
      | false =>
        obtain ⟨th, hth, hδ⟩ := deltaToNext_spec c.hour.min c.minute.min htz hE
        have hfrom : c.deltaFrom last = c.deltaToNext last c.hour.min c.minute.min := by
          simp only [deltaFrom, hhour, htoday, hall, Bool.false_eq_true, if_false]
        refine ⟨_, _, hfrom.trans hδ, ?_, isLeast_atTime htz hlater hth⟩
        exact radd_eq htz c.hour.min_mem c.minute.min_mem rfl rfl (orElse_some_pos th.year_pos)
          (orElse_some_pos th.month_pos) (orElse_some_pos th.day_pos) rfl rfl rfl rfl

/-- If `remaining_delta` returns a delta that can be added, the crontab runs again. -/
theorem runsAfter_nonempty {δ : Ffwd} {r : Datetime} (htz : last.tzinfo = some c.tz)
    (hδ : c.deltaFrom last = .ok δ) (hr : δ.radd last = .ok r) : (c.RunsAfter last).Nonempty := by
  have hnext : ∀ E, c.DateMatches E → last.date < E → (c.RunsAfter last).Nonempty := by
    intro E hE hlt
    have hocc := occurs_atTime hE c.hour.min_mem c.minute.min_mem
    exact ⟨_, hocc, (floorMinute_lt_iff htz hocc).2 (Or.inl hlt)⟩
  cases hhour : c.executeThisHour last with
  | true =>
    obtain ⟨_, r', -, -, hleast⟩ := thisHour_spec htz hhour
    exact ⟨r', hleast.1⟩
  | false =>
    cases htoday : c.executeToday last with
    | true =>
      obtain ⟨_, r', -, -, hleast⟩ := today_spec htz hhour htoday
      exact ⟨r', hleast.1⟩
    | false =>
      cases hall : c.allDomMoy with
      | true =>
        simp only [deltaFrom, hhour, htoday, hall, Bool.false_eq_true, if_false, if_true] at hδ
        obtain rfl := Except.ok.inj hδ
        obtain ⟨E, hE, hlt⟩ := weekdayDelta_matches htz hall hr
        exact hnext E hE hlt
      | false =>
        simp only [deltaFrom, hhour, htoday, hall, Bool.false_eq_true, if_false] at hδ
        obtain ⟨E, hE, hlt⟩ := deltaToNext_matches htz hδ
        exact hnext E hE hlt

theorem toScheduleTz_spec {t u : Datetime} (h : c.toScheduleTz t = .ok u) :
    u.tzinfo = some c.tz ∧ u.instant = t.instant := by
  unfold toScheduleTz at h
  cases haware : maybeMakeAware t c.tz true with
  | error e =>
    rw [haware] at h
    cases h
  | ok v =>
    rw [haware] at h
    obtain ⟨htz, hinstant⟩ := Datetime.astimezone_spec h
    exact ⟨htz, hinstant.trans (maybeMakeAware_spec haware).2⟩

theorem overflow_of_toScheduleTz {t : Datetime} {e : PyError} (h : c.toScheduleTz t = .error e) :
    e = .overflowError := by
  rcases bind_eq_error_iff.mp h with h | ⟨u, -, h⟩
  · exact overflow_of_maybeMakeAware h
  · exact Datetime.overflow_of_astimezone h

/-- **The next run of a crontab is its least match.**  Whenever the crontab runs
at all after the minute of `last_run_at`, `remaining_delta` returns a delta, and
`last_run_at` (in the schedule's zone) plus that delta is the least such time. -/
theorem remainingDelta_isLeast (c : Crontab) (lastRunAt now : Datetime) {last now' : Datetime}
    (hlast : c.toScheduleTz lastRunAt = .ok last) (hnow : c.toScheduleTz now = .ok now')
    (hex : ∃ t, c.Occurs t ∧ last.floorMinute < t) :
    ∃ δ r, c.remainingDelta lastRunAt now = .ok (last, δ, now') ∧ δ.radd last = .ok r ∧
      IsLeast {t | c.Occurs t ∧ last.floorMinute < t} r := by
  obtain ⟨δ, r, hδ, hr, hleast⟩ := deltaFrom_isLeast (toScheduleTz_spec hlast).1 hex
  refine ⟨δ, r, ?_, hr, hleast⟩
  simp only [remainingDelta, hlast, hnow, hδ, bind, Except.bind, pure, Except.pure]

/-- `crontab(minute=0, hour=0, day_of_month=29, month_of_year=2)` in UTC. -/
def leapDay : Crontab where
  minute := ⟨[0], by simp, by simp, by simp⟩
  hour := ⟨[0], by simp, by simp, by simp⟩
  dayOfWeek := ⟨[0, 1, 2, 3, 4, 5, 6], by decide, by simp, by decide⟩
  dayOfMonth := ⟨[29], by simp, by simp, by simp⟩
  monthOfYear := ⟨[2], by simp, by simp, by simp⟩
  origDayOfMonth := .int 29
  origMonthOfYear := .int 2
  tz := .utc
  star_dayOfMonth := by simp
  star_monthOfYear := by simp

/-- Noon of a day, in UTC. -/
def noon (D : Date) : Datetime :=
  ⟨D, 12, 0, 0, 0, some .utc, Datetime.twelve_lt_24, Datetime.zero_lt_60, Datetime.zero_lt_60,
    Datetime.zero_lt_1000000⟩

/-- The hypotheses of `remainingDelta_isLeast` are satisfiable: from noon of
`2023-03-01` the crontab of the leap days has a run, on `2024-02-29`. -/
theorem remainingDelta_isLeast_leapDay :
    ∃ last now', leapDay.toScheduleTz (noon ((date? 2023 3 1).get rfl)) = .ok last ∧
      ∃ δ r, leapDay.remainingDelta (noon ((date? 2023 3 1).get rfl))
          (noon ((date? 2023 3 2).get rfl)) = .ok (last, δ, now') ∧ δ.radd last = .ok r ∧
        IsLeast {t | leapDay.Occurs t ∧ last.floorMinute < t} r := by
  refine ⟨_, _, rfl, remainingDelta_isLeast leapDay _ _ rfl rfl
    ⟨leapDay.atTime ((date? 2024 2 29).get rfl) 0 0, ?_, by decide⟩⟩
  exact ⟨rfl, rfl, rfl, by decide, by decide, by decide, by decide, by decide⟩

end Crontab

end Celery
