/-
# What `_delta_to_next` finds

`roll_over` and the `while 1` around it walk the places `(year, moy, dom)` of
`datedata` in order.  A place is `Ahead` of a date when the walk has not passed
it, and `Place` is what holds of `datedata` throughout: its indexes are in
range, its year is not before that of `last_run_at`, and in the month of
`last_run_at` only later days are left.  Rolling over keeps both
(`Place.rollNext`, `Ahead.rollNext`), so no matching day is skipped, and it is
short: a leap year comes within eight years, so a day of the lists is valid
within some 130 months (`exists_near`), long before step 2000.
-/

import Celery.Schedules.Crontab

namespace Celery
namespace Crontab

open Gregorian Bisect

variable (c : Crontab)

/-- A date in the day and month lists of the crontab. -/
def Listed (D : Date) : Prop := D.month ∈ c.monthOfYear ∧ D.day ∈ c.dayOfMonth

/-- A date on which the crontab runs. -/
def DateMatches (D : Date) : Prop :=
  D.month ∈ c.monthOfYear ∧ D.day ∈ c.dayOfMonth ∧ D.isoweekday % 7 ∈ c.dayOfWeek

/-- The walk at `s` has not passed the date `D`. -/
def Ahead (s : DateData) (D : Date) : Prop :=
  s.year < D.year ∨ (s.year = D.year ∧ (c.monthAt s < D.month ∨
    (c.monthAt s = D.month ∧ s.dom < c.dayOfMonth.values.length ∧ c.dayAt s ≤ D.day)))

/-- What holds of `datedata` at every step, from `last_run_at` on. -/
structure Place (last : Datetime) (s : DateData) : Prop where
  moy_lt : s.moy < c.monthOfYear.values.length
  dom_le : s.dom ≤ c.dayOfMonth.values.length
  year_ge : last.date.year ≤ s.year
  month_ge : s.year = last.date.year → last.date.month ∈ c.monthOfYear →
    last.date.month ≤ c.monthAt s
  later : s.year = last.date.year → c.monthAt s = last.date.month →
    ∀ j, s.dom ≤ j → j < c.dayOfMonth.values.length → last.date.day < c.dayOfMonth.values.getD j 0

variable {c} {last : Datetime} {nh nm : ℕ} {s : DateData} {D E : Date}

theorem DateMatches.listed (h : c.DateMatches D) : c.Listed D := ⟨h.1, h.2.1⟩

theorem monthAt_mem (h : s.moy < c.monthOfYear.values.length) : c.monthAt s ∈ c.monthOfYear :=
  getD_mem h

/-- A month the walk is at does not come after a listed month without the next
place being there. -/
theorem monthAt_rollNext_le (h : s.moy < c.monthOfYear.values.length) {m : ℕ}
    (hm : m ∈ c.monthOfYear) (hlt : c.monthAt s < m) :
    s.moy + 1 ≠ c.monthOfYear.values.length ∧ c.monthAt (c.rollNext s) ≤ m := by
  obtain ⟨h₁, h₂⟩ := getD_succ_le c.monthOfYear.sorted h hm hlt
  have hne : s.moy + 1 ≠ c.monthOfYear.values.length := by omega
  refine ⟨hne, ?_⟩
  rw [rollNext, if_neg hne]
  exact h₂

theorem rollNext_dom (c : Crontab) (s : DateData) : (c.rollNext s).dom = 0 := by
  unfold rollNext; split_ifs <;> rfl

theorem dayAt_of_dom_eq_zero (h : s.dom = 0) (hD : D.day ∈ c.dayOfMonth) : c.dayAt s ≤ D.day := by
  rw [dayAt, h]
  exact getD_zero_le c.dayOfMonth.sorted hD

theorem values_length_pos {lo hi : ℕ} (f : CronField lo hi) : 0 < f.values.length :=
  List.length_pos_of_ne_nil f.ne_nil

/-- At the first day of a month not after that of `D`, the walk has not passed `D`. -/
theorem Ahead.within (hy : s.year = D.year) (hm : c.monthAt s ≤ D.month) (hdom : s.dom = 0)
    (hD : c.Listed D) : c.Ahead s D := by
  rcases Nat.lt_or_eq_of_le hm with hm | hm
  · exact Or.inr ⟨hy, Or.inl hm⟩
  · exact Or.inr ⟨hy, Or.inr ⟨hm, hdom ▸ values_length_pos c.dayOfMonth,
      dayAt_of_dom_eq_zero hdom hD.2⟩⟩

/-- Rolling to the next month passes only what is in this month. -/
theorem Ahead.rollNext (hs : s.moy < c.monthOfYear.values.length) (hD : c.Listed D)
    (h : s.year < D.year ∨ (s.year = D.year ∧ c.monthAt s < D.month)) :
    c.Ahead (c.rollNext s) D := by
  have hdom := rollNext_dom c s
  rcases h with h | ⟨hy, hm⟩
  · rcases Nat.lt_or_ge (c.rollNext s).year D.year with hlt | hge
    · exact Or.inl hlt
    · -- the year wrapped to that of `D`, so the walk is at the first listed month
      have hwrap : s.moy + 1 = c.monthOfYear.values.length := by
        by_contra hne
        rw [Crontab.rollNext, if_neg hne] at hge
        simp only at hge
        omega
      have hroll : c.rollNext s = { year := s.year + 1, dom := 0, moy := 0 } := by
        rw [Crontab.rollNext, if_pos hwrap]
      refine Ahead.within ?_ ?_ hdom hD
      · rw [hroll] at hge ⊢
        simp only at hge ⊢
        omega
      · rw [hroll]
        exact getD_zero_le c.monthOfYear.sorted hD.1
  · obtain ⟨hne, hle⟩ := monthAt_rollNext_le hs hD.1 hm
    have hroll : (c.rollNext s).year = s.year := by rw [Crontab.rollNext, if_neg hne]
    exact Ahead.within (hroll.trans hy) hle hdom hD

/-- A date of the month the walk is at, on a day it has not passed, makes the
place valid. -/
theorem date?_of_ahead (h : c.Ahead s D) (hy : s.year = D.year) (hm : c.monthAt s = D.month)
    (hpos : 1 ≤ c.dayAt s) : ∃ th, date? s.year (c.monthAt s) (c.dayAt s) = some th := by
  have hle : c.dayAt s ≤ D.day := by
    rcases h with h | ⟨-, h | ⟨-, -, h⟩⟩
    · omega
    · omega
    · exact h
  rw [hy, hm, date?, dif_pos ⟨⟨D.year_pos, D.year_le⟩, ⟨D.month_pos, D.month_le⟩, hpos,
    hle.trans D.day_le⟩]
  exact ⟨_, rfl⟩

theorem one_le_dayAt (h : s.dom < c.dayOfMonth.values.length) : 1 ≤ c.dayAt s :=
  CronField.lo_le (f := c.dayOfMonth) (getD_mem h)

/-- A place flagged by `roll_over` holds no date after `last_run_at` that the
walk has not passed. -/
theorem not_flag_of_same_month (htz : last.tzinfo = some c.tz) (hp : c.Place last s)
    (h : c.Ahead s D) (hlast : last.date < D) (hy : s.year = D.year)
    (hm : c.monthAt s = D.month) : c.rollFlag last nh nm s = false := by
  have hdom : s.dom < c.dayOfMonth.values.length := by
    rcases h with h | ⟨-, h | ⟨-, h, -⟩⟩
    · omega
    · omega
    · exact h
  obtain ⟨th, hth⟩ := date?_of_ahead h hy hm (one_le_dayAt hdom)
  obtain ⟨hty, htm, htd⟩ := date?_eq_some_iff.1 hth
  have hafter : last.date < th := by
    rw [Date.lt_iff_lex] at hlast ⊢
    rw [hty, htm, htd, hy, hm]
    rcases hlast with hlt | ⟨hye, hlt | ⟨hme, -⟩⟩
    · exact Or.inl hlt
    · exact Or.inr ⟨hye, Or.inl hlt⟩
    · exact Or.inr ⟨hye, Or.inr ⟨hme, hp.later (hy.trans hye.symm) (hm.trans hme.symm) s.dom le_rfl hdom⟩⟩
  have hnlt : ¬(c.atTime th nh nm < last) := by
    intro hlt
    exact absurd (Datetime.date_le_of_lt (by rw [htz]; rfl) hlt) (not_le.2 hafter)
  simp only [rollFlag, dayOutOfRange, isBeforeLastRun, hth, Option.isNone_some, Bool.or_false,
    Bool.or_eq_false_iff, beq_eq_false_iff_ne, decide_eq_false_iff_not]
  exact ⟨by omega, hnlt⟩

/-- **Rolling over skips no listed date after `last_run_at`.** -/
theorem Ahead.of_flag (htz : last.tzinfo = some c.tz) (hp : c.Place last s)
    (hflag : c.rollFlag last nh nm s = true) (hD : c.Listed D) (hlast : last.date < D)
    (h : c.Ahead s D) : c.Ahead (c.rollNext s) D := by
  refine Ahead.rollNext hp.moy_lt hD ?_
  rcases h with hy | ⟨hy, hm | ⟨hm, hd⟩⟩
  · exact Or.inl hy
  · exact Or.inr ⟨hy, hm⟩
  · rw [not_flag_of_same_month htz hp (Or.inr ⟨hy, Or.inr ⟨hm, hd⟩⟩) hlast hy hm] at hflag
    cases hflag

theorem Place.rollNext (hp : c.Place last s) : c.Place last (c.rollNext s) := by
  have hlt := hp.moy_lt
  have hge := hp.year_ge
  unfold Crontab.rollNext
  split_ifs with hwrap
  · have hyear : s.year + 1 ≠ last.date.year := by omega
    exact ⟨values_length_pos _, Nat.zero_le _, by simp only; omega, fun hy => absurd hy hyear,
      fun hy => absurd hy hyear⟩
  · have hmoy : s.moy + 1 < c.monthOfYear.values.length := by omega
    have hgrow : c.monthAt s < c.monthAt { s with dom := 0, moy := s.moy + 1 } :=
      getD_lt_getD c.monthOfYear.sorted (Nat.lt_succ_self _) hmoy
    refine ⟨hmoy, Nat.zero_le _, hge, fun hy hmem => ?_, fun hy hm => ?_⟩
    · exact (hp.month_ge hy hmem).trans hgrow.le
    · -- the month of `last_run_at` was not skipped, so the next one is not it
      have hmem : last.date.month ∈ c.monthOfYear := hm ▸ monthAt_mem hmoy
      have hle := hp.month_ge hy hmem
      rw [← hm] at hle
      exact absurd hgrow (not_lt.2 hle)

/-- How many months of the list lie before the one the walk is at. -/
def slot (c : Crontab) (s : DateData) : ℕ := s.year * c.monthOfYear.values.length + s.moy

/-- The place of `datedata` in the walk: years, then months, then days of the lists. -/
def pos (c : Crontab) (s : DateData) : ℕ := slot c s * 32 + s.dom

theorem slot_rollNext (c : Crontab) (s : DateData) : slot c (c.rollNext s) = slot c s + 1 := by
  unfold slot Crontab.rollNext
  split_ifs with h
  · simp only [Nat.add_mul, Nat.one_mul]
    omega
  · simp only
    omega

theorem length_values_le {lo hi : ℕ} (f : CronField lo hi) : f.values.length ≤ hi - lo := by
  have hsub : f.values ⊆ List.range' lo (hi - lo) := by
    intro v hv
    have := f.mem_range v hv
    rw [List.mem_range'_1]
    omega
  have hnodup : f.values.Nodup := f.sorted.imp fun h => h.ne
  simpa using (List.subperm_of_subset hnodup hsub).length_le

/-- `datedata` at a listed date. -/
def IsPlaceOf (c : Crontab) (t : DateData) (D : Date) : Prop :=
  t.year = D.year ∧ t.moy < c.monthOfYear.values.length ∧ c.monthAt t = D.month ∧
    t.dom < c.dayOfMonth.values.length ∧ c.dayAt t = D.day

theorem exists_isPlaceOf (hD : c.Listed D) : ∃ t, IsPlaceOf c t D := by
  obtain ⟨i, hi, hmi⟩ := exists_getD_eq hD.1
  obtain ⟨j, hj, hdj⟩ := exists_getD_eq hD.2
  exact ⟨⟨D.year, j, i⟩, rfl, hi, hmi, hj, hdj⟩

/-- A date the walk has not passed lies at or beyond it. -/
theorem Ahead.slot_le {t : DateData} (hp : c.Place last s) (ht : IsPlaceOf c t D)
    (h : c.Ahead s D) : slot c s < slot c t ∨
      (slot c s = slot c t ∧ s.year = D.year ∧ c.monthAt s = D.month ∧ s.dom ≤ t.dom) := by
  obtain ⟨hty, htm, hmt, htd, hdt⟩ := ht
  have hmoy := hp.moy_lt
  rcases h with h | ⟨hy, h | ⟨hm, hdom, hle⟩⟩
  · left
    have hmul := Nat.mul_le_mul_right c.monthOfYear.values.length (show s.year + 1 ≤ t.year by omega)
    rw [Nat.add_mul, Nat.one_mul] at hmul
    unfold slot
    omega
  · left
    have hlt : s.moy < t.moy := lt_of_getD_lt c.monthOfYear.sorted hmoy (by
      rw [← hmt] at h; exact h)
    unfold slot
    rw [hy, ← hty]
    omega
  · right
    have hsm : s.moy = t.moy := le_antisymm
      (le_of_getD_le c.monthOfYear.sorted hmoy (hm.trans hmt.symm).le)
      (le_of_getD_le c.monthOfYear.sorted htm (hm.trans hmt.symm).ge)
    refine ⟨?_, hy, hm, le_of_getD_le c.dayOfMonth.sorted hdom (by rw [← hdt] at hle; exact hle)⟩
    unfold slot
    rw [hy, ← hty, hsm]

/-- **`roll_over` ends before it passes a listed date after `last_run_at`.** -/
theorem rollOver_ok (htz : last.tzinfo = some c.tz) (hE : c.Listed E) (hlast : last.date < E)
    {t : DateData} (ht : IsPlaceOf c t E) : ∀ (steps : ℕ) (s : DateData), c.Place last s →
      c.Ahead s E → slot c t < slot c s + steps → ∃ s', c.rollOver last nh nm steps s = .ok s'
  | 0, s, hp, h, hn => by
    rcases h.slot_le hp ht with hlt | ⟨heq, -⟩ <;> omega
  | steps + 1, s, hp, h, hn => by
    rw [rollOver]
    cases hflag : c.rollFlag last nh nm s with
    | false => exact ⟨s, rfl⟩
    | true =>
      refine rollOver_ok htz hE hlast ht steps (c.rollNext s) hp.rollNext
        (h.of_flag htz hp hflag hE hlast) ?_
      rw [slot_rollNext]
      omega

/-- Every eight years there is a leap year. -/
theorem exists_leap (y : ℕ) : ∃ z, y < z ∧ z ≤ y + 8 ∧ isLeap z = true := by
  have h : isLeap (4 * (y / 4) + 4) = true ∨ isLeap (4 * (y / 4) + 8) = true := by
    rw [isLeap_eq_true_iff, isLeap_eq_true_iff]
    omega
  rcases h with h | h
  · exact ⟨4 * (y / 4) + 4, by omega, by omega, h⟩
  · exact ⟨4 * (y / 4) + 8, by omega, by omega, h⟩

theorem daysInMonth_le_of_isLeap {y z m : ℕ} (hz : isLeap z = true) :
    daysInMonth y m ≤ daysInMonth z m := by
  simp only [daysInMonth, hz, if_true]
  split_ifs <;> omega

/-- If a listed date is ahead of the walk, one is within ten years. -/
theorem exists_near (hp : c.Place last s) (hE : c.Listed E) (hlast : last.date < E)
    (h : c.Ahead s E) :
    ∃ N, c.Listed N ∧ last.date < N ∧ c.Ahead s N ∧ N.year ≤ s.year + 10 := by
  rcases Nat.lt_or_ge (s.year + 10) E.year with hfar | hnear
  · obtain ⟨z, hz, hz', hleap⟩ := exists_leap s.year
    have hge := hp.year_ge
    have hz₁ : 1 ≤ z := by omega
    have hz₂ : z ≤ 9999 := by have := E.year_le; omega
    have hmem : c.dayOfMonth.values.getD 0 0 ∈ c.dayOfMonth := getD_mem (values_length_pos _)
    have hle : c.dayOfMonth.values.getD 0 0 ≤ daysInMonth z E.month :=
      ((getD_zero_le c.dayOfMonth.sorted hE.2).trans E.day_le).trans (daysInMonth_le_of_isLeap hleap)
    refine ⟨⟨z, E.month, c.dayOfMonth.values.getD 0 0, hz₁, hz₂, E.month_pos, E.month_le,
      CronField.lo_le hmem, hle⟩, ⟨hE.1, hmem⟩, Date.lt_iff_lex.2 (Or.inl ?_), Or.inl hz, ?_⟩
    · simp only
      omega
    · simp only
      omega
  · exact ⟨E, hE, hlast, h, hnear⟩

/-- **The 2000-step limit of `roll_over` is never hit** while a listed date is ahead. -/
theorem rollOver_2000 (nh nm : ℕ) (htz : last.tzinfo = some c.tz) (hp : c.Place last s) (hE : c.Listed E)
    (hlast : last.date < E) (h : c.Ahead s E) : ∃ s', c.rollOver last nh nm 2000 s = .ok s' := by
  obtain ⟨N, hN, hlastN, hahead, hyear⟩ := exists_near hp hE hlast h
  obtain ⟨t, ht⟩ := exists_isPlaceOf hN
  refine rollOver_ok htz hN hlastN ht 2000 s hp hahead ?_
  have hlen := length_values_le c.monthOfYear
  have hmul := Nat.mul_le_mul_right c.monthOfYear.values.length
    (show t.year ≤ s.year + 10 by rw [ht.1]; exact hyear)
  rw [Nat.add_mul] at hmul
  have hmoy := ht.2.1
  unfold slot
  omega

/-- What `roll_over` leaves: a place it has not flagged, past nothing. -/
theorem rollOver_spec (htz : last.tzinfo = some c.tz) : ∀ (steps : ℕ) {s s' : DateData},
    c.Place last s → c.rollOver last nh nm steps s = .ok s' →
      c.Place last s' ∧ c.rollFlag last nh nm s' = false ∧ pos c s ≤ pos c s' ∧
        ∀ D, c.Listed D → last.date < D → c.Ahead s D → c.Ahead s' D
  | 0, s, s', _, h => by cases h
  | steps + 1, s, s', hp, h => by
    rw [rollOver] at h
    cases hflag : c.rollFlag last nh nm s with
    | false =>
      rw [hflag] at h
      obtain rfl := Except.ok.inj h
      exact ⟨hp, hflag, le_rfl, fun _ _ _ hD => hD⟩
    | true =>
      rw [hflag] at h
      obtain ⟨hp', hflag', hpos, hahead⟩ := rollOver_spec htz steps hp.rollNext h
      refine ⟨hp', hflag', ?_, fun D hD hlast hs =>
        hahead D hD hlast (hs.of_flag htz hp hflag hD hlast)⟩
      have hdom := hp.dom_le
      have hlen := length_values_le c.dayOfMonth
      have hslot := slot_rollNext c s
      have hstep : pos c s ≤ pos c (c.rollNext s) := by
        unfold pos
        omega
      exact hstep.trans hpos

/-- An unflagged place is a listed date after `last_run_at`, and no later than
any date the walk has not passed. -/
theorem place_date (htz : last.tzinfo = some c.tz) (hp : c.Place last s)
    (hflag : c.rollFlag last nh nm s = false) :
    ∃ th, date? s.year (c.monthAt s) (c.dayAt s) = some th ∧ c.Listed th ∧ last.date < th ∧
      s.dom < c.dayOfMonth.values.length ∧ ∀ D, c.Ahead s D → th ≤ D := by
  simp only [rollFlag, Bool.or_eq_false_iff, beq_eq_false_iff_ne] at hflag
  obtain ⟨⟨hdom, hrange⟩, hbefore⟩ := hflag
  have hlt : s.dom < c.dayOfMonth.values.length := lt_of_le_of_ne hp.dom_le hdom
  cases hth : date? s.year (c.monthAt s) (c.dayAt s) with
  | none => simp [dayOutOfRange, hth] at hrange
  | some th =>
    obtain ⟨hy, hm, hd⟩ := date?_eq_some_iff.1 hth
    refine ⟨th, rfl, ⟨hm ▸ monthAt_mem hp.moy_lt, ?_⟩, ?_, hlt, fun D hD => ?_⟩
    · rw [hd]
      exact (getD_mem hlt : c.dayOfMonth.values.getD s.dom 0 ∈ c.dayOfMonth.values)
    · simp only [isBeforeLastRun, hth, decide_eq_false_iff_not] at hbefore
      by_contra hn
      rcases lt_or_eq_of_le (not_lt.1 hn) with hlt' | heq
      · exact hbefore (Datetime.lt_of_date_lt (by rw [htz]; rfl) hlt')
      · have := hp.later (by rw [← hy, heq]) (by rw [← hm, heq]) s.dom le_rfl hlt
        rw [← heq, hd] at this
        exact absurd this (lt_irrefl _)
    · rw [← not_lt, Date.lt_iff_lex, hy, hm, hd]
      rcases hD with h | ⟨hy', h | ⟨hm', -, h⟩⟩ <;> omega

/-- After a day on the wrong weekday the walk goes to the next entry. -/
theorem Ahead.next_dom {th : Date} (hth : date? s.year (c.monthAt s) (c.dayAt s) = some th)
    (hD : c.Listed D) (hne : D ≠ th) (h : c.Ahead s D) :
    c.Ahead { s with dom := s.dom + 1 } D := by
  rcases h with hy | ⟨hy, hm | ⟨hm, hdom, hle⟩⟩
  · exact Or.inl hy
  · exact Or.inr ⟨hy, Or.inl hm⟩
  · obtain ⟨hty, htm, htd⟩ := date?_eq_some_iff.1 hth
    have hlt : c.dayAt s < D.day := by
      refine lt_of_le_of_ne hle fun heq => hne (Date.ext ?_ ?_ ?_)
      · rw [hty, hy]
      · rw [htm, hm]
      · rw [htd, heq]
    obtain ⟨h₁, h₂⟩ := getD_succ_le c.dayOfMonth.sorted hdom hD.2 hlt
    exact Or.inr ⟨hy, Or.inr ⟨hm, h₁, h₂⟩⟩

theorem Place.next_dom (hp : c.Place last s) (h : s.dom < c.dayOfMonth.values.length) :
    c.Place last { s with dom := s.dom + 1 } :=
  ⟨hp.moy_lt, h, hp.year_ge, hp.month_ge, fun hy hm j hj => hp.later hy hm j (by simp only at hj; omega)⟩

/-- **The search finds the first matching date**: from an unflagged place, with
a matching date `E` ahead and fuel for the places up to it. -/
theorem searchDay_spec (nh nm : ℕ) (htz : last.tzinfo = some c.tz) (hE : c.DateMatches E)
    (hlast : last.date < E) {t : DateData} (ht : IsPlaceOf c t E) :
    ∀ (fuel : ℕ) (s : DateData), c.Place last s → c.rollFlag last nh nm s = false →
      c.Ahead s E → pos c t < pos c s + fuel →
        ∃ s' th, c.searchDay last nh nm fuel s = .ok s' ∧
          date? s'.year (c.monthAt s') (c.dayAt s') = some th ∧ c.DateMatches th ∧
            last.date < th ∧ ∀ D, c.DateMatches D → last.date < D → c.Ahead s D → th ≤ D
  | 0, s, hp, _, h, hn => by
    unfold pos at hn
    rcases h.slot_le hp ht with hlt | ⟨heq, -, -, hdom⟩
    · have hdom := hp.dom_le
      have hlen := length_values_le c.dayOfMonth
      omega
    · omega
  | fuel + 1, s, hp, hflag, h, hn => by
    obtain ⟨th, hth, hlisted, hafter, hdom, hleast⟩ := place_date htz hp hflag
    by_cases hdow : th.isoweekday % 7 ∈ c.dayOfWeek
    · refine ⟨s, th, ?_, hth, ⟨hlisted.1, hlisted.2, hdow⟩, hafter, fun D _ _ hD => hleast D hD⟩
      simp only [searchDay, hth, orRaise, bind, Except.bind, if_pos hdow]
    · have hne : ∀ D, c.DateMatches D → D ≠ th := by
        rintro D hD rfl
        exact hdow hD.2.2
      have hp₁ := hp.next_dom hdom
      have hE₁ := h.next_dom hth hE.listed (hne E hE)
      obtain ⟨s₁, hs₁⟩ := rollOver_2000 nh nm htz hp₁ hE.listed hlast hE₁
      obtain ⟨hp₂, hflag₂, hpos, hahead⟩ := rollOver_spec htz 2000 hp₁ hs₁
      obtain ⟨s', th', hs', hth', hmatch, hafter', hleast'⟩ := searchDay_spec nh nm htz hE hlast ht fuel
        s₁ hp₂ hflag₂ (hahead E hE.listed hlast hE₁) (by
          have : pos c { s with dom := s.dom + 1 } = pos c s + 1 := rfl
          omega)
      refine ⟨s', th', ?_, hth', hmatch, hafter', fun D hD hD' hs =>
        hleast' D hD hD' (hahead D hD.listed hD' (hs.next_dom hth hD.listed (hne D hD)))⟩
      simp only [searchDay, hth, orRaise, bind, Except.bind, if_neg hdow, hs₁]
      exact hs'

theorem moy_lt_of_wrap (c : Crontab) (x : ℕ) :
    (if bisect c.monthOfYear.values x = c.monthOfYear.values.length then 0
      else bisect c.monthOfYear.values x) < c.monthOfYear.values.length := by
  split_ifs with h
  · exact values_length_pos _
  · exact lt_of_le_of_ne (bisect_le_length _ _) h

/-- Before the first `roll_over`, nothing after `last_run_at` is passed. -/
theorem startData_spec (c : Crontab) (last : Datetime) :
    c.Place last (c.startData last) ∧
      ∀ D, c.Listed D → last.date < D → c.Ahead (c.startData last) D := by
  unfold startData
  split_ifs with hmem
  · obtain ⟨hlt, hmonth⟩ := getD_bisectLeft c.monthOfYear.sorted hmem
    refine ⟨⟨hlt, bisect_le_length _ _, le_rfl, fun _ _ => hmonth.ge, fun _ _ j hj hjl =>
      lt_getD_bisect c.dayOfMonth.sorted hjl hj⟩, fun D hD hlast => ?_⟩
    rcases Date.lt_iff_lex.1 hlast with hy | ⟨hy, hm | ⟨hm, hd⟩⟩
    · exact Or.inl hy
    · exact Or.inr ⟨hy, Or.inl (hmonth.trans_lt hm)⟩
    · obtain ⟨j, hj, hjd⟩ := exists_getD_eq hD.2
      have hle : bisect c.dayOfMonth.values last.date.day ≤ j := by
        by_contra hn
        have := getD_bisect_le c.dayOfMonth.sorted hj (not_le.1 hn)
        omega
      exact Or.inr ⟨hy, Or.inr ⟨hmonth.trans hm, hle.trans_lt hj,
        (getD_le_getD c.dayOfMonth.sorted hle hj).trans hjd.le⟩⟩
  · refine ⟨⟨?_, Nat.zero_le _, le_rfl, fun _ h => absurd h hmem, fun _ hm => ?_⟩,
      fun D hD hlast => ?_⟩
    · exact moy_lt_of_wrap c _
    · exact absurd (hm ▸ monthAt_mem (moy_lt_of_wrap c _)) hmem
    · rcases Date.lt_iff_lex.1 hlast with hy | ⟨hy, hm | ⟨hm, -⟩⟩
      · exact Or.inl hy
      · obtain ⟨j, hj, hjm⟩ := exists_getD_eq hD.1
        have hle : bisect c.monthOfYear.values last.date.month ≤ j := by
          by_contra hn
          have := getD_bisect_le c.monthOfYear.sorted hj (not_le.1 hn)
          omega
        refine Ahead.within hy ?_ rfl hD
        simp only [monthAt, if_neg (hle.trans_lt hj).ne]
        exact (getD_le_getD c.monthOfYear.sorted hle hj).trans hjm.le
      · exact absurd (hm ▸ hD.1) hmem

/-- **`_delta_to_next` finds the first matching date after `last_run_at`.** -/
theorem deltaToNext_spec (nh nm : ℕ) (htz : last.tzinfo = some c.tz)
    (hE : ∃ E, c.DateMatches E ∧ last.date < E) :
    ∃ th : Date, IsLeast {D | c.DateMatches D ∧ last.date < D} th ∧
      c.deltaToNext last nh nm = .ok
        { year := some th.year, month := some th.month, day := some th.day
          hour := some nh, minute := some nm, second := some 0, microsecond := some 0 } := by
  obtain ⟨E, hE, hlast⟩ := hE
  obtain ⟨hp, hahead⟩ := startData_spec c last
  obtain ⟨s, hs⟩ := rollOver_2000 nh nm htz hp hE.listed hlast
    (hahead E hE.listed hlast)
  obtain ⟨hp₁, hflag, -, hahead₁⟩ := rollOver_spec htz 2000 hp hs
  obtain ⟨t, ht⟩ := exists_isPlaceOf hE.listed
  obtain ⟨s', th, hs', hth, hmatch, hafter, hleast⟩ := searchDay_spec nh nm htz hE
    hlast ht (10000 * 12 * 32) s hp₁ hflag (hahead₁ E hE.listed hlast (hahead E hE.listed hlast)) (by
      have hy := E.year_le
      have hlen := length_values_le c.monthOfYear
      have hlen' := length_values_le c.dayOfMonth
      have hmul : t.year * c.monthOfYear.values.length ≤ 9999 * 12 :=
        Nat.mul_le_mul (ht.1 ▸ hy) hlen
      have hmoy := ht.2.1
      have hdom := ht.2.2.2.1
      unfold pos slot
      omega)
  obtain ⟨hty, htm, htd⟩ := date?_eq_some_iff.1 hth
  refine ⟨th, ⟨⟨hmatch, hafter⟩, fun D hD => hleast D hD.1 hD.2
    (hahead₁ D hD.1.listed hD.2 (hahead D hD.1.listed hD.2))⟩, ?_⟩
  simp only [deltaToNext, hs, hs', bind, Except.bind, pure, Except.pure, hty, htm, htd]

/-- A search that ends has found a matching date. -/
theorem searchDay_matches (htz : last.tzinfo = some c.tz) : ∀ (fuel : ℕ) {s s' : DateData},
    c.Place last s → c.rollFlag last nh nm s = false → c.searchDay last nh nm fuel s = .ok s' →
      ∃ E, c.DateMatches E ∧ last.date < E
  | 0, s, s', _, _, h => by cases h
  | fuel + 1, s, s', hp, hflag, h => by
    obtain ⟨th, hth, hlisted, hafter, hdom, -⟩ := place_date htz hp hflag
    by_cases hdow : th.isoweekday % 7 ∈ c.dayOfWeek
    · exact ⟨th, ⟨hlisted.1, hlisted.2, hdow⟩, hafter⟩
    · simp only [searchDay, hth, orRaise, bind, Except.bind, if_neg hdow] at h
      cases hs₁ : c.rollOver last nh nm 2000 { s with dom := s.dom + 1 } with
      | error e =>
        rw [hs₁] at h
        cases h
      | ok s₁ =>
        rw [hs₁] at h
        obtain ⟨hp₁, hflag₁, -⟩ := rollOver_spec htz 2000 (hp.next_dom hdom) hs₁
        exact searchDay_matches htz fuel hp₁ hflag₁ h

/-- `_delta_to_next` raises if no matching date is left. -/
theorem deltaToNext_matches {δ : Ffwd} (htz : last.tzinfo = some c.tz)
    (h : c.deltaToNext last nh nm = .ok δ) : ∃ E, c.DateMatches E ∧ last.date < E := by
  unfold deltaToNext at h
  cases hs : c.rollOver last nh nm 2000 (c.startData last) with
  | error e =>
    rw [hs] at h
    cases h
  | ok s =>
    obtain ⟨hp, hflag, -⟩ := rollOver_spec htz 2000 (startData_spec c last).1 hs
    rw [hs] at h
    change (c.searchDay last nh nm (10000 * 12 * 32) s).bind _ = .ok δ at h
    cases hs' : c.searchDay last nh nm (10000 * 12 * 32) s with
    | error e =>
      rw [hs'] at h
      cases h
    | ok s' => exact searchDay_matches htz _ hp hflag hs'

end Crontab
end Celery
