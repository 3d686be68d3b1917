/-
# `celery/utils/time.py`: datetimes, time zones and `ffwd`

The part of `celery.utils.time` that the crontab schedules stand on, over the
calendar of `Celery.Library.Gregorian`:

* `Datetime` is `datetime.datetime`, naive or in a fixed-offset zone; a zone is
  its offset from UTC.  `Datetime.wall` counts the microseconds of its wall
  clock and `Datetime.instant` those of UTC, by which datetimes compare.
* `Datetime.astimezone`, `localize`, `makeAware` and `maybeMakeAware` convert
  between zones; they overflow where `datetime` does.
* `Ffwd` is the relative delta `ffwd` and `Ffwd.radd` its `__radd__`
  (lines 408-449): set the given fields, clamp the day to the month, move
  forward to a weekday, add weeks.
* `deltaResolution` and `remaining` (lines 195-254) give the time that is left of
  an interval.
-/

import Celery.Library.Gregorian
import Mathlib.Tactic.Ring

namespace Celery

open Gregorian

/-- The exceptions the modelled Python code raises.  `outOfFuel` is none of
them: a loop the model has cut off. -/
inductive PyError where
  | valueError
  | overflowError
  | indexError
  | typeError
  | attributeError
  | runtimeError (msg : String)
  | invalidTaskError (msg : String)
  | improperlyConfigured (msg : String)
  | outOfFuel
deriving DecidableEq, Repr

/-- The value of a partial operation, or the exception `e`. -/
def orRaise {α : Type} (e : PyError) : Option α → Except PyError α
  | none => .error e
  | some a => .ok a

@[simp] theorem orRaise_eq_ok_iff {α : Type} {e : PyError} {o : Option α} {a : α} :
    orRaise e o = .ok a ↔ o = some a := by
  cases o <;> simp [orRaise]

/-- A computation of two steps returns if both do. -/
theorem bind_eq_ok_iff {ε α β : Type} {x : Except ε α} {f : α → Except ε β} {b : β} :
    x >>= f = .ok b ↔ ∃ a, x = .ok a ∧ f a = .ok b := by
  cases x with
  | error e => simp [bind, Except.bind]
  | ok a => simp [bind, Except.bind]

/-- It raises what the first step raises, or what the second does. -/
theorem bind_eq_error_iff {ε α β : Type} {x : Except ε α} {f : α → Except ε β} {e : ε} :
    x >>= f = .error e ↔ x = .error e ∨ ∃ a, x = .ok a ∧ f a = .error e := by
  cases x with
  | error e => simp [bind, Except.bind]
  | ok a => simp [bind, Except.bind]

theorem orRaise_eq_error_iff {α : Type} {e e' : PyError} {o : Option α} :
    orRaise e o = .error e' ↔ o = none ∧ e = e' := by
  cases o <;> simp [orRaise]

/-- A fixed-offset `tzinfo`: the microseconds its wall clock is ahead of UTC,
less than a day either way. -/
abbrev TzInfo := {o : ℤ // -86400000000 < o ∧ o < 86400000000}

/-- `timezone.utc`. -/
def TzInfo.utc : TzInfo := ⟨0, by decide⟩

/-- `datetime.datetime`: naive, or aware in a fixed-offset zone. -/
@[ext] structure Datetime where
  date : Date
  hour : ℕ
  minute : ℕ
  second : ℕ
  microsecond : ℕ
  tzinfo : Option TzInfo
  hour_lt : hour < 24
  minute_lt : minute < 60
  second_lt : second < 60
  microsecond_lt : microsecond < 1000000
deriving DecidableEq

namespace Datetime

/-! The bounds of midnight and noon, for literal times. -/

theorem zero_lt_24 : 0 < 24 := by decide

theorem twelve_lt_24 : 12 < 24 := by decide

theorem zero_lt_60 : 0 < 60 := by decide

theorem zero_lt_1000000 : 0 < 1000000 := by decide

/-- Microseconds into the day. -/
def timeOfDay (t : Datetime) : ℕ :=
  ((t.hour * 60 + t.minute) * 60 + t.second) * 1000000 + t.microsecond

theorem timeOfDay_lt (t : Datetime) : t.timeOfDay < 86400000000 := by
  have := t.hour_lt; have := t.minute_lt; have := t.second_lt; have := t.microsecond_lt
  unfold timeOfDay; omega

/-- Microseconds of the wall clock since the day before `0001-01-01`. -/
def wall (t : Datetime) : ℤ := t.date.toOrdinal * 86400000000 + t.timeOfDay

/-- The same in UTC; a naive datetime is read as UTC. -/
def instant (t : Datetime) : ℤ := t.wall - ((t.tzinfo.map Subtype.val).getD 0)

/-- Datetimes compare by their instants (`datetime.__lt__`). -/
instance : Preorder Datetime where
  le t u := t.instant ≤ u.instant
  lt t u := t.instant < u.instant
  le_refl _ := le_rfl
  le_trans _ _ _ := le_trans
  lt_iff_le_not_ge _ _ := lt_iff_le_not_ge

theorem lt_iff_instant {t u : Datetime} : t < u ↔ t.instant < u.instant := Iff.rfl

theorem le_iff_instant {t u : Datetime} : t ≤ u ↔ t.instant ≤ u.instant := Iff.rfl

instance : DecidableRel (α := Datetime) (· < ·) := fun t u =>
  inferInstanceAs (Decidable (t.instant < u.instant))

theorem lt_iff_wall {t u : Datetime} (h : t.tzinfo = u.tzinfo) : t < u ↔ t.wall < u.wall := by
  rw [lt_iff_instant, instant, instant, h]; omega

theorem le_iff_wall {t u : Datetime} (h : t.tzinfo = u.tzinfo) : t ≤ u ↔ t.wall ≤ u.wall := by
  rw [le_iff_instant, instant, instant, h]; omega

theorem wall_lt_iff (t u : Datetime) :
    t.wall < u.wall ↔ t.date < u.date ∨ (t.date = u.date ∧ t.timeOfDay < u.timeOfDay) := by
  have ht := t.timeOfDay_lt
  have hu := u.timeOfDay_lt
  have hinj : t.date = u.date ↔ t.date.toOrdinal = u.date.toOrdinal :=
    Date.toOrdinal_injective.eq_iff.symm
  rw [hinj, Date.lt_iff_toOrdinal]
  unfold wall
  omega

/-- Same zone, earlier day: earlier. -/
theorem lt_of_date_lt {t u : Datetime} (htz : t.tzinfo = u.tzinfo) (h : t.date < u.date) :
    t < u :=
  (lt_iff_wall htz).2 ((wall_lt_iff t u).2 (Or.inl h))

theorem date_le_of_lt {t u : Datetime} (htz : t.tzinfo = u.tzinfo) (h : t < u) :
    t.date ≤ u.date := by
  rcases (wall_lt_iff t u).1 ((lt_iff_wall htz).1 h) with h | h
  · exact h.le
  · exact h.1.le

/-- The datetime whose wall clock reads `w` microseconds, `none` outside the
years 1 to 9999. -/
def ofWall (w : ℤ) (tz : Option TzInfo) : Option Datetime :=
  (ofOrdinal (w / 86400000000)).map fun D =>
    let n := (w % 86400000000).toNat
    { date := D, hour := n / 3600000000, minute := n / 60000000 % 60
      second := n / 1000000 % 60, microsecond := n % 1000000, tzinfo := tz
      hour_lt := by omega
      minute_lt := Nat.mod_lt _ (by decide)
      second_lt := Nat.mod_lt _ (by decide)
      microsecond_lt := Nat.mod_lt _ (by decide) }

theorem wall_of_ofWall {w : ℤ} {tz : Option TzInfo} {t : Datetime} (h : ofWall w tz = some t) :
    t.wall = w ∧ t.tzinfo = tz := by
  obtain ⟨D, hD, rfl⟩ := Option.map_eq_some_iff.1 h
  have hord := ofOrdinal_eq_some_iff.1 hD
  refine ⟨?_, rfl⟩
  simp only [wall, timeOfDay, hord]
  have hn : 0 ≤ w % 86400000000 := Int.emod_nonneg _ (by decide)
  have hsplit := Int.mul_ediv_add_emod w 86400000000
  generalize hm : (w % 86400000000).toNat = n
  have hmn : w % 86400000000 = n := by omega
  omega

/-- `datetime + timedelta` of `δ` microseconds. -/
def add (t : Datetime) (δ : ℤ) : Except PyError Datetime :=
  orRaise .overflowError (ofWall (t.wall + δ) t.tzinfo)

/-- `datetime + timedelta(days=n)`: only the date moves. -/
def addDays (t : Datetime) (n : ℤ) : Except PyError Datetime :=
  (orRaise .overflowError (t.date.addDays n)).map fun D => { t with date := D }

theorem addDays_eq_ok_iff {t u : Datetime} {n : ℤ} :
    t.addDays n = .ok u ↔
      ∃ D : Date, (D.toOrdinal : ℤ) = t.date.toOrdinal + n ∧ u = { t with date := D } := by
  unfold addDays
  cases h : t.date.addDays n with
  | none =>
    simp only [orRaise, Except.map, reduceCtorEq, false_iff, not_exists, not_and]
    intro D hD
    rw [Date.addDays_eq_some_iff.2 hD] at h
    cases h
  | some D =>
    have hD := Date.addDays_eq_some_iff.1 h
    simp only [orRaise, Except.map, Except.ok.injEq]
    constructor
    · rintro rfl; exact ⟨D, hD, rfl⟩
    · rintro ⟨E, hE, rfl⟩
      rw [Date.toOrdinal_injective (show D.toOrdinal = E.toOrdinal by omega)]

/-- `datetime.replace` of every field but the zone. -/
def replace (t : Datetime) (year month day : ℕ) (hour minute second microsecond : Option ℕ) :
    Except PyError Datetime :=
  match date? year month day with
  | none => .error .valueError
  | some D =>
    if h : hour.getD t.hour < 24 ∧ minute.getD t.minute < 60 ∧ second.getD t.second < 60 ∧
        microsecond.getD t.microsecond < 1000000 then
      .ok { date := D, hour := hour.getD t.hour, minute := minute.getD t.minute
            second := second.getD t.second, microsecond := microsecond.getD t.microsecond
            tzinfo := t.tzinfo, hour_lt := h.1, minute_lt := h.2.1, second_lt := h.2.2.1
            microsecond_lt := h.2.2.2 }
    else .error .valueError

/-- `datetime.astimezone(tz)` of an aware datetime: through UTC, both steps
within the years 1 to 9999.  A naive datetime is taken to be in UTC here; the
code never converts one. -/
def astimezone (t : Datetime) (tz : TzInfo) : Except PyError Datetime :=
  if t.tzinfo = some tz then .ok t
  else do
    let utc ← orRaise .overflowError (ofWall t.instant (some tz))
    utc.add tz.val

theorem astimezone_self {t : Datetime} {tz : TzInfo} (h : t.tzinfo = some tz) :
    t.astimezone tz = .ok t := by
  rw [astimezone, if_pos h]

/-- Changing the zone keeps the instant. -/
theorem astimezone_spec {t u : Datetime} {tz : TzInfo} (h : t.astimezone tz = .ok u) :
    u.tzinfo = some tz ∧ u.instant = t.instant := by
  unfold astimezone at h
  split_ifs at h with htz
  · obtain rfl := Except.ok.inj h
    exact ⟨htz, rfl⟩
  · cases hu : ofWall t.instant (some tz) with
    | none => rw [hu] at h; cases h
    | some v =>
      obtain ⟨hw, hvtz⟩ := wall_of_ofWall hu
      rw [hu] at h
      obtain ⟨hw', hutz⟩ := wall_of_ofWall (orRaise_eq_ok_iff.1 (show v.add tz.val = .ok u from h))
      refine ⟨by rw [hutz, hvtz], ?_⟩
      rw [instant, hutz, hvtz, hw', hw]
      simp

theorem overflow_of_add {t : Datetime} {δ : ℤ} {e : PyError} (h : t.add δ = .error e) :
    e = .overflowError :=
  (orRaise_eq_error_iff.mp h).2.symm

/-- Changing the zone can only leave the years 1 to 9999. -/
theorem overflow_of_astimezone {t : Datetime} {tz : TzInfo} {e : PyError}
    (h : t.astimezone tz = .error e) : e = .overflowError := by
  rw [astimezone] at h
  split_ifs at h
  rcases bind_eq_error_iff.mp h with h | ⟨u, -, h⟩
  · exact (orRaise_eq_error_iff.mp h).2.symm
  · exact overflow_of_add h

end Datetime

/-- `is_naive`. -/
def isNaive (t : Datetime) : Bool := t.tzinfo.isNone

/-- `make_aware`: a fixed-offset zone has no ambiguous or imaginary times. -/
def makeAware (t : Datetime) (tz : TzInfo) : Datetime := { t with tzinfo := some tz }

/-- `localize`. -/
def localize (t : Datetime) (tz : TzInfo) : Except PyError Datetime :=
  let t := if isNaive t then makeAware t tz else t
  if t.tzinfo = some TzInfo.utc then t.astimezone tz else .ok t

/-- `to_utc`. -/
def toUtc (t : Datetime) : Datetime := makeAware t TzInfo.utc

/-- `maybe_make_aware`. -/
def maybeMakeAware (t : Datetime) (tz : TzInfo) (naiveAsUtc : Bool) : Except PyError Datetime :=
  if isNaive t then localize (if naiveAsUtc then toUtc t else t) tz else .ok t

theorem maybeMakeAware_aware {t : Datetime} {tz tz' : TzInfo} (h : t.tzinfo = some tz')
    (b : Bool) : maybeMakeAware t tz b = .ok t := by
  simp [maybeMakeAware, isNaive, h]

/-- Making a datetime aware keeps its instant, a naive one being in UTC. -/
theorem maybeMakeAware_spec {t u : Datetime} {tz : TzInfo} (h : maybeMakeAware t tz true = .ok u) :
    u.tzinfo ≠ none ∧ u.instant = t.instant := by
  cases htz : t.tzinfo with
  | none =>
    have hutc : (toUtc t).instant = t.instant := by
      simp [toUtc, makeAware, Datetime.instant, Datetime.wall, Datetime.timeOfDay, htz, TzInfo.utc]
    have haware : (toUtc t).astimezone tz = .ok u := by
      simpa [maybeMakeAware, htz, localize, toUtc, makeAware, isNaive] using h
    obtain ⟨hutz, hui⟩ := Datetime.astimezone_spec haware
    exact ⟨by simp [hutz], hui.trans hutc⟩
  | some z =>
    rw [maybeMakeAware_aware htz] at h
    obtain rfl := Except.ok.inj h
    exact ⟨by simp [htz], rfl⟩

theorem overflow_of_maybeMakeAware {t : Datetime} {tz : TzInfo} {e : PyError}
    (h : maybeMakeAware t tz true = .error e) : e = .overflowError := by
  simp only [maybeMakeAware, if_true, localize] at h
  split_ifs at h
  all_goals exact Datetime.overflow_of_astimezone h

/-- `ffwd`, the version of `dateutil.relativedelta` that only supports addition. -/
structure Ffwd where
  year : Option ℕ := none
  month : Option ℕ := none
  weeks : ℕ := 0
  weekday : Option ℕ := none
  day : Option ℕ := none
  hour : Option ℕ := none
  minute : Option ℕ := none
  second : Option ℕ := none
  microsecond : Option ℕ := none
deriving DecidableEq, Repr

/-- Python's `a or b` on an optional number: `None` and `0` are false. -/
def orElse (a : Option ℕ) (b : ℕ) : ℕ :=
  match a with
  | none => b
  | some 0 => b
  | some (n + 1) => n + 1

theorem orElse_some_pos {n b : ℕ} (h : 1 ≤ n) : orElse (some n) b = n := by
  obtain ⟨k, rfl⟩ := Nat.exists_eq_add_of_le' h
  rfl

namespace Ffwd

/-- `self.days`. -/
def days (δ : Ffwd) : ℕ := δ.weeks * 7

/-- `ret` moved forward to the weekday of the delta, if it has one. -/
def toWeekday (δ : Ffwd) (ret : Datetime) : Except PyError Datetime :=
  match δ.weekday with
  | none => .ok ret
  | some wd => ret.addDays ((7 - ret.date.weekday + wd) % 7 : ℕ)

/-- `ffwd.__radd__`: `other + δ`. -/
def radd (δ : Ffwd) (other : Datetime) : Except PyError Datetime := do
  let year := orElse δ.year other.date.year
  let month := orElse δ.month other.date.month
  let day := min (daysInMonth year month) (orElse δ.day other.date.day)
  let ret ← other.replace year month day δ.hour δ.minute δ.second δ.microsecond
  let ret ← δ.toWeekday ret
  ret.addDays δ.days

end Ffwd

/-- `delta_resolution`: a datetime rounded down to the days, hours or minutes that a
timedelta of `delta` microseconds is at least one of. -/
def deltaResolution (dt : Datetime) (delta : ℤ) : Datetime :=
  let delta := max delta 0
  if 86400000000 ≤ delta then
    { dt with
      hour := 0, minute := 0, second := 0, microsecond := 0
      hour_lt := Datetime.zero_lt_24, minute_lt := Datetime.zero_lt_60
      second_lt := Datetime.zero_lt_60, microsecond_lt := Datetime.zero_lt_1000000 }
  else if 3600000000 ≤ delta then
    { dt with
      minute := 0, second := 0, microsecond := 0, minute_lt := Datetime.zero_lt_60
      second_lt := Datetime.zero_lt_60, microsecond_lt := Datetime.zero_lt_1000000 }
  else if 60000000 ≤ delta then
    { dt with
      second := 0, microsecond := 0, second_lt := Datetime.zero_lt_60
      microsecond_lt := Datetime.zero_lt_1000000 }
  else dt

/-- The end of `remaining`: the microseconds from `now` to `end_date`, both in UTC. -/
def remaining (endDate now : Datetime) : Except PyError ℤ := do
  let nowUtc ← now.astimezone .utc
  let endDateUtc ← endDate.astimezone .utc
  return endDateUtc.wall - nowUtc.wall

theorem Datetime.instant_utc {t : Datetime} (h : t.tzinfo = some .utc) : t.instant = t.wall := by
  rw [instant, h]
  exact sub_zero _

/-- What remains is the difference of the instants. -/
theorem remaining_eq_ok_iff {endDate now : Datetime} {rem : ℤ} :
    remaining endDate now = .ok rem ↔
      (∃ u, now.astimezone .utc = .ok u) ∧ (∃ v, endDate.astimezone .utc = .ok v) ∧
        rem = endDate.instant - now.instant := by
  unfold remaining
  cases hu : now.astimezone .utc with
  | error e => simp [bind, Except.bind]
  | ok u =>
    cases hv : endDate.astimezone .utc with
    | error e => simp [bind, Except.bind]
    | ok v =>
      obtain ⟨hutz, hui⟩ := Datetime.astimezone_spec hu
      obtain ⟨hvtz, hvi⟩ := Datetime.astimezone_spec hv
      rw [← hui, ← hvi, Datetime.instant_utc hutz, Datetime.instant_utc hvtz]
      simp [bind, Except.bind, pure, Except.pure, eq_comm]

theorem overflow_of_remaining {endDate now : Datetime} {e : PyError}
    (h : remaining endDate now = .error e) : e = .overflowError := by
  rcases bind_eq_error_iff.mp h with h | ⟨nowUtc, -, h⟩
  · exact Datetime.overflow_of_astimezone h
  rcases bind_eq_error_iff.mp h with h | ⟨endDateUtc, -, h⟩
  · exact Datetime.overflow_of_astimezone h
  · cases h

namespace Datetime

theorem eq_of_instant {t u : Datetime} (htz : t.tzinfo = u.tzinfo) (h : t.instant = u.instant) :
    t = u := by
  have ht := t.timeOfDay_lt
  have hu := u.timeOfDay_lt
  have hwall : t.wall = u.wall := by
    rw [instant, instant, htz] at h
    omega
  unfold wall at hwall
  have hdate : t.date = u.date := Date.toOrdinal_injective (by omega)
  have htime : t.timeOfDay = u.timeOfDay := by omega
  unfold timeOfDay at htime
  have := t.minute_lt; have := t.second_lt; have := t.microsecond_lt
  have := u.minute_lt; have := u.second_lt; have := u.microsecond_lt
  exact Datetime.ext hdate (by omega) (by omega) (by omega) (by omega) htz

/-- The datetime has a counterpart in UTC, within the years 1 to 9999. -/
def InUtc (t : Datetime) : Prop := ∃ u, t.astimezone .utc = .ok u

theorem exists_ofWall_iff (w : ℤ) (tz : Option TzInfo) :
    (∃ t, ofWall w tz = some t) ↔ 86400000000 ≤ w ∧ w < (maxOrdinal + 1) * 86400000000 := by
  have hdate : (∃ D : Date, (D.toOrdinal : ℤ) = w / 86400000000) ↔
      1 ≤ w / 86400000000 ∧ w / 86400000000 ≤ maxOrdinal := by
    constructor
    · rintro ⟨D, hD⟩
      have hbounds := D.toOrdinal_bounds
      omega
    · rintro ⟨hone, hmax⟩
      obtain ⟨D, hD⟩ := exists_toOrdinal_eq (k := (w / 86400000000).toNat) (by omega) (by omega)
      exact ⟨D, by omega⟩
  have hsome : (∃ t, ofWall w tz = some t) ↔ ∃ D : Date, (D.toOrdinal : ℤ) = w / 86400000000 := by
    simp only [ofWall, Option.map_eq_some_iff, ofOrdinal_eq_some_iff, exists_comm (β := Date),
      exists_and_left, exists_eq', and_true]
  rw [hsome, hdate]
  omega

/-- Whether UTC has the datetime depends on its instant. -/
theorem inUtc_iff {t : Datetime} :
    t.InUtc ↔ 86400000000 ≤ t.instant ∧ t.instant < (maxOrdinal + 1) * 86400000000 := by
  unfold InUtc
  by_cases hutc : t.tzinfo = some .utc
  · refine iff_of_true ⟨t, astimezone_self hutc⟩ ?_
    have hbounds := t.date.toOrdinal_bounds
    have htime := t.timeOfDay_lt
    rw [instant, hutc, wall]
    simp only [TzInfo.utc, Option.map_some, Option.getD_some]
    omega
  · rw [← exists_ofWall_iff t.instant (some .utc)]
    constructor
    · rintro ⟨u, hu⟩
      rw [astimezone, if_neg hutc, bind_eq_ok_iff] at hu
      obtain ⟨v, hv, -⟩ := hu
      exact ⟨v, orRaise_eq_ok_iff.1 hv⟩
    · rintro ⟨v, hv⟩
      have hself : ofWall (v.wall + (0 : ℤ)) v.tzinfo = some v := by
        obtain ⟨hw, hvtz⟩ := wall_of_ofWall hv
        rw [add_zero, hw, hvtz, hv]
      refine ⟨v, ?_⟩
      rw [astimezone, if_neg hutc, bind_eq_ok_iff]
      exact ⟨v, orRaise_eq_ok_iff.2 hv, orRaise_eq_ok_iff.2 hself⟩

theorem InUtc.of_between {t u v : Datetime} (ht : t.InUtc) (hv : v.InUtc)
    (htu : t.instant ≤ u.instant) (huv : u.instant ≤ v.instant) : u.InUtc := by
  rw [inUtc_iff] at ht hv ⊢
  omega

end Datetime

end Celery
