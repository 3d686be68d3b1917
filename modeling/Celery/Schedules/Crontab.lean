/-
# `celery/schedules.py`: the next run of a crontab

`crontab.remaining_delta` (lines 581-640) and `crontab._delta_to_next` (lines
488-563), line by line.  The five expanded fields of a crontab are `CronField`s,
non-empty sets of numbers in the range `_expand_cronspec` checks, kept as their
sorted lists, so that `sorted(self.day_of_month)` is the list, `min` its head
and `max` its last element.

`deltaToNext` keeps the loops of the source: `rollOver` is `roll_over`, with its
bound of 2000 steps and its `RuntimeError`, and `searchDay` the `while 1` around
it, bounded by the number of values `datedata` can take.
-/

import Celery.Library.Bisect
import Celery.Utils.Time
import Mathlib.Data.Finset.Sort

namespace Celery

open Gregorian Bisect

/-- An expanded cronspec: a non-empty set of numbers `lo ≤ n < hi`, as its
sorted list. -/
structure CronField (lo hi : ℕ) where
  values : List ℕ
  sorted : values.Pairwise (· < ·)
  ne_nil : values ≠ []
  mem_range : ∀ v ∈ values, lo ≤ v ∧ v < hi

namespace CronField

variable {lo hi : ℕ}

instance : Membership ℕ (CronField lo hi) := ⟨fun f n => n ∈ f.values⟩

instance (f : CronField lo hi) (n : ℕ) : Decidable (n ∈ f) :=
  inferInstanceAs (Decidable (n ∈ f.values))

/-- `min(self.field)`. -/
def min (f : CronField lo hi) : ℕ := f.values.head f.ne_nil

/-- `max(self.field)`. -/
def max (f : CronField lo hi) : ℕ := f.values.getLast f.ne_nil

/-- `[n for n in self.field if n > k]`. -/
def above (f : CronField lo hi) (k : ℕ) : List ℕ := f.values.filter fun n => decide (k < n)

/-- No value of a field is below its range. -/
theorem lo_le {f : CronField lo hi} {n : ℕ} (h : n ∈ f) : lo ≤ n := (f.mem_range n h).1

/-- Nor is one above it. -/
theorem lt_hi {f : CronField lo hi} {n : ℕ} (h : n ∈ f) : n < hi := (f.mem_range n h).2

/-- A field is never empty, so that it has a first value. -/
theorem min_mem (f : CronField lo hi) : f.min ∈ f := List.head_mem f.ne_nil

theorem max_mem (f : CronField lo hi) : f.max ∈ f := List.getLast_mem f.ne_nil

theorem min_le {f : CronField lo hi} {n : ℕ} (h : n ∈ f) : f.min ≤ n :=
  (f.sorted.imp le_of_lt).rel_head h

theorem le_max {f : CronField lo hi} {n : ℕ} (h : n ∈ f) : n ≤ f.max :=
  (f.sorted.imp le_of_lt).rel_getLast h

/-- The values after `k`, as `bisect` finds them. -/
theorem mem_above {f : CronField lo hi} {k n : ℕ} : n ∈ f.above k ↔ n ∈ f ∧ k < n := by
  simp only [above, List.mem_filter, decide_eq_true_eq]
  rfl

/-- The head of `above k` is the least member beyond `k`. -/
theorem above_head? {f : CronField lo hi} {k n : ℕ} (h : (f.above k).head? = some n) :
    n ∈ f ∧ k < n ∧ ∀ m ∈ f, k < m → n ≤ m := by
  obtain ⟨l, hl⟩ := List.head?_eq_some_iff.1 h
  have hs : (f.above k).Pairwise (· ≤ ·) := (f.sorted.filter _).imp le_of_lt
  have hmem : n ∈ f.above k := by rw [hl]; exact List.mem_cons_self
  refine ⟨(mem_above.1 hmem).1, (mem_above.1 hmem).2, fun m hm hkm => ?_⟩
  have hle := hs.rel_head (mem_above.2 ⟨hm, hkm⟩)
  simpa only [hl, List.head_cons] using hle

/-- There is one unless `k` is at or past the last value, when the field starts again. -/
theorem exists_above_head? {f : CronField lo hi} {k : ℕ} (h : k < f.max) :
    ∃ n, (f.above k).head? = some n := by
  obtain ⟨a, l, hl⟩ := List.exists_cons_of_ne_nil (List.ne_nil_of_mem (mem_above.2 ⟨f.max_mem, h⟩))
  exact ⟨a, by rw [hl]; rfl⟩

end CronField

/-- `Cronspec = Union[int, str, Iterable[int]]`. -/
inductive Cronspec where
  | int (n : ℤ)
  | str (s : String)
  | iterable (ns : List ℤ)
deriving DecidableEq

/-- The set a cronspec stands for, `crontab_parser(max_, min_).parse` being the
parameter `parse`: only strings are parsed. -/
def Cronspec.read (parse : ℕ → ℕ → String → Except PyError (List ℤ)) (max_ min_ : ℕ) :
    Cronspec → Except PyError (List ℤ)
  | .int n => .ok [n]
  | .str s => parse max_ min_ s
  | .iterable ns => .ok ns

/-- The check at the end of `_expand_cronspec`: the result does not precede the
min or exceed the max. -/
def checkRange (max_ min_ : ℕ) (result : List ℤ) : Except PyError (List ℤ) :=
  if ∃ n ∈ result, n ≥ max_ + min_ ∨ n < min_ then .error .valueError else .ok result

/-- `crontab._expand_cronspec`. -/
def expandCronspec (parse : ℕ → ℕ → String → Except PyError (List ℤ)) (spec : Cronspec)
    (max_ min_ : ℕ) : Except PyError (List ℤ) := do
  let result ← spec.read parse max_ min_
  checkRange max_ min_ result

/-- A crontab: its expanded fields, the two `_orig_` fields `remaining_delta`
looks at, and the schedule's time zone.  `star_dayOfMonth` and `star_monthOfYear`
are what `__init__` establishes: a field given as `'*'` is expanded to its whole
range. -/
structure Crontab where
  minute : CronField 0 60
  hour : CronField 0 24
  dayOfWeek : CronField 0 7
  dayOfMonth : CronField 1 32
  monthOfYear : CronField 1 13
  origDayOfMonth : Cronspec
  origMonthOfYear : Cronspec
  tz : TzInfo
  star_dayOfMonth : origDayOfMonth = .str "*" → ∀ d, 1 ≤ d → d < 32 → d ∈ dayOfMonth
  star_monthOfYear : origMonthOfYear = .str "*" → ∀ m, 1 ≤ m → m < 13 → m ∈ monthOfYear

/-- The `CronField` of a non-empty list of numbers in range: Python's `set` of
them, sorted. -/
def CronField.ofList {lo hi : ℕ} (ns : List ℤ) (hne : ns ≠ [])
    (h : ∀ n ∈ ns, (lo : ℤ) ≤ n ∧ n < hi) : CronField lo hi where
  values := (ns.map Int.toNat).toFinset.sort
  sorted := (Finset.sortedLT_sort _).pairwise
  ne_nil := by
    obtain ⟨a, l, rfl⟩ := List.exists_cons_of_ne_nil hne
    apply List.ne_nil_of_mem (a := a.toNat)
    simp
  mem_range := by
    intro v hv
    obtain ⟨n, hn, rfl⟩ : ∃ n ∈ ns, Int.toNat n = v := by simpa using hv
    have := h n hn
    omega

/-- The values are sorted and made unique, and stay the same otherwise. -/
theorem CronField.mem_ofList {lo hi : ℕ} {ns : List ℤ} {hne : ns ≠ []}
    {h : ∀ n ∈ ns, (lo : ℤ) ≤ n ∧ n < hi} {v : ℕ} :
    v ∈ CronField.ofList ns hne h ↔ (v : ℤ) ∈ ns := by
  have hv : v ∈ CronField.ofList ns hne h ↔ ∃ n ∈ ns, Int.toNat n = v := by
    change v ∈ (ns.map Int.toNat).toFinset.sort ↔ _
    simp
  rw [hv]
  constructor
  · rintro ⟨n, hn, rfl⟩
    rwa [Int.toNat_of_nonneg (by have := h n hn; omega)]
  · intro hm
    exact ⟨v, hm, Int.toNat_natCast v⟩

/-- `_expand_cronspec` accepts a field only with all of its values in the range. -/
theorem expandCronspec_eq_ok {parse : ℕ → ℕ → String → Except PyError (List ℤ)}
    {spec : Cronspec} {max_ min_ : ℕ} {ns : List ℤ}
    (h : expandCronspec parse spec max_ min_ = .ok ns) :
    spec.read parse max_ min_ = .ok ns ∧ ∀ n ∈ ns, (min_ : ℤ) ≤ n ∧ n < (max_ + min_ : ℕ) := by
  unfold expandCronspec at h
  cases hr : spec.read parse max_ min_ with
  | error e => rw [hr] at h; cases h
  | ok r =>
    rw [hr] at h
    change checkRange max_ min_ r = .ok ns at h
    unfold checkRange at h
    split_ifs at h with hout
    obtain rfl := Except.ok.inj h
    refine ⟨rfl, fun n hn => ?_⟩
    have : ¬(n ≥ max_ + min_ ∨ n < min_) := fun hc => hout ⟨n, hn, hc⟩
    push_cast
    omega

/-- `crontab.__init__`, for specs whose five expansions are non-empty.  The
parser expands `'*'` to the whole range (`crontab_parser._expand_star`). -/
def Crontab.init (parse : ℕ → ℕ → String → Except PyError (List ℤ))
    (hstar : ∀ max_ min_ ns, parse max_ min_ "*" = .ok ns →
      ∀ n : ℤ, min_ ≤ n → n < max_ + min_ → n ∈ ns)
    (tz : TzInfo) (minute hour dayOfWeek dayOfMonth monthOfYear : Cronspec)
    {vs₁ vs₂ vs₃ vs₄ vs₅ : List ℤ}
    (h₁ : expandCronspec parse minute 60 0 = .ok vs₁) (hne₁ : vs₁ ≠ [])
    (h₂ : expandCronspec parse hour 24 0 = .ok vs₂) (hne₂ : vs₂ ≠ [])
    (h₃ : expandCronspec parse dayOfWeek 7 0 = .ok vs₃) (hne₃ : vs₃ ≠ [])
    (h₄ : expandCronspec parse dayOfMonth 31 1 = .ok vs₄) (hne₄ : vs₄ ≠ [])
    (h₅ : expandCronspec parse monthOfYear 12 1 = .ok vs₅) (hne₅ : vs₅ ≠ []) : Crontab where
  minute := .ofList vs₁ hne₁ (expandCronspec_eq_ok h₁).2
  hour := .ofList vs₂ hne₂ (expandCronspec_eq_ok h₂).2
  dayOfWeek := .ofList vs₃ hne₃ (expandCronspec_eq_ok h₃).2
  dayOfMonth := .ofList vs₄ hne₄ (expandCronspec_eq_ok h₄).2
  monthOfYear := .ofList vs₅ hne₅ (expandCronspec_eq_ok h₅).2
  origDayOfMonth := dayOfMonth
  origMonthOfYear := monthOfYear
  tz := tz
  star_dayOfMonth := by
    rintro rfl d hd hd'
    exact CronField.mem_ofList.2
      (hstar 31 1 vs₄ (expandCronspec_eq_ok h₄).1 d (by omega) (by push_cast; omega))
  star_monthOfYear := by
    rintro rfl m hm hm'
    exact CronField.mem_ofList.2
      (hstar 12 1 vs₅ (expandCronspec_eq_ok h₅).1 m (by omega) (by push_cast; omega))

/-- `datedata`: the year and the indexes into `days_of_month` and `months_of_year`. -/
structure DateData where
  year : ℕ
  dom : ℕ
  moy : ℕ
deriving DecidableEq, Repr

namespace Crontab

variable (c : Crontab) (lastRunAt : Datetime) (nextHour nextMinute : ℕ)

/-- `months_of_year[datedata.moy]`. -/
def monthAt (s : DateData) : ℕ := c.monthOfYear.values.getD s.moy 0

/-- `days_of_month[datedata.dom]`. -/
def dayAt (s : DateData) : ℕ := c.dayOfMonth.values.getD s.dom 0

/-- `day_out_of_range`: `datetime(year, month, day)` raises `ValueError`. -/
def dayOutOfRange (year month day : ℕ) : Bool := (date? year month day).isNone

/-- `datetime(year, month, day, hour, minute)`, aware in the schedule's zone. -/
def atTime (D : Date) (hour minute : ℕ) : Datetime where
  date := D
  hour := hour % 24
  minute := minute % 60
  second := 0
  microsecond := 0
  tzinfo := some c.tz
  hour_lt := Nat.mod_lt _ (by decide)
  minute_lt := Nat.mod_lt _ (by decide)
  second_lt := by decide
  microsecond_lt := by decide

/-- `is_before_last_run`, on a day that exists. -/
def isBeforeLastRun (year month day : ℕ) : Bool :=
  match date? year month day with
  | none => false
  | some D => decide (c.atTime D nextHour nextMinute < lastRunAt)

/-- The `flag` of `roll_over`. -/
def rollFlag (s : DateData) : Bool :=
  s.dom == c.dayOfMonth.values.length ||
    dayOutOfRange s.year (c.monthAt s) (c.dayAt s) ||
    c.isBeforeLastRun lastRunAt nextHour nextMinute s.year (c.monthAt s) (c.dayAt s)

/-- The body of `if flag:` in `roll_over`: on to the first day of the next month
in the list, and to the next year after the last. -/
def rollNext (s : DateData) : DateData :=
  if s.moy + 1 = c.monthOfYear.values.length then { year := s.year + 1, dom := 0, moy := 0 }
  else { year := s.year, dom := 0, moy := s.moy + 1 }

/-- `roll_over`, with the steps left of `range(2000)`. -/
def rollOver : ℕ → DateData → Except PyError DateData
  | 0, _ =>
    .error (.runtimeError "unable to rollover, time specification is probably invalid")
  | steps + 1, s =>
    if c.rollFlag lastRunAt nextHour nextMinute s then rollOver steps (c.rollNext s) else .ok s

/-- The `while 1` of `_delta_to_next`: days of the lists in order, until one
falls on a weekday of `day_of_week`.  Each time round `datedata` is at a later
place, so more fuel than there are places never runs out. -/
def searchDay : ℕ → DateData → Except PyError DateData
  | 0, _ => .error .outOfFuel
  | fuel + 1, s => do
    let th ← orRaise .valueError (date? s.year (c.monthAt s) (c.dayAt s))
    if th.isoweekday % 7 ∈ c.dayOfWeek then .ok s
    else do
      let s' ← c.rollOver lastRunAt nextHour nextMinute 2000 { s with dom := s.dom + 1 }
      searchDay fuel s'

/-- `datedata` before the first `roll_over()`. -/
def startData : DateData :=
  if lastRunAt.date.month ∈ c.monthOfYear then
    { year := lastRunAt.date.year
      dom := bisect c.dayOfMonth.values lastRunAt.date.day
      moy := bisectLeft c.monthOfYear.values lastRunAt.date.month }
  else
    let moy := bisect c.monthOfYear.values lastRunAt.date.month
    { year := lastRunAt.date.year
      dom := 0
      moy := if moy = c.monthOfYear.values.length then 0 else moy }

/-- `crontab._delta_to_next`. -/
def deltaToNext : Except PyError Ffwd := do
  let s ← c.rollOver lastRunAt nextHour nextMinute 2000 (c.startData lastRunAt)
  let s ← c.searchDay lastRunAt nextHour nextMinute (10000 * 12 * 32) s
  return { year := some s.year, month := some (c.monthAt s), day := some (c.dayAt s)
           hour := some nextHour, minute := some nextMinute
           second := some 0, microsecond := some 0 }

/-- `self.maybe_make_aware(t).astimezone(schedule_tz)`. -/
def toScheduleTz (t : Datetime) : Except PyError Datetime := do
  let t ← maybeMakeAware t c.tz true
  t.astimezone c.tz

/-- `dow_num`: Sunday is day `0`, not day `7`. -/
def dowNum (t : Datetime) : ℕ := t.date.isoweekday % 7

/-- `execute_this_date`. -/
def executeThisDate : Bool :=
  decide (lastRunAt.date.month ∈ c.monthOfYear) && decide (lastRunAt.date.day ∈ c.dayOfMonth) &&
    decide (dowNum lastRunAt ∈ c.dayOfWeek)

/-- `execute_this_hour`. -/
def executeThisHour : Bool :=
  c.executeThisDate lastRunAt && decide (lastRunAt.hour ∈ c.hour) &&
    decide (lastRunAt.minute < c.minute.max)

/-- `execute_today`. -/
def executeToday : Bool := c.executeThisDate lastRunAt && decide (lastRunAt.hour < c.hour.max)

/-- `all_dom_moy`. -/
def allDomMoy : Bool :=
  decide (c.origDayOfMonth = .str "*") && decide (c.origMonthOfYear = .str "*")

/-- `next_day` of the weekday fast-forward. -/
def nextDay : ℕ :=
  match (c.dayOfWeek.above (dowNum lastRunAt)).head? with
  | some day => day
  | none => c.dayOfWeek.min

/-- The weekday fast-forward: `(next_day - 1) % 7` in Python's arithmetic. -/
def weekdayDelta : Ffwd :=
  { weeks := if c.nextDay lastRunAt = dowNum lastRunAt then 1 else 0
    weekday := some ((c.nextDay lastRunAt + 6) % 7)
    hour := some nextHour, minute := some nextMinute, second := some 0, microsecond := some 0 }

/-- The delta of `crontab.remaining_delta`, from a `last_run_at` already in the
schedule's zone. -/
def deltaFrom : Except PyError Ffwd :=
  if c.executeThisHour lastRunAt then do
    let nextMinute ← orRaise .valueError (c.minute.above lastRunAt.minute).head?
    return { minute := some nextMinute, second := some 0, microsecond := some 0 }
  else if c.executeToday lastRunAt then do
    let nextHour ← orRaise .valueError (c.hour.above lastRunAt.hour).head?
    return { hour := some nextHour, minute := some c.minute.min, second := some 0
             microsecond := some 0 }
  else if c.allDomMoy then
    return c.weekdayDelta lastRunAt c.hour.min c.minute.min
  else c.deltaToNext lastRunAt c.hour.min c.minute.min

/-- `crontab.remaining_delta`, at the time `now`. -/
def remainingDelta (now : Datetime) : Except PyError (Datetime × Ffwd × Datetime) := do
  let last ← c.toScheduleTz lastRunAt
  let now ← c.toScheduleTz now
  let delta ← c.deltaFrom last
  return (last, delta, now)

end Crontab

end Celery
