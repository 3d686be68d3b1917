/-
# The proleptic Gregorian calendar of the years 1 to 9999

Dates as Python's `datetime.date` counts them: a date is a year, a month and a
day that exists in that month, and `Date.toOrdinal` numbers the days from
`0001-01-01`, day `1`, to `9999-12-31`, day `3652059` (`date.toordinal`).
`ofOrdinal` goes back, by the 400, 100, 4 and 1 year cycles, and is `none`
outside that range, where `datetime` raises `OverflowError`.

Ordinals order dates (`Date.lt_iff_lex`), are consecutive on consecutive dates,
and count weekdays: `Date.isoweekday` is the ordinal mod 7, Sunday being `7`.
-/

import Mathlib.Order.Lattice
import Mathlib.Order.Bounds.Basic
import Mathlib.Tactic.Common

namespace Gregorian

/-- Leap years: every fourth, less every hundredth, plus every four hundredth. -/
def isLeap (y : ℕ) : Bool :=
  y % 4 == 0 && (y % 100 != 0 || y % 400 == 0)

/-- The number of days of month `m` of year `y`. -/
def daysInMonth (y m : ℕ) : ℕ :=
  if m = 2 then (if isLeap y then 29 else 28)
  else if m = 4 ∨ m = 6 ∨ m = 9 ∨ m = 11 then 30 else 31

/-- The number of days of year `y`. -/
def daysInYear (y : ℕ) : ℕ := if isLeap y then 366 else 365

/-- The number of days before January 1st of year `y`. -/
def daysBeforeYear (y : ℕ) : ℕ :=
  (y - 1) * 365 + (y - 1) / 4 - (y - 1) / 100 + (y - 1) / 400

/-- The number of days of year `y` before the first of month `m`. -/
def daysBeforeMonth (y : ℕ) : ℕ → ℕ
  | 0 => 0
  | 1 => 0
  | m + 2 => daysBeforeMonth y (m + 1) + daysInMonth y (m + 1)

theorem isLeap_eq_true_iff (y : ℕ) :
    isLeap y = true ↔ y % 4 = 0 ∧ (y % 100 ≠ 0 ∨ y % 400 = 0) := by
  simp [isLeap]

theorem daysBeforeMonth_succ (y : ℕ) {m : ℕ} (hm : 1 ≤ m) :
    daysBeforeMonth y (m + 1) = daysBeforeMonth y m + daysInMonth y m := by
  obtain ⟨k, rfl⟩ := Nat.exists_eq_add_of_le' hm
  rfl

theorem daysBeforeMonth_thirteen (y : ℕ) : daysBeforeMonth y 13 = daysInYear y := by
  cases h : isLeap y <;> simp [daysBeforeMonth, daysInMonth, daysInYear, h]

/-- Within a year, a later month starts at least one whole month later. -/
theorem daysBeforeMonth_add_le (y : ℕ) {m n : ℕ} (hm : 1 ≤ m) (hmn : m < n) :
    daysBeforeMonth y m + daysInMonth y m ≤ daysBeforeMonth y n := by
  induction n, hmn using Nat.le_induction with
  | base => exact (daysBeforeMonth_succ y hm).ge
  | succ n hn ih =>
    rw [daysBeforeMonth_succ y (by omega)]
    omega

theorem daysBeforeYear_succ {y : ℕ} (hy : 1 ≤ y) :
    daysBeforeYear (y + 1) = daysBeforeYear y + daysInYear y := by
  have h4 : y / 4 = (y - 1) / 4 + if y % 4 = 0 then 1 else 0 := by split_ifs <;> omega
  have h100 : y / 100 = (y - 1) / 100 + if y % 100 = 0 then 1 else 0 := by split_ifs <;> omega
  have h400 : y / 400 = (y - 1) / 400 + if y % 400 = 0 then 1 else 0 := by split_ifs <;> omega
  have h : daysInYear y + (if y % 100 = 0 then 1 else 0) =
      365 + (if y % 4 = 0 then 1 else 0) + if y % 400 = 0 then 1 else 0 := by
    have hl := isLeap_eq_true_iff y
    unfold daysInYear
    by_cases hleap : isLeap y = true
    · have := hl.1 hleap
      rw [if_pos hleap]
      split_ifs <;> omega
    · have := mt hl.2 hleap
      rw [if_neg hleap]
      split_ifs <;> omega
  have hle : (y - 1) / 100 ≤ (y - 1) / 4 := Nat.div_le_div_left (by omega) (by omega)
  have hle' : y / 100 ≤ y / 4 := Nat.div_le_div_left (by omega) (by omega)
  unfold daysBeforeYear
  rw [Nat.add_sub_cancel]
  generalize (if y % 4 = 0 then 1 else 0) = b4 at *
  generalize (if y % 100 = 0 then 1 else 0) = b100 at *
  generalize (if y % 400 = 0 then 1 else 0) = b400 at *
  omega

/-- A later year starts at least one whole year later. -/
theorem daysBeforeYear_add_le {y z : ℕ} (hy : 1 ≤ y) (hyz : y < z) :
    daysBeforeYear y + daysInYear y ≤ daysBeforeYear z := by
  induction z, hyz using Nat.le_induction with
  | base => exact (daysBeforeYear_succ hy).ge
  | succ z hz ih =>
    rw [daysBeforeYear_succ (by omega)]
    omega

/-- A date that exists: `datetime.date(year, month, day)` does not raise. -/
@[ext] structure Date where
  year : ℕ
  month : ℕ
  day : ℕ
  year_pos : 1 ≤ year
  year_le : year ≤ 9999
  month_pos : 1 ≤ month
  month_le : month ≤ 12
  day_pos : 1 ≤ day
  day_le : day ≤ daysInMonth year month
deriving DecidableEq

/-- `date(y, m, d)`, `none` where the constructor raises `ValueError`. -/
def date? (y m d : ℕ) : Option Date :=
  if h : (1 ≤ y ∧ y ≤ 9999) ∧ (1 ≤ m ∧ m ≤ 12) ∧ 1 ≤ d ∧ d ≤ daysInMonth y m then
    some ⟨y, m, d, h.1.1, h.1.2, h.2.1.1, h.2.1.2, h.2.2.1, h.2.2.2⟩
  else none

theorem date?_eq_some_iff {y m d : ℕ} {D : Date} :
    date? y m d = some D ↔ D.year = y ∧ D.month = m ∧ D.day = d := by
  unfold date?
  split_ifs with h
  · rw [Option.some.injEq]
    constructor
    · rintro rfl; exact ⟨rfl, rfl, rfl⟩
    · rintro ⟨rfl, rfl, rfl⟩; rfl
  · refine ⟨fun hn => by simp at hn, ?_⟩
    rintro ⟨rfl, rfl, rfl⟩
    exact absurd ⟨⟨D.year_pos, D.year_le⟩, ⟨D.month_pos, D.month_le⟩, D.day_pos, D.day_le⟩ h

theorem date?_self (D : Date) : date? D.year D.month D.day = some D :=
  date?_eq_some_iff.2 ⟨rfl, rfl, rfl⟩

namespace Date

/-- `date.toordinal`: `0001-01-01` is day `1`. -/
def toOrdinal (D : Date) : ℕ :=
  daysBeforeYear D.year + daysBeforeMonth D.year D.month + D.day

theorem day_in_year (D : Date) :
    1 ≤ daysBeforeMonth D.year D.month + D.day ∧
      daysBeforeMonth D.year D.month + D.day ≤ daysInYear D.year := by
  refine ⟨by have := D.day_pos; omega, ?_⟩
  rw [← daysBeforeMonth_thirteen]
  have := daysBeforeMonth_add_le D.year D.month_pos (n := 13) (by have := D.month_le; omega)
  have := D.day_le
  omega

/-- **The ordinal orders dates as year, month, day do.** -/
theorem toOrdinal_lt_iff (D E : Date) :
    D.toOrdinal < E.toOrdinal ↔
      D.year < E.year ∨ (D.year = E.year ∧
        (D.month < E.month ∨ (D.month = E.month ∧ D.day < E.day))) := by
  have lex : ∀ D E : Date, (D.year < E.year ∨ (D.year = E.year ∧
      (D.month < E.month ∨ (D.month = E.month ∧ D.day < E.day)))) →
        D.toOrdinal < E.toOrdinal := by
    intro D E h
    have hD := D.day_in_year
    have hE := E.day_in_year
    unfold toOrdinal
    rcases h with h | ⟨hy, h | ⟨hm, hd⟩⟩
    · have := daysBeforeYear_add_le D.year_pos h
      omega
    · have := daysBeforeMonth_add_le D.year D.month_pos h
      have := D.day_le
      have := E.day_pos
      rw [hy] at *
      omega
    · rw [hy, hm]; omega
  refine ⟨fun h => ?_, lex D E⟩
  by_contra hn
  have hED : E = D ∨ (E.year < D.year ∨ (E.year = D.year ∧
      (E.month < D.month ∨ (E.month = D.month ∧ E.day < D.day)))) := by
    rw [Date.ext_iff]; omega
  rcases hED with rfl | hlt
  · exact absurd h (lt_irrefl _)
  · exact absurd h (lex E D hlt).not_gt

theorem toOrdinal_injective : Function.Injective toOrdinal := by
  intro D E h
  have h₁ := toOrdinal_lt_iff D E
  have h₂ := toOrdinal_lt_iff E D
  rw [Date.ext_iff]
  omega

instance : LinearOrder Date := LinearOrder.lift' toOrdinal toOrdinal_injective

theorem lt_iff_toOrdinal {D E : Date} : D < E ↔ D.toOrdinal < E.toOrdinal := Iff.rfl

theorem le_iff_toOrdinal {D E : Date} : D ≤ E ↔ D.toOrdinal ≤ E.toOrdinal := Iff.rfl

theorem lt_iff_lex {D E : Date} :
    D < E ↔ D.year < E.year ∨ (D.year = E.year ∧
      (D.month < E.month ∨ (D.month = E.month ∧ D.day < E.day))) :=
  toOrdinal_lt_iff D E

/-- `date.isoweekday`: Monday is `1`, Sunday is `7`. -/
def isoweekday (D : Date) : ℕ := if D.toOrdinal % 7 = 0 then 7 else D.toOrdinal % 7

/-- `date.weekday`: Monday is `0`, Sunday is `6`. -/
def weekday (D : Date) : ℕ := (D.toOrdinal + 6) % 7

theorem isoweekday_mod (D : Date) : D.isoweekday % 7 = D.toOrdinal % 7 := by
  unfold isoweekday; split_ifs <;> omega

end Date

/-- `date.max.toordinal()`. -/
def maxOrdinal : ℕ := 3652059

theorem daysBeforeYear_10000 : daysBeforeYear 10000 = maxOrdinal := by decide

theorem Date.toOrdinal_bounds (D : Date) : 1 ≤ D.toOrdinal ∧ D.toOrdinal ≤ maxOrdinal := by
  have h := D.day_in_year
  have := daysBeforeYear_add_le D.year_pos (z := 10000) (by have := D.year_le; omega)
  rw [← daysBeforeYear_10000]
  unfold toOrdinal
  omega

/-- Month and day of the day `n`, counted from `0`, of year `y`, looking from
month `m` on. -/
def monthDay (y : ℕ) : ℕ → ℕ → ℕ → ℕ × ℕ
  | 0, m, n => (m, n + 1)
  | fuel + 1, m, n =>
    if n < daysInMonth y m then (m, n + 1) else monthDay y fuel (m + 1) (n - daysInMonth y m)

theorem monthDay_spec (y : ℕ) : ∀ (fuel m n : ℕ), 1 ≤ m → m + fuel = 12 →
    daysBeforeMonth y m + n < daysInYear y →
      m ≤ (monthDay y fuel m n).1 ∧ (monthDay y fuel m n).1 ≤ 12 ∧
      1 ≤ (monthDay y fuel m n).2 ∧
      (monthDay y fuel m n).2 ≤ daysInMonth y (monthDay y fuel m n).1 ∧
      daysBeforeMonth y (monthDay y fuel m n).1 + (monthDay y fuel m n).2 =
        daysBeforeMonth y m + n + 1
  | 0, m, n, hm, hf, hn => by
    obtain rfl : m = 12 := by omega
    have h13 := daysBeforeMonth_thirteen y
    rw [show (13 : ℕ) = 12 + 1 from rfl, daysBeforeMonth_succ y (by omega)] at h13
    simp only [monthDay]
    omega
  | fuel + 1, m, n, hm, hf, hn => by
    rw [monthDay]
    split_ifs with h
    · simp only
      omega
    · have hs := daysBeforeMonth_succ y hm
      have ih := monthDay_spec y fuel (m + 1) (n - daysInMonth y m) (by omega) (by omega)
        (by omega)
      omega

/-- The year of the day `n`, counted from `0`, and the day within that year:
400, 100, 4 and 1 year cycles, the last day of a leap cycle being the 366th of
its year and not the first of the next. -/
def yearDay (n : ℕ) : ℕ × ℕ :=
  let n400 := n / 146097
  let r400 := n % 146097
  let n100 := r400 / 36524
  let r100 := r400 % 36524
  let n4 := r100 / 1461
  let r4 := r100 % 1461
  let n1 := r4 / 365
  let r1 := r4 % 365
  if n1 = 4 ∨ n100 = 4 then (n400 * 400 + n100 * 100 + n4 * 4 + n1, 365)
  else (n400 * 400 + n100 * 100 + n4 * 4 + n1 + 1, r1)

theorem daysBeforeYear_cycles {a b c d : ℕ} (hb : b ≤ 3) (hc : c ≤ 24) (hd : d ≤ 3) :
    daysBeforeYear (400 * a + 100 * b + 4 * c + d + 1) =
      146097 * a + 36524 * b + 1461 * c + 365 * d := by
  unfold daysBeforeYear
  omega

theorem daysInYear_cycles {a b c d : ℕ} (hb : b ≤ 3) (hc : c ≤ 24) (hd : d ≤ 3) :
    daysInYear (400 * a + 100 * b + 4 * c + d + 1) =
      if d = 3 ∧ (c ≠ 24 ∨ b = 3) then 366 else 365 := by
  have hl := isLeap_eq_true_iff (400 * a + 100 * b + 4 * c + d + 1)
  have hiff : isLeap (400 * a + 100 * b + 4 * c + d + 1) = true ↔ d = 3 ∧ (c ≠ 24 ∨ b = 3) := by
    rw [hl]; omega
  unfold daysInYear
  by_cases h : d = 3 ∧ (c ≠ 24 ∨ b = 3)
  · rw [if_pos h, if_pos (hiff.2 h)]
  · rw [if_neg h, if_neg (fun hc => h (hiff.1 hc))]

/-- Cycle counts that name day `n` name its year and the day within it. -/
theorem yearDay_spec (n : ℕ) :
    1 ≤ (yearDay n).1 ∧ (yearDay n).2 < daysInYear (yearDay n).1 ∧
      daysBeforeYear (yearDay n).1 + (yearDay n).2 = n := by
  obtain ⟨a, r, hr, hn⟩ : ∃ a r, r < 146097 ∧ n = 146097 * a + r :=
    ⟨n / 146097, n % 146097, by omega, by omega⟩
  obtain ⟨b, r₁, hb⟩ : ∃ b r₁, b = r / 36524 ∧ r₁ = r % 36524 ∧ r = 36524 * b + r₁ :=
    ⟨_, _, rfl, rfl, by omega⟩
  obtain ⟨c, r₂, hc⟩ : ∃ c r₂, c = r₁ / 1461 ∧ r₂ = r₁ % 1461 ∧ r₁ = 1461 * c + r₂ :=
    ⟨_, _, rfl, rfl, by omega⟩
  obtain ⟨d, r₃, hd⟩ : ∃ d r₃, d = r₂ / 365 ∧ r₃ = r₂ % 365 ∧ r₂ = 365 * d + r₃ :=
    ⟨_, _, rfl, rfl, by omega⟩
  have ha : n / 146097 = a ∧ n % 146097 = r := by omega
  have hy : yearDay n = if d = 4 ∨ b = 4 then (a * 400 + b * 100 + c * 4 + d, 365)
      else (a * 400 + b * 100 + c * 4 + d + 1, r₃) := by
    simp only [yearDay, ha.1, ha.2, ← hb.1, ← hb.2.1, ← hc.1, ← hc.2.1, ← hd.1, ← hd.2.1]
  rw [hy]
  split_ifs with h
  · have key : ∃ b' c', b' ≤ 3 ∧ c' ≤ 24 ∧ (c' ≠ 24 ∨ b' = 3) ∧
        a * 400 + b * 100 + c * 4 + d = 400 * a + 100 * b' + 4 * c' + 3 + 1 ∧
          146097 * a + 36524 * b' + 1461 * c' + 365 * 3 + 365 = n := by
      rcases h with h | h
      · exact ⟨b, c, by omega, by omega, by omega, by omega, by omega⟩
      · exact ⟨3, 24, by omega, by omega, by omega, by omega, by omega⟩
    obtain ⟨b', c', hb', hc', hbc, hyear, hday⟩ := key
    simp only [hyear]
    rw [daysBeforeYear_cycles hb' hc' le_rfl, daysInYear_cycles hb' hc' le_rfl,
      if_pos ⟨rfl, hbc⟩]
    omega
  · have hb' : b ≤ 3 := by omega
    have hc' : c ≤ 24 := by omega
    have hd' : d ≤ 3 := by omega
    have hyear : a * 400 + b * 100 + c * 4 + d + 1 = 400 * a + 100 * b + 4 * c + d + 1 := by omega
    simp only [hyear]
    rw [daysBeforeYear_cycles hb' hc' hd', daysInYear_cycles hb' hc' hd']
    split_ifs <;> omega

/-- `date.fromordinal`, `none` outside `1 … maxOrdinal`. -/
def ofOrdinal (n : ℤ) : Option Date :=
  if n < 1 then none
  else
    let (y, r) := yearDay (n.toNat - 1)
    let (m, d) := monthDay y 11 1 r
    date? y m d

theorem toOrdinal_of_ofOrdinal {k : ℕ} (hk : 1 ≤ k) {D : Date} (h : ofOrdinal k = some D) :
    D.toOrdinal = k := by
  obtain ⟨-, hr, hn⟩ := yearDay_spec (k - 1)
  have hm := monthDay_spec (yearDay (k - 1)).1 11 1 (yearDay (k - 1)).2 le_rfl rfl
    (by simpa [daysBeforeMonth] using hr)
  have hnk : ¬((k : ℤ) < 1) := by omega
  simp only [ofOrdinal, hnk, if_false, Int.toNat_natCast] at h
  obtain ⟨hy, hmo, hd⟩ := date?_eq_some_iff.1 h
  have hone : daysBeforeMonth (yearDay (k - 1)).1 1 = 0 := rfl
  unfold Date.toOrdinal
  rw [hy, hmo, hd]
  omega

theorem year_le_of_ordinal {y r : ℕ} (h : daysBeforeYear y + r < maxOrdinal) : y ≤ 9999 := by
  by_contra hgt
  have hle : daysBeforeYear 10000 ≤ daysBeforeYear y := by
    rcases Nat.lt_or_ge 10000 y with hlt | hge
    · have := daysBeforeYear_add_le (y := 10000) (by omega) hlt
      omega
    · rw [show y = 10000 by omega]
  rw [daysBeforeYear_10000] at hle
  omega

theorem exists_ofOrdinal {k : ℕ} (hk : 1 ≤ k) (hmax : k ≤ maxOrdinal) :
    ∃ D, ofOrdinal k = some D := by
  obtain ⟨hpos, hr, hn⟩ := yearDay_spec (k - 1)
  have hm := monthDay_spec (yearDay (k - 1)).1 11 1 (yearDay (k - 1)).2 le_rfl rfl
    (by simpa [daysBeforeMonth] using hr)
  have hyle : (yearDay (k - 1)).1 ≤ 9999 := year_le_of_ordinal (r := (yearDay (k - 1)).2) (by omega)
  have hnk : ¬((k : ℤ) < 1) := by omega
  simp only [ofOrdinal, hnk, if_false, Int.toNat_natCast]
  rw [date?, dif_pos ⟨⟨hpos, hyle⟩, ⟨hm.1, hm.2.1⟩, hm.2.2.1, hm.2.2.2.1⟩]
  exact ⟨_, rfl⟩

/-- Every number from `1` to `maxOrdinal` is the ordinal of a date. -/
theorem exists_toOrdinal_eq {k : ℕ} (hk : 1 ≤ k) (hmax : k ≤ maxOrdinal) :
    ∃ D : Date, D.toOrdinal = k := by
  obtain ⟨D, hD⟩ := exists_ofOrdinal hk hmax
  exact ⟨D, toOrdinal_of_ofOrdinal hk hD⟩

/-- **Ordinals and dates are the same thing:** `ofOrdinal` finds the date of
every ordinal in range, and nothing outside it. -/
theorem ofOrdinal_eq_some_iff {n : ℤ} {D : Date} :
    ofOrdinal n = some D ↔ (D.toOrdinal : ℤ) = n := by
  have hone := D.toOrdinal_bounds
  constructor
  · intro h
    have hn : 1 ≤ n := by
      by_contra hlt
      rw [ofOrdinal, if_pos (by omega)] at h
      cases h
    obtain ⟨k, rfl⟩ := Int.eq_ofNat_of_zero_le (show 0 ≤ n by omega)
    rw [toOrdinal_of_ofOrdinal (by omega) h]
  · rintro rfl
    obtain ⟨E, hE⟩ := exists_ofOrdinal hone.1 hone.2
    rw [hE, Date.toOrdinal_injective (toOrdinal_of_ofOrdinal hone.1 hE)]

/-- `date + timedelta(days=n)`; `none` is `OverflowError`. -/
def Date.addDays (D : Date) (n : ℤ) : Option Date := ofOrdinal (D.toOrdinal + n)

theorem Date.addDays_eq_some_iff {D E : Date} {n : ℤ} :
    D.addDays n = some E ↔ (E.toOrdinal : ℤ) = D.toOrdinal + n :=
  ofOrdinal_eq_some_iff

example : (date? 2024 2 28).bind (·.addDays 2) = date? 2024 3 1 := by decide

end Gregorian
