/-
Civil dates: packages/ical/src/civil.ts.

The algorithms count a year from March on, so that the leap day is its last day, and
take the year and the month back out of a day number with divisions. `yearStart` is
the number of days before a March year without the eras; with it both directions are
a search between two bounds (`yearOfEra`, `month_of_day`), and the calendar itself
comes in only through the length of a year (`yearStart_succ`) and of a month.
-/
import Mathlib.Tactic.IntervalCases

set_option autoImplicit false

namespace Postroom.Ical

def SECONDS_PER_DAY : ℤ := 86400

/-- Days since 1970-01-01 for a civil date (month 1–12). -/
def daysFromCivil (year month day : ℤ) : ℤ :=
  let y := if month ≤ 2 then year - 1 else year
  let era := y / 400
  let yoe := y - era * 400
  let mp := (month + 9).tmod 12
  let doy := (153 * mp + 2) / 5 + day - 1
  let doe := yoe * 365 + yoe / 4 - yoe / 100 + doy
  era * 146097 + doe - 719468

structure Civil where
  year : ℤ
  month : ℤ
  day : ℤ
  deriving DecidableEq

/-- Inverse of `daysFromCivil`. -/
def civilFromDays (days : ℤ) : Civil :=
  let z := days + 719468
  let era := z / 146097
  let doe := z - era * 146097
  let yoe := (doe - doe / 1460 + doe / 36524 - doe / 146096) / 365
  let doy := doe - (365 * yoe + yoe / 4 - yoe / 100)
  let mp := (5 * doy + 2) / 153
  let day := doy - (153 * mp + 2) / 5 + 1
  let month := if mp < 10 then mp + 3 else mp - 9
  let year := yoe + era * 400 + (if month ≤ 2 then 1 else 0)
  ⟨year, month, day⟩

def isLeapYear (year : ℤ) : Bool := (year.tmod 4 = 0 && year.tmod 100 ≠ 0) || year.tmod 400 = 0

def daysInMonth (year month : ℤ) : ℤ :=
  if month = 2 then if isLeapYear year then 29 else 28
  else if month = 4 || month = 6 || month = 9 || month = 11 then 30 else 31

def daysInYear (year : ℤ) : ℤ := if isLeapYear year then 366 else 365

/-- A date of the proleptic Gregorian calendar. -/
def Civil.Valid (c : Civil) : Prop :=
  1 ≤ c.month ∧ c.month ≤ 12 ∧ 1 ≤ c.day ∧ c.day ≤ daysInMonth c.year c.month

instance (c : Civil) : Decidable c.Valid := inferInstanceAs (Decidable (_ ∧ _))

/-- The day after, on the calendar. -/
def Civil.next (c : Civil) : Civil :=
  if c.day < daysInMonth c.year c.month then { c with day := c.day + 1 }
  else if c.month < 12 then ⟨c.year, c.month + 1, 1⟩
  else ⟨c.year + 1, 1, 1⟩

/-! ## 1. Years from March on -/

theorem isLeapYear_iff (y : ℤ) : isLeapYear y = true ↔ (y % 4 = 0 ∧ y % 100 ≠ 0) ∨ y % 400 = 0 := by
  have hmod : ∀ n : ℤ, y.tmod n = 0 ↔ y % n = 0 := fun n => by
    rw [← Int.dvd_iff_tmod_eq_zero, Int.dvd_iff_emod_eq_zero]
  simp [isLeapYear, hmod]

/-- The days before 1 March of a year, counted from 1 March of year 0. -/
def yearStart (y : ℤ) : ℤ := 365 * y + y / 4 - y / 100 + y / 400

/-- The leap day of the March year `y` is in the February of `y + 1`. -/
theorem yearStart_succ (y : ℤ) : yearStart (y + 1) = yearStart y + daysInYear (y + 1) := by
  have h4 : (y + 1) / 4 = y / 4 + if (y + 1) % 4 = 0 then 1 else 0 := by omega
  have h100 : (y + 1) / 100 = y / 100 + if (y + 1) % 100 = 0 then 1 else 0 := by omega
  have h400 : (y + 1) / 400 = y / 400 + if (y + 1) % 400 = 0 then 1 else 0 := by omega
  unfold yearStart daysInYear
  simp only [h4, h100, h400, isLeapYear_iff]
  split_ifs <;> omega

/-- The year of a day of the era. The first division counts the leap days of the four
years of a cycle, and is one too large behind the last of its leap days only. -/
theorem yearOfEra {y doe : ℤ} (h0 : 0 ≤ y) (h1 : y < 400) (hle : yearStart y ≤ doe)
    (hlt : doe < yearStart (y + 1)) :
    (doe - doe / 1460 + doe / 36524 - doe / 146096) / 365 = y := by
  unfold yearStart at hle hlt
  obtain ⟨c, k, j, hc, hk, hj, rfl⟩ : ∃ c k j : ℤ, (0 ≤ c ∧ c < 4) ∧ (0 ≤ k ∧ k < 25)
    ∧ (0 ≤ j ∧ j < 4)
      ∧ y = 100 * c + 4 * k + j :=
    ⟨y / 100, y % 100 / 4, y % 4, by omega, by omega, by omega, by omega⟩
  obtain ⟨d, rfl⟩ : ∃ d, doe = 36524 * c + 1461 * k + 365 * j + d :=
    ⟨_, (add_sub_cancel _ doe).symm⟩
  have hd : 0 ≤ d ∧ (d < 365 ∨ d = 365 ∧ j = 3 ∧ (k < 24 ∨ c = 3)) := by omega
  by_cases hlast : d = 365 ∧ k = 24
  · -- the last day of the era
    obtain ⟨rfl, rfl⟩ := hlast
    obtain ⟨rfl, rfl⟩ : j = 3 ∧ c = 3 := by omega
    decide
  · have hcentury : (36524 * c + 1461 * k + 365 * j + d) / 36524 = c := by omega
    have hera : (36524 * c + 1461 * k + 365 * j + d) / 146096 = 0 := by omega
    by_cases hover : 1460 ≤ 24 * c + k + 365 * j + d
    · have hcycle : (36524 * c + 1461 * k + 365 * j + d) / 1460 = 25 * c + k + 1 := by omega
      rw [hcentury, hera, hcycle]
      omega
    · have hcycle : (36524 * c + 1461 * k + 365 * j + d) / 1460 = 25 * c + k := by omega
      rw [hcentury, hera, hcycle]
      omega

theorem yearStart_era (e y : ℤ) : yearStart (400 * e + y) = 146097 * e + yearStart y := by
  unfold yearStart
  omega

/-! ## 2. Dates -/

def Civil.days (c : Civil) : ℤ := daysFromCivil c.year c.month c.day

/-- The March year and the March month of a date, without the era. -/
theorem daysFromCivil_eq {m : ℤ} (y d : ℤ) (h1 : 1 ≤ m) : daysFromCivil y m d
    = yearStart (if m ≤ 2 then y - 1 else y)
      + ((153 * ((m + 9) % 12) + 2) / 5 + d - 1) - 719468 := by
  unfold daysFromCivil
  generalize (if m ≤ 2 then y - 1 else y) = y'
  dsimp only
  rw [Int.tmod_eq_emod_of_nonneg (by omega)]
  unfold yearStart
  omega

/-- The date of a day of a March year. -/
theorem civilFromDays_eq {y doy mp : ℤ} (h0 : 0 ≤ doy) (h1 : doy < daysInYear (y + 1))
    (hmp : (5 * doy + 2) / 153 = mp) :
    civilFromDays (yearStart y + doy - 719468)
      = ⟨y + (if mp < 10 then 0 else 1), if mp < 10 then mp + 3 else mp - 9,
      doy - (153 * mp + 2) / 5 + 1⟩ := by
  obtain ⟨e, r, hr0, hr1, rfl⟩ : ∃ e r : ℤ, 0 ≤ r ∧ r < 400 ∧ y = 400 * e + r :=
    ⟨y / 400, y % 400, by omega, by omega, by omega⟩
  have hnext : yearStart (r + 1) = yearStart r + daysInYear (400 * e + r + 1) := by
    have hsucc := yearStart_succ (400 * e + r)
    rw [yearStart_era, add_assoc, yearStart_era, add_assoc] at hsucc
    rw [add_assoc]
    omega
  have hlen : daysInYear (400 * e + r + 1) ≤ 366 := by
    unfold daysInYear
    split_ifs <;> omega
  have hbounds : 0 ≤ yearStart r ∧ yearStart (r + 1) ≤ 146097 := by
    unfold yearStart
    omega
  have hera : (146097 * e + yearStart r + doy) / 146097 = e := by omega
  have hdoe : 146097 * e + yearStart r + doy - e * 146097 = yearStart r + doy := by omega
  have hdoy : yearStart r + doy - (365 * r + r / 4 - r / 100) = doy := by
    unfold yearStart
    omega
  unfold civilFromDays
  dsimp only
  rw [yearStart_era, sub_add_cancel, hera, hdoe, yearOfEra hr0 hr1 (by omega) (by omega), hdoy, hmp,
    Civil.mk.injEq]
  refine ⟨?_, rfl, rfl⟩
  split_ifs <;> omega

/-- The March month of a day. -/
theorem month_of_day {y m d : ℤ} (h1 : 1 ≤ m) (h12 : m ≤ 12) (hd1 : 1 ≤ d)
    (hd : d ≤ daysInMonth y m) :
    (5 * ((153 * ((m + 9) % 12) + 2) / 5 + d - 1) + 2) / 153 = (m + 9) % 12 := by
  have hlong : daysInMonth y m ≤ if m = 2 then 29 else if m = 4 ∨ m = 6 ∨ m = 9 ∨ m = 11 then 30
      else 31 := by
    unfold daysInMonth
    grind
  interval_cases m
  all_goals
    simp at hlong ⊢
    omega

theorem civilFromDays_days {c : Civil} (h : c.Valid) : civilFromDays c.days = c := by
  obtain ⟨y, m, d⟩ := c
  obtain ⟨hm1, hm2, hd1, hd2⟩ := h
  dsimp only at hm1 hm2 hd1 hd2
  have hmonth := month_of_day hm1 hm2 hd1 hd2
  have hyear : (153 * ((m + 9) % 12) + 2) / 5 + d - 1
      < daysInYear ((if m ≤ 2 then y - 1 else y) + 1) := by
    unfold daysInYear
    unfold daysInMonth at hd2
    grind
  unfold Civil.days
  dsimp only
  have hmp : (m + 9) % 12 = if m ≤ 2 then m + 9 else m - 3 := by omega
  rw [daysFromCivil_eq y d hm1, civilFromDays_eq (by omega) hyear hmonth, Civil.mk.injEq, hmp]
  split_ifs <;> omega

/-- Only the length of February needs the year. -/
theorem daysFromCivil_month (y : ℤ) {m : ℤ} (h1 : 1 ≤ m) (h11 : m ≤ 11) :
    daysFromCivil y (m + 1) 1 = daysFromCivil y m 1 + daysInMonth y m := by
  have hfeb := yearStart_succ (y - 1)
  rw [sub_add_cancel, daysInYear] at hfeb
  rw [daysFromCivil_eq _ _ h1, daysFromCivil_eq _ _ (by omega), daysInMonth]
  interval_cases m
  all_goals
    simp at hfeb ⊢
    grind

theorem valid_first (y : ℤ) {m : ℤ} (h1 : 1 ≤ m) (h12 : m ≤ 12) : (⟨y, m, 1⟩ : Civil).Valid := by
  refine ⟨h1, h12, Int.le_refl 1, ?_⟩
  dsimp only [daysInMonth]
  split_ifs <;> decide

theorem daysFromCivil_newYear (y : ℤ) : daysFromCivil y 1 1 = yearStart (y - 1) - 719162 := by
  rw [daysFromCivil_eq _ _ (Int.le_refl 1), if_pos (by decide)]
  omega

/-- The day after a date has the next number. -/
theorem Civil.Valid.next {c : Civil} (h : c.Valid) : c.next.Valid ∧ c.next.days = c.days + 1 := by
  obtain ⟨y, m, d⟩ := c
  obtain ⟨hm1, hm2, hd1, hd2⟩ := h
  dsimp only at hm1 hm2 hd1 hd2
  have hday : ∀ y d, daysFromCivil y m d = daysFromCivil y m 1 + (d - 1) := fun y d => by
    rw [daysFromCivil_eq y d hm1, daysFromCivil_eq y 1 hm1]
    omega
  unfold Civil.next Civil.days
  dsimp only
  split_ifs with hlast hdec
  · refine ⟨⟨hm1, hm2, by dsimp only; omega, hlast⟩, ?_⟩
    dsimp only
    rw [hday y (d + 1), hday y d]
    omega
  · refine ⟨valid_first y (by omega) hdec, ?_⟩
    rw [daysFromCivil_month y hm1 (by omega), hday y d]
    omega
  · obtain rfl : m = 12 := by omega
    have hdim : daysInMonth y 12 = 31 := rfl
    refine ⟨valid_first (y + 1) (Int.le_refl 1) (by decide), ?_⟩
    rw [daysFromCivil_newYear, add_sub_cancel_right, daysFromCivil_eq y d hm1, if_neg (by decide)]
    omega

/-- Every number is a date's: one starts far enough back and goes on day by day. -/
theorem exists_civil (n : ℤ) : ∃ c : Civil, c.Valid ∧ c.days = n := by
  have hstart : ∃ c : Civil, c.Valid ∧ c.days ≤ n := by
    refine ⟨⟨min n 0, 1, 1⟩, valid_first _ (Int.le_refl 1) (by decide), ?_⟩
    unfold Civil.days
    dsimp only
    rw [daysFromCivil_newYear, yearStart]
    omega
  obtain ⟨c, hc, hle⟩ := hstart
  induction n, hle using Int.leInduction with
  | base => exact ⟨c, hc, rfl⟩
  | succ n _ ih =>
    obtain ⟨c', hc', hn⟩ := ih
    exact ⟨c'.next, hc'.next.1, hn ▸ hc'.next.2⟩

/-- **Day numbers and dates.** -/
theorem civil_dates_biject :
    (∀ n, (civilFromDays n).Valid ∧ (civilFromDays n).days = n)
      ∧ (∀ c : Civil, c.Valid → civilFromDays (daysFromCivil c.year c.month c.day) = c)
      ∧ ∀ n, civilFromDays (n + 1) = (civilFromDays n).next := by
  refine ⟨fun n => ?_, fun c hc => civilFromDays_days hc, fun n => ?_⟩
  · obtain ⟨c, hc, rfl⟩ := exists_civil n
    rw [civilFromDays_days hc]
    exact ⟨hc, rfl⟩
  · obtain ⟨c, hc, rfl⟩ := exists_civil n
    rw [← hc.next.2, civilFromDays_days hc, civilFromDays_days hc.next.1]

theorem civil_dates_biject_leap_day : civilFromDays (daysFromCivil (-400) 2 29) = ⟨-400, 2, 29⟩ :=
  civil_dates_biject.2.1 ⟨-400, 2, 29⟩ (by decide)

end Postroom.Ical
