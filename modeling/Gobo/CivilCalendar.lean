/-
The proleptic Gregorian calendar: the dates of all years, and the number of days
from the first of January 1970 on.
-/
import Mathlib.Data.Int.Basic
import Mathlib.Tactic.IntervalCases

namespace Gobo

def IsLeapYear (y : ℤ) : Prop := 4 ∣ y ∧ (¬100 ∣ y ∨ 400 ∣ y)

/-- A year that is not a leap year although it can be divided by 4. -/
def IsCommonCentury (y : ℤ) : Prop := 100 ∣ y ∧ ¬400 ∣ y

instance : DecidablePred IsLeapYear :=
  fun _ => inferInstanceAs (Decidable (_ ∧ _))

instance : DecidablePred IsCommonCentury :=
  fun _ => inferInstanceAs (Decidable (_ ∧ _))

def monthLength (y m : ℤ) : ℤ :=
  if m = 2 then if IsLeapYear y then 29 else 28
  else if m = 4 ∨ m = 6 ∨ m = 9 ∨ m = 11 then 30 else 31

/-- The days of the year `y` before its month `m`. -/
def daysBefore (y m : ℤ) : ℤ :=
  (367 * m - 362) / 12 - if m ≤ 2 then 0 else if IsLeapYear y then 1 else 2

/-- The days before the year `y`, counted from the year 1 on. -/
def daysBeforeYear (y : ℤ) : ℤ :=
  365 * (y - 1) + (y - 1) / 4 - (y - 1) / 100 + (y - 1) / 400

def yearLength (y : ℤ) : ℤ :=
  if IsLeapYear y then 366 else 365

/-- The number of a day of the calendar; zero is the first of January 1970. -/
def dayNumber (y m d : ℤ) : ℤ :=
  daysBeforeYear y - daysBeforeYear 1970 + daysBefore y m + d - 1

/-- The length of the month before and of the month after a month. -/
def lengthBefore (y m : ℤ) : ℤ :=
  if m = 1 then monthLength (y - 1) 12 else monthLength y (m - 1)

def lengthAfter (y m : ℤ) : ℤ :=
  if m = 12 then monthLength (y + 1) 1 else monthLength y (m + 1)

structure CivilDate where
  year : ℤ
  month : ℤ
  day : ℤ
  month_pos : 1 ≤ month
  month_le : month ≤ 12
  day_pos : 1 ≤ day
  day_le : day ≤ monthLength year month

section

variable {y m d : ℤ}

theorem daysBeforeYear_succ (y : ℤ) :
    daysBeforeYear (y + 1) = daysBeforeYear y + yearLength y := by
  unfold daysBeforeYear yearLength IsLeapYear
  split_ifs <;> omega

theorem yearLength_cases (y : ℤ) : yearLength y = 365 ∨ yearLength y = 366 := by
  unfold yearLength
  split_ifs
  · exact Or.inr rfl
  · exact Or.inl rfl

theorem monthLength_bounds (y m : ℤ) : 28 ≤ monthLength y m ∧ monthLength y m ≤ 31 := by
  unfold monthLength
  split_ifs <;> omega

theorem daysBefore_one (y : ℤ) : daysBefore y 1 = 0 := by
  unfold daysBefore
  split_ifs <;> omega

theorem daysBefore_succ (hm : 1 ≤ m) (hm' : m ≤ 12) :
    daysBefore y (m + 1) = daysBefore y m + monthLength y m := by
  unfold daysBefore monthLength
  by_cases hleap : IsLeapYear y
  · simp only [hleap, if_true]
    interval_cases m <;> rfl
  · simp only [hleap, if_false]
    interval_cases m <;> rfl

theorem daysBefore_thirteen (y : ℤ) : daysBefore y 13 = yearLength y := by
  unfold daysBefore yearLength
  split_ifs <;> omega

theorem dayNumber_add (y m d n : ℤ) : dayNumber y m (d + n) = dayNumber y m d + n := by
  unfold dayNumber
  omega

/-- The same day of the next month. -/
theorem dayNumber_next_month {z k d : ℤ} (hm : 1 ≤ m) (hm' : m ≤ 12) (hk : 1 ≤ k) (hk' : k ≤ 12)
    (h : 12 * z + k = 12 * y + m + 1) : dayNumber z k d = dayNumber y m d + monthLength y m := by
  have hlast := daysBefore_succ (y := y) hm hm'
  unfold dayNumber
  by_cases hend : m = 12
  · obtain rfl : k = 1 := by omega
    obtain rfl : z = y + 1 := by omega
    have hyear := daysBeforeYear_succ y
    rw [hend, show (12 : ℤ) + 1 = 13 by decide, daysBefore_thirteen] at hlast
    rw [hend, daysBefore_one]
    omega
  · obtain rfl : z = y := by omega
    obtain rfl : k = m + 1 := by omega
    omega

theorem lengthBefore_eq {z k : ℤ} (hm : 1 ≤ m) (hm' : m ≤ 12) (hk : 1 ≤ k) (hk' : k ≤ 12)
    (h : 12 * z + k + 1 = 12 * y + m) : lengthBefore y m = monthLength z k := by
  unfold lengthBefore
  split_ifs with hfirst
  · rw [show z = y - 1 by omega, show k = 12 by omega]
  · rw [show z = y by omega, show k = m - 1 by omega]

theorem lengthAfter_eq {z k : ℤ} (hm : 1 ≤ m) (hm' : m ≤ 12) (hk : 1 ≤ k) (hk' : k ≤ 12)
    (h : 12 * z + k = 12 * y + m + 1) : lengthAfter y m = monthLength z k := by
  unfold lengthAfter
  split_ifs with hlast
  · rw [show z = y + 1 by omega, show k = 1 by omega]
  · rw [show z = y by omega, show k = m + 1 by omega]

/-- Later months begin later. -/
theorem daysBefore_le {k : ℤ} (hm : 1 ≤ m) (hmk : m < k) (hk : k ≤ 13) :
    daysBefore y m + monthLength y m ≤ daysBefore y k := by
  rw [← daysBefore_succ hm (by omega)]
  unfold daysBefore
  split_ifs <;> omega

/-- Later years begin later. -/
theorem daysBeforeYear_le {z : ℤ} (hyz : y < z) :
    daysBeforeYear y + yearLength y ≤ daysBeforeYear z := by
  rw [← daysBeforeYear_succ]
  unfold daysBeforeYear
  omega

end

namespace CivilDate

variable (c e : CivilDate)

def number : ℤ := dayNumber c.year c.month c.day

/-- The day of the year, the first one is 1. -/
def yearDay : ℤ := daysBefore c.year c.month + c.day

theorem number_eq : c.number = daysBeforeYear c.year - daysBeforeYear 1970 + c.yearDay - 1 := by
  unfold number dayNumber yearDay
  omega

theorem yearDay_bounds : 1 ≤ c.yearDay ∧ c.yearDay ≤ yearLength c.year := by
  have hpos := c.day_pos
  have hle := c.day_le
  have hfirst : 0 ≤ daysBefore c.year c.month := by
    have hm := c.month_pos
    unfold daysBefore
    split_ifs <;> omega
  have hlast := daysBefore_le (y := c.year) c.month_pos
    (by have := c.month_le; omega : c.month < 13) (Int.le_refl 13)
  rw [daysBefore_thirteen] at hlast
  unfold yearDay
  omega

@[ext]
theorem ext' {c e : CivilDate} (hy : c.year = e.year) (hm : c.month = e.month)
    (hd : c.day = e.day) : c = e := by
  cases c
  cases e
  simp_all

/-- A date is before another one if its year, month and day are. -/
def Before : Prop := c.year < e.year ∨ c.year = e.year ∧
    (c.month < e.month ∨ c.month = e.month ∧ c.day < e.day)

theorem number_lt_of_before {c e : CivilDate} (h : c.Before e) : c.number < e.number := by
  have hc := c.yearDay_bounds
  have he := e.yearDay_bounds
  rw [number_eq, number_eq]
  rcases h with hy | ⟨hy, hm | ⟨hm, hd⟩⟩
  · have hyear := daysBeforeYear_le hy
    omega
  · have hmonth := daysBefore_le (y := e.year) c.month_pos hm (by have := e.month_le; omega)
    have hday := c.day_le
    have hday' := e.day_pos
    rw [hy] at hday
    unfold yearDay
    rw [hy]
    omega
  · unfold yearDay
    rw [hy, hm]
    omega

theorem before_trichotomy : c.Before e ∨ c = e ∨ e.Before c := by
  by_cases heq : c = e
  · exact Or.inr (Or.inl heq)
  · have hne : ¬(c.year = e.year ∧ c.month = e.month ∧ c.day = e.day) :=
      fun h => heq (CivilDate.ext' h.1 h.2.1 h.2.2)
    unfold Before
    omega

/-- Numbers order the dates. -/
theorem number_lt_iff {c e : CivilDate} : c.number < e.number ↔ c.Before e := by
  refine ⟨fun h => ?_, number_lt_of_before⟩
  rcases before_trichotomy c e with hce | rfl | hec
  · exact hce
  · exact absurd h (Int.lt_irrefl _)
  · exact absurd (number_lt_of_before hec) (by omega)

/-- Months are counted on from year to year. -/
def monthNumber (c : CivilDate) : ℤ := 12 * c.year + c.month

theorem monthNumber_le {c e : CivilDate} (h : c.number ≤ e.number) :
    c.monthNumber ≤ e.monthNumber := by
  have hc' := c.month_le
  have he := e.month_pos
  by_contra hlt
  unfold monthNumber at hlt
  have hbefore : e.Before c := by
    unfold Before
    omega
  exact absurd (number_lt_of_before hbefore) (Int.not_lt.mpr h)

theorem exists_previousMonth (c : CivilDate) : ∃ z l : ℤ, 1 ≤ l ∧ l ≤ 12 ∧
    12 * z + l + 1 = c.monthNumber := by
  have hm := c.month_pos
  have hm' := c.month_le
  unfold monthNumber
  by_cases hfirst : c.month = 1
  · exact ⟨c.year - 1, 12, by omega, by omega, by omega⟩
  · exact ⟨c.year, c.month - 1, by omega, by omega, by omega⟩

theorem exists_nextMonth (c : CivilDate) : ∃ z l : ℤ, 1 ≤ l ∧ l ≤ 12 ∧
    12 * z + l = c.monthNumber + 1 := by
  have hm := c.month_pos
  have hm' := c.month_le
  unfold monthNumber
  by_cases hlast : c.month = 12
  · exact ⟨c.year + 1, 1, by omega, by omega, by omega⟩
  · exact ⟨c.year, c.month + 1, by omega, by omega, by omega⟩

/-- The dates of four weeks before and after a date are in its month or in a month
next to it. -/
theorem monthNumber_near {c e : CivilDate} (h : e.number - 28 ≤ c.number)
    (h' : c.number ≤ e.number + 28) :
    e.monthNumber - 1 ≤ c.monthNumber ∧ c.monthNumber ≤ e.monthNumber + 1 := by
  have hnumber : e.number = dayNumber e.year e.month e.day := rfl
  have hm := e.month_pos
  have hm' := e.month_le
  have hd := e.day_pos
  have hd' := e.day_le
  constructor
  · obtain ⟨z, l, hl, hl', hmonth⟩ := e.exists_previousMonth
    have hlength := (monthLength_bounds z l).1
    have hnext := dayNumber_next_month (d := e.day) hl hl' hm hm' hmonth.symm
    have hfirst := dayNumber_add z l 1 (e.day - 1)
    rw [show 1 + (e.day - 1) = e.day by omega] at hfirst
    have hle : 12 * z + l ≤ c.monthNumber :=
      monthNumber_le (c := ⟨z, l, 1, hl, hl', Int.le_refl 1, by omega⟩) (e := c)
        (show dayNumber z l 1 ≤ c.number by omega)
    omega
  · obtain ⟨z, l, hl, hl', hmonth⟩ := e.exists_nextMonth
    have hlength := (monthLength_bounds z l).1
    have hnext := dayNumber_next_month (d := monthLength z l) hm hm' hl hl' hmonth
    have hlast := dayNumber_add e.year e.month e.day (monthLength z l - e.day)
    rw [show e.day + (monthLength z l - e.day) = monthLength z l by omega] at hlast
    have hle : c.monthNumber ≤ 12 * z + l :=
      monthNumber_le (c := c) (e := ⟨z, l, monthLength z l, hl, hl', by omega, Int.le_refl _⟩)
        (show c.number ≤ dayNumber z l (monthLength z l) by omega)
    omega

theorem year_of_number_succ {c e : CivilDate} (h : e.number = c.number + 1) :
    e.year = c.year ∨ e.year = c.year + 1 := by
  have hbefore : c.Before e := number_lt_iff.mp (by omega)
  have hc := c.yearDay_bounds
  have he := e.yearDay_bounds
  rw [number_eq, number_eq] at h
  have hle : e.year ≤ c.year + 1 := by
    by_contra hlt
    have hyear := daysBeforeYear_le (show c.year < c.year + 1 by omega)
    have hnext := daysBeforeYear_le (show c.year + 1 < e.year by omega)
    have hlength : 365 ≤ yearLength (c.year + 1) := by
      unfold yearLength
      split_ifs <;> decide
    omega
  unfold Before at hbefore
  omega

theorem number_injective {c e : CivilDate} (h : c.number = e.number) : c = e := by
  rcases before_trichotomy c e with hce | heq | hec
  · exact absurd (number_lt_of_before hce) (by omega)
  · exact heq
  · exact absurd (number_lt_of_before hec) (by omega)

theorem exists_next (c : CivilDate) : ∃ e : CivilDate, e.number = c.number + 1 := by
  obtain ⟨y, m, d, hm, hm', hd, hd'⟩ := c
  by_cases hday : d < monthLength y m
  · refine ⟨⟨y, m, d + 1, hm, hm', by omega, by omega⟩, ?_⟩
    simp only [number, dayNumber]
    omega
  by_cases hmonth : m < 12
  · have hlength := monthLength_bounds y (m + 1)
    refine ⟨⟨y, m + 1, 1, by omega, by omega, Int.le_refl 1, by omega⟩, ?_⟩
    simp only [number, dayNumber, daysBefore_succ hm hm']
    omega
  · obtain rfl : m = 12 := by omega
    have hlength := monthLength_bounds (y + 1) 1
    have hend := daysBefore_succ (y := y) hm hm'
    rw [show (12 : ℤ) + 1 = 13 from rfl, daysBefore_thirteen] at hend
    refine ⟨⟨y + 1, 1, 1, Int.le_refl 1, by omega, Int.le_refl 1, by omega⟩, ?_⟩
    simp only [number, dayNumber, daysBeforeYear_succ, daysBefore_one]
    omega

theorem exists_previous (c : CivilDate) : ∃ e : CivilDate, e.number = c.number - 1 := by
  obtain ⟨y, m, d, hm, hm', hd, hd'⟩ := c
  by_cases hday : 1 < d
  · refine ⟨⟨y, m, d - 1, hm, hm', by omega, by omega⟩, ?_⟩
    simp only [number, dayNumber]
    omega
  by_cases hmonth : 1 < m
  · have hlength := monthLength_bounds y (m - 1)
    have hend := daysBefore_succ (y := y) (m := m - 1) (by omega) (by omega)
    rw [Int.sub_add_cancel] at hend
    refine ⟨⟨y, m - 1, monthLength y (m - 1), by omega, by omega, by omega, Int.le_refl _⟩, ?_⟩
    simp only [number, dayNumber]
    omega
  · obtain rfl : m = 1 := by omega
    have hlength := monthLength_bounds (y - 1) 12
    have hend := daysBefore_succ (y := y - 1) (m := 12) (by decide) (Int.le_refl 12)
    have hyear := daysBeforeYear_succ (y - 1)
    rw [show (12 : ℤ) + 1 = 13 from rfl, daysBefore_thirteen] at hend
    rw [Int.sub_add_cancel] at hyear
    refine ⟨⟨y - 1, 12, monthLength (y - 1) 12, by decide, Int.le_refl 12, by omega,
      Int.le_refl _⟩, ?_⟩
    simp only [number, dayNumber, daysBefore_one, hyear]
    omega

/-- Every number is that of a date. -/
theorem exists_number (n : ℤ) : ∃ c : CivilDate, c.number = n := by
  induction n using Int.induction_on with
  | zero => exact ⟨⟨1970, 1, 1, by decide, by decide, by decide, by decide⟩, by decide⟩
  | succ n ih =>
      obtain ⟨c, hc⟩ := ih
      obtain ⟨e, he⟩ := c.exists_next
      exact ⟨e, by rw [he, hc]⟩
  | pred n ih =>
      obtain ⟨c, hc⟩ := ih
      obtain ⟨e, he⟩ := c.exists_previous
      exact ⟨e, by rw [he, hc]⟩

end CivilDate

end Gobo
