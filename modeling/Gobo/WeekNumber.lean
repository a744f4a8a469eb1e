/-
The weeks of the Gregorian calendar (`DT_GREGORIAN_CALENDAR`), and those of ISO 8601: they start on
Monday, and belong to the year of their Thursday.
-/
import Gobo.DateConversion

namespace Gobo

namespace GregorianCalendar

def daysInWeek : ℤ := 7

/-- The code of `week_day_from_year_month_day`, which is 1 for Monday. -/
def weekDayFromYearMonthDay (y m d : ℤ) : ℤ :=
  let dd := int32 (epochDays y m d + 3)
  if dd < 0 then 7 - (-(dd + 1)).tmod daysInWeek else 1 + dd.tmod daysInWeek

/-- `valid_week (a_week, a_year)`. -/
def validWeek (aWeek aYear : ℤ) : Bool :=
  if 1 ≤ aWeek ∧ aWeek ≤ 52 then true
  else if aWeek = 53 then
    let aDay := weekDayFromYearMonthDay aYear 1 1
    if leapYear aYear then decide (aDay ≠ 5 ∧ aDay ≠ 6)
    else decide (aDay ≠ 5 ∧ aDay ≠ 6 ∧ aDay ≠ 7)
  else false

/-- `week_number (y, m, d)`, with at most `fuel` calls. -/
def weekNumber : ℕ → ℤ → ℤ → ℤ → Option ℤ
  | 0, _, _, _ => none
  | fuel + 1, y, m, d =>
      let yd := daysAtMonth m y + d
      let aDay := weekDayFromYearMonthDay y 1 1
      let yd :=
        if aDay = 1 then yd - 1
        else if aDay = 3 then yd + 1
        else if aDay = 4 then yd + 2
        else if aDay = 5 then yd - 4
        else if aDay = 6 then yd - 3
        else if aDay = 7 then yd - 2
        else yd
      if yd < 0 then weekNumber fuel (int32 (y - 1)) 12 31
      else some (yd.tdiv daysInWeek + 1)

/-- The day of the week of the first of January: 0 for Monday, as it is computed. -/
def firstWeekDay (y : ℤ) : ℤ := weekDayFromYearMonthDay y 1 1 - 1

/-- How far the day that the day of the week of the first of January is taken of is from it:
`epoch_days` may be ahead, and both sums are cut. -/
def dayError (y : ℤ) : ℤ := int32 (epochDays y 1 1 + 3) - (dayNumber y 1 1 + 3)

end GregorianCalendar

open GregorianCalendar

/-- The days of the first week that are before the second of January, if the year begins with the
day `first` of the week. -/
def weekOffset (first : ℤ) : ℤ := if first ≤ 3 then first - 1 else first - 8

/-- The week of a day of the year, counted from 0 on.  Days before the first week of the year are in
the week -1. -/
def weekIndex (yearDay first : ℤ) : ℤ := (yearDay + weekOffset first) / 7

/-- The day of the week of the first of January: 0 for Monday. -/
def firstDay (y : ℤ) : ℤ := (dayNumber y 1 1 + 3) % 7

namespace CivilDate

/-- The day of the week, 0 for Monday. -/
def weekDay (c : CivilDate) : ℤ := (c.number + 3) % 7

/-- Days of one week. -/
def SameWeek (c e : CivilDate) : Prop := (c.number + 3) / 7 = (e.number + 3) / 7

/-- The date is in the ISO week `w` of the ISO year `y`: the Thursday of its week is the `w`-th one
of the year `y`. -/
def InWeek (c : CivilDate) (y w : ℤ) : Prop :=
  ∃ t : CivilDate, c.SameWeek t ∧ t.weekDay = 3 ∧ t.year = y ∧
    7 * (w - 1) < t.yearDay ∧ t.yearDay ≤ 7 * w

section

variable {c t : CivilDate} {y z w yd : ℤ}

/-- A day of a year is known by its number. -/
theorem year_eq_of_number (c : CivilDate) (z yd : ℤ) (hpos : 1 ≤ yd) (hle : yd ≤ yearLength z)
    (h : c.number = dayNumber z 1 1 + yd - 1) : c.year = z ∧ c.yearDay = yd := by
  have hbounds := c.yearDay_bounds
  have hfirst := daysBefore_one z
  rw [number_eq, dayNumber, hfirst] at h
  rcases lt_trichotomy c.year z with hlt | rfl | hlt
  · have hyears := daysBeforeYear_le hlt
    omega
  · exact ⟨rfl, by omega⟩
  · have hyears := daysBeforeYear_le hlt
    omega

theorem number_eq_firstDay (c : CivilDate) :
    c.number = dayNumber c.year 1 1 + c.yearDay - 1 := by
  rw [number_eq, dayNumber, daysBefore_one]
  omega

theorem dayNumber_succ_year (y : ℤ) :
    dayNumber (y + 1) 1 1 = dayNumber y 1 1 + yearLength y := by
  have hyear := daysBeforeYear_succ y
  rw [dayNumber, dayNumber, daysBefore_one, daysBefore_one]
  omega

/-- The Thursday of a week. -/
theorem exists_thursday (c : CivilDate) :
    ∃ t : CivilDate, c.SameWeek t ∧ t.weekDay = 3 ∧ t.number = c.number - c.weekDay + 3 := by
  obtain ⟨t, ht⟩ := exists_number (c.number - c.weekDay + 3)
  refine ⟨t, ?_, ?_, ht⟩
  · rw [SameWeek, ht, weekDay]
    omega
  · rw [weekDay, ht, weekDay]
    omega

/-- The ISO year and the ISO week of a date. -/
theorem inWeek_iff (ht : c.SameWeek t) (hday : t.weekDay = 3) :
    c.InWeek y w ↔ y = t.year ∧ 7 * (w - 1) < t.yearDay ∧ t.yearDay ≤ 7 * w := by
  constructor
  · rintro ⟨e, he, heday, rfl, hlow, hhigh⟩
    obtain rfl : e = t := by
      apply number_injective
      rw [SameWeek] at ht he
      rw [weekDay] at hday heday
      omega
    exact ⟨rfl, hlow, hhigh⟩
  · rintro ⟨rfl, hlow, hhigh⟩
    exact ⟨t, ht, hday, rfl, hlow, hhigh⟩

/-- The day of the year of the Thursday of the week; it may be a day of another year. -/
def thursday (c : CivilDate) : ℤ := c.yearDay - c.weekDay + 3

theorem weekDay_bounds (c : CivilDate) : 0 ≤ c.weekDay ∧ c.weekDay < 7 :=
  ⟨Int.emod_nonneg _ (by decide), Int.emod_lt_of_pos _ (by decide)⟩

/-- The week of a Thursday. -/
theorem thursday_bounds (c : CivilDate) :
    7 * weekIndex c.yearDay (firstDay c.year) < c.thursday ∧
      c.thursday ≤ 7 * weekIndex c.yearDay (firstDay c.year) + 7 := by
  have hnumber := c.number_eq_firstDay
  rw [thursday, weekDay, hnumber, weekIndex, weekOffset, firstDay]
  split
  · omega
  · omega

/-- Days before the first week of a year are in the last week of the year before. -/
theorem inWeek_iff_of_before (h : weekIndex c.yearDay (firstDay c.year) < 0) : c.InWeek y w ↔
    y = c.year - 1 ∧
      w = weekIndex (yearLength (c.year - 1)) (firstDay (c.year - 1)) + 1 := by
  obtain ⟨t, ht, hday, hnumber⟩ := c.exists_thursday
  have hthursday := c.thursday_bounds
  have hyear := dayNumber_succ_year (c.year - 1)
  rw [Int.sub_add_cancel] at hyear
  have hfirst := c.number_eq_firstDay
  have hpos := c.yearDay_bounds
  have hweekDay := c.weekDay_bounds
  have hlength := yearLength_cases (c.year - 1)
  rw [thursday] at hthursday
  obtain ⟨htyear, htday⟩ := year_eq_of_number t (c.year - 1)
    (c.yearDay - c.weekDay + 3 + yearLength (c.year - 1)) (by omega) (by omega) (by omega)
  rw [inWeek_iff ht hday, htyear, htday, and_congr_right_iff]
  intro _
  have hthursday' : c.weekDay = (c.number + 3) % 7 := rfl
  rw [weekIndex, weekOffset, firstDay, hyear] at h hthursday
  rw [weekIndex, weekOffset, firstDay, hthursday', hfirst, hyear]
  split at h
  · omega
  · split
    · omega
    · omega

theorem inWeek_iff_of_within (h : 0 ≤ weekIndex c.yearDay (firstDay c.year))
    (hend : c.thursday ≤ yearLength c.year) :
    c.InWeek y w ↔ y = c.year ∧ w = weekIndex c.yearDay (firstDay c.year) + 1 := by
  obtain ⟨t, ht, hday, hnumber⟩ := c.exists_thursday
  have hthursday := c.thursday_bounds
  have hfirst := c.number_eq_firstDay
  rw [thursday] at hthursday hend
  obtain ⟨htyear, htday⟩ := year_eq_of_number t (c.year)
    (c.yearDay - c.weekDay + 3) (by omega) hend (by omega)
  rw [inWeek_iff ht hday, htyear, htday]
  constructor
  · rintro ⟨hy, hlow, hhigh⟩
    exact ⟨hy, by omega⟩
  · rintro ⟨hy, rfl⟩
    exact ⟨hy, by omega, by omega⟩

/-- Days after the last week of a year are in the first week of the next year. -/
theorem inWeek_iff_of_after (hend : yearLength c.year < c.thursday) :
    c.InWeek y w ↔ y = c.year + 1 ∧ w = 1 := by
  obtain ⟨t, ht, hday, hnumber⟩ := c.exists_thursday
  have hfirst := c.number_eq_firstDay
  have hyear := dayNumber_succ_year c.year
  have hpos := c.yearDay_bounds
  have hweekDay := c.weekDay_bounds
  have hlength := yearLength_cases (c.year + 1)
  rw [thursday] at hend
  obtain ⟨htyear, htday⟩ := year_eq_of_number t (c.year + 1)
    (c.yearDay - c.weekDay + 3 - yearLength c.year) (by omega) (by omega) (by omega)
  rw [inWeek_iff ht hday, htyear, htday]
  constructor
  · rintro ⟨hy, hlow, hhigh⟩
    exact ⟨hy, by omega⟩
  · rintro ⟨hy, rfl⟩
    exact ⟨hy, by omega, by omega⟩

end

end CivilDate

namespace GregorianCalendar

section

variable {c : CivilDate} {y w yd : ℤ} {fuel : ℕ}

theorem firstWeekDay_bounds (y : ℤ) : 0 ≤ firstWeekDay y ∧ firstWeekDay y < 7 := by
  rw [firstWeekDay, weekDayFromYearMonthDay, daysInWeek]
  split
  · rw [Int.tmod_eq_emod_of_nonneg (by omega)]
    omega
  · rw [Int.tmod_eq_emod_of_nonneg (by omega)]
    omega

/-- The day of the year as it is shifted in `week_number`. -/
theorem shifted_eq {first : ℤ} (hfirst : 0 ≤ first ∧ first < 7) (yd : ℤ) :
    (if first + 1 = 1 then yd - 1
      else if first + 1 = 3 then yd + 1
      else if first + 1 = 4 then yd + 2
      else if first + 1 = 5 then yd - 4
      else if first + 1 = 6 then yd - 3
      else if first + 1 = 7 then yd - 2
      else yd) = yd + weekOffset first := by
  rw [weekOffset]
  split_ifs <;> omega

/-- One call of `week_number`. -/
theorem weekNumber_succ {m d : ℤ} (hyd : daysAtMonth m y + d = yd) :
    weekNumber (fuel + 1) y m d =
      if weekIndex yd (firstWeekDay y) < 0 then weekNumber fuel (int32 (y - 1)) 12 31
      else some (weekIndex yd (firstWeekDay y) + 1) := by
  have hcode : weekDayFromYearMonthDay y 1 1 = firstWeekDay y + 1 := (Int.sub_add_cancel _ _).symm
  rw [weekNumber, hyd, hcode, shifted_eq (firstWeekDay_bounds y), weekIndex, daysInWeek]
  generalize yd + weekOffset (firstWeekDay y) = k
  split
  · rw [if_pos (by omega)]
  · rw [if_neg (by omega), Int.tdiv_eq_ediv_of_nonneg (by omega)]

theorem daysAtMonth_yearDay (c : CivilDate) :
    daysAtMonth c.month c.year + c.day = c.yearDay := by
  rw [daysAtMonth_eq c.month_pos c.month_le]
  rfl

theorem daysAtMonth_last (y : ℤ) : daysAtMonth 12 y + 31 = yearLength y := by
  rw [daysAtMonth_eq (by decide) (by decide)]
  have hlast := daysBefore_succ (y := y) (m := 12) (by decide) (by decide)
  rw [show (12 : ℤ) + 1 = 13 from rfl, daysBefore_thirteen] at hlast
  exact hlast.symm

/-- The last day of a year is not before its first week. -/
theorem weekNumber_last (y : ℤ) : weekNumber (fuel + 1) y 12 31 =
    some (weekIndex (yearLength y) (firstWeekDay y) + 1) := by
  have hlength := yearLength_cases y
  have hbounds := firstWeekDay_bounds y
  rw [weekNumber_succ (daysAtMonth_last y), if_neg]
  rw [weekIndex, weekOffset]
  split
  · omega
  · omega

theorem weekNumber_eq (c : CivilDate) : weekNumber 2 c.year c.month c.day =
    some (if weekIndex c.yearDay (firstWeekDay c.year) < 0 then
      weekIndex (yearLength (int32 (c.year - 1))) (firstWeekDay (int32 (c.year - 1))) + 1
    else weekIndex c.yearDay (firstWeekDay c.year) + 1) := by
  rw [weekNumber_succ (daysAtMonth_yearDay c), weekNumber_last]
  split
  · rfl
  · rfl

/-- `week_number` gives the ISO week of the date. -/
def NumbersWeek (c : CivilDate) : Prop :=
  ∃ y w, weekNumber 2 c.year c.month c.day = some w ∧ c.InWeek y w

/-- By how many days the first week of the year begins too early. -/
def weekError (y : ℤ) : ℤ := weekOffset ((firstDay y + dayError y) % 7) - weekOffset (firstDay y)

/-- The day `yd` of the year `y` is in the same week when the weeks begin too early. -/
def StaysInWeek (y yd : ℤ) : Prop :=
  0 ≤ (firstDay y + yd - 1) % 7 + weekError y ∧ (firstDay y + yd - 1) % 7 + weekError y < 7

/-- The date is not in the first week of the next year, and stays in its week; if it is before the
first week, the last day of the year before stays there. -/
def KeepsWeek (c : CivilDate) : Prop :=
  c.thursday ≤ yearLength c.year ∧ StaysInWeek c.year c.yearDay ∧
    (c.thursday < 1 → StaysInWeek (c.year - 1) (yearLength (c.year - 1)))

theorem firstDay_bounds (y : ℤ) : 0 ≤ firstDay y ∧ firstDay y < 7 :=
  ⟨Int.emod_nonneg _ (by decide), Int.emod_lt_of_pos _ (by decide)⟩

/-- The week of a day is not far from the number of weeks before it. -/
theorem weekIndex_bounds {first : ℤ} (hfirst : 0 ≤ first ∧ first < 7) (yd : ℤ) :
    (yd - 4) / 7 ≤ weekIndex yd first ∧ weekIndex yd first ≤ (yd + 2) / 7 := by
  rw [weekIndex, weekOffset]
  split
  · omega
  · omega

theorem exists_week_iff {n z k : ℤ} :
    (∃ y w : ℤ, some n = some w ∧ y = z ∧ w = k) ↔ n = k := by
  constructor
  · rintro ⟨y, w, hn, -, hw⟩
    exact (Option.some.inj hn).trans hw
  · intro h
    exact ⟨z, n, rfl, rfl, h⟩

/-- The day of the week is right if `epoch_days` is. -/
theorem firstWeekDay_eq (y : ℤ) : firstWeekDay y = (firstDay y + dayError y) % 7 := by
  rw [firstWeekDay, weekDayFromYearMonthDay, firstDay, dayError, daysInWeek]
  generalize int32 (epochDays y 1 1 + 3) = dd
  split
  · rw [Int.tmod_eq_emod_of_nonneg (by omega)]
    omega
  · rw [Int.tmod_eq_emod_of_nonneg (by omega)]
    omega

/-- From the year 1 on, `epoch_days` is right as long as nothing is cut. -/
theorem dayError_eq_zero (hy : 1 ≤ y) (hy' : y ≤ 5881579) : dayError y = 0 := by
  have hdrift : drift y = 0 := if_neg fun h => absurd h.1 (by omega)
  have hbounds : 0 ≤ daysBeforeYear y ∧ daysBeforeYear y ≤ 2148202804 := by
    unfold daysBeforeYear
    omega
  have hnumber : dayNumber y 1 1 = daysBeforeYear y - 719162 := by
    rw [dayNumber, daysBefore_one, show daysBeforeYear 1970 = 719162 from rfl]
    omega
  rw [dayError, epochDays_eq (by omega) (by omega) (by decide) (by decide), hdrift, Int.add_zero,
    int32_int32_add, int32_of_mem (by omega) (by omega), Int.sub_self]

/-- The week of a day is found if the day stays in it. -/
theorem weekIndex_eq_iff (y yd : ℤ) :
    weekIndex yd (firstWeekDay y) = weekIndex yd (firstDay y) ↔ StaysInWeek y yd := by
  have hday : (firstDay y + yd - 1) % 7 = (yd + weekOffset (firstDay y)) % 7 := by
    rw [weekOffset]
    split
    · omega
    · omega
  rw [weekIndex, weekIndex, firstWeekDay_eq, StaysInWeek, hday, weekError]
  omega

theorem numbersWeek_iff (c : CivilDate) (hlow : -2 ^ 31 ≤ c.year) (hhigh : c.year < 2 ^ 31) :
    NumbersWeek c ↔ KeepsWeek c := by
  have hcode := weekIndex_bounds (firstWeekDay_bounds c.year) c.yearDay
  have hlast := weekIndex_bounds (firstWeekDay_bounds (int32 (c.year - 1)))
    (yearLength (int32 (c.year - 1)))
  have hlength := yearLength_cases (int32 (c.year - 1))
  have hlength' := yearLength_cases c.year
  have hthursday := c.thursday_bounds
  have hweekDay := c.weekDay_bounds
  have hpos := c.yearDay_bounds
  have hday : c.thursday = c.yearDay - c.weekDay + 3 := rfl
  -- The first of January of the least year is a Tuesday: no day is before the first week.
  have hleast : weekIndex c.yearDay (firstDay c.year) < 0 → int32 (c.year - 1) = c.year - 1 := by
    intro hbefore
    refine int32_of_mem ?_ (by omega)
    by_contra hnot
    have hfirst : firstDay c.year = 1 := by
      rw [show c.year = -2 ^ 31 by omega]
      decide
    rw [weekIndex, hfirst, weekOffset, if_pos (by decide)] at hbefore
    omega
  rw [NumbersWeek, weekNumber_eq, KeepsWeek, ← weekIndex_eq_iff, ← weekIndex_eq_iff]
  rcases lt_or_ge (weekIndex c.yearDay (firstDay c.year)) 0 with hbefore | hwithin
  · have hlast' := weekIndex_bounds (firstDay_bounds (c.year - 1)) (yearLength (c.year - 1))
    have hlength'' := yearLength_cases (c.year - 1)
    rw [hleast hbefore] at hlast ⊢
    simp only [CivilDate.inWeek_iff_of_before hbefore, exists_week_iff]
    split
    · omega
    · omega
  · rcases le_or_gt c.thursday (yearLength c.year) with hend | hend
    · simp only [CivilDate.inWeek_iff_of_within hwithin hend, exists_week_iff]
      split
      · omega
      · omega
    · simp only [CivilDate.inWeek_iff_of_after hend, exists_week_iff]
      split
      · omega
      · omega

/-- `valid_week` is true exactly for the ISO weeks of the year. -/
def ValidatesWeek (w y : ℤ) : Prop := validWeek w y = true ↔ ∃ c : CivilDate, c.InWeek y w

/-- If the week is 53, either the year has 53 weeks, or the day that is taken for the first of
January is one at the end of the week, but not both. -/
def KeepsWeekCount (w y : ℤ) : Prop := w = 53 → if IsLeapYear y then
      Xor (firstDay y = 2 ∨ firstDay y = 3)
        ((firstDay y + dayError y) % 7 = 4 ∨ (firstDay y + dayError y) % 7 = 5)
    else Xor (firstDay y = 3) (4 ≤ (firstDay y + dayError y) % 7)

/-- A Thursday of the year. -/
theorem firstDay_of_thursday {t : CivilDate} (hday : t.weekDay = 3) :
    (firstDay t.year + t.yearDay - 1) % 7 = 3 := by
  have hnumber := t.number_eq_firstDay
  rw [CivilDate.weekDay, hnumber] at hday
  rw [firstDay]
  omega

/-- The weeks of a year. -/
theorem exists_inWeek_iff : (∃ c : CivilDate, c.InWeek y w) ↔
    1 ≤ w ∧ (w ≤ 52 ∨ w = 53 ∧ (firstDay y = 3 ∨ IsLeapYear y ∧ firstDay y = 2)) := by
  have hfirst := firstDay_bounds y
  constructor
  · rintro ⟨c, t, -, hday, rfl, hlow, hhigh⟩
    have hbounds := t.yearDay_bounds
    have hthursday := firstDay_of_thursday hday
    rw [yearLength] at hbounds
    split at hbounds
    · rename_i hleap
      refine ⟨by omega, ?_⟩
      rcases lt_or_ge w 53 with hlt | hge
      · exact Or.inl (by omega)
      · refine Or.inr ⟨by omega, ?_⟩
        rcases lt_or_ge t.yearDay 366 with hlt | hge
        · exact Or.inl (by omega)
        · exact Or.inr ⟨hleap, by omega⟩
    · refine ⟨by omega, ?_⟩
      rcases lt_or_ge w 53 with hlt | hge
      · exact Or.inl (by omega)
      · exact Or.inr ⟨by omega, Or.inl (by omega)⟩
  · rintro ⟨hpos, hw⟩
    obtain ⟨k, hk, hk', hkday⟩ : ∃ k : ℤ, 1 ≤ k ∧ k ≤ 7 ∧ (firstDay y + k - 1) % 7 = 3 := by
      rcases le_or_gt (firstDay y) 3 with hle | hgt
      · exact ⟨4 - firstDay y, by omega, by omega, by omega⟩
      · exact ⟨11 - firstDay y, by omega, by omega, by omega⟩
    obtain ⟨t, ht⟩ := CivilDate.exists_number (dayNumber y 1 1 + (7 * (w - 1) + k) - 1)
    have hlength : 7 * (w - 1) + k ≤ yearLength y := by
      rw [yearLength]
      rcases hw with hw | ⟨hw, hthree | ⟨hleap, htwo⟩⟩
      · split
        · omega
        · omega
      · split
        · omega
        · omega
      · rw [if_pos hleap]
        omega
    obtain ⟨hyear, hyd⟩ := CivilDate.year_eq_of_number _ _ _ (by omega) hlength ht
    refine ⟨t, t, rfl, ?_, hyear, by omega, by omega⟩
    rw [CivilDate.weekDay, ht]
    rw [firstDay] at hkday
    omega

theorem validatesWeek_iff (w y : ℤ) : ValidatesWeek w y ↔ KeepsWeekCount w y := by
  have hfirst := firstWeekDay_bounds y
  have hcode : weekDayFromYearMonthDay y 1 1 = firstWeekDay y + 1 := (Int.sub_add_cancel _ _).symm
  have hleap := leapYear_iff (y := y)
  rw [ValidatesWeek, KeepsWeekCount, exists_inWeek_iff, validWeek, hcode, ← firstWeekDay_eq]
  simp only [Xor]
  by_cases hweek : w = 53
  · rw [if_neg (by omega), if_pos hweek]
    by_cases hy : IsLeapYear y
    · rw [if_pos (hleap.mpr hy), if_pos hy, decide_eq_true_iff]
      simp only [hy, true_and, hweek, forall_const]
      omega
    · rw [if_neg (fun h => hy (hleap.mp h)), if_neg hy, decide_eq_true_iff]
      simp only [hy, false_and, or_false, hweek, forall_const, true_and]
      omega
  · refine iff_of_true ?_ fun h => absurd h hweek
    by_cases hin : 1 ≤ w ∧ w ≤ 52
    · rw [if_pos hin]
      exact iff_of_true rfl ⟨hin.1, Or.inl hin.2⟩
    · rw [if_neg hin, if_neg hweek]
      exact iff_of_false Bool.false_ne_true (by omega)

/-- When `week_number` and `valid_week` follow ISO 8601. -/
theorem isoWeek_iff (c : CivilDate) (w y : ℤ) (hlow : -2 ^ 31 ≤ c.year) (hhigh : c.year < 2 ^ 31) :
    (NumbersWeek c ↔ KeepsWeek c) ∧ (ValidatesWeek w y ↔ KeepsWeekCount w y) ∧
      (1 ≤ y → y ≤ 5881579 → dayError y = 0) :=
  ⟨numbersWeek_iff c hlow hhigh, validatesWeek_iff w y, dayError_eq_zero⟩

/-- The first of January 2021 is a Friday, in the last week of 2020. -/
theorem isoWeek_iff_newYear :
    (NumbersWeek ⟨2021, 1, 1, by decide, by decide, by decide, by decide⟩ ↔
        KeepsWeek ⟨2021, 1, 1, by decide, by decide, by decide, by decide⟩) ∧
      (ValidatesWeek 53 2020 ↔ KeepsWeekCount 53 2020) ∧
        (1 ≤ (2020 : ℤ) → (2020 : ℤ) ≤ 5881579 → dayError 2020 = 0) :=
  isoWeek_iff _ 53 2020 (by decide) (by decide)

/-- The last day of 2018 is a Monday, in the first week of 2019. -/
theorem not_numbersWeek : ¬((∀ c : CivilDate, -2 ^ 31 ≤ c.year → c.year < 2 ^ 31 → NumbersWeek c) ∧
    ∀ w y, ValidatesWeek w y) := by
  rintro ⟨hweeks, -⟩
  have hdate := hweeks ⟨2018, 12, 31, by decide, by decide, by decide, by decide⟩ (by decide)
    (by decide)
  exact absurd ((numbersWeek_iff _ (by decide) (by decide)).mp hdate).1 (by decide)

end

end GregorianCalendar

end Gobo
