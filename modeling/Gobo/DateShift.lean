/-
Years, months and days added to a date (`DT_DATE`), with the sums cut to 32 bits: the date is moved
by its months first, to the last day of a month that is too short, and then by the days.
-/
import Gobo.DateConversion

namespace Gobo

open GregorianCalendar

namespace Date

variable (t : Date)

/-- `set_year_month_day`, on the last day of the month if the day is after it. -/
def clipped (yy mm dd : ℤ) : Option Date := do
  let dim ← daysInMonth mm yy
  some (ofYearMonthDay yy mm (if dim < dd then dim else dd))

/-- `add_years (y)`. -/
def addYears (y : ℤ) : Option Date :=
  if y ≠ 0 then clipped (int32 (t.year + y)) t.month t.day
  else some t

/-- `add_months (m)`. -/
def addMonths (m : ℤ) : Option Date :=
  if m ≠ 0 then
    let (yy, mm) := monthAfter t.year t.month m
    clipped yy mm t.day
  else some t

/-- The date `e` is the one that `y` years, `m` months and `d` days lead to from `c`: through the
month `l` of the year `z`. -/
structure IsShifted (c : CivilDate) (y m d z l : ℤ) (e : CivilDate) : Prop where
  month_pos : 1 ≤ l
  month_le : l ≤ 12
  months_eq : 12 * z + l = 12 * (c.year + y) + c.month + m
  number_eq : e.number = dayNumber z l (min c.day (monthLength z l)) + d
  representable_year : IsRepresentable z
  representable : IsRepresentable e.year

/-- The years, months and days lead to the date `e`, if `set_from_epoch_days` finds this date from
its day count.  The routines for days, years or months only lead to the same date. -/
def ShiftsTo (c : CivilDate) (y m d : ℤ) (e : CivilDate) : Prop :=
  ∀ setFromEpochDays : ℤ → Option Date,
    setFromEpochDays (epochDays e.year e.month e.day) = some (ofCivil e) →
      (ofCivil c).addYearsMonthsDaysBy setFromEpochDays y m d = some (ofCivil e) ∧
        (y = 0 → m = 0 → (ofCivil c).addDaysBy setFromEpochDays d = some (ofCivil e)) ∧
        (m = 0 → d = 0 → addYears (ofCivil c) y = some (ofCivil e)) ∧
        (y = 0 → d = 0 → addMonths (ofCivil c) m = some (ofCivil e))

/-- The number of the month is no overflow, and the days are in one month or in years whose day
count is ahead by the same number of days. -/
def KeepsCount (c : CivilDate) (m z l : ℤ) (e : CivilDate) : Prop :=
  c.month + m < 2147483648 ∧ (e.year = z ∧ e.month = l ∨ drift z = drift e.year)

section

variable {c e : CivilDate} {y m d z l yy mm dd k n : ℤ}

theorem monthAfter_eq (hyy : -1000000000 ≤ yy) (hyy' : yy ≤ 1000000000) (hmm : 1 ≤ mm)
    (hmm' : mm ≤ 12) (hm : -2147483648 ≤ m) (hsum : mm + m < 2147483648) (hl : 1 ≤ l) (hl' : l ≤ 12)
    (h : 12 * z + l = 12 * yy + mm + m) : monthAfter yy mm m = (z, l) := by
  unfold monthAfter monthsInYear
  split_ifs with hzero
  · rw [int32_of_mem (by omega) (by omega)]
    dsimp only
    split_ifs with hle
    · have hneg : int32 (-(mm + m)) = -(mm + m) := int32_of_mem (by omega) (by omega)
      rw [hneg, Int.tdiv_eq_ediv_of_nonneg (by omega), Int.tmod_eq_emod_of_nonneg (by omega),
        int32_of_mem (by omega) (by omega)]
      exact Prod.ext (by omega) (by omega)
    · rw [Int.tdiv_eq_ediv_of_nonneg (by omega), Int.tmod_eq_emod_of_nonneg (by omega),
        int32_of_mem (by omega) (by omega)]
      exact Prod.ext (by omega) (by omega)
  · exact Prod.ext (by omega) (by omega)

namespace IsShifted

/-- The date is in the month that the years and months lead to, if the day is one of it. -/
theorem month_iff (h : IsShifted c y m d z l e) : e.year = z ∧ e.month = l ↔
    1 ≤ min c.day (monthLength z l) + d ∧ min c.day (monthLength z l) + d ≤ monthLength z l := by
  have hn := h.number_eq
  constructor
  · rintro ⟨rfl, rfl⟩
    have heq : e.day = min c.day (monthLength e.year e.month) + d := by
      unfold CivilDate.number dayNumber at hn
      omega
    exact ⟨heq ▸ e.day_pos, heq ▸ e.day_le⟩
  · rintro ⟨hpos, hle⟩
    have heq : e = ⟨z, l, min c.day (monthLength z l) + d, h.month_pos, h.month_le, hpos, hle⟩ := by
      apply CivilDate.number_injective
      rw [hn, ← dayNumber_add]
      rfl
    rw [heq]
    exact ⟨rfl, rfl⟩

/-- In the month that the years and months lead to, the day is known. -/
theorem day_eq (h : IsShifted c y m d z l e) (hmonth : e.year = z ∧ e.month = l) :
    e.day = min c.day (monthLength z l) + d := by
  have hn := h.number_eq
  obtain ⟨rfl, rfl⟩ := hmonth
  unfold CivilDate.number dayNumber at hn
  omega

theorem year_bounds (h : IsShifted c y m d z l e)
    (hm : -2147483648 ≤ m) (hm' : m < 2147483648) :
    -200000000 ≤ c.year + y ∧ c.year + y ≤ 200000000 := by
  obtain ⟨hlow, hhigh⟩ := h.representable_year
  have hl := h.month_pos
  have hl' := h.month_le
  have hmonth := h.months_eq
  have hpos := c.month_pos
  have hle := c.month_le
  omega

end IsShifted

/-- The day of `Current` that the days are added to. -/
theorem clipped_day (h : IsShifted c y m d z l e) :
    (if (y ≠ 0 ∨ m ≠ 0) ∧ monthLength z l < c.day then monthLength z l else c.day) =
      min c.day (monthLength z l) := by
  have hl := h.month_pos
  have hl' := h.month_le
  have hmonth := h.months_eq
  have hpos := c.month_pos
  have hle := c.month_le
  have hday := c.day_le
  split_ifs with hcase
  · omega
  · by_cases hsame : y = 0 ∧ m = 0
    · obtain rfl : z = c.year := by omega
      obtain rfl : l = c.month := by omega
      omega
    · omega

/-- Without overflow of the month, the day count is taken in the year of the month. -/
theorem addYearsMonthsDaysBy_eq (f : ℤ → Option Date) (hc : IsRepresentable c.year)
    (h : IsShifted c y m d z l e) (hm : -2147483648 ≤ m) (hsum : c.month + m < 2147483648)
    (hd : -2147483648 ≤ d) (hd' : d < 2147483648) :
    (ofCivil c).addYearsMonthsDaysBy f y m d =
      if e.year = z ∧ e.month = l then some (ofCivil e) else f (e.number + drift z) := by
  have hl := h.month_pos
  have hl' := h.month_le
  have hmonth := h.months_eq
  have hpos := c.month_pos
  have hle := c.month_le
  have hday := c.day_pos
  have hday' := c.day_le
  have hlength := monthLength_bounds z l
  have hyear := h.year_bounds hm (by omega)
  have hn := h.number_eq
  have hcut : int32 (c.year + y) = c.year + y := int32_of_mem (by omega) (by omega)
  by_cases hzero : y ≠ 0 ∨ m ≠ 0 ∨ d ≠ 0
  · rw [addYearsMonthsDaysBy, if_pos hzero, year_ofCivil hc, month_ofCivil hc, day_ofCivil hc,
      hcut, monthAfter_eq (by omega) (by omega) hpos hle hm hsum hl hl' (by omega)]
    simp only [daysInMonth_eq hl hl', some_bind]
    rw [clipped_day h]
    by_cases hin : e.year = z ∧ e.month = l
    · have hrange := h.month_iff.mp hin
      have hnew : int32 (min c.day (monthLength z l) + d) = e.day := by
        rw [h.day_eq hin]
        exact int32_of_mem (by omega) (by omega)
      rw [if_pos hin, if_pos
        ((int32_day_iff (by omega) (by omega) (by omega) (by omega) (by omega)).mpr hrange),
        hnew]
      obtain ⟨rfl, rfl⟩ := hin
      split_ifs with hsame
      · exact congrArg some (setDay_ofCivil hc (by omega) (by omega))
      · rfl
    · have hbounds := number_bounds h.representable
      have hdrift := drift_bounds z
      obtain ⟨hlow, hhigh⟩ := h.representable_year
      have hout : ¬(1 ≤ int32 (min c.day (monthLength z l) + d) ∧
          int32 (min c.day (monthLength z l) + d) ≤ monthLength z l) := fun hrange =>
        hin (h.month_iff.mpr
          ((int32_day_iff (by omega) (by omega) (by omega) (by omega) (by omega)).mp hrange))
      have hfirst := dayNumber_add z l 1 (min c.day (monthLength z l) - 1)
      rw [show (1 : ℤ) + (min c.day (monthLength z l) - 1) = min c.day (monthLength z l) by omega]
        at hfirst
      have hcount : int32 (epochDays z l 1 + min c.day (monthLength z l) - 1 + d) =
          e.number + drift z := by
        rw [epochDays_eq (by omega) (by omega) hl hl', Int.add_sub_assoc, Int.add_assoc,
          int32_int32_add, int32_of_mem (by omega) (by omega)]
        omega
      rw [if_neg hin, if_neg hout, hcount]
  · obtain ⟨rfl, rfl, rfl⟩ : y = 0 ∧ m = 0 ∧ d = 0 := by omega
    obtain rfl : z = c.year := by omega
    obtain rfl : l = c.month := by omega
    have hsame : e = c := by
      apply CivilDate.number_injective
      rw [hn, Int.min_eq_left hday', Int.add_zero]
      rfl
    rw [addYearsMonthsDaysBy, if_neg hzero, hsame, if_pos ⟨rfl, rfl⟩]

theorem addDaysBy_eq (f : ℤ → Option Date) (hc : IsRepresentable c.year) :
    (ofCivil c).addDaysBy f d = (ofCivil c).addYearsMonthsDaysBy f 0 0 d := by
  obtain ⟨hlow, hhigh⟩ := id hc
  have hyear : int32 (c.year + 0) = c.year := by
    rw [Int.add_zero, int32_of_mem (by omega) (by omega)]
  rw [addDaysBy, addYearsMonthsDaysBy, year_ofCivil hc, month_ofCivil hc, day_ofCivil hc, hyear]
  by_cases hd : d = 0
  · rw [if_neg (not_not_intro hd), if_neg (by omega)]
  · have hcount : int32 (epochDays c.year c.month 1 + c.day - 1 + d) =
        int32 (epochDays c.year c.month c.day + d) := by
      have hfirst := dayNumber_add c.year c.month 1 (c.day - 1)
      rw [show (1 : ℤ) + (c.day - 1) = c.day by omega] at hfirst
      have hcut (k : ℤ) : epochDays c.year c.month k =
          int32 (dayNumber c.year c.month k + drift c.year) :=
        epochDays_eq (by omega) (by omega) c.month_pos c.month_le
      rw [hcut, hcut, int32_int32_add, Int.add_sub_assoc, Int.add_assoc, int32_int32_add, hfirst]
      exact congrArg int32 (by omega)
    rw [if_pos hd, if_pos (by omega)]
    simp only [monthAfter, ne_eq, not_true_eq_false, if_false, false_or, false_and, and_self,
      if_true, daysInMonth_eq c.month_pos c.month_le, some_bind, hcount]

theorem clipped_eq (hl : 1 ≤ l) (hl' : l ≤ 12) :
    clipped z l k = some (ofYearMonthDay z l (min k (monthLength z l))) := by
  rw [clipped, daysInMonth_eq hl hl', some_bind]
  refine congrArg (fun day => some (ofYearMonthDay z l day)) ?_
  split_ifs with hlong
  · omega
  · omega

/-- Without days, the date stays in the month. -/
theorem IsShifted.eq_of_no_days (h : IsShifted c y m 0 z l e) :
    ofCivil e = ofYearMonthDay z l (min c.day (monthLength z l)) := by
  have hlength := monthLength_bounds z l
  have hday := c.day_pos
  have hmonth := h.month_iff.mpr (by omega)
  have hd := h.day_eq hmonth
  rw [Int.add_zero] at hd
  rw [ofCivil, hmonth.1, hmonth.2, hd]

theorem addYears_eq (hc : IsRepresentable c.year) (h : IsShifted c y 0 0 z l e) :
    addYears (ofCivil c) y = some (ofCivil e) := by
  have hl := h.month_pos
  have hl' := h.month_le
  have hmonth := h.months_eq
  have hpos := c.month_pos
  have hle := c.month_le
  obtain ⟨hlow, hhigh⟩ := id h.representable_year
  obtain rfl : z = c.year + y := by omega
  obtain rfl : l = c.month := by omega
  rw [h.eq_of_no_days, addYears, year_ofCivil hc, month_ofCivil hc, day_ofCivil hc,
    int32_of_mem (by omega) (by omega)]
  by_cases hy : y = 0
  · obtain rfl := hy
    rw [if_neg (not_not_intro rfl), Int.add_zero, Int.min_eq_left c.day_le]
    rfl
  · rw [if_pos hy, clipped_eq hl hl']

theorem addMonths_eq (hc : IsRepresentable c.year) (h : IsShifted c 0 m 0 z l e) :
    addMonths (ofCivil c) m = some (ofCivil e) := by
  have hl := h.month_pos
  have hl' := h.month_le
  have hmonth := h.months_eq
  have hpos := c.month_pos
  have hle := c.month_le
  obtain ⟨hlow, hhigh⟩ := id h.representable_year
  obtain ⟨hlow', hhigh'⟩ := id hc
  rw [h.eq_of_no_days, addMonths, year_ofCivil hc, month_ofCivil hc, day_ofCivil hc]
  by_cases hm : m = 0
  · obtain rfl : z = c.year := by omega
    obtain rfl : l = c.month := by omega
    rw [if_neg (not_not_intro hm), Int.min_eq_left c.day_le]
    rfl
  · rw [if_pos hm, monthAfter_eq (z := z) (by omega) (by omega) hpos hle (by omega) (by omega)
      hl hl'
      (by omega)]
    exact clipped_eq hl hl'

/-- A month number that overflows is 2^32 months too early; the smallest one has no opposite and
leads to no month at all. -/
theorem monthAfter_overflow (hyy : -1000000000 ≤ yy) (hyy' : yy ≤ 1000000000) (hmm : 1 ≤ mm)
    (hmm' : mm ≤ 12) (hm : m < 2147483648) (hsum : 2147483648 ≤ mm + m)
    (hmonth : 12 * z + l = 12 * yy + mm + m) :
    (monthAfter yy mm m).2 = 20 ∨ ∃ z' l', monthAfter yy mm m = (z', l') ∧ 1 ≤ l' ∧ l' ≤ 12 ∧
      12 * z' + l' = 12 * z + l - 4294967296 := by
  have hcut : int32 (mm + m) = mm + m - 4294967296 := by
    rw [int32_of_ge (by omega) (by omega)]
    rfl
  unfold monthAfter monthsInYear
  rw [if_pos (by omega), hcut]
  rw [if_pos (by omega)]
  by_cases hleast : mm + m = 2147483648
  · rw [hleast]
    exact Or.inl rfl
  · have hneg : int32 (-(mm + m - 4294967296)) = -(mm + m - 4294967296) :=
      int32_of_mem (by omega) (by omega)
    rw [hneg, Int.tdiv_eq_ediv_of_nonneg (by omega), Int.tmod_eq_emod_of_nonneg (by omega),
      int32_of_mem (by omega) (by omega)]
    exact Or.inr ⟨_, _, rfl, by omega, by omega, by omega⟩

theorem daysBefore_bounds (hm : 1 ≤ m) (hm' : m ≤ 12) :
    0 ≤ daysBefore y m ∧ daysBefore y m ≤ 335 := by
  unfold daysBefore
  split_ifs
  · omega
  · omega
  · omega

/-- The days of 2^32 months are no multiple of 2^32. -/
theorem dayNumber_overflow {z' l' : ℤ} (hl : 1 ≤ l) (hl' : l ≤ 12) (hz : 1 ≤ l') (hz' : l' ≤ 12)
    (hmonth : 12 * z' + l' = 12 * z + l - 4294967296) (hk : n - 100 ≤ k) (hk' : k ≤ n + 100) :
    int32 (dayNumber z' l' 1 + k) ≠ dayNumber z l 1 + n := by
  intro h
  have hmod : (dayNumber z' l' 1 + k) % 4294967296 = (dayNumber z l 1 + n) % 4294967296 := by
    rw [← h, int32]
    exact Int.bmod_emod.symm
  have hdays := daysBefore_bounds (y := z) hl hl'
  have hdays' := daysBefore_bounds (y := z') hz hz'
  have hyears : 130725380000 ≤ daysBeforeYear z - daysBeforeYear z' ∧
      daysBeforeYear z - daysBeforeYear z' ≤ 130725390000 := by
    unfold daysBeforeYear
    omega
  unfold dayNumber at hmod
  omega

/-- Knows one day only. -/
def onlyDay (e : CivilDate) : ℤ → Option Date := fun n =>
  if n = epochDays e.year e.month e.day then some (ofCivil e) else none

theorem onlyDay_self (e : CivilDate) :
    onlyDay e (epochDays e.year e.month e.day) = some (ofCivil e) :=
  if_pos rfl

theorem onlyDay_of_ne (h : n ≠ epochDays e.year e.month e.day) : onlyDay e n = none :=
  if_neg h

/-- Few days after a day of a month, the month is next to it. -/
theorem month_near (hl : 1 ≤ l) (hl' : l ≤ 12) (hn : e.number = dayNumber z l k) (hk : -10 ≤ k)
    (hk' : k ≤ 40) : 12 * z + l - 1 ≤ 12 * e.year + e.month ∧
      12 * e.year + e.month ≤ 12 * z + l + 1 := by
  have hlength := monthLength_bounds z l
  let middle : CivilDate := ⟨z, l, 15, hl, hl', by decide, by omega⟩
  have hmiddle : e.number = middle.number + (k - 15) := by
    have hadd := dayNumber_add z l 15 (k - 15)
    rw [show (15 : ℤ) + (k - 15) = k by omega] at hadd
    exact hn.trans hadd
  exact CivilDate.monthNumber_near (c := e) (e := middle) (by omega) (by omega)

/-- Months that are four apart in the year are not confused. -/
theorem ofYearMonthDay_ne {z' l' : ℤ} (hl : 1 ≤ l') (hl' : l' ≤ 12) (hd : 1 ≤ d)
    (hd' : d ≤ 31) (hmonth : e.month ≠ l') : ofYearMonthDay z' l' d ≠ ofCivil e := by
  intro heq
  have hleft := toNat_ofYearMonthDay (y := z') (m := l') (d := d) (by omega) (by omega) (by omega)
    (by omega)
  have hlength := monthLength_bounds e.year e.month
  have hpos := e.month_pos
  have hle := e.month_le
  have hday := e.day_pos
  have hday' := e.day_le
  have hright := toNat_ofYearMonthDay (y := e.year) (m := e.month) (d := e.day) (by omega)
    (by omega) (by omega) (by omega)
  rw [heq, ofCivil] at hleft
  omega

section

variable (hc : IsRepresentable c.year) (h : IsShifted c y m d z l e)

include hc h

/-- A month that overflows leads to another date. -/
theorem addYearsMonthsDaysBy_overflow (hm : m < 2147483648) (hsum : 2147483648 ≤ c.month + m)
    (hd : -2147483648 ≤ d) (hd' : d < 2147483648) :
    (ofCivil c).addYearsMonthsDaysBy (onlyDay e) y m d ≠ some (ofCivil e) := by
  have hl := h.month_pos
  have hl' := h.month_le
  have hpos := c.month_pos
  have hle := c.month_le
  have hday := c.day_pos
  have hlength := monthLength_bounds z l
  have hn := h.number_eq
  have hmonth := h.months_eq
  obtain ⟨hlow, hhigh⟩ := id h.representable_year
  have hcut : int32 (c.year + y) = c.year + y := int32_of_mem (by omega) (by omega)
  rw [addYearsMonthsDaysBy, if_pos (by omega), year_ofCivil hc, month_ofCivil hc, day_ofCivil hc,
    hcut]
  have hlow' : -1000000000 ≤ c.year + y := by omega
  have hhigh' : c.year + y ≤ 1000000000 := by omega
  rcases monthAfter_overflow (z := z) (l := l) hlow' hhigh' hpos hle hm hsum (by omega)
    with hnone | ⟨z', l', heq, hz, hz', hback⟩
  · intro hsome
    dsimp only at hsome
    rw [hnone] at hsome
    exact absurd hsome (by simp [daysInMonth])
  · have hlength'' := monthLength_bounds z' l'
    rw [heq]
    simp only [daysInMonth_eq hz hz', some_bind]
    have hfirst := dayNumber_add z l 1 (min c.day (monthLength z l) - 1)
    rw [show (1 : ℤ) + (min c.day (monthLength z l) - 1) = min c.day (monthLength z l) by omega]
      at hfirst
    generalize hdd : (if (y ≠ 0 ∨ m ≠ 0) ∧ monthLength z' l' < c.day then monthLength z' l'
      else c.day) = dd
    have hbounds : 1 ≤ dd ∧ dd ≤ 31 ∧ dd - 3 ≤ min c.day (monthLength z l) ∧
        min c.day (monthLength z l) ≤ dd + 3 := by
      split_ifs at hdd
      · omega
      · omega
    split_ifs with hin
    · omega
    · have hshort : -10 ≤ min c.day (monthLength z l) + d ∧
          min c.day (monthLength z l) + d ≤ 40 := by
        have hrange := (int32_day_iff hbounds.1 hbounds.2.1 (by omega) (by omega)
            hlength''.2).mp hin
        omega
      have hnear := month_near hl hl' (hn.trans (dayNumber_add z l _ d).symm) hshort.1 hshort.2
      intro hsome
      exact ofYearMonthDay_ne hz hz' hin.1 (by omega) (by omega) (Option.some.inj hsome)
    · have hcount : int32 (epochDays z' l' 1 + dd - 1 + d) ≠ epochDays e.year e.month e.day := by
        have hexact : epochDays e.year e.month e.day =
            dayNumber z l 1 + (min c.day (monthLength z l) - 1 + d + drift e.year) := by
          rw [epochDays_civil h.representable, hn, hfirst]
          omega
        have hdrift := drift_bounds e.year
        have hdrift' := drift_bounds z'
        rw [hexact, epochDays_eq (by omega) (by omega) hz hz', Int.add_sub_assoc, Int.add_assoc,
          int32_int32_add, Int.add_assoc]
        exact dayNumber_overflow hl hl' hz hz' hback (by omega) (by omega)
      rw [onlyDay_of_ne hcount]
      exact fun hsome => absurd hsome (by simp)

theorem shiftsTo_of_keepsCount (hm : -2147483648 ≤ m) (hd : -2147483648 ≤ d) (hd' : d < 2147483648)
    (hkeeps : KeepsCount c m z l e) : ShiftsTo c y m d e := by
  obtain ⟨hsum, hcount⟩ := hkeeps
  intro f hf
  have hall : (ofCivil c).addYearsMonthsDaysBy f y m d = some (ofCivil e) := by
    rw [addYearsMonthsDaysBy_eq f hc h hm hsum hd hd']
    rcases hcount with hmonth | hdrift
    · rw [if_pos hmonth]
    · rw [hdrift, ← epochDays_civil h.representable, hf, ite_self]
  refine ⟨hall, ?_, ?_, ?_⟩
  · rintro rfl rfl
    rw [addDaysBy_eq f hc, hall]
  · rintro rfl rfl
    exact addYears_eq hc h
  · rintro rfl rfl
    exact addMonths_eq hc h

/-- When years, months and days lead to the date of the calendar. -/
theorem shiftsTo_iff
    (hm : -2147483648 ≤ m) (hm' : m < 2147483648) (hd : -2147483648 ≤ d) (hd' : d < 2147483648) :
    ShiftsTo c y m d e ↔ KeepsCount c m z l e := by
  constructor
  · intro hshifts
    have hresult := (hshifts (onlyDay e) (onlyDay_self e)).1
    by_cases hsum : c.month + m < 2147483648
    · refine ⟨hsum, ?_⟩
      rw [addYearsMonthsDaysBy_eq (onlyDay e) hc h hm hsum hd hd'] at hresult
      by_cases hmonth : e.year = z ∧ e.month = l
      · exact Or.inl hmonth
      · rw [if_neg hmonth] at hresult
        by_contra hdrift
        rw [onlyDay_of_ne] at hresult
        · exact absurd hresult (by simp)
        · rw [epochDays_civil h.representable]
          omega
    · exact absurd hresult (addYearsMonthsDaysBy_overflow hc h hm' (by omega) hd hd')
  · exact shiftsTo_of_keepsCount hc h hm hd hd'

end

/-- One month and one day after the last day of January. -/
theorem shiftsTo_iff_leapYear : ShiftsTo ⟨2024, 1, 31, by decide, by decide, by decide, by decide⟩
      0 1 1 ⟨2024, 3, 1, by decide, by decide, by decide, by decide⟩ ↔
    KeepsCount ⟨2024, 1, 31, by decide, by decide, by decide, by decide⟩ 1 2024 2
      ⟨2024, 3, 1, by decide, by decide, by decide, by decide⟩ :=
  shiftsTo_iff (by decide) ⟨by decide, by decide, by decide, by decide, by decide, by decide⟩
    (by decide) (by decide) (by decide) (by decide)

/-- Seven months after January of the year 1, as many months back as there are in 178956970
years. -/
theorem not_shiftsTo_manyMonths : ¬∀ (c e : CivilDate) (y m d z l : ℤ), IsRepresentable c.year →
    IsShifted c y m d z l e → -2147483648 ≤ m → m < 2147483648 → -2147483648 ≤ d →
    d < 2147483648 → ShiftsTo c y m d e := by
  intro hall
  have hshifts := hall ⟨1, 1, 1, by decide, by decide, by decide, by decide⟩
    ⟨1, 8, 1, by decide, by decide, by decide, by decide⟩ (-178956970) 2147483647 0 1 8 (by decide)
    ⟨by decide, by decide, by decide, by decide, by decide, by decide⟩ (by decide) (by decide)
    (by decide) (by decide)
  exact absurd (hshifts _ (onlyDay_self _)).1 (by decide)

/-- The date in the month `l` of the year `z`, on the day of `c` or on the last day. -/
def clippedTo (c : CivilDate) (z l : ℤ) (hl : 1 ≤ l) (hl' : l ≤ 12) : CivilDate where
  year := z
  month := l
  day := min c.day (monthLength z l)
  month_pos := hl
  month_le := hl'
  day_pos := le_min c.day_pos (by have := monthLength_bounds z l; omega)
  day_le := min_le_right _ _

theorem addMonths_clippedTo (hc : IsRepresentable c.year) (hz : IsRepresentable z) (hl : 1 ≤ l)
    (hl' : l ≤ 12) (hmonth : 12 * z + l = 12 * c.year + c.month + m) :
    addMonths (ofCivil c) m = some (ofCivil (clippedTo c z l hl hl')) :=
  addMonths_eq hc ⟨hl, hl', (Int.add_zero c.year).symm ▸ hmonth, (Int.add_zero _).symm, hz, hz⟩

/-- Months added in two steps, by way of the month `l` of the year `z`, lead to the same date as
added in one unless the day is lost in the month between: it has neither that day, nor as many
days as the last month. -/
theorem addMonths_twice_iff (c : CivilDate) (z l z' l' : ℤ) {m m' : ℤ}
    (hc : IsRepresentable c.year) (hz : IsRepresentable z) (hz' : IsRepresentable z')
    (hl : 1 ≤ l ∧ l ≤ 12) (hl' : 1 ≤ l' ∧ l' ≤ 12)
    (hmonth : 12 * z + l = 12 * c.year + c.month + m) (hmonth' : 12 * z' + l' = 12 * z + l + m') :
    ((addMonths (ofCivil c) m).bind fun t => addMonths t m') = addMonths (ofCivil c) (m + m') ↔
      c.day ≤ monthLength z l ∨ monthLength z' l' ≤ monthLength z l := by
  have hsecond := addMonths_clippedTo (c := clippedTo c z l hl.1 hl.2) hz hz' hl'.1 hl'.2 hmonth'
  rw [addMonths_clippedTo hc hz hl.1 hl.2 hmonth, Option.bind_some, hsecond,
    addMonths_clippedTo hc hz' hl'.1 hl'.2 (by omega)]
  constructor
  · intro heq
    have hday := congrArg CivilDate.day (ofCivil_injective hz' hz' (Option.some.inj heq))
    dsimp only [clippedTo] at hday
    omega
  · intro hkept
    have hday : min (min c.day (monthLength z l)) (monthLength z' l') =
        min c.day (monthLength z' l') := by
      omega
    simp only [clippedTo, hday]

/-- From the last day of January by way of February to March, and by way of March to May. -/
theorem addMonths_twice_iff_january :
    ((addMonths (ofYearMonthDay 2024 1 31) 1).bind fun t => addMonths t 1) ≠
        addMonths (ofYearMonthDay 2024 1 31) 2 ∧
      ((addMonths (ofYearMonthDay 2024 1 31) 2).bind fun t => addMonths t 2) =
        addMonths (ofYearMonthDay 2024 1 31) 4 := by
  let c : CivilDate := ⟨2024, 1, 31, by decide, by decide, by decide, by decide⟩
  constructor
  · exact (addMonths_twice_iff c 2024 2 2024 3 (by decide) (by decide) (by decide) (by decide)
      (by decide) (by decide) (by decide)).not.mpr (by decide)
  · exact (addMonths_twice_iff c 2024 3 2024 5 (by decide) (by decide) (by decide) (by decide)
      (by decide) (by decide) (by decide)).mpr (by decide)

end

end Date

end Gobo
