/-
The canonical duration between two date-times, and its sum with the first one.
-/
import Gobo.DateShift
import Gobo.DateTimeAddition

namespace Gobo

open GregorianCalendar

namespace Date

section

variable {c e : CivilDate} {y m d z l : ℤ}

theorem Converts.drift_eq (hc : IsRepresentable c.year) (h : Converts c) : drift c.year = 0 := by
  have hcount := h.dayCount_eq
  rw [dayCount_ofCivil hc] at hcount
  omega

/-- Years and months lead to the month `l` of the year `z`, the days are added to
a day of this month. -/
theorem addYearsMonthsDays_eq (hc : IsRepresentable c.year) (h : IsShifted c y m d z l e)
    (hm : -12 ≤ m ∧ m ≤ 12) (hd : -100 ≤ d ∧ d ≤ 100)
    (hconv : e.year = z ∧ e.month = l ∨ drift z = 0 ∧ Converts e) :
    (ofCivil c).addYearsMonthsDays y m d = some (ofCivil e) := by
  have hle := c.month_le
  rw [addYearsMonthsDays,
    addYearsMonthsDaysBy_eq _ hc h (by omega) (by omega) (by omega) (by omega)]
  rcases hconv with hmonth | ⟨hdrift, he⟩
  · rw [if_pos hmonth]
  · rw [hdrift, Int.add_zero, show setFromEpochDays e.number = _ from he.setDayCount_eq, ite_self]

end

end Date

namespace DateTimeDuration

open Date DateTime

/-- One day is missing when the time `s` is before the time `t`. -/
def carry (s t : ℤ) : ℤ :=
  if s < t then 1 else 0

theorem carry_cases (s t : ℤ) : carry s t = 1 ∧ s < t ∨ carry s t = 0 ∧ t ≤ s := by
  unfold carry
  split_ifs <;> omega

/-- What a canonical duration between a date and a later one is made of. -/
structure IsForward (d : DateTimeDuration) (months days time : ℤ) : Prop where
  months_eq : 12 * d.year + d.month = months
  month_nonneg : 0 ≤ d.month
  month_lt : d.month < 12
  day_eq : d.day = days
  hour_nonneg : 0 ≤ d.hour
  hour_lt : d.hour < 24
  minute_nonneg : 0 ≤ d.minute
  minute_lt : d.minute < 60
  second_nonneg : 0 ≤ d.second
  second_lt : d.second < 60
  millisecond_nonneg : 0 ≤ d.millisecond
  millisecond_lt : d.millisecond < 1000
  time_eq : d.millisecondCount = time

/-- The opposite duration. -/
def neg (d : DateTimeDuration) : DateTimeDuration :=
  ⟨-d.year, -d.month, -d.day, -d.hour, -d.minute, -d.second, -d.millisecond⟩

/-- The duration to an earlier date. -/
def IsBackward (d : DateTimeDuration) (months days time : ℤ) : Prop :=
  d.neg.IsForward (-months) (-days) (-time)

section

variable {d : DateTimeDuration} {y m n t : ℤ}

theorem isForward_of_parts (hm : 0 ≤ m) (hm' : m < 12) (ht : 0 ≤ t) (ht' : t < 86400000) :
    IsForward
      { year := y
        month := m
        day := n
        hour := ((t.tdiv 1000).tdiv secondsInMinute).tdiv minutesInHour
        minute := ((t.tdiv 1000).tdiv secondsInMinute).tmod minutesInHour
        second := (t.tdiv 1000).tmod secondsInMinute
        millisecond := t.tmod 1000 } (12 * y + m) n t := by
  have hseconds : t.tdiv 1000 = t / 1000 := Int.tdiv_eq_ediv_of_nonneg ht
  have hminutes : (t / 1000).tdiv secondsInMinute = t / 1000 / 60 :=
    Int.tdiv_eq_ediv_of_nonneg (by omega)
  have hhours : (t / 1000 / 60).tdiv minutesInHour = t / 1000 / 60 / 60 :=
    Int.tdiv_eq_ediv_of_nonneg (by omega)
  have hmillisecond : t.tmod 1000 = t % 1000 := Int.tmod_eq_emod_of_nonneg ht
  have hsecond : (t / 1000).tmod secondsInMinute = t / 1000 % 60 :=
    Int.tmod_eq_emod_of_nonneg (by omega)
  have hminute : (t / 1000 / 60).tmod minutesInHour = t / 1000 / 60 % 60 :=
    Int.tmod_eq_emod_of_nonneg (by omega)
  rw [hseconds, hminutes, hhours, hmillisecond, hsecond, hminute]
  constructor <;> dsimp only [millisecondCount, minutesInHour, secondsInMinute] <;> omega

theorem neg_millisecondCount (d : DateTimeDuration) :
    d.neg.millisecondCount = -d.millisecondCount := by
  dsimp only [neg, millisecondCount, minutesInHour, secondsInMinute]
  omega

theorem isBackward_of_parts (hm : m ≤ 0) (hm' : -12 < m) (ht : 0 ≤ t) (ht' : t < 86400000) :
    IsBackward
      { year := y
        month := m
        day := n
        hour := -((t.tdiv 1000).tdiv secondsInMinute).tdiv minutesInHour
        minute := -((t.tdiv 1000).tdiv secondsInMinute).tmod minutesInHour
        second := -(t.tdiv 1000).tmod secondsInMinute
        millisecond := -t.tmod 1000 } (12 * y + m) n (-t) := by
  have h := isForward_of_parts (y := -y) (m := -m) (n := -n) (by omega) (by omega) ht ht'
  rw [show 12 * -y + -m = -(12 * y + m) by omega] at h
  unfold IsBackward neg
  simpa only [Int.neg_neg] using h

variable {a b : CivilDateTime}

theorem daysInPreviousMonth_ofCivil {c : CivilDate} (hc : IsRepresentable c.year) :
    (Date.ofCivil c).daysInPreviousMonth = some (lengthBefore c.year c.month) := by
  have hm := c.month_pos
  have hm' := c.month_le
  unfold daysInPreviousMonth lengthBefore
  rw [month_ofCivil hc, year_ofCivil hc]
  by_cases hfirst : c.month = 1
  · rw [hfirst, if_pos rfl]
    have hyear := daysInMonth_eq (y := c.year - 1) (show (1 : ℤ) ≤ 12 by decide) (Int.le_refl 12)
    simpa [monthsInYear] using hyear
  · rw [if_neg hfirst, if_neg (by omega)]
    exact daysInMonth_eq (by omega) (by omega)

/-- Months, in years and months of one sign. -/
theorem exists_years_forward {y m : ℤ} (hm : -13 < m) (hm' : m < 12) :
    ∃ z l, (if m < 0 then (y - 1, monthsInYear + m) else (y, m)) = (z, l) ∧
      12 * z + l = 12 * y + m ∧ 0 ≤ l ∧ l < 12 := by
  unfold monthsInYear
  split_ifs with hneg
  · exact ⟨_, _, rfl, by omega, by omega, by omega⟩
  · exact ⟨_, _, rfl, by omega, by omega, by omega⟩

theorem exists_years_backward {y m : ℤ} (hm : -12 < m) (hm' : m < 13) :
    ∃ z l, (if 0 < m then (y + 1, m - monthsInYear) else (y, m)) = (z, l) ∧
      12 * z + l = 12 * y + m ∧ l ≤ 0 ∧ -12 < l := by
  unfold monthsInYear
  split_ifs with hpos
  · exact ⟨_, _, rfl, by omega, by omega, by omega⟩
  · exact ⟨_, _, rfl, by omega, by omega, by omega⟩

/-- The months and the days to a later date. -/
def forwardMonths (a b : CivilDateTime) : ℤ :=
  b.monthNumber - a.monthNumber - carry (b.day - carry b.time a.time) a.day

def forwardDays (a b : CivilDateTime) : ℤ :=
  b.day - carry b.time a.time + if b.day - carry b.time a.time < a.day then
    lengthBefore b.year b.month - min a.day (lengthBefore b.year b.month) else -a.day

/-- The months and the days to an earlier date. -/
def backwardMonths (a b : CivilDateTime) : ℤ :=
  b.monthNumber - a.monthNumber + carry a.day (b.day + carry a.time b.time)

def backwardDays (a b : CivilDateTime) : ℤ :=
  b.day + carry a.time b.time - if a.day < b.day + carry a.time b.time then
    a.day + monthLength b.year b.month else min a.day (monthLength b.year b.month)

/-- The time of the day of the later date, with the day that the dates lend it. -/
theorem carry_time (a b : CivilDateTime) : 0 ≤ b.time - a.time + carry b.time a.time * 86400000 ∧
    b.time - a.time + carry b.time a.time * 86400000 < 86400000 := by
  have ha := a.time_nonneg
  have ha' := a.time_lt
  have hb := b.time_nonneg
  have hb' := b.time_lt
  rcases carry_cases b.time a.time with ⟨hcarry, hlt⟩ | ⟨hcarry, hle⟩ <;> omega

theorem fields_ofCivil (ha : IsRepresentable a.year) :
    (DateTime.ofCivil a).year = a.year ∧ (DateTime.ofCivil a).month = a.month ∧
      (DateTime.ofCivil a).day = a.day :=
  ⟨year_ofCivil ha, month_ofCivil ha, day_ofCivil ha⟩

/-- The duration to a later date. -/
theorem exists_forward (ha : IsRepresentable a.year) (hb : IsRepresentable b.year)
    (hless : (DateTime.ofCivil a).isLess (DateTime.ofCivil b) = true) :
    ∃ d, makeCanonicalFromDates (DateTime.ofCivil a) (DateTime.ofCivil b) = some d ∧
      d.IsForward (forwardMonths a b) (forwardDays a b)
        (b.time - a.time + carry b.time a.time * 86400000) := by
  have ham := a.month_pos
  have ham' := a.month_le
  have hbm := b.month_pos
  have hbm' := b.month_le
  obtain ⟨hyear, hmonth, hday⟩ := fields_ofCivil ha
  obtain ⟨hyear', hmonth', hday'⟩ := fields_ofCivil hb
  have hcount : (DateTime.ofCivil b).millisecondCount - (DateTime.ofCivil a).millisecondCount =
    b.time - a.time := rfl
  have hcarry : (if b.time - a.time < 0 then
        (b.day - a.day - 1, b.time - a.time + millisecondsInDay)
      else (b.day - a.day, b.time - a.time)) =
      (b.day - a.day - carry b.time a.time, b.time - a.time + carry b.time a.time * 86400000) := by
    rcases carry_cases b.time a.time with ⟨hone, hlt⟩ | ⟨hzero, hle⟩
    · rw [if_pos (by omega), hone]
      rfl
    · rw [if_neg (by omega), hzero]
      exact Prod.ext (by omega) (by omega)
  have hborrow : (if b.day - a.day - carry b.time a.time < 0 then do
        let dipm ← (DateTime.ofCivil b).daysInPreviousMonth
        some (b.month - a.month - 1, if dipm < a.day then
          b.day - a.day - carry b.time a.time + a.day
          else b.day - a.day - carry b.time a.time + dipm)
      else some (b.month - a.month, b.day - a.day - carry b.time a.time)) =
      some (b.month - a.month - carry (b.day - carry b.time a.time) a.day, forwardDays a b) := by
    have hprevious : (DateTime.ofCivil b).daysInPreviousMonth =
      some (lengthBefore b.year b.month) := daysInPreviousMonth_ofCivil hb
    unfold forwardDays
    rcases carry_cases (b.day - carry b.time a.time) a.day with ⟨hone, hlt⟩ | ⟨hzero, hle⟩
    · rw [if_pos (by omega), if_pos hlt, hprevious, hone, some_bind]
      refine congrArg some (Prod.ext rfl ?_)
      split_ifs <;> omega
    · rw [if_neg (by omega), if_neg (by omega), hzero]
      exact congrArg some (Prod.ext (by omega) (by omega))
  obtain ⟨z, l, hyears, hsum, hl, hl'⟩ := exists_years_forward (y := b.year - a.year)
    (m := b.month - a.month - carry (b.day - carry b.time a.time) a.day)
    (by rcases carry_cases (b.day - carry b.time a.time) a.day with ⟨h, -⟩ | ⟨h, -⟩ <;> omega)
    (by rcases carry_cases (b.day - carry b.time a.time) a.day with ⟨h, -⟩ | ⟨h, -⟩ <;> omega)
  have hparts := isForward_of_parts (y := z) (n := forwardDays a b) hl hl'
    (carry_time a b).1 (carry_time a b).2
  have hmonths : 12 * z + l = forwardMonths a b := by
    unfold forwardMonths CivilDate.monthNumber
    omega
  rw [hmonths] at hparts
  refine ⟨_, ?_, hparts⟩
  unfold makeCanonicalFromDates
  simp only [if_pos hless, hyear, hyear', hmonth, hmonth', hday, hday', hcount, hcarry, hborrow]
  simp only [some_bind, hyears]

/-- The duration to an earlier date. -/
theorem exists_backward (ha : IsRepresentable a.year) (hb : IsRepresentable b.year)
    (hless : (DateTime.ofCivil a).isLess (DateTime.ofCivil b) ≠ true) :
    ∃ d, makeCanonicalFromDates (DateTime.ofCivil a) (DateTime.ofCivil b) = some d ∧
      d.IsBackward (backwardMonths a b) (backwardDays a b)
        (b.time - a.time - carry a.time b.time * 86400000) := by
  have ham := a.month_pos
  have ham' := a.month_le
  have hbm := b.month_pos
  have hbm' := b.month_le
  obtain ⟨hyear, hmonth, hday⟩ := fields_ofCivil ha
  obtain ⟨hyear', hmonth', hday'⟩ := fields_ofCivil hb
  have hcount : (DateTime.ofCivil b).millisecondCount - (DateTime.ofCivil a).millisecondCount =
    b.time - a.time := rfl
  have hcurrent : (DateTime.ofCivil b).daysInCurrentMonth =
    some (monthLength b.year b.month) := daysInMonth_ofCivil hb
  have hcarry : (if 0 < b.time - a.time then
        (b.day - a.day + 1, b.time - a.time - millisecondsInDay)
      else (b.day - a.day, b.time - a.time)) =
      (b.day - a.day + carry a.time b.time, b.time - a.time - carry a.time b.time * 86400000) := by
    rcases carry_cases a.time b.time with ⟨hone, hlt⟩ | ⟨hzero, hle⟩
    · rw [if_pos (by omega), hone]
      rfl
    · rw [if_neg (by omega), hzero]
      exact Prod.ext (by omega) (by omega)
  have hborrow : (if 0 < b.day - a.day + carry a.time b.time then
        (b.month - a.month + 1, b.day - a.day + carry a.time b.time - monthLength b.year b.month)
      else if monthLength b.year b.month < a.day then
        (b.month - a.month,
          b.day - a.day + carry a.time b.time + a.day - monthLength b.year b.month)
      else (b.month - a.month, b.day - a.day + carry a.time b.time)) =
      (b.month - a.month + carry a.day (b.day + carry a.time b.time), backwardDays a b) := by
    unfold backwardDays
    rcases carry_cases a.day (b.day + carry a.time b.time) with ⟨hone, hlt⟩ | ⟨hzero, hle⟩
    · rw [if_pos (by omega), if_pos hlt, hone]
      exact Prod.ext rfl (by omega)
    · rw [if_neg (by omega), if_neg (Int.not_lt.mpr hle), hzero]
      split_ifs <;> exact Prod.ext (by omega) (by omega)
  obtain ⟨z, l, hyears, hsum, hl, hl'⟩ := exists_years_backward (y := b.year - a.year)
    (m := b.month - a.month + carry a.day (b.day + carry a.time b.time))
    (by rcases carry_cases a.day (b.day + carry a.time b.time) with ⟨h, -⟩ | ⟨h, -⟩ <;> omega)
    (by rcases carry_cases a.day (b.day + carry a.time b.time) with ⟨h, -⟩ | ⟨h, -⟩ <;> omega)
  have htime : b.time - a.time - carry a.time b.time * 86400000 =
      -(a.time - b.time + carry a.time b.time * 86400000) := by omega
  have hparts := isBackward_of_parts (y := z) (n := backwardDays a b) hl hl'
    (carry_time b a).1 (carry_time b a).2
  have hmonths : 12 * z + l = backwardMonths a b := by
    unfold backwardMonths CivilDate.monthNumber
    omega
  rw [hmonths, ← htime] at hparts
  refine ⟨_, ?_, hparts⟩
  unfold makeCanonicalFromDates
  simp only [if_neg hless, hyear, hyear', hmonth, hmonth', hday, hday', hcount, hcarry, hcurrent,
    some_bind, hborrow, hyears, htime, Int.neg_neg]

/-- The order of date-times. -/
def Before (a b : CivilDateTime) : Prop :=
  a.number < b.number ∨ a.number = b.number ∧ a.time < b.time

theorem isLess_iff_before (ha : IsRepresentable a.year) (hb : IsRepresentable b.year) :
    (DateTime.ofCivil a).isLess (DateTime.ofCivil b) = true ↔ Before a b := by
  have hdate : (DateTime.ofCivil a).toDate.isLess (DateTime.ofCivil b).toDate = true ↔
      a.number < b.number :=
    (Date.isLess_ofCivil ha hb).trans CivilDate.number_lt_iff.symm
  have hstorage : (DateTime.ofCivil a).storage = (DateTime.ofCivil b).storage ↔
      a.number = b.number := by
    constructor
    · intro h
      rw [Date.ofCivil_injective ha hb (congrArg Date.mk h)]
    · intro h
      show (Date.ofCivil a.toCivilDate).storage = (Date.ofCivil b.toCivilDate).storage
      rw [CivilDate.number_injective h]
  unfold DateTime.isLess Before
  rw [Bool.or_eq_true, decide_eq_true_eq, hdate, hstorage]
  rfl

/-- The sum with a duration, given the date that its years, months and days lead to. -/
theorem addDuration_of_reaches {c : CivilDate} {k : ℤ} (hc : IsRepresentable c.year)
    (hdate : (Date.ofCivil a.toCivilDate).addYearsMonthsDays d.year d.month d.day =
      some (Date.ofCivil c))
    (hcount : a.time + d.millisecondCount = b.time + k * 86400000) (hk : k < 0 → 0 < b.time)
    (hreach : Reaches c b.toCivilDate k) :
    (DateTime.ofCivil a).addDuration d = some (DateTime.ofCivil b) := by
  have hat := a.time_nonneg
  have hat' := a.time_lt
  have hbt := b.time_nonneg
  have hbt' := b.time_lt
  refine bind_of_some hdate ?_
  by_cases hms : d.millisecondCount = 0
  · have hzero : k = 0 := by omega
    have hsame : c = b.toCivilDate :=
      CivilDate.number_injective (by have := hreach.number_eq; omega)
    have htime : a.time = b.time := by omega
    show (if d.millisecondCount ≠ 0 then _ else _) = _
    rw [if_neg (by simp [hms]), hsame]
    exact congrArg (fun s => some (DateTime.mk _ s)) htime
  · have hreach' : Reaches c b.toCivilDate ((a.time + d.millisecondCount) / 86400000) := by
      rw [show (a.time + d.millisecondCount) / 86400000 = k by omega]
      exact hreach
    have hrun := setNormalizedTimeStorage_of_reaches
      (a := ⟨c, a.time, hat, hat'⟩) hc (by omega) hreach'
    show (if d.millisecondCount ≠ 0 then _ else _) = _
    rw [if_pos hms]
    unfold addMilliseconds addTime
    rw [if_pos hms]
    rw [show (a.time + d.millisecondCount) % 86400000 = b.time by omega] at hrun
    exact hrun

/-- The dates of the month of `b` and of the months next to it are converted. -/
def ConvertsAround (b : CivilDate) : Prop :=
  ∀ c : CivilDate, IsRepresentable c.year → b.monthNumber - 1 ≤ c.monthNumber →
    c.monthNumber ≤ b.monthNumber + 1 → Converts c

theorem isRepresentable_of_between {c e : CivilDate} {z l : ℤ} (hc : IsRepresentable c.year)
    (he : IsRepresentable e.year) (hl : 1 ≤ l) (hl' : l ≤ 12) (hcz : c.monthNumber ≤ 12 * z + l)
    (hze : 12 * z + l ≤ e.monthNumber) : IsRepresentable z := by
  have hcm := c.month_pos
  have hem := e.month_le
  unfold IsRepresentable at hc he ⊢
  unfold CivilDate.monthNumber at hcz hze
  omega

/-- There is no drift in the years around `b`. -/
theorem ConvertsAround.drift_eq {b : CivilDate} {z l : ℤ} (hconv : ConvertsAround b)
    (hz : IsRepresentable z) (hl : 1 ≤ l) (hl' : l ≤ 12) (h : b.monthNumber - 1 ≤ 12 * z + l)
    (h' : 12 * z + l ≤ b.monthNumber + 1) : drift z = 0 := by
  have hfirst : 1 ≤ monthLength z l := Int.le_trans (by decide) (monthLength_bounds z l).1
  exact (hconv ⟨z, l, 1, hl, hl', Int.le_refl 1, hfirst⟩ hz h h').drift_eq hz

/-- A date with a later day of the month is in an earlier month. -/
theorem monthNumber_lt_of_day {c e : CivilDate} {k : ℤ} (h : c.number + k ≤ e.number)
    (hk : 0 ≤ k) (hday : e.day < c.day + k) : c.monthNumber < e.monthNumber := by
  by_contra hlt
  have hle := CivilDate.monthNumber_le (c := c) (e := e) (by omega)
  have hcm := c.month_pos
  have hcm' := c.month_le
  have hem := e.month_pos
  have hem' := e.month_le
  unfold CivilDate.monthNumber at hlt hle
  have hdays := number_of_same_month (c := c) (e := e) (by omega) (by omega)
  omega

/-- A duration to a later date leads there. -/
theorem addDuration_forward (ha : IsRepresentable a.year) (hb : IsRepresentable b.year)
    (hconv : ConvertsAround b.toCivilDate) (hbefore : Before a b)
    (hd : d.IsForward (forwardMonths a b) (forwardDays a b)
      (b.time - a.time + carry b.time a.time * 86400000)) :
    (DateTime.ofCivil a).addDuration d = some (DateTime.ofCivil b) := by
  have hcarry := carry_cases b.time a.time
  have hab : a.number + carry b.time a.time ≤ b.number := by
    unfold Before at hbefore
    omega
  obtain ⟨c, hc⟩ := CivilDate.exists_number (b.number - carry b.time a.time)
  have hnear := CivilDate.monthNumber_near (c := c) (e := b.toCivilDate) (by omega) (by omega)
  have hcrep : IsRepresentable c.year := isRepresentable_of_between ha hb c.month_pos c.month_le
    (CivilDate.monthNumber_le (by omega)) (CivilDate.monthNumber_le (by omega))
  have hcc := hconv c hcrep hnear.1 hnear.2
  have hcb := hconv b.toCivilDate hb (by omega) (by omega)
  refine addDuration_of_reaches (k := carry b.time a.time) hcrep ?_ (by rw [hd.time_eq]; omega)
    (by omega) ⟨hb, by omega, Or.inr ⟨hcc, hcb⟩⟩
  have hmonths := hd.months_eq
  have hmonth_nonneg := hd.month_nonneg
  have hmonth_lt := hd.month_lt
  have hnumber : b.number = dayNumber b.year b.month b.day := rfl
  have hbday := b.day_le
  have hapos := a.day_pos
  have hbpos := b.day_pos
  have hblength := monthLength_bounds b.year b.month
  rw [hd.day_eq]
  unfold forwardMonths at hmonths
  unfold forwardDays
  rcases carry_cases (b.day - carry b.time a.time) a.day with ⟨hone, hlt⟩ | ⟨hzero, hle⟩
  · obtain ⟨z, l, hl, hl', hprevious⟩ := b.exists_previousMonth
    have hmonth := monthNumber_lt_of_day hab (by omega) (by omega)
    have hz : IsRepresentable z := isRepresentable_of_between ha hb hl hl' (by omega) (by omega)
    have hdrift := hconv.drift_eq hz hl hl' (by omega) (by omega)
    unfold CivilDate.monthNumber at hprevious hmonths
    have hnext := dayNumber_next_month (d := b.day) hl hl' b.month_pos b.month_le hprevious.symm
    have hadd := dayNumber_add z l (min a.day (monthLength z l))
      (b.day - min a.day (monthLength z l))
    rw [add_sub_cancel] at hadd
    have hzlength := monthLength_bounds z l
    rw [if_pos hlt, lengthBefore_eq b.month_pos b.month_le hl hl' hprevious]
    exact addYearsMonthsDays_eq ha ⟨hl, hl', by omega, by omega, hz, hcrep⟩ (by omega) (by omega)
      (Or.inr ⟨hdrift, hcc⟩)
  · have hadd := dayNumber_add b.year b.month a.day (b.day - a.day)
    rw [add_sub_cancel] at hadd
    unfold CivilDate.monthNumber at hmonths
    rw [if_neg (Int.not_lt.mpr hle)]
    refine addYearsMonthsDays_eq ha ⟨b.month_pos, b.month_le, by omega, ?_, hb, hcrep⟩ (by omega)
      (by omega) (Or.inr ⟨hcb.drift_eq hb, hcc⟩)
    rw [Int.min_eq_left (by omega)]
    omega

/-- By how many days a duration to an earlier date leads too far back: those that
the month after it does not have. -/
def overshoot (a b : CivilDateTime) : ℤ :=
  if a.day < b.day + carry a.time b.time then a.day - min a.day (lengthAfter b.year b.month) else 0

theorem overshoot_bounds (a b : CivilDateTime) :
    0 ≤ overshoot a b ∧ overshoot a b ≤ 3 ∧ overshoot a b < b.day := by
  have hcarry := carry_cases a.time b.time
  have hday := a.day_le
  have hlast := (monthLength_bounds a.year a.month).2
  have hpos := b.day_pos
  have hlength : 28 ≤ lengthAfter b.year b.month := by
    unfold lengthAfter
    split_ifs
    · exact (monthLength_bounds _ _).1
    · exact (monthLength_bounds _ _).1
  unfold overshoot
  split_ifs <;> omega

/-- Where a duration to an earlier date leads. -/
theorem addDuration_backward {f : CivilDateTime} (ha : IsRepresentable a.year)
    (hb : IsRepresentable b.year) (hconv : ConvertsAround b.toCivilDate) (hbefore : ¬Before a b)
    (hd : d.IsBackward (backwardMonths a b) (backwardDays a b)
      (b.time - a.time - carry a.time b.time * 86400000))
    (hf : f.number = b.number - overshoot a b) (hft : f.time = b.time) :
    IsRepresentable f.year ∧
      (DateTime.ofCivil a).addDuration d = some (DateTime.ofCivil f) := by
  have hcarry := carry_cases a.time b.time
  have hover := overshoot_bounds a b
  have hat := a.time_nonneg
  have hba : b.number + carry a.time b.time ≤ a.number := by
    unfold Before at hbefore
    omega
  have hfm : b.monthNumber ≤ f.monthNumber := by
    obtain ⟨first, hy, hm, -, hfirst⟩ := exists_day (c := b.toCivilDate) (Int.le_refl 1)
      (Int.le_trans b.day_pos b.day_le)
    have hle := CivilDate.monthNumber_le (c := first) (e := f.toCivilDate) (by omega)
    unfold CivilDate.monthNumber at hle ⊢
    rwa [hy, hm] at hle
  have hfa : f.monthNumber ≤ a.monthNumber := CivilDate.monthNumber_le (by omega)
  have hfrep : IsRepresentable f.year :=
    isRepresentable_of_between hb ha f.month_pos f.month_le hfm hfa
  have hfnear := CivilDate.monthNumber_near (c := f.toCivilDate) (e := b.toCivilDate)
    (by omega) (by omega)
  obtain ⟨c, hc⟩ := CivilDate.exists_number (f.number + carry a.time b.time)
  have hcnear := CivilDate.monthNumber_near (c := c) (e := b.toCivilDate) (by omega) (by omega)
  have hcm : f.monthNumber ≤ c.monthNumber := CivilDate.monthNumber_le (by omega)
  have hcrep : IsRepresentable c.year := isRepresentable_of_between hb ha c.month_pos c.month_le
    (Int.le_trans hfm hcm) (CivilDate.monthNumber_le (by omega))
  have hcc := hconv c hcrep hcnear.1 hcnear.2
  have hcf := hconv f.toCivilDate hfrep hfnear.1 hfnear.2
  have hcb := hconv b.toCivilDate hb (by omega) (by omega)
  have htime := hd.time_eq
  rw [neg_millisecondCount] at htime
  refine ⟨hfrep, addDuration_of_reaches (k := -carry a.time b.time) hcrep ?_ (by omega) (by omega)
    ⟨hfrep, by omega, Or.inr ⟨hcc, hcf⟩⟩⟩
  have hmonths : 12 * -d.year + -d.month = -backwardMonths a b := hd.months_eq
  have hmonth_nonneg : 0 ≤ -d.month := hd.month_nonneg
  have hmonth_lt : -d.month < 12 := hd.month_lt
  have hapos := a.day_pos
  have hbday := b.day_le
  have hblength := monthLength_bounds b.year b.month
  have hdays : -d.day = -backwardDays a b := hd.day_eq
  have hnumber : b.number = dayNumber b.year b.month b.day := rfl
  rw [show d.day = backwardDays a b by omega]
  unfold backwardMonths at hmonths
  unfold backwardDays
  unfold overshoot at hf
  rcases carry_cases a.day (b.day + carry a.time b.time) with ⟨hone, hlt⟩ | ⟨hzero, hle⟩
  · obtain ⟨z, l, hl, hl', hnextMonth⟩ := b.exists_nextMonth
    have hmonth := monthNumber_lt_of_day hba (by omega) hlt
    have hz : IsRepresentable z := isRepresentable_of_between hb ha hl hl' (by omega) (by omega)
    have hdrift := hconv.drift_eq hz hl hl' (by omega) (by omega)
    unfold CivilDate.monthNumber at hnextMonth hmonths
    have hnext := dayNumber_next_month (d := min a.day (monthLength z l)) b.month_pos b.month_le
      hl hl' hnextMonth
    have hadd := dayNumber_add b.year b.month (min a.day (monthLength z l))
      (b.day - min a.day (monthLength z l))
    rw [add_sub_cancel] at hadd
    rw [if_pos hlt, lengthAfter_eq b.month_pos b.month_le hl hl' hnextMonth] at hf
    rw [if_pos hlt]
    exact addYearsMonthsDays_eq ha ⟨hl, hl', by omega, by omega, hz, hcrep⟩ (by omega) (by omega)
      (Or.inr ⟨hdrift, hcc⟩)
  · have hadd := dayNumber_add b.year b.month (min a.day (monthLength b.year b.month))
      (b.day - min a.day (monthLength b.year b.month))
    rw [add_sub_cancel] at hadd
    unfold CivilDate.monthNumber at hmonths
    rw [if_neg (Int.not_lt.mpr hle)] at hf ⊢
    exact addYearsMonthsDays_eq ha ⟨b.month_pos, b.month_le, by omega, by omega, hb, hcrep⟩
      (by omega) (by omega) (Or.inr ⟨hcb.drift_eq hb, hcc⟩)

/-- Which durations to a later date are canonical. -/
theorem isCanonical_forward {months days time : ℤ} (hb : IsRepresentable b.year)
    (hadd : (DateTime.ofCivil a).addDuration d = some (DateTime.ofCivil b))
    (hless : (DateTime.ofCivil b).isLess (DateTime.ofCivil a) ≠ true)
    (hd : d.IsForward months days time) (hmonths : 0 ≤ months) (hdays : 0 ≤ days) :
    d.isCanonical (DateTime.ofCivil a) = some true ↔
      (b.day ≤ days → days < lengthBefore b.year b.month) ∧
        (days < b.day → days < monthLength b.year b.month) := by
  have hday : (DateTime.ofCivil b).day = b.day := day_ofCivil hb
  have hprevious : (DateTime.ofCivil b).daysInPreviousMonth =
    some (lengthBefore b.year b.month) := daysInPreviousMonth_ofCivil hb
  have hcurrent : (DateTime.ofCivil b).daysInCurrentMonth =
    some (monthLength b.year b.month) := daysInMonth_ofCivil hb
  have hyear : 0 ≤ d.year := by
    have hsum := hd.months_eq
    have hlt := hd.month_lt
    omega
  unfold isCanonical
  rw [hadd, some_bind, if_pos hless,
    if_pos ⟨hd.hour_nonneg, hd.hour_lt, hd.minute_nonneg, hd.minute_lt, hd.second_nonneg,
      hd.second_lt, hd.millisecond_nonneg, hd.millisecond_lt, hyear, hd.month_nonneg, hd.month_lt,
      hd.day_eq.symm ▸ hdays⟩, hday, hd.day_eq]
  by_cases hlong : b.day ≤ days
  · rw [if_pos hlong, hprevious, some_bind, Option.some_inj, decide_eq_true_eq]
    exact ⟨fun h => ⟨fun _ => h, fun h' => absurd hlong (Int.not_le.mpr h')⟩, fun h => h.1 hlong⟩
  · rw [if_neg hlong, hcurrent, some_bind, Option.some_inj, decide_eq_true_eq]
    exact ⟨fun h => ⟨fun h' => absurd h' hlong, fun _ => h⟩, fun h => h.2 (Int.not_le.mp hlong)⟩

/-- Which durations to an earlier date are canonical. -/
theorem isCanonical_backward {months days time : ℤ} (hb : IsRepresentable b.year)
    (hadd : (DateTime.ofCivil a).addDuration d = some (DateTime.ofCivil b))
    (hless : (DateTime.ofCivil b).isLess (DateTime.ofCivil a) = true)
    (hd : d.IsBackward months days time) (hmonths : months ≤ 0) :
    d.isCanonical (DateTime.ofCivil a) = some true ↔
      days ≤ 0 ∧ -monthLength b.year b.month < days := by
  have hcurrent : (DateTime.ofCivil b).daysInCurrentMonth =
    some (monthLength b.year b.month) := daysInMonth_ofCivil hb
  have hsum : 12 * -d.year + -d.month = -months := hd.months_eq
  have hday : -d.day = -days := hd.day_eq
  have h1 : 0 ≤ -d.month := hd.month_nonneg
  have h2 : -d.month < 12 := hd.month_lt
  have h3 : 0 ≤ -d.hour := hd.hour_nonneg
  have h4 : -d.hour < 24 := hd.hour_lt
  have h5 : 0 ≤ -d.minute := hd.minute_nonneg
  have h6 : -d.minute < 60 := hd.minute_lt
  have h7 : 0 ≤ -d.second := hd.second_nonneg
  have h8 : -d.second < 60 := hd.second_lt
  have h9 : 0 ≤ -d.millisecond := hd.millisecond_nonneg
  have h10 : -d.millisecond < 1000 := hd.millisecond_lt
  unfold isCanonical
  rw [hadd, some_bind, if_neg (fun h => h hless), hcurrent,
    some_bind, Option.some_inj, decide_eq_true_eq]
  unfold hoursInDay minutesInHour secondsInMinute monthsInYear
  omega

/-- A later day of the month is lost in the month after the earlier date: the sum
with the duration is another date. -/
def SkipsDays (a b : CivilDateTime) : Prop :=
  ¬Before a b ∧ lengthAfter b.year b.month < a.day ∧ a.day < b.day + carry a.time b.time

/-- The days of the duration to a later date are those of a whole month. -/
def FillsMonth (a b : CivilDateTime) : Prop :=
  Before a b ∧ a.time ≤ b.time ∧ lengthBefore b.year b.month ≤ b.day ∧ b.day < a.day

/-- The duration to an earlier date adds a day. -/
def AddsDay (a b : CivilDateTime) : Prop :=
  ¬Before a b ∧ a.time < b.time ∧ b.day = monthLength b.year b.month ∧ b.day < a.day

theorem isCanonical_of_before (ha : IsRepresentable a.year) (hb : IsRepresentable b.year)
    (hbefore : Before a b)
    (hd : d.IsForward (forwardMonths a b) (forwardDays a b)
      (b.time - a.time + carry b.time a.time * 86400000))
    (hadd : (DateTime.ofCivil a).addDuration d = some (DateTime.ofCivil b)) :
    d.isCanonical (DateTime.ofCivil a) = some true ↔ ¬FillsMonth a b := by
  have hbday := b.day_pos
  have hbday' := b.day_le
  have haday := a.day_pos
  have hcarry := carry_cases b.time a.time
  have hborrow := carry_cases (b.day - carry b.time a.time) a.day
  have hab : a.number + carry b.time a.time ≤ b.number := by
    unfold Before at hbefore
    omega
  have hmonths : 0 ≤ forwardMonths a b := by
    have hle : a.monthNumber ≤ b.monthNumber := CivilDate.monthNumber_le (by omega)
    unfold forwardMonths
    rcases hborrow with ⟨hone, hlt⟩ | ⟨hzero, -⟩
    · have hmonth := monthNumber_lt_of_day hab (by omega) (by omega)
      omega
    · omega
  have hless : (DateTime.ofCivil b).isLess (DateTime.ofCivil a) ≠ true := by
    rw [ne_eq, isLess_iff_before hb ha]
    unfold Before at hbefore ⊢
    omega
  have hfills : FillsMonth a b ↔
      carry b.time a.time = 0 ∧ lengthBefore b.year b.month ≤ b.day ∧ b.day < a.day := by
    unfold FillsMonth
    have htime : a.time ≤ b.time ↔ carry b.time a.time = 0 := by omega
    rw [htime]
    exact and_iff_right hbefore
  unfold forwardDays at hd
  rw [isCanonical_forward hb hadd hless hd hmonths (by split_ifs <;> omega), hfills]
  split_ifs <;> omega

/-- The duration zero has both directions. -/
theorem isForward_zero_of_isBackward (hd : d.IsBackward 0 0 0) : d.IsForward 0 0 0 := by
  have htime := hd.time_eq
  rw [neg_millisecondCount] at htime
  have hsum : 12 * -d.year + -d.month = -0 := hd.months_eq
  have hday : -d.day = -0 := hd.day_eq
  have h1 : 0 ≤ -d.month := hd.month_nonneg
  have h2 : -d.month < 12 := hd.month_lt
  have h3 : 0 ≤ -d.hour := hd.hour_nonneg
  have h4 : 0 ≤ -d.minute := hd.minute_nonneg
  have h5 : 0 ≤ -d.second := hd.second_nonneg
  have h6 : 0 ≤ -d.millisecond := hd.millisecond_nonneg
  unfold millisecondCount minutesInHour secondsInMinute at htime
  constructor <;> try unfold millisecondCount minutesInHour secondsInMinute
  all_goals omega

theorem isCanonical_of_not_before (ha : IsRepresentable a.year) (hb : IsRepresentable b.year)
    (hbefore : ¬Before a b)
    (hd : d.IsBackward (backwardMonths a b) (backwardDays a b)
      (b.time - a.time - carry a.time b.time * 86400000))
    (hadd : (DateTime.ofCivil a).addDuration d = some (DateTime.ofCivil b)) :
    d.isCanonical (DateTime.ofCivil a) = some true ↔ ¬AddsDay a b := by
  have hbday := b.day_pos
  have hbday' := b.day_le
  have haday := a.day_pos
  have hcarry := carry_cases a.time b.time
  have hborrow := carry_cases a.day (b.day + carry a.time b.time)
  have hba : b.number + carry a.time b.time ≤ a.number := by
    unfold Before at hbefore
    omega
  have hadds : AddsDay a b ↔
      carry a.time b.time = 1 ∧ b.day = monthLength b.year b.month ∧ b.day < a.day := by
    unfold AddsDay
    have htime : a.time < b.time ↔ carry a.time b.time = 1 := by omega
    rw [htime]
    exact and_iff_right hbefore
  by_cases hafter : Before b a
  · have hmonths : backwardMonths a b ≤ 0 := by
      have hle : b.monthNumber ≤ a.monthNumber := CivilDate.monthNumber_le (by omega)
      unfold backwardMonths
      rcases hborrow with ⟨hone, hlt⟩ | ⟨hzero, -⟩
      · have hmonth := monthNumber_lt_of_day hba (by omega) hlt
        omega
      · omega
    unfold backwardDays at hd
    rw [isCanonical_backward hb hadd ((isLess_iff_before hb ha).mpr hafter) hd hmonths, hadds]
    split_ifs <;> omega
  · -- the same date-time, with the duration zero
    have hsame : a.toCivilDate = b.toCivilDate :=
      CivilDate.number_injective (by unfold Before at hbefore hafter; omega)
    have htime : a.time = b.time := by
      unfold Before at hbefore hafter
      rw [hsame] at hbefore hafter
      omega
    obtain ⟨hdate, hlast⟩ : a.day = b.day ∧ a.monthNumber = b.monthNumber := by
      rw [hsame]
      exact ⟨rfl, rfl⟩
    have hcarry' : carry a.time b.time = 0 := by omega
    have hmonths : backwardMonths a b = 0 := by
      unfold backwardMonths
      omega
    have hdays : backwardDays a b = 0 := by
      unfold backwardDays
      rw [if_neg (by omega)]
      omega
    rw [hmonths, hdays, hcarry', show b.time - a.time - 0 * 86400000 = 0 by omega] at hd
    have hless : (DateTime.ofCivil b).isLess (DateTime.ofCivil a) ≠ true := fun h =>
      hafter ((isLess_iff_before hb ha).mp h)
    rw [isCanonical_forward hb hadd hless (isForward_zero_of_isBackward hd) (Int.le_refl 0)
      (Int.le_refl 0), hadds]
    omega

/-- When the sum with the canonical duration is the second date, and the duration
is canonical. -/
theorem canonicalDuration_iff (ha : IsRepresentable a.year) (hb : IsRepresentable b.year)
    (hconv : ConvertsAround b.toCivilDate) :
    (∃ d, makeCanonicalFromDates (DateTime.ofCivil a) (DateTime.ofCivil b) = some d ∧
        (DateTime.ofCivil a).addDuration d = some (DateTime.ofCivil b) ∧
        d.isCanonical (DateTime.ofCivil a) = some true) ↔
      ¬SkipsDays a b ∧ ¬FillsMonth a b ∧ ¬AddsDay a b := by
  by_cases hbefore : Before a b
  · obtain ⟨d, hmake, hd⟩ := exists_forward ha hb ((isLess_iff_before ha hb).mpr hbefore)
    have hadd := addDuration_forward ha hb hconv hbefore hd
    have hcanonical := isCanonical_of_before ha hb hbefore hd hadd
    constructor
    · rintro ⟨e, he, -, hcan⟩
      obtain rfl := Option.some.inj (hmake.symm.trans he)
      exact ⟨fun h => h.1 hbefore, hcanonical.mp hcan, fun h => h.1 hbefore⟩
    · rintro ⟨-, hfills, -⟩
      exact ⟨d, hmake, hadd, hcanonical.mpr hfills⟩
  · obtain ⟨d, hmake, hd⟩ :=
      exists_backward ha hb (fun h => hbefore ((isLess_iff_before ha hb).mp h))
    by_cases hskips : SkipsDays a b
    · refine iff_of_false ?_ fun h => h.1 hskips
      rintro ⟨e, he, hsum, -⟩
      obtain rfl := Option.some.inj (hmake.symm.trans he)
      obtain ⟨f, hf⟩ := CivilDate.exists_number (b.number - overshoot a b)
      obtain ⟨hfrep, hadd⟩ := addDuration_backward
        (f := ⟨f, b.time, b.time_nonneg, b.time_lt⟩) ha hb hconv hbefore hd hf rfl
      have heq : f = b.toCivilDate := Date.ofCivil_injective hfrep hb
        (congrArg DateTime.toDate (Option.some.inj (hadd.symm.trans hsum)))
      have hover : overshoot a b = a.day - lengthAfter b.year b.month := by
        unfold overshoot
        rw [if_pos hskips.2.2, Int.min_eq_right (Int.le_of_lt hskips.2.1)]
      have hlonger := hskips.2.1
      rw [heq] at hf
      omega
    · have hover : overshoot a b = 0 := by
        unfold overshoot
        split_ifs with hlt
        · have hle : a.day ≤ lengthAfter b.year b.month := by
            by_contra h
            exact hskips ⟨hbefore, Int.not_le.mp h, hlt⟩
          rw [Int.min_eq_left hle, Int.sub_self]
        · rfl
      have hadd := (addDuration_backward (f := b) ha hb hconv hbefore hd (by omega) rfl).2
      have hcanonical := isCanonical_of_not_before ha hb hbefore hd hadd
      constructor
      · rintro ⟨e, he, -, hcan⟩
        obtain rfl := Option.some.inj (hmake.symm.trans he)
        exact ⟨hskips, fun h => hbefore h.1, hcanonical.mp hcan⟩
      · rintro ⟨-, -, hadds⟩
        exact ⟨d, hmake, hadd, hcanonical.mpr hadds⟩

/-- Away from the common centuries every date is converted. -/
theorem convertsAround_of_year {c : CivilDate} (hpos : 1 < c.year) (hcommon : 1 < c.year % 100)
    (hcommon' : c.year % 100 < 98) : ConvertsAround c := by
  intro e he hlow hhigh
  have hcm := c.month_pos
  have hcm' := c.month_le
  have hem := e.month_pos
  have hem' := e.month_le
  unfold CivilDate.monthNumber at hlow hhigh
  refine (converts_iff he).mpr ⟨Or.inl (by omega), ?_⟩
  rintro (⟨⟨hcentury, -⟩, -⟩ | ⟨-, ⟨hcentury, -⟩, -⟩) <;> omega

theorem canonicalDuration_to_march :
    ∃ d, makeCanonicalFromDates
        (DateTime.ofCivil ⟨⟨2021, 1, 31, by decide, by decide, by decide, by decide⟩, 43200000,
          by decide, by decide⟩)
        (DateTime.ofCivil ⟨⟨2021, 3, 1, by decide, by decide, by decide, by decide⟩, 0,
          by decide, by decide⟩) = some d ∧
      (DateTime.ofCivil ⟨⟨2021, 1, 31, by decide, by decide, by decide, by decide⟩, 43200000,
        by decide, by decide⟩).addDuration d =
        some (DateTime.ofCivil ⟨⟨2021, 3, 1, by decide, by decide, by decide, by decide⟩, 0,
          by decide, by decide⟩) ∧
      d.isCanonical (DateTime.ofCivil ⟨⟨2021, 1, 31, by decide, by decide, by decide, by decide⟩,
        43200000, by decide, by decide⟩) = some true :=
  (canonicalDuration_iff (by decide) (by decide)
    (convertsAround_of_year (by decide) (by decide) (by decide))).mpr
    ⟨fun h => h.1 (Or.inl (by decide)), fun h => absurd h.2.1 (by decide),
      fun h => h.1 (Or.inl (by decide))⟩

/-- From the 30th of March back to the 31st of January: 30 days before the 28th of
February are not 30 days before the 30th. -/
theorem canonicalDuration_skips : ¬∀ a b : CivilDateTime, IsRepresentable a.year →
    IsRepresentable b.year → ConvertsAround b.toCivilDate →
    ∃ d, makeCanonicalFromDates (DateTime.ofCivil a) (DateTime.ofCivil b) = some d ∧
      (DateTime.ofCivil a).addDuration d = some (DateTime.ofCivil b) ∧
      d.isCanonical (DateTime.ofCivil a) = some true := by
  intro h
  obtain ⟨d, hd, hadd, -⟩ := h
    ⟨⟨2021, 3, 30, by decide, by decide, by decide, by decide⟩, 0, by decide, by decide⟩
    ⟨⟨2021, 1, 31, by decide, by decide, by decide, by decide⟩, 0, by decide, by decide⟩
    (by decide) (by decide) (convertsAround_of_year (by decide) (by decide) (by decide))
  have hsum := bind_of_some hd hadd
  exact absurd hsum (by decide +kernel)

end

end DateTimeDuration

end Gobo
