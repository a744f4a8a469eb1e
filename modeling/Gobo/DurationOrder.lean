/-
The canonical time part of a duration (`DT_DATE_TIME_DURATION`), and the order of durations: their
months, and their days and milliseconds taken together, are compared separately.
-/
import Gobo.CanonicalDuration
import Gobo.Integer32

namespace Gobo

open GregorianCalendar

namespace DateTimeDuration

/-- `millisecond_count` for any fields of 32 bits. -/
def millisecondCountCut (a : DateTimeDuration) : ℤ := int32 a.millisecondCount

/-- Days and milliseconds, with the whole days of the milliseconds moved to the days:
`same_date_time_duration` goes on with these. -/
def splitDays (day ms : ℤ) : ℤ × ℤ :=
  if ms < 0 then
    let ms := int32 (-ms)
    (int32 (day - ms.tdiv millisecondsInDay), -(ms.tmod millisecondsInDay))
  else (int32 (day + ms.tdiv millisecondsInDay), ms.tmod millisecondsInDay)

/-- Days and milliseconds of one sign, as in `set_time_canonical` and `is_less`. -/
def splitDaysCanonical (day ms : ℤ) : ℤ × ℤ :=
  let (d, r) := splitDays day ms
  if ms < 0 then
    if 0 < d ∧ r ≠ 0 then (d - 1, millisecondsInDay + r) else (d, r)
  else if d < 0 ∧ r ≠ 0 then (d + 1, r - millisecondsInDay)
  else (d, r)

/-- `make_precise_canonical_time_duration (ms)`. -/
def setCanonicalTime (a : DateTimeDuration) (ms : ℤ) : DateTimeDuration :=
  if ms < 0 then
    let fs := int32 (-ms)
    { a with
      millisecond := -fs.tmod 1000
      second := -(fs.tdiv 1000).tmod secondsInMinute
      minute := -((fs.tdiv 1000).tdiv secondsInMinute).tmod minutesInHour
      hour := -((fs.tdiv 1000).tdiv secondsInMinute).tdiv minutesInHour }
  else
    { a with
      millisecond := ms.tmod 1000
      second := (ms.tdiv 1000).tmod secondsInMinute
      minute := ((ms.tdiv 1000).tdiv secondsInMinute).tmod minutesInHour
      hour := ((ms.tdiv 1000).tdiv secondsInMinute).tdiv minutesInHour }

/-- `make_precise_canonical_definite (ms)`. -/
def makePreciseCanonicalDefinite (ms : ℤ) : DateTimeDuration :=
  let (d, mms) :=
    if ms < 0 then
      (-(int32 (-ms)).tdiv millisecondsInDay, -(int32 (-ms)).tmod millisecondsInDay)
    else (ms.tdiv millisecondsInDay, ms.tmod millisecondsInDay)
  setCanonicalTime ⟨0, 0, d, 0, 0, 0, 0⟩ mms

/-- `set_time_canonical`. -/
def setTimeCanonical (a : DateTimeDuration) : DateTimeDuration :=
  let (d, ms) := splitDaysCanonical a.day a.millisecondCountCut
  { makePreciseCanonicalDefinite ms with year := a.year, month := a.month, day := d }

/-- `is_time_canonical`. -/
def isTimeCanonical (a : DateTimeDuration) : Bool :=
  if a.millisecondCountCut = 0 then
    decide (a.hour = 0 ∧ a.minute = 0 ∧ a.second = 0 ∧ a.millisecond = 0)
  else if 0 < a.millisecondCountCut then
    decide (0 ≤ a.hour ∧ a.hour < hoursInDay ∧ 0 ≤ a.minute ∧ a.minute < minutesInHour ∧
      0 ≤ a.second ∧ a.second < secondsInMinute ∧ 0 ≤ a.millisecond ∧ a.millisecond < 1000 ∧
      0 ≤ a.day)
  else
    decide (a.hour ≤ 0 ∧ -hoursInDay < a.hour ∧ a.minute ≤ 0 ∧ -minutesInHour < a.minute ∧
      a.second ≤ 0 ∧ -secondsInMinute < a.second ∧ a.millisecond ≤ 0 ∧ -1000 < a.millisecond ∧
      a.day ≤ 0)

/-- The difference of the months of two durations, as `is_less` and `same_date_time_duration`
compute it. -/
def monthsCut (a b : DateTimeDuration) : ℤ :=
  int32 ((a.year - b.year) * monthsInYear + (a.month - b.month))

/-- `is_less (other)`. -/
def isLess (a b : DateTimeDuration) : Bool :=
  let m := monthsCut a b
  let ms := int32 (a.millisecondCountCut - b.millisecondCountCut)
  let (d, ms) := splitDaysCanonical (int32 (a.day - b.day)) ms
  if m = 0 then decide (d < 0 ∨ d = 0 ∧ ms < 0)
  else if m < 0 then decide (d < 0 ∨ d = 0 ∧ ms ≤ 0)
  else false

/-- `same_date_time_duration (other)`. -/
def sameDateTimeDuration (a b : DateTimeDuration) : Bool :=
  if monthsCut a b = 0 then
    let (d, ms) := splitDays (int32 (a.day - b.day))
      (int32 (a.millisecondCountCut - b.millisecondCountCut))
    decide (ms = 0 ∧ d = 0)
  else false

/-- The months of a duration. -/
def months (a : DateTimeDuration) : ℤ := 12 * a.year + a.month

/-- The days and the time of a duration, in milliseconds. -/
def total (a : DateTimeDuration) : ℤ := a.day * 86400000 + a.millisecondCount

/-- `set_time_canonical` leads to a canonical time part and to the same duration. -/
def KeepsTotals (a : DateTimeDuration) : Prop :=
  a.setTimeCanonical.isTimeCanonical = true ∧ a.setTimeCanonical.months = a.months ∧
    a.setTimeCanonical.total = a.total

/-- Durations are ordered by their months and by their days and time. -/
structure Precedes (a b : DateTimeDuration) : Prop where
  months_le : a.months ≤ b.months
  total_le : a.total ≤ b.total
  lt : a.months < b.months ∨ a.total < b.total

/-- The code compares two durations as they are ordered. -/
def IsCompared (a b : DateTimeDuration) : Prop := (a.isLess b = true ↔ a.Precedes b) ∧
    (a.sameDateTimeDuration b = true ↔ a.months = b.months ∧ a.total = b.total)

/-- The value of an `INTEGER`. -/
def Fits (x : ℤ) : Prop := -2147483648 ≤ x ∧ x < 2147483648

instance : DecidablePred Fits :=
  fun _ => inferInstanceAs (Decidable (_ ∧ _))

/-- Days, and the whole days of milliseconds that have an opposite, make no overflow. -/
structure SplitsExactly (day ms : ℤ) : Prop where
  ms_ne : ms ≠ -2147483648
  day_fits : Fits (day + ms.tdiv 86400000)

/-- The differences of two durations make no overflow. -/
structure HaveDifference (a b : DateTimeDuration) : Prop where
  months_fits : Fits (a.months - b.months)
  splits : SplitsExactly (a.day - b.day) (a.millisecondCount - b.millisecondCount)

section

variable {a b c : DateTimeDuration} {day ms d r : ℤ}

theorem int32_of_fits {x : ℤ} (h : Fits x) : int32 x = x := int32_of_mem h.1 h.2

/-- A value is cut by a multiple of 2^32. -/
theorem exists_int32 (x : ℤ) : ∃ k, int32 x = x + 4294967296 * k := by
  have hmod : int32 x % 4294967296 = x % 4294967296 := Int.bmod_emod
  exact ⟨(int32 x - x) / 4294967296, by omega⟩

theorem int32_int32_splitDays (day ms : ℤ) : splitDays (int32 day) ms = splitDays day ms := by
  simp only [splitDays, int32_int32_add, int32_int32_sub]

/-- The quotient and the remainder of milliseconds that have an opposite. -/
theorem splitDays_eq (day : ℤ) (hms : -2147483648 < ms) (hms' : ms < 2147483648) :
    splitDays day ms = (int32 (day + ms.tdiv 86400000), ms.tmod 86400000) := by
  unfold splitDays millisecondsInDay
  split_ifs with hneg
  · have hopposite : int32 (-ms) = -ms := int32_of_mem (by omega) (by omega)
    rw [hopposite]
    dsimp only
    rw [Int.neg_tdiv, Int.neg_tmod, Int.neg_neg, Int.sub_neg]
  · rfl

theorem tmod_cases (ms : ℤ) : -86400000 < ms.tmod 86400000 ∧ ms.tmod 86400000 < 86400000 ∧
    (ms < 0 → ms.tmod 86400000 ≤ 0) ∧ (0 ≤ ms → 0 ≤ ms.tmod 86400000) := by
  have hlt := Int.tmod_lt_of_pos ms (show (0 : ℤ) < 86400000 by decide)
  have hneg := Int.lt_tmod_of_pos ms (show (0 : ℤ) < 86400000 by decide)
  refine ⟨hneg, hlt, fun h => ?_, Int.tmod_nonneg _⟩
  have hopposite := Int.tmod_nonneg 86400000 (show 0 ≤ -ms by omega)
  rw [Int.neg_tmod] at hopposite
  omega

/-- Days and milliseconds of one sign, less than a day of them. -/
structure IsSplit (d r : ℤ) : Prop where
  neg_lt : -86400000 < r
  lt : r < 86400000
  sign : 0 ≤ d ∧ 0 ≤ r ∨ d ≤ 0 ∧ r ≤ 0

namespace IsSplit

theorem neg_iff (h : IsSplit d r) : d < 0 ∨ d = 0 ∧ r < 0 ↔ d * 86400000 + r < 0 := by
  obtain ⟨hlow, hhigh, hsign⟩ := h
  omega

theorem nonpos_iff (h : IsSplit d r) : d < 0 ∨ d = 0 ∧ r ≤ 0 ↔ d * 86400000 + r ≤ 0 := by
  obtain ⟨hlow, hhigh, hsign⟩ := h
  omega

end IsSplit

/-- The days and milliseconds of one sign make the same total as the days and milliseconds they come
from. -/
theorem exists_splitDaysCanonical (day : ℤ) (hms : -2147483648 < ms) (hms' : ms < 2147483648) :
    ∃ d r, splitDaysCanonical day ms = (d, r) ∧ IsSplit d r ∧ d * 86400000 + r =
      int32 (day + ms.tdiv 86400000) * 86400000 + ms.tmod 86400000 := by
  obtain ⟨hlow, hhigh, hneg, hnonneg⟩ := tmod_cases ms
  rw [splitDaysCanonical, splitDays_eq day hms hms', millisecondsInDay]
  generalize int32 (day + ms.tdiv 86400000) = d at *
  generalize ms.tmod 86400000 = r at *
  dsimp only
  split_ifs with hsign hopposite hopposite
  · exact ⟨_, _, rfl, ⟨by omega, by omega, by omega⟩, by omega⟩
  · exact ⟨_, _, rfl, ⟨by omega, by omega, by omega⟩, by omega⟩
  · exact ⟨_, _, rfl, ⟨by omega, by omega, by omega⟩, by omega⟩
  · exact ⟨_, _, rfl, ⟨by omega, by omega, by omega⟩, by omega⟩

/-- Without overflow, the total is that of the days and milliseconds given. -/
theorem SplitsExactly.total_eq (h : SplitsExactly day ms) :
    int32 (day + ms.tdiv 86400000) * 86400000 + ms.tmod 86400000 = day * 86400000 + ms := by
  have hdiv := Int.tmod_add_mul_tdiv ms 86400000
  rw [int32_of_fits h.day_fits]
  omega

/-- The time part of milliseconds of less than a day: its fields are in their ranges, and have the
sign of the milliseconds. -/
structure HasTime (a : DateTimeDuration) (ms : ℤ) : Prop where
  count_eq : a.millisecondCount = ms
  nonneg : 0 ≤ ms → 0 ≤ a.hour ∧ a.hour < 24 ∧ 0 ≤ a.minute ∧ a.minute < 60 ∧ 0 ≤ a.second ∧
    a.second < 60 ∧ 0 ≤ a.millisecond ∧ a.millisecond < 1000
  nonpos : ms ≤ 0 → a.hour ≤ 0 ∧ -24 < a.hour ∧ a.minute ≤ 0 ∧ -60 < a.minute ∧ a.second ≤ 0 ∧
    -60 < a.second ∧ a.millisecond ≤ 0 ∧ -1000 < a.millisecond

theorem IsForward.hasTime {m n : ℤ} (h : a.IsForward m n ms) : HasTime a ms := by
  obtain ⟨-, -, -, -, hh, hh', hmi, hmi', hs, hs', hml, hml', hcount⟩ := h
  refine ⟨hcount, fun _ => ⟨hh, hh', hmi, hmi', hs, hs', hml, hml'⟩, fun hle => ?_⟩
  unfold millisecondCount minutesInHour secondsInMinute at hcount
  omega

theorem HasTime.of_neg (h : HasTime a.neg (-ms)) : HasTime a ms := by
  obtain ⟨hcount, hnonneg, hnonpos⟩ := h
  rw [neg_millisecondCount] at hcount
  dsimp only [neg] at hnonneg hnonpos
  exact ⟨Int.neg_inj.mp hcount, by omega, by omega⟩

/-- The time part does not depend on the date part. -/
theorem HasTime.with_date (h : HasTime a ms) (y m d : ℤ) :
    HasTime { a with year := y, month := m, day := d } ms :=
  ⟨h.count_eq, h.nonneg, h.nonpos⟩

theorem hasTime_setCanonicalTime (a : DateTimeDuration) (hms : -86400000 < ms)
    (hms' : ms < 86400000) : HasTime (a.setCanonicalTime ms) ms := by
  unfold setCanonicalTime
  by_cases hneg : ms < 0
  · have hopposite : int32 (-ms) = -ms := int32_of_mem (by omega) (by omega)
    have hparts := isBackward_of_parts (y := 0) (m := 0) (n := 0) (t := -ms) (by decide) (by decide)
      (by omega) (by omega)
    rw [if_pos hneg, hopposite]
    rw [Int.neg_neg] at hparts
    exact (HasTime.of_neg hparts.hasTime).with_date _ _ _
  · have hparts := isForward_of_parts (y := 0) (m := 0) (n := 0) (t := ms) (by decide) (by decide)
      (by omega) (by omega)
    rw [if_neg hneg]
    exact hparts.hasTime.with_date _ _ _

/-- `make_precise_canonical_definite` leaves less than a day in the time part. -/
theorem hasTime_makePreciseCanonicalDefinite (hms : -2147483648 < ms) (hms' : ms < 2147483648) :
    HasTime (makePreciseCanonicalDefinite ms) (ms.tmod 86400000) := by
  obtain ⟨hlow, hhigh, -⟩ := tmod_cases ms
  unfold makePreciseCanonicalDefinite millisecondsInDay
  split_ifs with hneg
  · have hopposite : int32 (-ms) = -ms := int32_of_mem (by omega) (by omega)
    rw [hopposite, Int.neg_tmod, Int.neg_neg]
    exact hasTime_setCanonicalTime _ hlow hhigh
  · exact hasTime_setCanonicalTime _ hlow hhigh

theorem isTimeCanonical_of_hasTime (h : HasTime a r) (hsplit : IsSplit a.day r) :
    a.isTimeCanonical = true := by
  obtain ⟨hlow, hhigh, hsign⟩ := hsplit
  have hnonneg := h.nonneg
  have hnonpos := h.nonpos
  have hcount : a.millisecondCountCut = r := by
    rw [millisecondCountCut, h.count_eq]
    exact int32_of_mem (by omega) (by omega)
  unfold isTimeCanonical hoursInDay minutesInHour secondsInMinute
  rw [hcount]
  split_ifs with hzero hpos
  · exact decide_eq_true (by omega)
  · exact decide_eq_true (by omega)
  · exact decide_eq_true (by omega)

/-- `set_time_canonical` leads to the duration of the days and the milliseconds of one sign. -/
theorem setTimeCanonical_of_split (hcut : splitDaysCanonical a.day a.millisecondCountCut = (d, r))
    (hlow : -2147483648 < r) (hhigh : r < 2147483648) :
    HasTime a.setTimeCanonical (r.tmod 86400000) ∧ a.setTimeCanonical.day = d ∧
      a.setTimeCanonical.months = a.months := by
  rw [setTimeCanonical, hcut]
  exact ⟨(hasTime_makePreciseCanonicalDefinite hlow hhigh).with_date _ _ _, rfl, rfl⟩

/-- Milliseconds without an opposite are added, instead of taken away. -/
theorem splitDaysCanonical_least (day : ℤ) : ∃ d r, splitDaysCanonical day (-2147483648) = (d, r) ∧
    -2147483648 < r ∧ r < 2147483648 ∧ r.tmod 86400000 = 73883648 ∧ d ≤ int32 (day + 24) ∧
    int32 (day + 24) ≤ d + 1 := by
  have hcut : splitDays day (-2147483648) = (int32 (day + 24), 73883648) := rfl
  rw [splitDaysCanonical, hcut, millisecondsInDay]
  dsimp only
  split_ifs with hneg hsign
  · exact ⟨_, _, rfl, by decide, by decide, by decide, by omega, by omega⟩
  · exact ⟨_, _, rfl, by decide, by decide, by decide, by omega, by omega⟩
  · omega
  · omega

theorem keepsTotals_iff (hfits : Fits a.millisecondCount) :
    KeepsTotals a ↔ SplitsExactly a.day a.millisecondCount := by
  have hcount : a.millisecondCountCut = a.millisecondCount := int32_of_fits hfits
  obtain ⟨hlow, hhigh⟩ := hfits
  by_cases hleast : a.millisecondCount = -2147483648
  · refine iff_of_false ?_ fun h => h.ms_ne hleast
    rintro ⟨-, -, htotal⟩
    obtain ⟨d, r, hcut, hr, hr', hrest, hday, hday'⟩ := splitDaysCanonical_least a.day
    obtain ⟨k, hk⟩ := exists_int32 (a.day + 24)
    rw [← hleast, ← hcount] at hcut
    obtain ⟨htime, hd, -⟩ := setTimeCanonical_of_split hcut hr hr'
    rw [total, total, htime.count_eq, hd, hrest, hleast] at htotal
    omega
  · obtain ⟨d, r, hcut, hsplit, htotal⟩ :=
      exists_splitDaysCanonical a.day (show -2147483648 < a.millisecondCount by omega) hhigh
    have hrest : r.tmod 86400000 = r := by
      obtain ⟨hr, hr', -⟩ := hsplit
      rcases Int.lt_or_le r 0 with hneg | hnonneg
      · rw [← Int.neg_neg r, Int.neg_tmod, Int.tmod_eq_of_lt (by omega) (by omega)]
      · exact Int.tmod_eq_of_lt hnonneg hr'
    rw [← hcount] at hcut
    obtain ⟨htime, hd, hmonths⟩ := setTimeCanonical_of_split hcut
      (by have := hsplit.neg_lt; omega) (by have := hsplit.lt; omega)
    rw [hrest] at htime
    have hsame : a.setTimeCanonical.total =
        int32 (a.day + a.millisecondCount.tdiv 86400000) * 86400000 +
          a.millisecondCount.tmod 86400000 := by
      rw [total, htime.count_eq, hd, htotal]
    constructor
    · rintro ⟨-, -, hkept⟩
      refine ⟨hleast, ?_⟩
      have hdiv := Int.tmod_add_mul_tdiv a.millisecondCount 86400000
      have hbounds := int32_mem (a.day + a.millisecondCount.tdiv 86400000)
      rw [hsame, total] at hkept
      unfold Fits
      omega
    · intro hfit
      refine ⟨isTimeCanonical_of_hasTime htime (hd.symm ▸ hsplit), hmonths, ?_⟩
      rw [hsame, hfit.total_eq, total]

theorem monthsCut_eq (a b : DateTimeDuration) : monthsCut a b = int32 (a.months - b.months) := by
  unfold monthsCut months monthsInYear
  exact congrArg int32 (by omega)

theorem int32_countCut (a b : DateTimeDuration) :
    int32 (a.millisecondCountCut - b.millisecondCountCut) =
      int32 (a.millisecondCount - b.millisecondCount) := by
  rw [millisecondCountCut, millisecondCountCut, int32_int32_sub]
  exact Int.sub_bmod_bmod

theorem splitDaysCanonical_int32 (day ms : ℤ) :
    splitDaysCanonical (int32 day) ms = splitDaysCanonical day ms := by
  rw [splitDaysCanonical, splitDaysCanonical, int32_int32_splitDays]

/-- `is_less`, by the differences of the months and of the days and milliseconds. -/
theorem isLess_eq (a b : DateTimeDuration) (hsplit : splitDaysCanonical (a.day - b.day)
    (int32 (a.millisecondCount - b.millisecondCount)) = (d, r)) :
    a.isLess b = true ↔ int32 (a.months - b.months) = 0 ∧ (d < 0 ∨ d = 0 ∧ r < 0) ∨
      int32 (a.months - b.months) < 0 ∧ (d < 0 ∨ d = 0 ∧ r ≤ 0) := by
  dsimp only [isLess]
  rw [monthsCut_eq, int32_countCut, splitDaysCanonical_int32, hsplit]
  split_ifs with hzero hneg
  · rw [decide_eq_true_iff]
    omega
  · rw [decide_eq_true_iff]
    omega
  · exact iff_of_false (by decide) (by omega)

theorem sameDateTimeDuration_eq (a b : DateTimeDuration) (hsplit : splitDays (a.day - b.day)
    (int32 (a.millisecondCount - b.millisecondCount)) = (d, r)) :
    a.sameDateTimeDuration b = true ↔ int32 (a.months - b.months) = 0 ∧ r = 0 ∧ d = 0 := by
  dsimp only [sameDateTimeDuration]
  rw [monthsCut_eq, int32_countCut, int32_int32_splitDays, hsplit]
  split_ifs with hzero
  · rw [decide_eq_true_iff]
    exact (and_iff_right hzero).symm
  · exact iff_of_false (by decide) fun h => hzero h.1

/-- Without overflow, durations are compared as they are ordered. -/
theorem isCompared (hms : Fits (a.millisecondCount - b.millisecondCount))
    (h : HaveDifference a b) : IsCompared a b := by
  have hleast := h.splits.ms_ne
  have hcut := int32_of_fits hms
  have htotal := h.splits.total_eq
  have hmonths := int32_of_fits h.months_fits
  obtain ⟨hlow, hhigh⟩ := hms
  have hlow' : -2147483648 < a.millisecondCount - b.millisecondCount := by omega
  obtain ⟨d, r, hsplit, hsign, hsum⟩ := exists_splitDaysCanonical (a.day - b.day) hlow' hhigh
  have hdifference : a.total - b.total = d * 86400000 + r := by
    rw [hsum, htotal, total, total]
    omega
  rw [← hcut] at hsplit
  constructor
  · rw [isLess_eq a b hsplit, hsign.neg_iff, hsign.nonpos_iff, hmonths, ← hdifference]
    constructor
    · intro hless
      exact ⟨by omega, by omega, by omega⟩
    · rintro ⟨hm, ht, hlt⟩
      omega
  · have hrest := splitDays_eq (a.day - b.day) hlow' hhigh
    obtain ⟨hr, hr', -⟩ := tmod_cases (a.millisecondCount - b.millisecondCount)
    rw [hsum] at hdifference
    rw [← hcut] at hrest
    rw [sameDateTimeDuration_eq a b hrest, hmonths, hcut]
    omega

theorem isLess_self (a : DateTimeDuration) : a.isLess a = false := by
  have hsplit : splitDaysCanonical (a.day - a.day)
      (int32 (a.millisecondCount - a.millisecondCount)) = (0, 0) := by
    rw [Int.sub_self, Int.sub_self]
    rfl
  rw [Bool.eq_false_iff]
  intro hless
  rw [isLess_eq a a hsplit] at hless
  rw [Int.sub_self] at hless
  exact absurd hless (by decide)

theorem Precedes.trans (hab : a.Precedes b) (hbc : b.Precedes c) : a.Precedes c := by
  obtain ⟨h1, h2, h3⟩ := hab
  obtain ⟨h4, h5, h6⟩ := hbc
  exact ⟨by omega, by omega, by omega⟩

/-- `is_less` is transitive where the differences make no overflow. -/
theorem isLess_trans (hab : IsCompared a b) (hbc : IsCompared b c) (hac : IsCompared a c)
    (h : a.isLess b = true) (h' : b.isLess c = true) : a.isLess c = true :=
  hac.1.mpr ((hab.1.mp h).trans (hbc.1.mp h'))

/-- What `set_time_canonical` and the comparisons keep, as far as the differences they take make no
overflow. -/
theorem canonical_and_ordered (a b c : DateTimeDuration) :
    (Fits a.millisecondCount → (KeepsTotals a ↔ SplitsExactly a.day a.millisecondCount)) ∧
    a.isLess a = false ∧
    (Fits (a.millisecondCount - b.millisecondCount) → HaveDifference a b → IsCompared a b) ∧
    (Fits (a.millisecondCount - b.millisecondCount) →
      Fits (b.millisecondCount - c.millisecondCount) →
      Fits (a.millisecondCount - c.millisecondCount) →
      HaveDifference a b → HaveDifference b c → HaveDifference a c →
      a.isLess b = true → b.isLess c = true → a.isLess c = true) := by
  refine ⟨keepsTotals_iff, isLess_self a, isCompared, ?_⟩
  intro hab hbc hac hab' hbc' hac'
  exact isLess_trans (isCompared hab hab') (isCompared hbc hbc') (isCompared hac hac')

/-- A day less two hours is canonical, and it is between two hours and one month. -/
theorem canonical_and_ordered_hours :
    (KeepsTotals ⟨0, 0, 0, 2, 0, 0, 0⟩ ↔ SplitsExactly 0 7200000) ∧
      IsCompared ⟨0, 0, 0, 2, 0, 0, 0⟩ ⟨0, 0, 1, -2, 0, 0, 0⟩ ∧
      (isLess ⟨0, 0, 0, 2, 0, 0, 0⟩ ⟨0, 1, 1, -2, 0, 0, 0⟩ = true) := by
  obtain ⟨hkeeps, -, hcompared, htrans⟩ := canonical_and_ordered ⟨0, 0, 0, 2, 0, 0, 0⟩
    ⟨0, 0, 1, -2, 0, 0, 0⟩ ⟨0, 1, 1, -2, 0, 0, 0⟩
  refine ⟨hkeeps (by decide), hcompared (by decide) ⟨by decide, ⟨by decide, by decide⟩⟩, ?_⟩
  exact htrans (by decide) (by decide) (by decide) ⟨by decide, ⟨by decide, by decide⟩⟩
    ⟨by decide, ⟨by decide, by decide⟩⟩ ⟨by decide, ⟨by decide, by decide⟩⟩ (by decide) (by decide)

/-- The time of -2^31 milliseconds has no opposite. -/
theorem not_keepsTotals_least : Fits (millisecondCount ⟨0, 0, 0, -596, -31, -23, -648⟩) ∧
    ¬KeepsTotals ⟨0, 0, 0, -596, -31, -23, -648⟩ :=
  ⟨by decide, fun h => absurd h.2.2 (by decide)⟩

end

end DateTimeDuration

end Gobo
