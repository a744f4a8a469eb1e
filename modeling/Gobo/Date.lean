/-
Dates packed in one integer of 32 bits (`DT_DATE`), and the calendar constants
and conversions they use (`KL_GREGORIAN_CALENDAR`).
-/
import Gobo.CivilCalendar
import Gobo.Integer32
import Gobo.Loop
import Mathlib.Tactic.Ring

namespace Gobo

namespace GregorianCalendar

/-- `y \\ n` takes the sign of `y`. -/
def leapYear (y : ℤ) : Bool := y.tmod 4 = 0 ∧ (y.tmod 100 ≠ 0 ∨ y.tmod 400 = 0)

def monthsInYear : ℤ := 12

def millisecondsInDay : ℤ := 86400000

def hoursInDay : ℤ := 24

def minutesInHour : ℤ := 60

def secondsInMinute : ℤ := 60

def daysInYear : ℤ := 365

def daysInLeapYear : ℤ := 366

def daysIn400Years : ℤ := 146097

def daysIn100Years : ℤ := 36524

def daysIn4Years : ℤ := 1461

def daysIn3Years : ℤ := 1095

def daysIn3LeapYears : ℤ := 1096

def daysIn2Years : ℤ := 730

def daysIn2LeapYears : ℤ := 731

/-- `days_in_month`, which has no branch for other months than 1 to 12. -/
def daysInMonth (m y : ℤ) : Option ℤ :=
  if m = 1 ∨ m = 3 ∨ m = 5 ∨ m = 7 ∨ m = 8 ∨ m = 10 ∨ m = 12 then some 31
  else if m = 4 ∨ m = 6 ∨ m = 9 ∨ m = 11 then some 30
  else if m = 2 then some (if leapYear y then 29 else 28)
  else none

/-- `days_at_month`, called for the months 1 to 12 only. -/
def daysAtMonth (m y : ℤ) : ℤ := (match m with
    | 1 => 0
    | 2 => 31
    | 3 => 59
    | 4 => 90
    | 5 => 120
    | 6 => 151
    | 7 => 181
    | 8 => 212
    | 9 => 243
    | 10 => 273
    | 11 => 304
    | 12 => 334
    | _ => 0) + if 2 < m ∧ leapYear y then 1 else 0

def epochYear : ℤ := 1970

def epochMonth : ℤ := 1

def epochDay : ℤ := 1

def epochLeapYears : ℤ :=
  (epochYear - 1).tdiv 4 - (epochYear - 1).tdiv 100 + (epochYear - 1).tdiv 400

def epochDaysAtMonth : ℤ := daysAtMonth epochMonth epochYear

/-- `epoch_days`; its divisions round towards zero. -/
def epochDays (y m d : ℤ) : ℤ := int32 ((y - epochYear) * daysInYear +
    ((int32 (y - 1)).tdiv 4 - (int32 (y - 1)).tdiv 100 + (int32 (y - 1)).tdiv 400 -
      epochLeapYears) +
    (daysAtMonth m y - epochDaysAtMonth) + (d - epochDay))

def epochToY2KDays : ℤ := epochDays 2000 1 1

end GregorianCalendar

open GregorianCalendar

structure Date where
  storage : BitVec 32
deriving DecidableEq, Repr

namespace Date

def dayMask : BitVec 32 := 0x1F

def monthMask : BitVec 32 := 0x1E0

def yearMask : BitVec 32 := 0xFFFFFE00

variable (t : Date)

def year : ℤ :=
  if t.storage.slt 0 then (-(-(t.storage &&& yearMask)).sshiftRight 9).toInt
  else ((t.storage &&& yearMask).sshiftRight 9).toInt

def month : ℤ := ((t.storage &&& monthMask).sshiftRight 5).toInt

def day : ℤ := (t.storage &&& dayMask).toInt

def dayCount : ℤ := epochDays t.year t.month t.day

def daysInCurrentMonth : Option ℤ := daysInMonth t.month t.year

def daysInPreviousMonth : Option ℤ :=
  let mm := t.month - 1
  if mm ≤ 0 then
    daysInMonth (12 - (-mm).tmod monthsInYear) (t.year - (-mm).tdiv monthsInYear - 1)
  else daysInMonth mm t.year

/-- `set_year_month_day (y, m, d)`, it does not depend on the date before. -/
def ofYearMonthDay (y m d : ℤ) : Date :=
  if y < 0 then
    ⟨-((-BitVec.ofInt 32 y) <<< 9) ||| (BitVec.ofInt 32 m <<< 5) ||| BitVec.ofInt 32 d⟩
  else ⟨(BitVec.ofInt 32 y <<< 9) ||| (BitVec.ofInt 32 m <<< 5) ||| BitVec.ofInt 32 d⟩

def setDay (d : ℤ) : Date :=
  ⟨BitVec.ofInt 32 d ||| (t.storage &&& (yearMask ||| monthMask))⟩

/-- The search for the month of the day `dd` of the year `yy`. -/
def monthLoop (yy : ℤ) : ℕ → ℤ → ℤ → Option Date
  | 0, _, _ => none
  | fuel + 1, mm, dd => do
      let dim ← daysInMonth mm yy
      if dd ≤ dim then some (ofYearMonthDay yy mm dd)
      else monthLoop yy fuel (mm + 1) (dd - dim)

/-- Years and days left in the years before or after 2000, for a number of days
that is not negative. -/
def splitCenturies (dd : ℤ) : ℤ × ℤ :=
  let yy := dd.tdiv daysIn400Years * 400
  let dd := dd.tmod daysIn400Years
  let yy100 := dd.tdiv daysIn100Years
  let (yy, dd) :=
    if yy100 = 4 then (yy + 300, dd - 3 * daysIn100Years)
    else (yy + yy100 * 100, dd.tmod daysIn100Years)
  (yy + dd.tdiv daysIn4Years * 4, dd.tmod daysIn4Years)

/-- `set_from_epoch_days (d)`.  A month after December has no days: the fuel of
the loop is never used up. -/
def setFromEpochDays (d : ℤ) : Option Date :=
  let dd := d - epochToY2KDays
  if dd < 0 then
    let (yy, dd) := splitCenturies (-dd)
    let (yy, dd) :=
      if daysIn3Years < dd then (yy + 4, daysIn4Years - dd)
      else if daysIn2Years < dd then (yy + 3, daysIn3Years - dd)
      else if daysInYear < dd then (yy + 2, daysIn2Years - dd)
      else if 0 < dd then (yy + 1, daysInYear - dd)
      else (yy, dd)
    monthLoop (2000 - yy) 13 1 (dd + 1)
  else
    let (yy, dd) := splitCenturies dd
    let (yy, dd) :=
      if daysIn3LeapYears ≤ dd then (yy + 3, dd - daysIn3LeapYears)
      else if daysIn2LeapYears ≤ dd then (yy + 2, dd - daysIn2LeapYears)
      else if daysInLeapYear ≤ dd then (yy + 1, dd - daysInLeapYear)
      else (yy, dd)
    monthLoop (yy + 2000) 13 1 (dd + 1)

def setDayCount (d : ℤ) : Option Date := setFromEpochDays d

/-- The year and the month `m` months after the month `mm` of the year `yy`, which
`add_years_months_days` and `add_months` compute alike. -/
def monthAfter (yy mm m : ℤ) : ℤ × ℤ :=
  if m ≠ 0 then
    let mm := int32 (mm + m)
    if mm ≤ 0 then
      (int32 (yy - (int32 (-mm)).tdiv monthsInYear - 1), 12 - (int32 (-mm)).tmod monthsInYear)
    else (int32 (yy + (mm - 1).tdiv monthsInYear), 1 + (mm - 1).tmod monthsInYear)
  else (yy, mm)

/-- The code of `add_years_months_days (y, m, d)`, for any `set_from_epoch_days`. -/
def addYearsMonthsDaysBy (setFromEpochDays : ℤ → Option Date) (y m d : ℤ) : Option Date :=
  if y ≠ 0 ∨ m ≠ 0 ∨ d ≠ 0 then do
    let (yy, mm) := monthAfter (int32 (t.year + y)) t.month m
    let dim ← daysInMonth mm yy
    let dd := if (y ≠ 0 ∨ m ≠ 0) ∧ dim < t.day then dim else t.day
    let newDay := int32 (dd + d)
    if 1 ≤ newDay ∧ newDay ≤ dim then
      if y = 0 ∧ m = 0 then some (t.setDay newDay) else some (ofYearMonthDay yy mm newDay)
    else setFromEpochDays (int32 (epochDays yy mm 1 + dd - 1 + d))
  else some t

def addYearsMonthsDays (y m d : ℤ) : Option Date :=
  t.addYearsMonthsDaysBy setFromEpochDays y m d

/-- The code of `add_days (d)`, for any `set_from_epoch_days`. -/
def addDaysBy (setFromEpochDays : ℤ → Option Date) (d : ℤ) : Option Date :=
  if d ≠ 0 then do
    let newDay := int32 (t.day + d)
    let dim ← daysInMonth t.month t.year
    if 1 ≤ newDay ∧ newDay ≤ dim then some (t.setDay newDay)
    else setFromEpochDays (int32 (epochDays t.year t.month t.day + d))
  else some t

def addDays (d : ℤ) : Option Date := t.addDaysBy setFromEpochDays d

/-- `is_less (other)`. -/
def isLess (other : Date) : Bool := t.storage.slt other.storage

end Date

end Gobo
