/-
Date-times, a packed date with the milliseconds since midnight (`DT_DATE_TIME`),
and durations between them (`DT_DATE_TIME_DURATION`).
-/
import Gobo.Date

namespace Gobo

open GregorianCalendar

/-- `date_storage` is the `storage` of the date. -/
structure DateTime extends Date where
  timeStorage : ℤ
deriving DecidableEq, Repr

structure DateTimeDuration where
  year : ℤ
  month : ℤ
  day : ℤ
  hour : ℤ
  minute : ℤ
  second : ℤ
  millisecond : ℤ
deriving DecidableEq, Repr

namespace DateTimeDuration

def millisecondCount (d : DateTimeDuration) : ℤ :=
  ((d.hour * minutesInHour + d.minute) * secondsInMinute + d.second) * 1000 + d.millisecond

end DateTimeDuration

namespace DateTime

def dayShift : ℤ := 86400000

def hourShift : ℤ := 3600000

def minuteShift : ℤ := 60000

def secondShift : ℤ := 1000

variable (t : DateTime)

def millisecondCount : ℤ := t.timeStorage

/-- `set_normalized_time_storage (ts)`.  `ts` has 64 bits, no amount of 32 bits
makes it overflow. -/
def setNormalizedTimeStorage (ts : ℤ) : Option DateTime :=
  if ts < 0 then do
    let date ← t.addDays (-((-ts).tdiv dayShift) - 1)
    some ⟨date, dayShift - (-ts).tmod dayShift⟩
  else do
    let date ← t.addDays (ts.tdiv dayShift)
    some ⟨date, ts.tmod dayShift⟩

/-- What the four additions of a time share: `amount` units are `ms` milliseconds. -/
def addTime (amount ms : ℤ) : Option DateTime :=
  if amount ≠ 0 then t.setNormalizedTimeStorage (t.timeStorage + ms) else some t

def addHours (h : ℤ) : Option DateTime := t.addTime h (h * hourShift)

def addMinutes (m : ℤ) : Option DateTime := t.addTime m (m * minuteShift)

def addSeconds (s : ℤ) : Option DateTime := t.addTime s (s * secondShift)

def addMilliseconds (ms : ℤ) : Option DateTime := t.addTime ms ms

/-- `add_duration (a_duration)`. -/
def addDuration (d : DateTimeDuration) : Option DateTime := do
  let date ← t.addYearsMonthsDays d.year d.month d.day
  let ms := d.millisecondCount
  if ms ≠ 0 then addMilliseconds ⟨date, t.timeStorage⟩ ms else some ⟨date, t.timeStorage⟩

/-- `is_less (other)`. -/
def isLess (other : DateTime) : Bool := t.toDate.isLess other.toDate ||
    decide (t.storage = other.storage ∧ t.timeStorage < other.timeStorage)

end DateTime

namespace DateTimeDuration

/-- `make_canonical_from_dates (date_from, date_to)`. -/
def makeCanonicalFromDates (dateFrom dateTo : DateTime) : Option DateTimeDuration :=
  let yy := dateTo.year - dateFrom.year
  let mm := dateTo.month - dateFrom.month
  let od := dateFrom.day
  let dd := dateTo.day - od
  let tt := dateTo.millisecondCount - dateFrom.millisecondCount
  if dateFrom.isLess dateTo then do
    let (dd, tt) := if tt < 0 then (dd - 1, tt + millisecondsInDay) else (dd, tt)
    let (mm, dd) ← (if dd < 0 then do
        let dipm ← dateTo.daysInPreviousMonth
        some (mm - 1, if dipm < od then dd + od else dd + dipm)
      else some (mm, dd))
    let (yy, mm) := if mm < 0 then (yy - 1, monthsInYear + mm) else (yy, mm)
    some
      { year := yy
        month := mm
        day := dd
        hour := ((tt.tdiv 1000).tdiv secondsInMinute).tdiv minutesInHour
        minute := ((tt.tdiv 1000).tdiv secondsInMinute).tmod minutesInHour
        second := (tt.tdiv 1000).tmod secondsInMinute
        millisecond := tt.tmod 1000 }
  else do
    let (dd, tt) := if 0 < tt then (dd + 1, tt - millisecondsInDay) else (dd, tt)
    let tt := -tt
    let dicm ← dateTo.daysInCurrentMonth
    let (mm, dd) :=
      if 0 < dd then (mm + 1, dd - dicm)
      else if dicm < od then (mm, dd + od - dicm)
      else (mm, dd)
    let (yy, mm) := if 0 < mm then (yy + 1, mm - monthsInYear) else (yy, mm)
    some
      { year := yy
        month := mm
        day := dd
        hour := -((tt.tdiv 1000).tdiv secondsInMinute).tdiv minutesInHour
        minute := -((tt.tdiv 1000).tdiv secondsInMinute).tmod minutesInHour
        second := -(tt.tdiv 1000).tmod secondsInMinute
        millisecond := -tt.tmod 1000 }

/-- `is_canonical (a_date_time)`. -/
def isCanonical (d : DateTimeDuration) (aDateTime : DateTime) : Option Bool := do
  let finalDateTime ← aDateTime.addDuration d
  if ¬finalDateTime.isLess aDateTime then
    if 0 ≤ d.hour ∧ d.hour < hoursInDay ∧ 0 ≤ d.minute ∧ d.minute < minutesInHour ∧
        0 ≤ d.second ∧ d.second < secondsInMinute ∧ 0 ≤ d.millisecond ∧ d.millisecond < 1000 ∧
        0 ≤ d.year ∧ 0 ≤ d.month ∧ d.month < monthsInYear ∧ 0 ≤ d.day then
      if finalDateTime.day ≤ d.day then do
        let dipm ← finalDateTime.daysInPreviousMonth
        some (decide (d.day < dipm))
      else do
        let dicm ← finalDateTime.daysInCurrentMonth
        some (decide (d.day < dicm))
    else some false
  else do
    let dicm ← finalDateTime.daysInCurrentMonth
    some (decide (d.hour ≤ 0 ∧ -hoursInDay < d.hour ∧ d.minute ≤ 0 ∧ -minutesInHour < d.minute ∧
      d.second ≤ 0 ∧ -secondsInMinute < d.second ∧ d.millisecond ≤ 0 ∧ -1000 < d.millisecond ∧
      d.year ≤ 0 ∧ d.month ≤ 0 ∧ -monthsInYear < d.month ∧ d.day ≤ 0 ∧ -dicm < d.day))

end DateTimeDuration

end Gobo
