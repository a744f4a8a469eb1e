/-
Hours, minutes, seconds and milliseconds added to a date-time.
-/
import Gobo.DateConversion
import Gobo.DateTime

namespace Gobo

open GregorianCalendar

namespace Date

/-- The day number of a date is the one of the calendar, and leads back to it. -/
structure Converts (e : CivilDate) : Prop where
  dayCount_eq : (ofCivil e).dayCount = e.number
  setDayCount_eq : setDayCount e.number = some (ofCivil e)

/-- `e` is `n` days after `c`, in the same month if one of the two is not converted. -/
structure Reaches (c e : CivilDate) (n : ℤ) : Prop where
  representable : IsRepresentable e.year
  number_eq : e.number = c.number + n
  converts : e.year = c.year ∧ e.month = c.month ∨ Converts c ∧ Converts e

section

variable {c e : CivilDate} {n : ℤ}

theorem converts_iff (hc : IsRepresentable c.year) : Converts c ↔ Convertible c := by
  rw [Convertible, ← drift_eq_zero_iff]
  constructor
  · rintro ⟨hcount, hrun⟩
    rw [dayCount_ofCivil hc] at hcount
    have hdrift : drift c.year = 0 := by omega
    refine ⟨hdrift, ((setFromEpochDays_dayCount_iff hc).mp ?_).2⟩
    rw [dayCount_ofCivil hc, hcount]
    exact hrun
  · rintro ⟨hdrift, hslips⟩
    refine ⟨by rw [dayCount_ofCivil hc, hdrift, Int.add_zero], ?_⟩
    rcases setFromEpochDays_number c with ⟨-, hrun⟩ | ⟨hslips', -⟩
    · exact hrun
    · exact absurd hslips' hslips

theorem number_of_same_month (hy : e.year = c.year) (hm : e.month = c.month) :
    e.number = c.number + (e.day - c.day) := by
  unfold CivilDate.number dayNumber
  rw [hy, hm]
  omega

theorem Reaches.addDays (hc : IsRepresentable c.year) (h : Reaches c e n) :
    (ofCivil c).addDays n = some (ofCivil e) := by
  have hn := h.number_eq
  by_cases hday : 1 ≤ c.day + n ∧ c.day + n ≤ monthLength c.year c.month
  · obtain ⟨new, hy, hm, hd, hnumber⟩ := exists_day hday.1 hday.2
    obtain rfl : e = new := CivilDate.number_injective (by omega)
    exact addDays_of_same_month hc hy hm hd
  · rcases h.converts with ⟨hy, hm⟩ | ⟨hcc, hce⟩
    · have hnumber := number_of_same_month hy hm
      have hpos := e.day_pos
      have hle := e.day_le
      rw [hy, hm] at hle
      omega
    · rw [← hcc.dayCount_eq] at hn
      rw [addDays_of_not_same_month hc h.representable hn hday]
      exact hce.setDayCount_eq

theorem Reaches.dayCount (hc : IsRepresentable c.year) (h : Reaches c e n) :
    (ofCivil e).dayCount = (ofCivil c).dayCount + n := by
  have hn := h.number_eq
  rcases h.converts with ⟨hy, hm⟩ | ⟨hcc, hce⟩
  · rw [dayCount_ofCivil h.representable, dayCount_ofCivil hc, hy]
    omega
  · rw [hcc.dayCount_eq, hce.dayCount_eq, hn]

end

end Date

/-- A date and a time of day. -/
structure CivilDateTime extends CivilDate where
  time : ℤ
  time_nonneg : 0 ≤ time
  time_lt : time < 86400000

namespace DateTime

open Date

structure IsValid (t : DateTime) : Prop where
  date : t.toDate.IsValid
  time_nonneg : 0 ≤ t.timeStorage
  time_lt : t.timeStorage < 86400000

def ofCivil (a : CivilDateTime) : DateTime := ⟨Date.ofCivil a.toCivilDate, a.time⟩

/-- `r` is a valid date-time, `ms` milliseconds after `t`. -/
def IsMoved (t : DateTime) (ms : ℤ) (r : Option DateTime) : Prop :=
  ∃ u, r = some u ∧ u.IsValid ∧
    u.dayCount * 86400000 + u.timeStorage = t.dayCount * 86400000 + t.timeStorage + ms

/-- The milliseconds lead exactly to the beginning of a day before. -/
def FallsOnMidnight (t : DateTime) (ms : ℤ) : Prop :=
  t.timeStorage + ms < 0 ∧ 86400000 ∣ t.timeStorage + ms

section

variable {a : CivilDateTime} {e : CivilDate} {ms ts amount : ℤ}

theorem setNormalizedTimeStorage_of_reaches (ha : IsRepresentable a.year)
    (hts : ts < 0 → ¬86400000 ∣ ts) (he : Reaches a.toCivilDate e (ts / 86400000)) :
    (ofCivil a).setNormalizedTimeStorage ts = some ⟨Date.ofCivil e, ts % 86400000⟩ := by
  have hadd := he.addDays ha
  unfold setNormalizedTimeStorage dayShift
  by_cases hneg : ts < 0
  · have hrest := hts hneg
    rw [if_pos hneg, Int.tdiv_eq_ediv_of_nonneg (by omega), Int.tmod_eq_emod_of_nonneg (by omega),
      show -(-ts / 86400000) - 1 = ts / 86400000 by omega,
      show 86400000 - -ts % 86400000 = ts % 86400000 by omega]
    exact bind_of_some hadd rfl
  · rw [if_neg hneg, Int.tdiv_eq_ediv_of_nonneg (by omega), Int.tmod_eq_emod_of_nonneg (by omega)]
    exact bind_of_some hadd rfl

/-- The whole day that is left over is kept as a time of day. -/
theorem timeStorage_of_midnight {t u : DateTime} (hneg : ts < 0) (hdvd : 86400000 ∣ ts)
    (h : t.setNormalizedTimeStorage ts = some u) : u.timeStorage = 86400000 := by
  unfold setNormalizedTimeStorage at h
  rw [if_pos hneg] at h
  obtain ⟨date, -, hu⟩ := Option.bind_eq_some_iff.mp h
  obtain rfl := Option.some.inj hu
  show dayShift - (-ts).tmod dayShift = 86400000
  unfold dayShift
  rw [Int.tmod_eq_emod_of_nonneg (by omega)]
  omega

theorem isValid_ofCivil (ha : IsRepresentable a.year) : (ofCivil a).IsValid :=
  ⟨Date.isValid_ofCivil ha, a.time_nonneg, a.time_lt⟩

theorem addTime_iff (ha : IsRepresentable a.year) (hzero : amount = 0 → ms = 0)
    (he : Reaches a.toCivilDate e ((a.time + ms) / 86400000)) :
    IsMoved (ofCivil a) ms ((ofCivil a).addTime amount ms) ↔ ¬FallsOnMidnight (ofCivil a) ms := by
  have htime := a.time_nonneg
  by_cases hamount : amount = 0
  · obtain rfl := hzero hamount
    refine iff_of_true ⟨ofCivil a, if_neg (by simp [hamount]), isValid_ofCivil ha, by omega⟩ ?_
    rintro ⟨hneg, -⟩
    rw [Int.add_zero] at hneg
    exact absurd hneg (Int.not_lt.mpr htime)
  · unfold addTime
    rw [if_pos hamount]
    by_cases hmidnight : FallsOnMidnight (ofCivil a) ms
    · refine iff_of_false ?_ fun h => h hmidnight
      rintro ⟨u, hu, hvalid, -⟩
      have hlt := hvalid.time_lt
      rw [timeStorage_of_midnight hmidnight.1 hmidnight.2 hu] at hlt
      exact absurd hlt (Int.lt_irrefl _)
    · refine iff_of_true ?_ hmidnight
      refine ⟨_, setNormalizedTimeStorage_of_reaches ha (fun h h' => hmidnight ⟨h, h'⟩) he,
        ⟨Date.isValid_ofCivil he.representable, Int.emod_nonneg _ (by decide),
          Int.emod_lt_of_pos _ (by decide)⟩, ?_⟩
      have hcount := he.dayCount ha
      show (Date.ofCivil e).dayCount * 86400000 + (a.time + ms) % 86400000 =
        (Date.ofCivil a.toCivilDate).dayCount * 86400000 + a.time + ms
      omega

/-- When the four additions move a date-time by what they are given. -/
theorem isMoved_iff (ha : IsRepresentable a.year) :
    (∀ h e, Reaches a.toCivilDate e ((a.time + h * 3600000) / 86400000) →
      (IsMoved (ofCivil a) (h * 3600000) ((ofCivil a).addHours h) ↔
        ¬FallsOnMidnight (ofCivil a) (h * 3600000))) ∧
    (∀ m e, Reaches a.toCivilDate e ((a.time + m * 60000) / 86400000) →
      (IsMoved (ofCivil a) (m * 60000) ((ofCivil a).addMinutes m) ↔
        ¬FallsOnMidnight (ofCivil a) (m * 60000))) ∧
    (∀ s e, Reaches a.toCivilDate e ((a.time + s * 1000) / 86400000) →
      (IsMoved (ofCivil a) (s * 1000) ((ofCivil a).addSeconds s) ↔
        ¬FallsOnMidnight (ofCivil a) (s * 1000))) ∧
    ∀ ms e, Reaches a.toCivilDate e ((a.time + ms) / 86400000) →
      (IsMoved (ofCivil a) ms ((ofCivil a).addMilliseconds ms) ↔
        ¬FallsOnMidnight (ofCivil a) ms) := by
  refine ⟨fun h e he => ?_, fun m e he => ?_, fun s e he => ?_, fun ms e he => ?_⟩
  · exact addTime_iff ha (by rintro rfl; rfl) he
  · exact addTime_iff ha (by rintro rfl; rfl) he
  · exact addTime_iff ha (by rintro rfl; rfl) he
  · exact addTime_iff ha id he

theorem addHours_across_months :
    IsMoved (ofCivil ⟨⟨2021, 3, 1, by decide, by decide, by decide, by decide⟩, 1800000,
        by decide, by decide⟩) (-1 * 3600000)
      ((ofCivil ⟨⟨2021, 3, 1, by decide, by decide, by decide, by decide⟩, 1800000,
        by decide, by decide⟩).addHours (-1)) :=
  ((isMoved_iff (by decide)).1 (-1) ⟨2021, 2, 28, by decide, by decide, by decide, by decide⟩
    ⟨by decide, by decide, Or.inr ⟨(converts_iff (by decide)).mpr (by decide),
      (converts_iff (by decide)).mpr (by decide)⟩⟩).mpr fun h => absurd h.2 (by decide)

/-- A day less from midnight is a time of day of 24 hours. -/
theorem addHours_to_midnight : ¬∀ (a : CivilDateTime) (h : ℤ) (e : CivilDate),
    IsRepresentable a.year → Reaches a.toCivilDate e ((a.time + h * 3600000) / 86400000) →
      IsMoved (ofCivil a) (h * 3600000) ((ofCivil a).addHours h) := by
  intro hall
  obtain ⟨u, hu, hvalid, -⟩ := hall
    ⟨⟨2021, 3, 2, by decide, by decide, by decide, by decide⟩, 0, by decide, by decide⟩ (-24)
    ⟨2021, 3, 1, by decide, by decide, by decide, by decide⟩ (by decide)
    ⟨by decide, by decide, Or.inl ⟨rfl, rfl⟩⟩
  have hlt := hvalid.time_lt
  have hday : u.timeStorage = 86400000 :=
    timeStorage_of_midnight (show (-86400000 : ℤ) < 0 by decide) (by decide) hu
  rw [hday] at hlt
  exact absurd hlt (Int.lt_irrefl _)

end

end DateTime

end Gobo
