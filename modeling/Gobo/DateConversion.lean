/-
What the conversions between dates and day numbers compute, compared with the
proleptic Gregorian calendar.
-/
import Gobo.Date

namespace Gobo

namespace GregorianCalendar

variable {y m d : ℤ}

theorem leapYear_iff : leapYear y = true ↔ IsLeapYear y := by
  simp only [leapYear, IsLeapYear, decide_eq_true_eq, Int.dvd_iff_tmod_eq_zero, ne_eq]

theorem daysInMonth_eq (hm : 1 ≤ m) (hm' : m ≤ 12) :
    daysInMonth m y = some (monthLength y m) := by
  have hleap : (if leapYear y then (29 : ℤ) else 28) = if IsLeapYear y then 29 else 28 :=
    if_congr leapYear_iff rfl rfl
  unfold daysInMonth monthLength
  rw [hleap]
  interval_cases m <;> rfl

theorem daysAtMonth_eq (hm : 1 ≤ m) (hm' : m ≤ 12) : daysAtMonth m y = daysBefore y m := by
  have hleap : (if 2 < m ∧ leapYear y = true then (1 : ℤ) else 0) =
      if 2 < m ∧ IsLeapYear y then 1 else 0 :=
    if_congr (and_congr_right fun _ => leapYear_iff) rfl rfl
  unfold daysAtMonth daysBefore
  rw [hleap]
  by_cases hy : IsLeapYear y
  · simp only [hy, and_true, if_true]
    interval_cases m <;> rfl
  · simp only [hy, and_false, if_false]
    interval_cases m <;> rfl

/-- By how much `epoch_days` is ahead: the divisions of negative numbers are not
rounded down. -/
def drift (y : ℤ) : ℤ :=
  if y ≤ 0 ∧ ¬IsLeapYear (y - 1) then 1 else 0

theorem tdiv_of_neg {x : ℤ} (n : ℤ) (hx : x < 0) : x.tdiv n = -(-x / n) := by
  rw [← Int.tdiv_eq_ediv_of_nonneg (by omega : 0 ≤ -x), Int.neg_tdiv, Int.neg_neg]

theorem drift_bounds (y : ℤ) : 0 ≤ drift y ∧ drift y ≤ 1 := by
  unfold drift
  split_ifs <;> decide

theorem epochDays_eq (hy : -2147483648 < y) (hy' : y < 2147483648) (hm : 1 ≤ m) (hm' : m ≤ 12) :
    epochDays y m d = int32 (dayNumber y m d + drift y) := by
  have hleaps : epochLeapYears = 477 := rfl
  have hepoch : epochDaysAtMonth = 0 := rfl
  have hbase : daysBeforeYear 1970 = 719162 := rfl
  have hbefore : int32 (y - 1) = y - 1 := int32_of_mem (by omega) (by omega)
  unfold epochDays dayNumber
  rw [daysAtMonth_eq hm hm', hleaps, hepoch, hbase, hbefore]
  refine congrArg int32 ?_
  unfold daysBeforeYear drift IsLeapYear epochYear epochDay daysInYear
  by_cases hy : 0 ≤ y - 1
  · rw [Int.tdiv_eq_ediv_of_nonneg hy, Int.tdiv_eq_ediv_of_nonneg hy,
      Int.tdiv_eq_ediv_of_nonneg hy, if_neg (by omega)]
    omega
  · rw [tdiv_of_neg 4 (by omega), tdiv_of_neg 100 (by omega), tdiv_of_neg 400 (by omega)]
    split_ifs <;> omega

end GregorianCalendar

open GregorianCalendar

namespace Date

/-- The years that fit into the packed form. -/
def IsRepresentable (y : ℤ) : Prop := -4194303 ≤ y ∧ y ≤ 4194303

instance : DecidablePred IsRepresentable :=
  fun _ => inferInstanceAs (Decidable (_ ∧ _))

/-- The packed form of a date. -/
def ofCivil (c : CivilDate) : Date := ofYearMonthDay c.year c.month c.day

section

variable {x : BitVec 32} {y m d : ℤ}

theorem and_yearMask (x : BitVec 32) : x &&& yearMask = (x >>> 9) <<< 9 := by
  apply BitVec.eq_of_getLsbD_eq
  intro i hi
  unfold yearMask
  interval_cases i <;> simp

theorem and_monthMask (x : BitVec 32) : x &&& monthMask = ((x >>> 5) &&& 15#32) <<< 5 := by
  apply BitVec.eq_of_getLsbD_eq
  intro i hi
  unfold monthMask
  interval_cases i <;> simp

theorem and_dayMask (x : BitVec 32) : x &&& dayMask = x &&& 31#32 := rfl

/-- A packed date as a signed number. -/
structure Packs (x : BitVec 32) (y m d : ℤ) : Prop where
  representable : IsRepresentable y
  month_nonneg : 0 ≤ m
  month_lt : m < 16
  day_nonneg : 0 ≤ d
  day_lt : d < 32
  toInt_eq : x.toInt = 512 * y + 32 * m + d

theorem Packs.toNat_eq (h : Packs x y m d) :
    (x.toNat : ℤ) = 512 * y + 32 * m + d + if y < 0 then 4294967296 else 0 := by
  obtain ⟨⟨hlow, hhigh⟩, hm, hm', hd, hd', hx⟩ := h
  rw [BitVec.toInt_eq_toNat_cond] at hx
  split_ifs at hx ⊢ <;> omega

theorem Packs.day_eq (h : Packs x y m d) : day ⟨x⟩ = d := by
  have hx := h.toNat_eq
  have hd := h.day_nonneg
  have hd' := h.day_lt
  have hval : (x &&& dayMask).toNat = x.toNat % 32 := by
    rw [and_dayMask, BitVec.toNat_and]
    exact Nat.and_two_pow_sub_one_eq_mod x.toNat 5
  show (x &&& dayMask).toInt = d
  rw [BitVec.toInt_eq_toNat_of_lt (by omega), hval]
  split_ifs at hx <;> omega

/-- An arithmetic shift of a number that is not negative. -/
theorem toInt_sshiftRight_of_lt {v : BitVec 32} (n : ℕ) (hv : v.toNat < 2147483648) :
    (v.sshiftRight n).toInt = (v.toNat : ℤ) / (2 ^ n : ℕ) := by
  rw [BitVec.toInt_sshiftRight, BitVec.toInt_eq_toNat_of_lt (by omega), Int.shiftRight_eq_div_pow]

theorem Packs.month_eq (h : Packs x y m d) : month ⟨x⟩ = m := by
  have hx := h.toNat_eq
  obtain ⟨-, hm, hm', hd, hd', -⟩ := h
  have hval : (x &&& monthMask).toNat = x.toNat / 32 % 16 * 32 := by
    have hand : ((x >>> 5) &&& 15#32).toNat = x.toNat / 32 % 16 := by
      rw [BitVec.toNat_and, BitVec.toNat_ushiftRight, Nat.shiftRight_eq_div_pow]
      exact Nat.and_two_pow_sub_one_eq_mod _ 4
    rw [and_monthMask, BitVec.toNat_shiftLeft, hand, Nat.shiftLeft_eq]
    omega
  show ((x &&& monthMask).sshiftRight 5).toInt = m
  rw [toInt_sshiftRight_of_lt 5 (by omega), hval]
  split_ifs at hx <;> omega

theorem Packs.year_eq (h : Packs x y m d) : year ⟨x⟩ = y := by
  have hx := h.toNat_eq
  obtain ⟨⟨hlow, hhigh⟩, hm, hm', hd, hd', hint⟩ := h
  have hval : (x &&& yearMask).toNat = x.toNat / 512 * 512 := by
    rw [and_yearMask, BitVec.toNat_shiftLeft, BitVec.toNat_ushiftRight, Nat.shiftRight_eq_div_pow,
      Nat.shiftLeft_eq]
    omega
  have hsign : (x.slt 0 = true) ↔ y < 0 := by
    have hzero : BitVec.toInt (0 : BitVec 32) = 0 := rfl
    rw [BitVec.slt_eq_decide, decide_eq_true_eq, hint, hzero]
    omega
  show (if x.slt 0 = true then (-(-(x &&& yearMask)).sshiftRight 9).toInt
    else ((x &&& yearMask).sshiftRight 9).toInt) = y
  by_cases hy : y < 0
  · rw [if_pos (hsign.mpr hy)]
    rw [if_pos hy] at hx
    have hneg : (-(x &&& yearMask)).toNat = (-y).toNat * 512 := by
      rw [BitVec.toNat_neg, hval]
      omega
    have hshift := toInt_sshiftRight_of_lt (v := -(x &&& yearMask)) 9 (by omega)
    rw [hneg] at hshift
    rw [BitVec.toInt_neg, hshift, Int.bmod_eq_of_le] <;> omega
  · rw [if_neg (mt hsign.mp hy)]
    rw [if_neg hy] at hx
    rw [toInt_sshiftRight_of_lt 9 (by omega), hval]
    omega

/-- Three fields next to each other. -/
theorem toNat_or_or {a b e : BitVec 32} {k : ℕ} (ha : a.toNat = k * 512)
    (hb : b.toNat < 16) (he : e.toNat < 32) :
    (a ||| (b <<< 5) ||| e).toNat = k * 512 + b.toNat * 32 + e.toNat := by
  have hmonth : (b <<< 5).toNat = b.toNat <<< 5 := by
    rw [BitVec.toNat_shiftLeft, Nat.shiftLeft_eq]
    omega
  rw [BitVec.toNat_or, BitVec.toNat_or, hmonth, ha, Nat.or_assoc,
    ← Nat.shiftLeft_add_eq_or_of_lt (i := 5) he, show k * 512 =
      k <<< 9 from (Nat.shiftLeft_eq k 9).symm,
    ← Nat.shiftLeft_add_eq_or_of_lt (i := 9), Nat.shiftLeft_eq, Nat.shiftLeft_eq]
  · omega
  · rw [Nat.shiftLeft_eq]
    omega

theorem neg_shiftLeft_neg (a : BitVec 32) (n : ℕ) : -((-a) <<< n) = a <<< n := by
  rw [BitVec.shiftLeft_eq_mul_twoPow, BitVec.shiftLeft_eq_mul_twoPow, BitVec.neg_mul,
    BitVec.neg_neg]

theorem packs_of_toNat (hy : IsRepresentable y) (hm : 0 ≤ m) (hm' : m < 16) (hd : 0 ≤ d)
    (hd' : d < 32) (hx : (x.toNat : ℤ) = (y % 8388608) * 512 + 32 * m + d) : Packs x y m d := by
  obtain ⟨hlow, hhigh⟩ := hy
  refine ⟨⟨hlow, hhigh⟩, hm, hm', hd, hd', ?_⟩
  rw [BitVec.toInt_eq_toNat_cond]
  split_ifs <;> omega

/-- The year is cut to 23 bits. -/
theorem toNat_ofYearMonthDay (hm : 0 ≤ m) (hm' : m < 16) (hd : 0 ≤ d) (hd' : d < 32) :
    ((ofYearMonthDay y m d).storage.toNat : ℤ) = (y % 8388608) * 512 + 32 * m + d := by
  have hstorage : (ofYearMonthDay y m d).storage =
      (BitVec.ofInt 32 y <<< 9) ||| (BitVec.ofInt 32 m <<< 5) ||| BitVec.ofInt 32 d := by
    unfold ofYearMonthDay
    split_ifs
    · rw [neg_shiftLeft_neg]
    · rfl
  have hyear : (BitVec.ofInt 32 y <<< 9).toNat = (y % 8388608).toNat * 512 := by
    rw [BitVec.toNat_shiftLeft, BitVec.toNat_ofInt, Nat.shiftLeft_eq]
    omega
  have hmonth : (BitVec.ofInt 32 m).toNat = m.toNat := by
    rw [BitVec.toNat_ofInt]
    omega
  have hday : (BitVec.ofInt 32 d).toNat = d.toNat := by
    rw [BitVec.toNat_ofInt]
    omega
  rw [hstorage, toNat_or_or hyear (by omega) (by omega), hmonth, hday]
  omega

/-- `set_year_month_day`. -/
theorem packs_ofYearMonthDay (hy : IsRepresentable y) (hm : 0 ≤ m) (hm' : m < 16) (hd : 0 ≤ d)
    (hd' : d < 32) : Packs (ofYearMonthDay y m d).storage y m d :=
  packs_of_toNat hy hm hm' hd hd' (toNat_ofYearMonthDay hm hm' hd hd')

theorem and_yearMonthMask (x : BitVec 32) : x &&& (yearMask ||| monthMask) = (x >>> 5) <<< 5 := by
  apply BitVec.eq_of_getLsbD_eq
  intro i hi
  unfold yearMask monthMask
  interval_cases i <;> simp

/-- `set_day` changes the last five bits. -/
theorem Packs.setDay (h : Packs x y m d) {k : ℤ} (hk : 0 ≤ k) (hk' : k < 32) :
    Packs (Date.setDay ⟨x⟩ k).storage y m k := by
  have hx := h.toNat_eq
  obtain ⟨⟨hlow, hhigh⟩, hm, hm', hd, hd', -⟩ := h
  have hmask : (x &&& (yearMask ||| monthMask)).toNat = (x.toNat / 32) <<< 5 := by
    rw [and_yearMonthMask, BitVec.toNat_shiftLeft, BitVec.toNat_ushiftRight,
      Nat.shiftRight_eq_div_pow, Nat.shiftLeft_eq]
    omega
  have hday : (BitVec.ofInt 32 k).toNat = k.toNat := by
    rw [BitVec.toNat_ofInt]
    omega
  have hval : (Date.setDay ⟨x⟩ k).storage.toNat = x.toNat / 32 * 32 + k.toNat := by
    show (BitVec.ofInt 32 k ||| (x &&& (yearMask ||| monthMask))).toNat = _
    rw [BitVec.or_comm, BitVec.toNat_or, hmask, hday,
      ← Nat.shiftLeft_add_eq_or_of_lt (i := 5) (by omega), Nat.shiftLeft_eq]
  apply packs_of_toNat ⟨hlow, hhigh⟩ hm hm' hk hk'
  rw [hval]
  split_ifs at hx <;> omega

/-- The packed form is unique. -/
theorem Packs.unique {x' : BitVec 32} (h : Packs x y m d) (h' : Packs x' y m d) : x = x' :=
  BitVec.eq_of_toInt_eq (h.toInt_eq.trans h'.toInt_eq.symm)

end

section

variable {c e : CivilDate} {n : ℤ}

section

variable (hc : IsRepresentable c.year)

include hc

theorem packs_ofCivil : Packs (ofCivil c).storage c.year c.month c.day := by
  have hlength := (monthLength_bounds c.year c.month).2
  have hm := c.month_pos
  have hm' := c.month_le
  have hd := c.day_pos
  have hd' := c.day_le
  exact packs_ofYearMonthDay hc (by omega) (by omega) (by omega) (by omega)

theorem year_ofCivil : (ofCivil c).year = c.year := (packs_ofCivil hc).year_eq

theorem month_ofCivil : (ofCivil c).month = c.month := (packs_ofCivil hc).month_eq

theorem day_ofCivil : (ofCivil c).day = c.day := (packs_ofCivil hc).day_eq

theorem number_bounds : -2000000000 ≤ c.number ∧ c.number ≤ 2000000000 := by
  obtain ⟨hlow, hhigh⟩ := hc
  have hday := c.yearDay_bounds
  have hlength := yearLength_cases c.year
  rw [c.number_eq, daysBeforeYear, daysBeforeYear]
  omega

/-- Nothing is cut in the years that can be represented. -/
theorem epochDays_civil :
    epochDays c.year c.month c.day = c.number + drift c.year := by
  have hbounds := number_bounds hc
  have hdrift := drift_bounds c.year
  obtain ⟨hlow, hhigh⟩ := hc
  rw [epochDays_eq (by omega) (by omega) c.month_pos c.month_le, ← CivilDate.number,
    int32_of_mem (by omega) (by omega)]

theorem dayCount_ofCivil : (ofCivil c).dayCount = c.number + drift c.year := by
  rw [dayCount, year_ofCivil hc, month_ofCivil hc, day_ofCivil hc, epochDays_civil hc]

/-- Packed dates are in the order of the dates. -/
theorem isLess_ofCivil (he : IsRepresentable e.year) :
    (ofCivil c).isLess (ofCivil e) = true ↔ c.Before e := by
  have hc' := packs_ofCivil hc
  have he' := packs_ofCivil he
  have h1 := hc'.month_nonneg
  have h2 := hc'.month_lt
  have h3 := hc'.day_nonneg
  have h4 := hc'.day_lt
  have h5 := he'.month_nonneg
  have h6 := he'.month_lt
  have h7 := he'.day_nonneg
  have h8 := he'.day_lt
  rw [isLess, BitVec.slt_eq_decide, decide_eq_true_eq, hc'.toInt_eq, he'.toInt_eq]
  unfold CivilDate.Before
  omega

theorem ofCivil_injective (he : IsRepresentable e.year)
    (h : ofCivil c = ofCivil e) : c = e := by
  apply CivilDate.ext'
  · rw [← year_ofCivil hc, h, year_ofCivil he]
  · rw [← month_ofCivil hc, h, month_ofCivil he]
  · rw [← day_ofCivil hc, h, day_ofCivil he]

end

/-- The loop finds the month of a day of the year. -/
theorem exists_monthLoop {yy : ℤ} {fuel : ℕ} {mm dd : ℤ} (hmm : 1 ≤ mm) (hmm' : mm ≤ 13)
    (hfuel : mm + fuel = 14) (hdd : 1 ≤ dd)
    (hle : daysBefore yy mm + dd ≤ yearLength yy) :
    ∃ c : CivilDate, c.year = yy ∧ c.yearDay = daysBefore yy mm + dd ∧
      monthLoop yy fuel mm dd = some (ofCivil c) := by
  induction fuel generalizing mm dd with
  | zero => omega
  | succ fuel ih =>
      have hmonth : mm ≤ 12 := by
        by_contra h
        obtain rfl : mm = 13 := by omega
        rw [daysBefore_thirteen] at hle
        omega
      rw [monthLoop, daysInMonth_eq hmm hmonth, some_bind]
      by_cases hday : dd ≤ monthLength yy mm
      · exact ⟨⟨yy, mm, dd, hmm, hmonth, hdd, hday⟩, rfl, rfl, if_pos hday⟩
      · have hnext := daysBefore_succ (y := yy) hmm hmonth
        rw [if_neg hday]
        have hnew : 1 ≤ dd - monthLength yy mm := by omega
        obtain ⟨c, hyear, hc, hrun⟩ := ih (show 1 ≤ mm + 1 by omega) (by omega) (by omega) hnew
          (by omega)
        exact ⟨c, hyear, by omega, hrun⟩

/-- The loop fails after December. -/
theorem monthLoop_eq_none {yy : ℤ} {fuel : ℕ} {mm dd : ℤ} (hmm : 1 ≤ mm) (hmm' : mm ≤ 13)
    (hfuel : mm + fuel = 14) (hlt : yearLength yy < daysBefore yy mm + dd) :
    monthLoop yy fuel mm dd = none := by
  induction fuel generalizing mm dd with
  | zero => rfl
  | succ fuel ih =>
      by_cases hmonth : mm ≤ 12
      · have hnext := daysBefore_succ (y := yy) hmm hmonth
        have hend : daysBefore yy mm + monthLength yy mm ≤ yearLength yy := by
          rw [← daysBefore_thirteen]
          exact daysBefore_le hmm (by omega) (Int.le_refl 13)
        rw [monthLoop, daysInMonth_eq hmm hmonth, some_bind, if_neg (by omega)]
        exact ih (by omega) (by omega) (by omega) (by omega)
      · obtain rfl : mm = 13 := by omega
        rfl

/-- The date of the day of the year that the centuries leave over. -/
theorem exists_monthLoop_start {yy dd : ℤ} (hdd : 0 ≤ dd) (hlt : dd < yearLength yy) :
    ∃ c : CivilDate, c.year = yy ∧ c.yearDay = dd + 1 ∧
      monthLoop yy 13 1 (dd + 1) = some (ofCivil c) := by
  have hle : daysBefore yy 1 + (dd + 1) ≤ yearLength yy := by
    rw [daysBefore_one]
    omega
  obtain ⟨c, hyear, hc, hrun⟩ :=
    exists_monthLoop (by decide) (by decide) (show (1 : ℤ) + 13 = 14 by decide) (by omega) hle
  rw [daysBefore_one, Int.zero_add] at hc
  exact ⟨c, hyear, hc, hrun⟩

/-- Dates from which a day number does not lead back: in the common centuries the
first of the four years of a cycle is taken for a leap year. -/
def Slips (c : CivilDate) : Prop :=
  IsCommonCentury c.year ∧ (2000 ≤ c.year ∨ 1 < c.yearDay) ∨
    2000 ≤ c.year ∧ IsCommonCentury (c.year + 1) ∧ c.yearDay = yearLength c.year

instance : DecidablePred Slips :=
  fun _ => inferInstanceAs (Decidable (_ ∨ _))

/-- The year and the day of the year, counted from zero, that are computed from
the number `x` of days since 2000. -/
def SplitsAfter (x yy dd : ℤ) : Prop :=
  ¬IsCommonCentury yy ∧ ¬(IsCommonCentury (yy + 1) ∧ dd + 1 = yearLength yy) ∧
      daysBeforeYear yy + dd = daysBeforeYear 2000 + x ∧ 0 ≤ dd ∧ dd < yearLength yy ∨
    IsCommonCentury yy ∧ daysBeforeYear yy + dd = daysBeforeYear 2000 + x + 1 ∧
      0 ≤ dd ∧ dd ≤ 365

/-- A number of days as cycles of 400, 100 and 4 years and a rest.  Only the last
century of a cycle of 400 years may be a day longer. -/
theorem exists_splitCenturies {x : ℤ} (hx : 0 ≤ x) : ∃ q b k r : ℤ,
    splitCenturies x = (400 * q + 100 * b + 4 * k, r) ∧
      x = 146097 * q + 36524 * b + 1461 * k + r ∧ 0 ≤ q ∧ 0 ≤ b ∧ b ≤ 3 ∧ 0 ≤ k ∧ k ≤ 24 ∧
      0 ≤ r ∧ r < 1461 ∧ (k = 24 → r ≤ 1459 ∨ b = 3 ∧ r = 1460) := by
  unfold splitCenturies daysIn400Years daysIn100Years daysIn4Years
  rw [Int.tdiv_eq_ediv_of_nonneg hx, Int.tmod_eq_emod_of_nonneg hx]
  have hz : 0 ≤ x % 146097 := by omega
  simp only
  rw [Int.tdiv_eq_ediv_of_nonneg hz, Int.tmod_eq_emod_of_nonneg hz]
  by_cases hlast : x % 146097 / 36524 = 4
  · have hrest : x % 146097 - 3 * 36524 = 36524 := by omega
    simp only [hlast, if_true]
    rw [hrest]
    have hcycles : Int.tdiv 36524 1461 = 24 := rfl
    exact ⟨x / 146097, 3, 24, 1460, Prod.ext (by simp only [hcycles]; omega)
      rfl, by omega, by omega,
      by decide, by decide, by decide, by decide, by decide, by decide, fun _ => Or.inr ⟨rfl, rfl⟩⟩
  · have hw : 0 ≤ x % 146097 % 36524 := by omega
    simp only [hlast, if_false]
    rw [Int.tdiv_eq_ediv_of_nonneg hw, Int.tmod_eq_emod_of_nonneg hw]
    exact ⟨x / 146097, x % 146097 / 36524, x % 146097 % 36524 / 1461, x % 146097 % 36524 % 1461,
      Prod.ext (by simp only; omega) rfl, by omega, by omega, by omega, by omega, by omega,
      by omega, by omega, by omega, by omega⟩

theorem splitsAfter {x : ℤ} (hx : 0 ≤ x) : ∃ yy dd, SplitsAfter x yy dd ∧ 2000 ≤ yy ∧
    setFromEpochDays (x + epochToY2KDays) = monthLoop yy 13 1 (dd + 1) := by
  obtain ⟨q, b, k, r, hsplit, hsum, hq, hb, hb', hk, hk', hr, hr', hlast⟩ :=
    exists_splitCenturies hx
  obtain ⟨j, dd, hj, hj', hdd, hdd', hchoose⟩ : ∃ j dd : ℤ, 0 ≤ j ∧ j ≤ 3 ∧ 0 ≤ dd ∧
      (if j = 0 then r = dd ∧ dd ≤ 365 else r = 365 * j + 1 + dd ∧ dd ≤ 364) ∧
      (if daysIn3LeapYears ≤ r then (400 * q + 100 * b + 4 * k + 3, r - daysIn3LeapYears)
        else if daysIn2LeapYears ≤ r then (400 * q + 100 * b + 4 * k + 2, r - daysIn2LeapYears)
        else if daysInLeapYear ≤ r then (400 * q + 100 * b + 4 * k + 1, r - daysInLeapYear)
        else (400 * q + 100 * b + 4 * k, r)) = (400 * q + 100 * b + 4 * k + j, dd) := by
    unfold daysIn3LeapYears daysIn2LeapYears daysInLeapYear
    split_ifs
    · exact ⟨3, r - 1096, by decide, by decide, by omega, by rw [if_neg (by decide)]; omega, rfl⟩
    · exact ⟨2, r - 731, by decide, by decide, by omega, by rw [if_neg (by decide)]; omega, rfl⟩
    · exact ⟨1, r - 366, by decide, by decide, by omega, by rw [if_neg (by decide)]; omega, rfl⟩
    · exact ⟨0, r, by decide, by decide, hr, by rw [if_pos rfl]; omega,
        by rw [Int.add_zero]⟩
  refine ⟨400 * q + 100 * b + 4 * k + j + 2000, dd, ?_, by omega, ?_⟩
  · have h4 : 4 ∣ 400 * q + 100 * b + 4 * k + j + 2000 ↔ j = 0 := by omega
    have h100 : 100 ∣ 400 * q + 100 * b + 4 * k + j + 2000 ↔ k = 0 ∧ j = 0 := by omega
    have h400 : 400 ∣ 400 * q + 100 * b + 4 * k + j + 2000 ↔ b = 0 ∧ k = 0 ∧ j = 0 := by omega
    have hnext : IsCommonCentury (400 * q + 100 * b + 4 * k + j + 2000 + 1) →
        b ≠ 3 ∧ k = 24 ∧ j = 3 := by
      unfold IsCommonCentury
      omega
    by_cases hcentury : b ≠ 0 ∧ k = 0 ∧ j = 0
    · obtain ⟨hb0, rfl, rfl⟩ := hcentury
      rw [if_pos rfl] at hdd'
      refine Or.inr ⟨⟨h100.mpr ⟨rfl, rfl⟩, fun h => hb0 (h400.mp h).1⟩, ?_, hdd, hdd'.2⟩
      unfold daysBeforeYear
      omega
    · have hleap : IsLeapYear (400 * q + 100 * b + 4 * k + j + 2000) ↔ j = 0 := by
        unfold IsLeapYear
        rw [h4, h100, h400]
        omega
      have hlength : dd < yearLength (400 * q + 100 * b + 4 * k + j + 2000) := by
        unfold yearLength
        rw [if_congr hleap rfl rfl]
        split_ifs at hdd' ⊢ <;> omega
      refine Or.inl ⟨?_, ?_, ?_, hdd, hlength⟩
      · rintro ⟨h, h'⟩
        rw [h100] at h
        rw [h400] at h'
        omega
      · rintro ⟨h, h'⟩
        obtain ⟨hb3, rfl, rfl⟩ := hnext h
        rw [yearLength, if_neg (mt hleap.mp (by decide))] at h'
        rw [if_neg (by decide)] at hdd'
        omega
      · unfold daysBeforeYear
        split_ifs at hdd' <;> omega
  · unfold setFromEpochDays
    simp only [Int.add_sub_cancel, if_neg (Int.not_lt.mpr hx), hsplit, hchoose]

/-- The same for the number `x` of days up to 2000. -/
def SplitsBefore (x yy dd : ℤ) : Prop :=
  (¬IsCommonCentury yy ∨ dd = 0) ∧ daysBeforeYear yy + dd = daysBeforeYear 2000 - x ∧
      0 ≤ dd ∧ dd < yearLength yy ∨
    IsCommonCentury yy ∧ daysBeforeYear yy + dd = daysBeforeYear 2000 - x + 1 ∧
      2 ≤ dd ∧ dd ≤ 365

theorem splitsBefore {x : ℤ} (hx : 0 < x) : ∃ yy dd, SplitsBefore x yy dd ∧ yy < 2000 ∧
    setFromEpochDays (epochToY2KDays - x) = monthLoop yy 13 1 (dd + 1) := by
  obtain ⟨q, b, k, r, hsplit, hsum, hq, hb, hb', hk, hk', hr, hr', hlast⟩ :=
    exists_splitCenturies (Int.le_of_lt hx)
  obtain ⟨j, dd, hj, hj', hdd, hdd', hchoose⟩ : ∃ j dd : ℤ, 0 ≤ j ∧ j ≤ 4 ∧ 0 ≤ dd ∧
      (if j = 4 then r = 1461 - dd ∧ dd ≤ 365 else r = 365 * j - dd ∧ dd ≤ 364) ∧
      (if daysIn3Years < r then (400 * q + 100 * b + 4 * k + 4, daysIn4Years - r)
        else if daysIn2Years < r then (400 * q + 100 * b + 4 * k + 3, daysIn3Years - r)
        else if daysInYear < r then (400 * q + 100 * b + 4 * k + 2, daysIn2Years - r)
        else if 0 < r then (400 * q + 100 * b + 4 * k + 1, daysInYear - r)
        else (400 * q + 100 * b + 4 * k, r)) = (400 * q + 100 * b + 4 * k + j, dd) := by
    unfold daysIn4Years daysIn3Years daysIn2Years daysInYear
    split_ifs
    · exact ⟨4, 1461 - r, by decide, by decide, by omega, by rw [if_pos rfl]; omega, rfl⟩
    · exact ⟨3, 1095 - r, by decide, by decide, by omega, by rw [if_neg (by decide)]; omega, rfl⟩
    · exact ⟨2, 730 - r, by decide, by decide, by omega, by rw [if_neg (by decide)]; omega, rfl⟩
    · exact ⟨1, 365 - r, by decide, by decide, by omega, by rw [if_neg (by decide)]; omega, rfl⟩
    · exact ⟨0, r, by decide, by decide, hr, by rw [if_neg (by decide)]; omega,
        by rw [Int.add_zero]⟩
  refine ⟨2000 - (400 * q + 100 * b + 4 * k + j), dd, ?_, ?_, ?_⟩
  · have h4 : 4 ∣ 2000 - (400 * q + 100 * b + 4 * k + j) ↔ j = 0 ∨ j = 4 := by omega
    have h100 : 100 ∣ 2000 - (400 * q + 100 * b + 4 * k + j) ↔
        k = 0 ∧ j = 0 ∨ k = 24 ∧ j = 4 := by omega
    have h400 : 400 ∣ 2000 - (400 * q + 100 * b + 4 * k + j) ↔
        b = 0 ∧ k = 0 ∧ j = 0 ∨ b = 3 ∧ k = 24 ∧ j = 4 := by omega
    by_cases hcentury : b ≠ 3 ∧ k = 24 ∧ j = 4
    · obtain ⟨hb3, rfl, rfl⟩ := hcentury
      rw [if_pos rfl] at hdd'
      refine Or.inr ⟨⟨h100.mpr (Or.inr ⟨rfl, rfl⟩), fun h => ?_⟩, ?_, by omega, hdd'.2⟩
      · rw [h400] at h
        omega
      · unfold daysBeforeYear
        omega
    · have hleap : IsLeapYear (2000 - (400 * q + 100 * b + 4 * k + j)) ↔
          j = 4 ∨ j = 0 ∧ (b = 0 ∨ k ≠ 0) := by
        unfold IsLeapYear
        rw [h4, h100, h400]
        omega
      have hlength : dd < yearLength (2000 - (400 * q + 100 * b + 4 * k + j)) := by
        unfold yearLength
        rw [if_congr hleap rfl rfl]
        split_ifs at hdd' ⊢ <;> omega
      refine Or.inl ⟨?_, ?_, hdd, hlength⟩
      · by_cases hdd0 : dd = 0
        · exact Or.inr hdd0
        · refine Or.inl ?_
          rintro ⟨h, h'⟩
          rw [h100] at h
          rw [h400] at h'
          split_ifs at hdd' <;> omega
      · unfold daysBeforeYear
        split_ifs at hdd' <;> omega
  · split_ifs at hdd' <;> omega
  · unfold setFromEpochDays
    have hneg : epochToY2KDays - x - epochToY2KDays < 0 := by omega
    have hback : -(epochToY2KDays - x - epochToY2KDays) = x := by omega
    simp only [if_pos hneg, hback, hsplit, hchoose]

theorem epochToY2KDays_eq : epochToY2KDays = daysBeforeYear 2000 - daysBeforeYear 1970 := by
  decide

/-- A day belongs to one year only. -/
theorem year_unique {y z a b : ℤ} (h : daysBeforeYear y + a = daysBeforeYear z + b) (ha : 0 ≤ a)
    (ha' : a < yearLength y) (hb : 0 ≤ b) (hb' : b < yearLength z) : y = z ∧ a = b := by
  rcases Int.lt_trichotomy y z with hlt | rfl | hlt
  · have := daysBeforeYear_le hlt
    omega
  · exact ⟨rfl, by omega⟩
  · have := daysBeforeYear_le hlt
    omega

theorem yearLength_of_common {y : ℤ} (hy : IsCommonCentury y) : yearLength y = 365 := by
  obtain ⟨h100, h400⟩ := hy
  exact if_neg fun h => h.2.elim (fun h => h h100) h400

/-- What comes of a year and a day of the year that may be one day ahead. -/
theorem setFromEpochDays_of_split {c : CivilDate} {yy dd : ℤ}
    (hrun : setFromEpochDays c.number = monthLoop yy 13 1 (dd + 1)) (hdd : 0 ≤ dd)
    (hsplit : dd < yearLength yy ∧ daysBeforeYear yy + dd = daysBeforeYear c.year + c.yearDay - 1 ∨
      IsCommonCentury yy ∧ dd ≤ 365 ∧
        daysBeforeYear yy + dd = daysBeforeYear c.year + c.yearDay) :
    yy = c.year ∧ dd + 1 = c.yearDay ∧ dd < yearLength yy ∧
        setFromEpochDays c.number = some (ofCivil c) ∨
      (yy = c.year ∧ dd = c.yearDay ∨ yy = c.year + 1 ∧ dd = 0 ∧ c.yearDay = yearLength c.year) ∧
        IsCommonCentury yy ∧ (setFromEpochDays c.number = none ∨
          ∃ e, setFromEpochDays c.number = some (ofCivil e) ∧ e.number = c.number + 1 ∧
            e.year = yy) := by
  have hday := c.yearDay_bounds
  rcases hsplit with ⟨hlt, hsum⟩ | ⟨hcentury, hle, hsum⟩
  · obtain ⟨hyear, hd⟩ := year_unique (y := yy) (z := c.year) (b := c.yearDay - 1) (by omega)
        hdd hlt
      (by omega) (by omega)
    obtain ⟨e, hey, hed, hloop⟩ := exists_monthLoop_start hdd hlt
    have heq : e = c := by
      apply CivilDate.number_injective
      rw [CivilDate.number_eq, CivilDate.number_eq, hey, hyear]
      omega
    exact Or.inl ⟨hyear, by omega, hlt, by rw [hrun, hloop, heq]⟩
  · have hlength := yearLength_of_common hcentury
    refine Or.inr ⟨?_, hcentury, ?_⟩
    · by_cases hfirst : dd = 0
      · have hprevious := daysBeforeYear_succ (yy - 1)
        have hpos : 0 < yearLength (yy - 1) := by
          unfold yearLength
          split_ifs <;> decide
        rw [Int.sub_add_cancel] at hprevious
        obtain ⟨hyear, hd⟩ := year_unique (y := yy - 1) (a := yearLength (yy - 1) - 1)
          (z := c.year) (b := c.yearDay - 1) (by omega) (by omega) (by omega) (by omega) (by omega)
        exact Or.inr ⟨by omega, hfirst, by rw [← hyear]; omega⟩
      · obtain ⟨hyear, hd⟩ := year_unique (y := yy) (a := dd - 1) (z := c.year)
          (b := c.yearDay - 1) (by omega) (by omega) (by omega) (by omega) (by omega)
        exact Or.inl ⟨hyear, by omega⟩
    · by_cases hlast : dd < 365
      · obtain ⟨e, hey, hed, hloop⟩ := exists_monthLoop_start hdd (hlength.symm ▸ hlast)
        refine Or.inr ⟨e, hrun.trans hloop, ?_, hey⟩
        rw [CivilDate.number_eq, CivilDate.number_eq, hey]
        omega
      · refine Or.inl (hrun.trans (monthLoop_eq_none (by decide) (by decide) (by decide) ?_))
        rw [daysBefore_one, hlength]
        omega

/-- The conversion finds the date, unless it slips: then it fails or gives the
next date. -/
theorem setFromEpochDays_number (c : CivilDate) :
    ¬Slips c ∧ setFromEpochDays c.number = some (ofCivil c) ∨
      Slips c ∧ (setFromEpochDays c.number = none ∨
        ∃ e, setFromEpochDays c.number = some (ofCivil e) ∧ e.number = c.number + 1 ∧
          IsCommonCentury e.year ∧ (e.year = c.year ∨ e.year = c.year + 1)) := by
  have hnumber := c.number_eq
  have hbase := epochToY2KDays_eq
  by_cases hx : 0 ≤ c.number - epochToY2KDays
  · obtain ⟨yy, dd, hsplit, hyy, hrun⟩ := splitsAfter hx
    rw [Int.sub_add_cancel] at hrun
    rcases hsplit with ⟨hcommon, hend, hsum, hdd, hlt⟩ | ⟨hcentury, hsum, hdd, hle⟩
    · rcases setFromEpochDays_of_split hrun hdd (Or.inl ⟨hlt, by omega⟩) with
        ⟨hyear, hday, -, hgood⟩ | ⟨-, hcentury, -⟩
      · refine Or.inl ⟨?_, hgood⟩
        rintro (⟨hcentury, -⟩ | ⟨-, hcentury, hlast⟩)
        · exact hcommon (hyear ▸ hcentury)
        · exact hend ⟨hyear ▸ hcentury, by rw [hday, hyear, hlast]⟩
      · exact absurd hcentury hcommon
    · rcases setFromEpochDays_of_split hrun hdd (Or.inr ⟨hcentury, hle, by omega⟩) with
        ⟨hyear, hday, -, -⟩ | ⟨hwhere, -, hresult⟩
      · rw [hyear] at hsum
        omega
      · refine Or.inr ⟨?_, ?_⟩
        · rcases hwhere with ⟨hyear, hday⟩ | ⟨hyear, -, hlast⟩
          · exact Or.inl ⟨hyear ▸ hcentury, Or.inl (hyear ▸ hyy)⟩
          · refine Or.inr ⟨?_, hyear ▸ hcentury, hlast⟩
            have hne : yy ≠ 2000 := by
              rintro rfl
              exact absurd hcentury (by decide)
            omega
        · rcases hresult with hnone | ⟨e, hrun, he, hey⟩
          · exact Or.inl hnone
          · exact Or.inr ⟨e, hrun, he, hey ▸ hcentury, by omega⟩
  · obtain ⟨yy, dd, hsplit, hyy, hrun⟩ := splitsBefore (x := epochToY2KDays - c.number) (by omega)
    rw [Int.sub_sub_self] at hrun
    rcases hsplit with ⟨hcommon, hsum, hdd, hlt⟩ | ⟨hcentury, hsum, hdd, hle⟩
    · rcases setFromEpochDays_of_split hrun hdd (Or.inl ⟨hlt, by omega⟩) with
        ⟨hyear, hday, -, hgood⟩ | ⟨hwhere, hcentury, -⟩
      · refine Or.inl ⟨?_, hgood⟩
        rintro (⟨hcentury, hlate | hlate⟩ | ⟨hlate, -, -⟩)
        · omega
        · rcases hcommon with hcommon | hfirst
          · exact hcommon (hyear ▸ hcentury)
          · omega
        · omega
      · rcases hwhere with ⟨hyear, hday⟩ | ⟨hyear, hfirst, hlast⟩
        · rw [hyear] at hsum
          omega
        · have hnext := daysBeforeYear_succ c.year
          rw [hyear] at hsum
          omega
    · rcases setFromEpochDays_of_split hrun (by omega) (Or.inr ⟨hcentury, hle, by omega⟩) with
        ⟨hyear, hday, -, -⟩ | ⟨hwhere, -, hresult⟩
      · rw [hyear] at hsum
        omega
      · refine Or.inr ⟨?_, ?_⟩
        · rcases hwhere with ⟨hyear, hday⟩ | ⟨hyear, hfirst, -⟩
          · exact Or.inl ⟨hyear ▸ hcentury, Or.inr (by omega)⟩
          · omega
        · rcases hresult with hnone | ⟨e, hrun, he, hey⟩
          · exact Or.inl hnone
          · exact Or.inr ⟨e, hrun, he, hey ▸ hcentury, by omega⟩

/-- Dates whose day number leads back to them.  In the years up to 0 the day
count is right after leap years only. -/
def Convertible (c : CivilDate) : Prop :=
  (0 < c.year ∨ IsLeapYear (c.year - 1)) ∧ ¬Slips c

instance : DecidablePred Convertible :=
  fun _ => inferInstanceAs (Decidable (_ ∧ _))

/-- The last day of a leap year up to 0 and the day after it have one day count. -/
def SharesDayCount (c e : CivilDate) : Prop :=
  c.year ≤ 0 ∧ IsLeapYear c.year ∧ c.yearDay = yearLength c.year ∧
    e.year = c.year + 1 ∧ e.yearDay = 1

structure IsValid (t : Date) : Prop where
  month_pos : 1 ≤ t.month
  month_le : t.month ≤ 12
  day_pos : 1 ≤ t.day
  day_le : ∃ dim, t.daysInCurrentMonth = some dim ∧ t.day ≤ dim

theorem isValid_ofCivil (hc : IsRepresentable c.year) : (ofCivil c).IsValid := by
  refine ⟨?_, ?_, ?_, monthLength c.year c.month, ?_, ?_⟩
  · rw [month_ofCivil hc]
    exact c.month_pos
  · rw [month_ofCivil hc]
    exact c.month_le
  · rw [day_ofCivil hc]
    exact c.day_pos
  · rw [daysInCurrentMonth, month_ofCivil hc, year_ofCivil hc]
    exact daysInMonth_eq c.month_pos c.month_le
  · rw [day_ofCivil hc]
    exact c.day_le

theorem drift_eq_zero_iff {y : ℤ} : drift y = 0 ↔ 0 < y ∨ IsLeapYear (y - 1) := by
  unfold drift
  by_cases hleap : IsLeapYear (y - 1)
  · rw [if_neg fun h => h.2 hleap]
    exact ⟨fun _ => Or.inr hleap, fun _ => rfl⟩
  · by_cases hy : y ≤ 0
    · rw [if_pos ⟨hy, hleap⟩]
      exact iff_of_false (by decide) fun h => h.elim (fun h => by omega) hleap
    · rw [if_neg fun h => hy h.1]
      exact iff_of_true rfl (Or.inl (by omega))

/-- Common centuries are far from the end of the range. -/
theorem isRepresentable_of_common {y z : ℤ} (hy : IsRepresentable y) (hz : IsCommonCentury z)
    (h : z = y ∨ z = y + 1) : IsRepresentable z := by
  unfold IsRepresentable at hy ⊢
  unfold IsCommonCentury at hz
  omega

/-- The date of a day number, with its day count. -/
theorem setFromEpochDays_iff (hc : IsRepresentable c.year) :
    (∃ t, setFromEpochDays c.number = some t ∧ t.IsValid ∧ t.dayCount = c.number) ↔
      Convertible c := by
  rw [Convertible, ← drift_eq_zero_iff]
  rcases setFromEpochDays_number c with ⟨hslips, hrun⟩ | ⟨hslips, hrun⟩
  · constructor
    · rintro ⟨t, ht, -, hcount⟩
      obtain rfl := Option.some.inj (hrun.symm.trans ht)
      rw [dayCount_ofCivil hc] at hcount
      exact ⟨by omega, hslips⟩
    · rintro ⟨hdrift, -⟩
      refine ⟨ofCivil c, hrun, isValid_ofCivil hc, ?_⟩
      rw [dayCount_ofCivil hc, hdrift, Int.add_zero]
  · refine iff_of_false ?_ fun h => h.2 hslips
    rintro ⟨t, ht, -, hcount⟩
    rcases hrun with hnone | ⟨e, hrun, he, hcentury, hyear⟩
    · rw [hnone] at ht
      exact absurd ht (by simp)
    · obtain rfl := Option.some.inj (hrun.symm.trans ht)
      have hbounds := drift_bounds e.year
      rw [dayCount_ofCivil (isRepresentable_of_common hc hcentury hyear)] at hcount
      omega

/-- What the conversion gives is never a date before the one asked for. -/
theorem number_le_of_setFromEpochDays {t : Date} (h : setFromEpochDays c.number = some t) :
    ∃ e, t = ofCivil e ∧ c.number ≤ e.number ∧ (e = c ∨ IsCommonCentury e.year ∧
      (e.year = c.year ∨ e.year = c.year + 1)) := by
  rcases setFromEpochDays_number c with ⟨-, hrun⟩ | ⟨-, hnone | ⟨e, hrun, he, hcentury, hyear⟩⟩
  · exact ⟨c, (Option.some.inj (hrun.symm.trans h)).symm, Int.le_refl _, Or.inl rfl⟩
  · rw [hnone] at h
    exact absurd h (by simp)
  · exact ⟨e, (Option.some.inj (hrun.symm.trans h)).symm, by omega, Or.inr ⟨hcentury, hyear⟩⟩

/-- The date rebuilt from its day count. -/
theorem setFromEpochDays_dayCount_iff (hc : IsRepresentable c.year) :
    setFromEpochDays (ofCivil c).dayCount = some (ofCivil c) ↔ Convertible c := by
  rw [Convertible, ← drift_eq_zero_iff, dayCount_ofCivil hc]
  by_cases hdrift : drift c.year = 0
  · rw [hdrift, Int.add_zero]
    rcases setFromEpochDays_number c with
      ⟨hslips, hrun⟩ | ⟨hslips, hnone | ⟨e, hrun, he, hcentury, hyear⟩⟩
    · exact iff_of_true hrun ⟨rfl, hslips⟩
    · exact iff_of_false (by rw [hnone]; simp) fun h => h.2 hslips
    · refine iff_of_false (fun h => ?_) fun h => h.2 hslips
      have heq := ofCivil_injective (isRepresentable_of_common hc hcentury hyear) hc
        (Option.some.inj (hrun.symm.trans h))
      rw [heq] at he
      omega
  · refine iff_of_false (fun h => ?_) fun h => hdrift h.1
    have hbounds := drift_bounds c.year
    obtain ⟨next, hnext⟩ := c.exists_next
    rw [show c.number + drift c.year = next.number by omega] at h
    obtain ⟨e, heq, hle, hyear⟩ := number_le_of_setFromEpochDays h
    have hlow : c.year ≤ 0 := by
      by_contra hpos
      exact hdrift (drift_eq_zero_iff.mpr (Or.inl (by omega)))
    have hnear := CivilDate.year_of_number_succ hnext
    have he : IsRepresentable e.year := by
      obtain ⟨hfirst, -⟩ := hc
      rcases hyear with rfl | ⟨-, hyear⟩ <;> constructor <;> omega
    rw [ofCivil_injective hc he heq] at hnext
    omega

/-- A day of the month of `c`. -/
theorem exists_day {k : ℤ} (hk : 1 ≤ k) (hk' : k ≤ monthLength c.year c.month) :
    ∃ e : CivilDate, e.year = c.year ∧ e.month = c.month ∧ e.day = k ∧
      e.number = c.number + (k - c.day) := by
  refine ⟨⟨c.year, c.month, k, c.month_pos, c.month_le, hk, hk'⟩, rfl, rfl, rfl, ?_⟩
  show dayNumber c.year c.month k = dayNumber c.year c.month c.day + (k - c.day)
  unfold dayNumber
  omega

theorem setDay_ofCivil (hc : IsRepresentable c.year) (hy : e.year = c.year)
    (hm : e.month = c.month) : (ofCivil c).setDay e.day = ofCivil e := by
  have hday := e.day_pos
  have hday' := e.day_le
  have hlength := (monthLength_bounds e.year e.month).2
  have hpacks := (packs_ofCivil hc).setDay (k := e.day) (by omega) (by omega)
  rw [← hy, ← hm] at hpacks
  exact congrArg Date.mk (hpacks.unique (packs_ofCivil (hy.symm ▸ hc)))

theorem daysInMonth_ofCivil (hc : IsRepresentable c.year) :
    daysInMonth (ofCivil c).month (ofCivil c).year = some (monthLength c.year c.month) := by
  rw [month_ofCivil hc, year_ofCivil hc, daysInMonth_eq c.month_pos c.month_le]

/-- A day that is cut is no day of the month. -/
theorem int32_day_iff {day k : ℤ} (hday : 1 ≤ day) (hday' : day ≤ 31) (hn : -4200000000 ≤ n)
    (hn' : n ≤ 4200000000) (hk : k ≤ 31) :
    1 ≤ int32 (day + n) ∧ int32 (day + n) ≤ k ↔ 1 ≤ day + n ∧ day + n ≤ k := by
  rw [int32, Int.bmod_def]
  omega

section

variable (hc : IsRepresentable c.year)

include hc

/-- Days are added within the month without the day numbers. -/
theorem addDays_of_same_month (hy : e.year = c.year)
    (hm : e.month = c.month) (hd : e.day = c.day + n) :
    (ofCivil c).addDays n = some (ofCivil e) := by
  rw [addDays]
  by_cases hzero : n = 0
  · subst hzero
    rw [addDaysBy, if_neg (by simp), CivilDate.ext' hy hm (by omega)]
  · have hday : 1 ≤ c.day + n ∧ c.day + n ≤ monthLength c.year c.month := by
      rw [← hd, ← hy, ← hm]
      exact ⟨e.day_pos, e.day_le⟩
    have hlength := monthLength_bounds c.year c.month
    rw [addDaysBy, if_pos hzero, daysInMonth_ofCivil hc, ← setDay_ofCivil hc hy hm, hd,
      day_ofCivil hc, int32_of_mem (by omega) (by omega)]
    simp only [some_bind, if_pos hday]

/-- Out of the month, they are added to the day number. -/
theorem addDays_of_not_same_month (he : IsRepresentable e.year)
    (hn : e.number = (ofCivil c).dayCount + n)
    (hday : ¬(1 ≤ c.day + n ∧ c.day + n ≤ monthLength c.year c.month)) :
    (ofCivil c).addDays n = setFromEpochDays e.number := by
  have hzero : n ≠ 0 := by
    rintro rfl
    rw [Int.add_zero] at hday
    exact hday ⟨c.day_pos, c.day_le⟩
  have hlength := monthLength_bounds c.year c.month
  have hbounds := number_bounds he
  have hbounds' := number_bounds hc
  have hdrift := drift_bounds c.year
  have hpos := c.day_pos
  have hle := c.day_le
  have hcount : epochDays (ofCivil c).year (ofCivil c).month (ofCivil c).day =
      (ofCivil c).dayCount := rfl
  rw [dayCount_ofCivil hc] at hn hcount
  have hout := mt (int32_day_iff (n := n) hpos (by omega) (by omega) (by omega) hlength.2).mp hday
  have hcut : int32 e.number = e.number := int32_of_mem (by omega) (by omega)
  rw [addDays, addDaysBy, if_pos hzero, daysInMonth_ofCivil hc, hcount, day_ofCivil hc, ← hn, hcut]
  simp only [some_bind, if_neg hout]

/-- Adding days moves the day count by their number, when the month stays the
same or the new date is found from its day number. -/
theorem addDays_iff (he : IsRepresentable e.year)
    (hn : e.number = (ofCivil c).dayCount + n) :
    (∃ t, (ofCivil c).addDays n = some t ∧ t.IsValid ∧
        t.dayCount = (ofCivil c).dayCount + n) ↔
      (1 ≤ c.day + n ∧ c.day + n ≤ monthLength c.year c.month) ∨ Convertible e := by
  by_cases hday : 1 ≤ c.day + n ∧ c.day + n ≤ monthLength c.year c.month
  · obtain ⟨new, hy, hm, hd, hnumber⟩ := exists_day hday.1 hday.2
    refine iff_of_true ⟨ofCivil new, addDays_of_same_month hc hy hm hd,
      isValid_ofCivil (hy.symm ▸ hc), ?_⟩ (Or.inl hday)
    rw [dayCount_ofCivil (hy.symm ▸ hc), dayCount_ofCivil hc, hnumber, hy]
    omega
  · rw [addDays_of_not_same_month hc he hn hday, ← hn, setFromEpochDays_iff he]
    exact ⟨Or.inr, fun h => h.resolve_left hday⟩

/-- Dates are in the order of their day counts, but for a day count that two of
them have. -/
theorem isLess_iff_dayCount_lt (he : IsRepresentable e.year) :
    ((ofCivil c).isLess (ofCivil e) = true ↔ (ofCivil c).dayCount < (ofCivil e).dayCount) ↔
      ¬SharesDayCount c e := by
  rw [isLess_ofCivil hc he, ← CivilDate.number_lt_iff, dayCount_ofCivil hc, dayCount_ofCivil he]
  have hcb := drift_bounds c.year
  have heb := drift_bounds e.year
  constructor
  · rintro horder ⟨hy, hleap, hlast, hey, hefirst⟩
    have hnumber : e.number = c.number + 1 := by
      have hnext := daysBeforeYear_succ c.year
      rw [CivilDate.number_eq, CivilDate.number_eq, hey]
      omega
    have hce : drift c.year = 1 := by
      refine if_pos ⟨hy, ?_⟩
      unfold IsLeapYear at hleap ⊢
      omega
    have hee : drift e.year = 0 := by
      rw [drift_eq_zero_iff, hey, Int.add_sub_cancel]
      exact Or.inr hleap
    omega
  · intro hshares
    by_contra horder
    have hne : c.number ≠ e.number := by
      intro heq
      rw [CivilDate.number_injective heq] at horder
      omega
    have hnumber : e.number = c.number + 1 := by omega
    have hee : drift e.year = 0 := by omega
    have hyear : e.year = c.year + 1 := by
      rcases CivilDate.year_of_number_succ hnumber with hy | hy
      · rw [hy] at hee
        omega
      · exact hy
    rw [drift_eq_zero_iff, hyear, Int.add_sub_cancel] at hee
    have hlow : c.year ≤ 0 := by
      by_contra hpos
      have := drift_eq_zero_iff.mpr (Or.inl (show 0 < c.year by omega))
      omega
    have hleap : IsLeapYear c.year := by
      rcases hee with hpos | hleap
      · rw [show c.year = 0 by omega]
        decide
      · exact hleap
    have hcyear := c.yearDay_bounds
    have heyear := e.yearDay_bounds
    have hnext := daysBeforeYear_succ c.year
    rw [CivilDate.number_eq, CivilDate.number_eq, hyear] at hnumber
    exact hshares ⟨hlow, hleap, by omega, hyear, by omega⟩

/-- When the day counts of dates are what they should be. -/
theorem dayCount_conversion_iff :
    ((∃ t, setDayCount c.number = some t ∧ t.IsValid ∧ t.dayCount = c.number) ↔
        Convertible c) ∧
      (setDayCount (ofCivil c).dayCount = some (ofCivil c) ↔ Convertible c) ∧
      (∀ e : CivilDate, IsRepresentable e.year → ∀ n, e.number = (ofCivil c).dayCount + n →
        ((∃ t, (ofCivil c).addDays n = some t ∧ t.IsValid ∧
            t.dayCount = (ofCivil c).dayCount + n) ↔
          (1 ≤ c.day + n ∧ c.day + n ≤ monthLength c.year c.month) ∨ Convertible e)) ∧
      ∀ e : CivilDate, IsRepresentable e.year →
        (((ofCivil c).isLess (ofCivil e) = true ↔
            (ofCivil c).dayCount < (ofCivil e).dayCount) ↔ ¬SharesDayCount c e) :=
  ⟨setFromEpochDays_iff hc, setFromEpochDays_dayCount_iff hc,
    fun _ he _ hn => addDays_iff hc he hn, fun _ he => isLess_iff_dayCount_lt hc he⟩

end

theorem dayCount_conversion_july :
    ∃ t, setDayCount (-165) = some t ∧ t.IsValid ∧ t.dayCount = -165 :=
  (dayCount_conversion_iff
    (c := ⟨1969, 7, 20, by decide, by decide, by decide, by decide⟩) (by decide)).1.mpr (by decide)

/-- 1900 is taken for a leap year, its last day is looked for after December. -/
theorem setDayCount_slip : ¬∀ d, (∃ c : CivilDate, IsRepresentable c.year ∧ c.number = d) →
    ∃ t, setDayCount d = some t ∧ t.IsValid ∧ t.dayCount = d := by
  intro h
  obtain ⟨t, ht, -⟩ := h (-25203)
    ⟨⟨1900, 12, 31, by decide, by decide, by decide, by decide⟩, by decide, by decide⟩
  rw [show setDayCount (-25203) = none by decide] at ht
  exact absurd ht (by simp)

end

end Date

end Gobo
