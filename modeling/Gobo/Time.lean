/-
Times of day (`DT_TIME`), the milliseconds since midnight in one integer of 32 bits.
-/
import Gobo.Integer32
import Mathlib.Data.Int.ModEq
import Mathlib.Tactic.Linarith

namespace Gobo

structure Time where
  storage : ℤ
deriving DecidableEq, Repr

namespace Time

/-- `Day_shift`. -/
def dayShift : ℤ := 86400000

/-- `Hour_shift`. -/
def hourShift : ℤ := 3600000

/-- `Minute_shift`. -/
def minuteShift : ℤ := 60000

/-- `Second_shift`. -/
def secondShift : ℤ := 1000

variable (t : Time)

def hour : ℤ := t.storage.tdiv hourShift

def minute : ℤ := (t.storage.tdiv minuteShift).tmod 60

def second : ℤ := (t.storage.tdiv secondShift).tmod 60

def millisecond : ℤ := t.storage.tmod 1000

/-- What the four additions share: `amount` units are `ms` milliseconds. -/
def addTime (amount ms : ℤ) : Time :=
  if amount ≠ 0 then
    let storage := int32 (t.storage + ms)
    if storage < 0 then ⟨int32 (dayShift - (int32 (-storage)).tmod dayShift)⟩
    else ⟨storage.tmod dayShift⟩
  else t

def addHours (h : ℤ) : Time := t.addTime h (int32 (h * hourShift))

def addMinutes (m : ℤ) : Time := t.addTime m (int32 (m * minuteShift))

def addSeconds (s : ℤ) : Time := t.addTime s (int32 (s * secondShift))

def addMilliseconds (ms : ℤ) : Time := t.addTime ms ms

/-- The invariant of times. -/
structure IsValid : Prop where
  nonneg : 0 ≤ t.storage
  lt : t.storage < 86400000

/-- Hour, minute, second and millisecond are in their ranges. -/
structure InRange : Prop where
  hour_nonneg : 0 ≤ t.hour
  hour_lt : t.hour < 24
  minute_nonneg : 0 ≤ t.minute
  minute_lt : t.minute < 60
  second_nonneg : 0 ≤ t.second
  second_lt : t.second < 60
  millisecond_nonneg : 0 ≤ t.millisecond
  millisecond_lt : t.millisecond < 1000

/-- `u` is the time of day `ms` milliseconds after `t`. -/
structure IsAdded (ms : ℤ) (u : Time) : Prop where
  storage_eq : u.storage = (t.storage + ms) % 86400000
  inRange : u.InRange

/-- What is left of the milliseconds `total` without multiples of `2 ^ 22` days. -/
def withoutDays (total : ℤ) : ℤ := total.bmod (2 ^ 22 * 86400000)

/-- The milliseconds `total` make an `INTEGER` that has an opposite, but for a multiple of `2 ^ 22`
days, and do not lead exactly to the beginning of a day before. -/
def StaysInDay (total : ℤ) : Prop :=
  -2 ^ 31 < withoutDays total ∧ withoutDays total < 2 ^ 31 ∧
    ¬(withoutDays total < 0 ∧ 86400000 ∣ withoutDays total)

instance : DecidablePred StaysInDay := fun _ => inferInstanceAs (Decidable (_ ∧ _ ∧ _))

section

variable {t : Time} {amount ms total : ℤ}

theorem IsValid.inRange (h : t.IsValid) : t.InRange := by
  have h0 := h.nonneg
  have h1 := h.lt
  have htdiv (n : ℤ) : t.storage.tdiv n = t.storage / n := Int.tdiv_eq_ediv_of_nonneg h0
  have hmod (n : ℤ) (hn : 0 ≤ n) : (t.storage / n).tmod 60 = t.storage / n % 60 :=
    Int.tmod_eq_emod_of_nonneg (Int.ediv_nonneg h0 hn)
  constructor <;>
    simp only [hour, minute, second, millisecond, hourShift, minuteShift, secondShift, htdiv,
      hmod _ (show (0 : ℤ) ≤ 60000 by decide), hmod _ (show (0 : ℤ) ≤ 1000 by decide),
      Int.tmod_eq_emod_of_nonneg h0] <;>
    omega

/-- The time of day that is stored for the milliseconds `w`. -/
def normalized (w : ℤ) : ℤ :=
  if w < 0 then int32 (dayShift - (int32 (-w)).tmod dayShift) else w.tmod dayShift

theorem storage_addTime (h : amount ≠ 0) :
    (t.addTime amount ms).storage = normalized (int32 (t.storage + ms)) := by
  rw [addTime, if_pos h, normalized]
  dsimp only
  split
  · rfl
  · rfl

theorem normalized_eq_emod {w : ℤ} (hlow : -2 ^ 31 < w) (hhigh : w < 2 ^ 31)
    (hday : ¬(w < 0 ∧ 86400000 ∣ w)) : normalized w = w % 86400000 := by
  rw [normalized, dayShift]
  split
  · have hopposite : int32 (-w) = -w := int32_of_mem (by omega) (by omega)
    rw [hopposite, Int.tmod_eq_emod_of_nonneg (by omega), int32_of_mem (by omega) (by omega)]
    omega
  · rw [Int.tmod_eq_emod_of_nonneg (by omega)]

/-- Where the total leads exactly to the beginning of a day before, or has no opposite, the time
that is stored is none of the day. -/
theorem le_normalized {w : ℤ} (hlow : -2 ^ 31 ≤ w)
    (h : w = -2 ^ 31 ∨ w < 0 ∧ 86400000 ∣ w) : 86400000 ≤ normalized w := by
  rcases h with rfl | ⟨hneg, hdvd⟩
  · decide
  · have hne : w ≠ -2 ^ 31 := by
      rintro rfl
      exact absurd hdvd (by decide)
    have hopposite : int32 (-w) = -w := int32_of_mem (by omega) (by omega)
    rw [normalized, if_pos hneg, hopposite, dayShift, Int.tmod_eq_emod_of_nonneg (by omega),
      int32_of_mem (by omega) (by omega)]
    omega

/-- What is cut off is a multiple of `2 ^ 32`, which is a number of whole days only if it is a
multiple of `2 ^ 22` days. -/
theorem emod_int32_eq_iff (total : ℤ) :
    int32 total % 86400000 = total % 86400000 ↔ int32 total = withoutDays total := by
  have hmem := int32_mem total
  obtain ⟨k, hk⟩ : (4294967296 : ℤ) ∣ total - int32 total := Int.dvd_self_sub_bmod
  obtain ⟨j, hj⟩ : (362387865600000 : ℤ) ∣ total - withoutDays total := Int.dvd_self_sub_bmod
  have hlow : -181193932800000 ≤ withoutDays total := Int.le_bmod (by decide)
  have hhigh : withoutDays total < 181193932800000 := Int.bmod_lt (by decide)
  generalize int32 total = w at *
  generalize withoutDays total = r at *
  constructor
  · intro h
    have hdays : (86400000 : ℤ) ∣ 4294967296 * k := by
      rw [← hk]
      exact Int.ModEq.dvd h
    obtain ⟨l, rfl⟩ : (84375 : ℤ) ∣ k :=
      Int.dvd_of_dvd_mul_right_of_gcd_one (dvd_trans (by decide) hdays) (by decide)
    have hmultiple : w - r = 362387865600000 * (j - l) := by
      rw [mul_sub]
      linarith
    have hzero : j - l = 0 := by
      clear hj hk h
      omega
    rw [hzero] at hmultiple
    linarith
  · rintro rfl
    have hdays : (86400000 : ℤ) ∣ total - w := hj ▸ dvd_mul_of_dvd_left (by decide) j
    exact Int.modEq_iff_dvd.mpr hdays

theorem normalized_int32_iff (total : ℤ) :
    normalized (int32 total) = total % 86400000 ↔ StaysInDay total := by
  have hmem := int32_mem total
  constructor
  · intro h
    have hlt : total % 86400000 < 86400000 := Int.emod_lt_of_pos total (by decide)
    have hin : ¬(int32 total = -2 ^ 31 ∨ int32 total < 0 ∧ 86400000 ∣ int32 total) := by
      intro hout
      exact absurd (le_normalized hmem.1 hout) (by rw [h]; exact not_le.mpr hlt)
    have hlow : -2 ^ 31 < int32 total := lt_of_le_of_ne hmem.1 fun heq => hin (Or.inl heq.symm)
    have hday : ¬(int32 total < 0 ∧ 86400000 ∣ int32 total) := fun hout => hin (Or.inr hout)
    have heq : int32 total = withoutDays total := by
      apply (emod_int32_eq_iff total).mp
      rw [← h, normalized_eq_emod hlow hmem.2 hday]
    rw [StaysInDay, ← heq]
    exact ⟨hlow, hmem.2, hday⟩
  · rintro ⟨hlow, hhigh, hday⟩
    have heq : int32 total = withoutDays total := by
      rw [← int32_of_mem hlow.le hhigh]
      exact (Int.bmod_bmod_of_dvd (by decide)).symm
    rw [← (emod_int32_eq_iff total).mpr heq, heq]
    exact normalized_eq_emod hlow hhigh hday

theorem staysInDay_of_isValid (h : t.IsValid) : StaysInDay t.storage := by
  have h0 := h.nonneg
  have h1 := h.lt
  have heq : withoutDays t.storage = t.storage :=
    Int.bmod_eq_of_le (by omega) (by omega)
  rw [StaysInDay, heq]
  exact ⟨by omega, by omega, fun hneg => absurd hneg.1 (by omega)⟩

/-- `amount` units are `ms` milliseconds, which are cut to `cut`. -/
theorem addTime_iff {cut : ℤ} (h : t.IsValid) (hzero : amount = 0 → ms = 0)
    (hcut : int32 (t.storage + cut) = int32 (t.storage + ms)) :
    t.IsAdded ms (t.addTime amount cut) ↔ StaysInDay (t.storage + ms) := by
  have hparts : ∀ u : Time, u.storage = (t.storage + ms) % 86400000 → u.InRange := by
    intro u hu
    apply IsValid.inRange
    constructor
    · rw [hu]
      exact Int.emod_nonneg _ (by decide)
    · rw [hu]
      exact Int.emod_lt_of_pos _ (by decide)
  have hadded : t.IsAdded ms (t.addTime amount cut) ↔
      (t.addTime amount cut).storage = (t.storage + ms) % 86400000 :=
    ⟨fun hu => hu.storage_eq, fun hu => ⟨hu, hparts _ hu⟩⟩
  rw [hadded]
  rcases eq_or_ne amount 0 with rfl | hne
  · rw [addTime, if_neg (not_not_intro rfl), hzero rfl, add_zero]
    exact iff_of_true (Int.emod_eq_of_lt h.nonneg h.lt).symm (staysInDay_of_isValid h)
  · rw [storage_addTime hne, hcut]
    exact normalized_int32_iff (t.storage + ms)

/-- When the four additions move a time by what they are given. -/
theorem isAdded_iff (h : t.IsValid) :
    (∀ hours, t.IsAdded (hours * 3600000) (t.addHours hours) ↔
      StaysInDay (t.storage + hours * 3600000)) ∧
    (∀ minutes, t.IsAdded (minutes * 60000) (t.addMinutes minutes) ↔
      StaysInDay (t.storage + minutes * 60000)) ∧
    (∀ seconds, t.IsAdded (seconds * 1000) (t.addSeconds seconds) ↔
      StaysInDay (t.storage + seconds * 1000)) ∧
    ∀ ms, t.IsAdded ms (t.addMilliseconds ms) ↔ StaysInDay (t.storage + ms) := by
  refine ⟨fun hours => ?_, fun minutes => ?_, fun seconds => ?_, fun ms => ?_⟩
  · exact addTime_iff h (fun hzero => by rw [hzero, zero_mul]) (int32_add_int32 _ _)
  · exact addTime_iff h (fun hzero => by rw [hzero, zero_mul]) (int32_add_int32 _ _)
  · exact addTime_iff h (fun hzero => by rw [hzero, zero_mul]) (int32_add_int32 _ _)
  · exact addTime_iff h (fun hzero => hzero) rfl

/-- An hour before half past midnight it is half past eleven. -/
theorem isAdded_iff_halfPast : (⟨1800000⟩ : Time).IsAdded (-1 * 3600000)
    ((⟨1800000⟩ : Time).addHours (-1)) :=
  ((isAdded_iff ⟨by decide, by decide⟩).1 (-1)).mpr (by decide)

/-- A day before midnight is a time of 24 hours. -/
theorem addHours_midnight : ¬∀ (t : Time) (hours : ℤ), t.IsValid → -2 ^ 31 ≤ hours →
    hours < 2 ^ 31 → t.IsAdded (hours * 3600000) (t.addHours hours) := by
  intro h
  have hmidnight := h ⟨0⟩ (-24) ⟨by decide, by decide⟩ (by decide) (by decide)
  exact absurd hmidnight.storage_eq (by decide)

end

end Time

end Gobo
