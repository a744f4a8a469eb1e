/-
What `clean_up` is to make of a decimal number, and the numbers of which it makes that.
-/
import Gobo.DecimalCleanUp

namespace Gobo

open Option

section

variable {N : ℕ} {e j : ℤ}

theorem zpow_le_mul_zpow (hN : N ≠ 0) : (10 : ℚ) ^ (e + Nat.log 10 N) ≤ N * (10 : ℚ) ^ e := by
  have hle : ((10 ^ Nat.log 10 N : ℕ) : ℚ) ≤ N := Nat.cast_le.mpr (Nat.pow_log_le_self 10 hN)
  have hpos : (0 : ℚ) < 10 ^ e := zpow_pos (by norm_num) e
  rw [add_comm, zpow_add₀ (by norm_num), zpow_natCast]
  push_cast at hle
  exact mul_le_mul_of_nonneg_right hle hpos.le

theorem mul_zpow_lt_zpow : (N : ℚ) * (10 : ℚ) ^ e < 10 ^ (e + Nat.log 10 N + 1) := by
  have hlt : (N : ℚ) < (10 ^ (Nat.log 10 N + 1) : ℕ) :=
    Nat.cast_lt.mpr (Nat.lt_pow_succ_log_self (by decide) N)
  have hpos : (0 : ℚ) < 10 ^ e := zpow_pos (by norm_num) e
  rw [add_assoc, add_comm, zpow_add₀ (by norm_num)]
  push_cast at hlt
  exact mul_lt_mul_of_pos_right (by exact_mod_cast hlt) hpos

/-- The position of the first digit tells whether a number is below a power of ten. -/
theorem mul_zpow_lt_zpow_iff (hN : N ≠ 0) :
    (N : ℚ) * (10 : ℚ) ^ e < 10 ^ j ↔ e + Nat.log 10 N < j := by
  constructor
  · intro h
    exact (zpow_lt_zpow_iff_right₀ (by norm_num)).mp ((zpow_le_mul_zpow hN).trans_lt h)
  · intro h
    exact mul_zpow_lt_zpow.trans_le (zpow_le_zpow_right₀ (by norm_num) h)

end

namespace Decimal

/-- The numbers that fit: they have at most the digits of the context, and their exponents are
within the limits. -/
def Fits (ctx : DecimalContext) (w : ℚ) : Prop :=
  ∃ (M : ℕ) (e : ℤ), M < 10 ^ ctx.digits ∧ ctx.eTiny ≤ e ∧
    e + (ctx.digits - 1) ≤ ctx.exponentLimit ∧ w = M * (10 : ℚ) ^ e

/-- The largest finite number. -/
def largest (ctx : DecimalContext) : ℚ :=
  (10 ^ ctx.digits - 1 : ℕ) * (10 : ℚ) ^ (ctx.exponentLimit - (ctx.digits - 1))

/-- A rounded number that is above the limit becomes infinity or the largest finite number. -/
def Limited (ctx : DecimalContext) (isNegative : Bool) (r : ℚ) (d : Decimal) : Prop :=
  if r < 10 ^ (ctx.exponentLimit + 1) then d.special = .none ∧ d.magnitude = r
  else if toLargest ctx.roundingMode isNegative then
    d.special = .none ∧ d.magnitude = largest ctx
  else d.special = .infinity

/-- What `clean_up` is to make of a number with the magnitude `w`. -/
structure CleanedUp (ctx : DecimalContext) (isNegative : Bool) (w : ℚ) (d : Decimal) : Prop where
  isNegative_eq : d.isNegative = isNegative
  fits : Fits ctx w → d.special = .none ∧ d.magnitude = w
  below : w < 10 ^ (-ctx.exponentLimit) → d.special = .none ∧
    ∃ m : ℕ, ctx.roundingMode.roundNat isNegative (w / 10 ^ ctx.eTiny) = some m ∧
      d.magnitude = m * 10 ^ ctx.eTiny
  within : 10 ^ (-ctx.exponentLimit) ≤ w →
    ∃ r, ctx.roundingMode.roundMagnitude isNegative 10 ctx.digits w = some r ∧
      Limited ctx isNegative r d

section

variable {ctx : DecimalContext} {isNegative : Bool} {w : ℚ} {d : Decimal} {N : ℕ} {e : ℤ}

/-- A number that fits is its own rounding. -/
theorem cleanedUp_iff : CleanedUp ctx isNegative w d ↔ d.isNegative = isNegative ∧
    (w < 10 ^ (-ctx.exponentLimit) → d.special = .none ∧
      ∃ m : ℕ, ctx.roundingMode.roundNat isNegative (w / 10 ^ ctx.eTiny) = some m ∧
        d.magnitude = m * 10 ^ ctx.eTiny) ∧
    (10 ^ (-ctx.exponentLimit) ≤ w →
      ∃ r, ctx.roundingMode.roundMagnitude isNegative 10 ctx.digits w = some r ∧
        Limited ctx isNegative r d) := by
  constructor
  · exact fun h => ⟨h.isNegative_eq, h.below, h.within⟩
  · rintro ⟨hneg, hbelow, hwithin⟩
    refine ⟨hneg, ?_, hbelow, hwithin⟩
    rintro ⟨M, e, hM, htiny, htop, rfl⟩
    rcases lt_or_ge ((M : ℚ) * 10 ^ e) (10 ^ (-ctx.exponentLimit)) with hlt | hge
    · obtain ⟨hspecial, m, hround, hvalue⟩ := hbelow hlt
      have hscale : (M : ℚ) * 10 ^ e = (M * 10 ^ (e - ctx.eTiny).toNat : ℕ) * 10 ^ ctx.eTiny := by
        have he : e = (e - ctx.eTiny).toNat + ctx.eTiny := by omega
        conv_lhs => rw [he, zpow_add₀ (by norm_num), zpow_natCast, ← mul_assoc]
        push_cast
        rfl
      rw [hscale, mul_div_cancel_right₀ _ (zpow_ne_zero _ (by norm_num)),
        RoundingMode.roundNat_natCast, some.injEq] at hround
      exact ⟨hspecial, by rw [hvalue, ← hround, hscale]⟩
    · obtain ⟨r, hround, hlimited⟩ := hwithin hge
      have hM0 : M ≠ 0 := by
        rintro rfl
        rw [Nat.cast_zero, zero_mul] at hge
        exact absurd hge (not_le_of_gt (zpow_pos (by norm_num) _))
      have hshort : Nat.log 10 M < ctx.digits := Nat.log_lt_of_lt_pow hM0 hM
      rw [← Nat.cast_ofNat (R := ℚ) (n := 10),
        RoundingMode.roundMagnitude_of_short (by decide) hshort, some.injEq] at hround
      subst hround
      rw [Nat.cast_ofNat, Limited, if_pos ((mul_zpow_lt_zpow_iff hM0).mpr (by omega))] at hlimited
      exact hlimited

/-- Zero stays zero. -/
theorem cleanedUp_zero_iff : CleanedUp ctx isNegative 0 d ↔
    d.isNegative = isNegative ∧ d.special = .none ∧ d.magnitude = 0 := by
  have hpos : (0 : ℚ) < 10 ^ (-ctx.exponentLimit) := zpow_pos (by norm_num) _
  have hzero : ctx.roundingMode.roundNat isNegative (0 : ℚ) = some 0 := by
    rw [← Nat.cast_zero, RoundingMode.roundNat_natCast]
  rw [cleanedUp_iff]
  constructor
  · rintro ⟨hneg, hbelow, -⟩
    obtain ⟨hspecial, m, hround, hvalue⟩ := hbelow hpos
    rw [zero_div, hzero, some.injEq] at hround
    rw [← hround, Nat.cast_zero, zero_mul] at hvalue
    exact ⟨hneg, hspecial, hvalue⟩
  · rintro ⟨hneg, hspecial, hvalue⟩
    refine ⟨hneg, fun _ => ⟨hspecial, 0, by rw [zero_div, hzero], ?_⟩, fun hge => ?_⟩
    · rw [hvalue, Nat.cast_zero, zero_mul]
    · exact absurd hge (not_le_of_gt hpos)

theorem cleanedUp_iff_below (hN : N ≠ 0) (hlt : e + Nat.log 10 N < -ctx.exponentLimit) :
    CleanedUp ctx isNegative (N * (10 : ℚ) ^ e) d ↔ d.isNegative = isNegative ∧
      d.special = .none ∧ ∃ m : ℕ,
        ctx.roundingMode.roundNat isNegative (N * (10 : ℚ) ^ e / 10 ^ ctx.eTiny) = some m ∧
          d.magnitude = m * 10 ^ ctx.eTiny := by
  have hw := (mul_zpow_lt_zpow_iff hN).mpr hlt
  rw [cleanedUp_iff]
  exact ⟨fun h => ⟨h.1, h.2.1 hw⟩, fun h => ⟨h.1, fun _ => h.2, fun hge => absurd hw hge.not_gt⟩⟩

theorem cleanedUp_iff_within (hN : N ≠ 0) (hle : -ctx.exponentLimit ≤ e + Nat.log 10 N) :
    CleanedUp ctx isNegative (N * (10 : ℚ) ^ e) d ↔ d.isNegative = isNegative ∧
      ∃ r, ctx.roundingMode.roundMagnitude isNegative 10 ctx.digits (N * (10 : ℚ) ^ e) = some r ∧
        Limited ctx isNegative r d := by
  have hw : (10 : ℚ) ^ (-ctx.exponentLimit) ≤ N * (10 : ℚ) ^ e :=
    le_of_not_gt fun h => absurd ((mul_zpow_lt_zpow_iff hN).mp h) hle.not_gt
  rw [cleanedUp_iff]
  exact ⟨fun h => ⟨h.1, h.2.2 hw⟩, fun h => ⟨h.1, fun hlt => absurd hw hlt.not_ge, fun _ => h.2⟩⟩

section

variable (ctx : DecimalContext) (isNegative : Bool) (N : ℕ) (e : ℤ)

/-- Where a number below the normal range is rounded as it should be. -/
def CleansBelow : Prop := ctx.eTiny ≤ e ∨ ctx.roundingMode ≠ .unnecessary ∧
    (e + Nat.log 10 N < ctx.eTiny - 1 → (ctx.roundingMode = .ceiling ∧ isNegative = false ∨
      ctx.roundingMode = .floor ∧ isNegative = true) → N % 10 ≠ 0) ∧
    (ctx.eTiny ≤ e + Nat.log 10 N → 2 ^ 31 ≤ -ctx.exponentLimit - e + 1 →
      ctx.roundingMode.roundNat isNegative ((N : ℚ) / (10 ^ (ctx.eTiny - e).toNat : ℕ)) =
          some (10 ^ (ctx.digits - 1)) ∧
        ctx.roundingMode.roundNat isNegative
          ((N : ℚ) / (10 ^ (Nat.log 10 N + 1 - ctx.digits) : ℕ)) = some (10 ^ ctx.digits))

/-- Where a number that is not below the normal range is rounded as it should be. -/
def CleansWithin : Prop := e + Nat.log 10 N < 2 ^ 31 ∧
    (ctx.roundingMode = .unnecessary → e + Nat.log 10 N ≤ ctx.exponentLimit →
      N % 10 ^ (Nat.log 10 N + 1 - ctx.digits) = 0) ∧
    (toLargest ctx.roundingMode isNegative = true → ctx.exponentLimit < e + Nat.log 10 N →
      0 ≤ e + (Nat.log 10 N + 1 - ctx.digits : ℕ)) ∧
    (ctx.roundingMode.roundNat isNegative
        ((N : ℚ) / (10 ^ (Nat.log 10 N + 1 - ctx.digits) : ℕ)) = some (10 ^ ctx.digits) →
      e + Nat.log 10 N + 1 < 2 ^ 31)

/-- The numbers of which `clean_up` makes what it should. -/
def CleansUp : Prop :=
  if N = 0 then ctx.roundingMode = .up → ctx.eTiny - 1 ≤ e
  else if e + Nat.log 10 N < -ctx.exponentLimit then CleansBelow ctx isNegative N e
  else CleansWithin ctx isNegative N e

end

theorem Shows.magnitude_eTiny {M n k : ℕ} (h : d.Shows isNegative M n k ctx.eTiny) :
    d.magnitude = M * (10 : ℚ) ^ ctx.eTiny := by
  have hmem := int32_mem (-ctx.exponentLimit - (ctx.digits - 1))
  exact h.magnitude_eq hmem.1 hmem.2

theorem mul_zpow_div_zpow {t : ℤ} (h : e ≤ t) :
    (N : ℚ) * 10 ^ e / 10 ^ t = N / (10 ^ (t - e).toNat : ℕ) := by
  have ht : t = e + (t - e).toNat := by omega
  conv_lhs => rw [ht, zpow_add₀ (by norm_num), zpow_natCast, mul_comm (N : ℚ)]
  rw [mul_div_mul_left _ _ (zpow_ne_zero _ (by norm_num))]
  push_cast
  rfl

/-- A number that is cut at the least exponent. -/
theorem cleanedUp_iff_eTiny (hN : N ≠ 0) (hlt : e + Nat.log 10 N < -ctx.exponentLimit)
    (htiny : e < ctx.eTiny) {M n k : ℕ} (hd : d.Shows isNegative M n k ctx.eTiny) :
    CleanedUp ctx isNegative (N * (10 : ℚ) ^ e) d ↔
      ctx.roundingMode.roundNat isNegative ((N : ℚ) / (10 ^ (ctx.eTiny - e).toNat : ℕ)) =
        some M := by
  rw [cleanedUp_iff_below hN hlt, mul_zpow_div_zpow htiny.le, hd.magnitude_eTiny]
  constructor
  · rintro ⟨-, -, m, hround, hvalue⟩
    have hm : M = m := Nat.cast_injective
      (mul_right_cancel₀ (zpow_ne_zero _ (by norm_num)) hvalue)
    rw [hround, hm]
  · exact fun hround => ⟨hd.isNegative_eq, hd.special_eq, M, hround, rfl⟩

/-- A number that is below a tenth of the least one. -/
theorem roundNat_eq_digitBelow_iff {mode : RoundingMode} {a : ℕ} (hN : N ≠ 0)
    (hlog : Nat.log 10 N + 1 < a) :
    mode.roundNat isNegative ((N : ℚ) / (10 ^ a : ℕ)) = some (digitBelow mode isNegative N) ↔
      mode ≠ .unnecessary ∧ ((mode = .ceiling ∧ isNegative = false ∨
        mode = .floor ∧ isNegative = true) → N % 10 ≠ 0) := by
  have hpow : 10 * 10 ^ (Nat.log 10 N + 1) ≤ 10 ^ a := by
    rw [← pow_succ']
    exact Nat.pow_le_pow_right (by decide) hlog
  have hlt := Nat.lt_pow_succ_log_self (b := 10) (by decide) N
  have hside : compare (2 * N) (10 ^ a) = .lt := compare_lt_iff_lt.mpr (by omega)
  rw [RoundingMode.roundNat_div (by omega), Nat.mod_eq_of_lt (by omega), if_neg hN, hside,
    Nat.div_eq_of_lt (by omega)]
  cases mode <;> cases isNegative <;> simp [RoundingMode.bumps, digitBelow]

/-- Where rounding is not permitted the digits stay, but not the exponent. -/
theorem roundNat_unnecessary_ne {a : ℕ} (hN : N ≠ 0) (ha : 0 < a) :
    RoundingMode.unnecessary.roundNat isNegative ((N : ℚ) / (10 ^ a : ℕ)) ≠ some N := by
  rw [RoundingMode.roundNat_div (Nat.pow_pos (by decide))]
  split_ifs with hzero
  · intro heq
    have hlt := Nat.div_lt_self (Nat.pos_of_ne_zero hN) (Nat.one_lt_pow (n := a) (by omega)
      (show 1 < 10 by decide))
    exact hlt.ne (some.inj heq)
  · exact fun h => nomatch h

theorem Settles.roundNat_iff {mode : RoundingMode} {a M : ℕ} {e' : ℤ}
    (h : Settles mode isNegative N a e M e') (hN : N ≠ 0) (ha : 0 < a) :
    mode.roundNat isNegative ((N : ℚ) / (10 ^ a : ℕ)) = some M ↔ mode ≠ .unnecessary := by
  rw [Settles] at h
  split_ifs at h with hmode
  · rw [h.1, hmode]
    exact ⟨fun hround => absurd hround (roundNat_unnecessary_ne hN ha), fun hne => absurd rfl hne⟩
  · exact ⟨fun _ => hmode, fun _ => h.1⟩

/-- The greatest numbers below the normal range are rounded to the least one of it, even where too
many digits are kept. -/
theorem Carries.roundNat_iff {mode : RoundingMode} {a b p M : ℕ} {e' : ℤ}
    (h : Carries mode isNegative N b p e M e') (hN : N ≠ 0) (hb : Nat.log 10 N + 1 = b + p)
    (hb' : 0 < b) (hp : 1 < p) (hab : b < a) (hlog : Nat.log 10 N < p - 1 + a) :
    mode.roundNat isNegative ((N : ℚ) / (10 ^ a : ℕ)) = some M ↔ mode ≠ .unnecessary ∧
      mode.roundNat isNegative ((N : ℚ) / (10 ^ a : ℕ)) = some (10 ^ (p - 1)) ∧
      mode.roundNat isNegative ((N : ℚ) / (10 ^ b : ℕ)) = some (10 ^ p) := by
  by_cases hmode : mode = .unnecessary
  · rw [Carries, if_pos hmode] at h
    rw [h.1, hmode]
    exact ⟨fun hround => absurd hround (roundNat_unnecessary_ne hN (by omega)),
      fun hne => absurd rfl hne.1⟩
  · rw [Carries, if_neg hmode] at h
    obtain ⟨m, hround, h⟩ := h
    constructor
    · intro hM
      have hlow := (pow_le_div hb hb' (by omega)).trans (le_roundNat hround)
      have hup : M ≤ 10 ^ (p - 1) := by
        refine roundNat_le ?_ hM
        rw [← pow_add]
        exact Nat.lt_pow_of_log_lt (by decide) hlog
      rcases h with ⟨hlt, rfl, -⟩ | ⟨rfl, rfl, -⟩
      · -- The digits that are kept are more than those that should be.
        have heq : M = 10 ^ (p - 1) := le_antisymm hup hlow
        have hten : 10 ^ (p - 1) = 10 * 10 ^ (p - 2) := by
          rw [← pow_succ']
          congr 1
          omega
        have hpos : 0 < 10 ^ (p - 2) := Nat.pow_pos (by decide)
        have hdiv : N < 10 ^ b * (10 ^ (p - 1) + 1) := by
          have := Nat.lt_mul_div_succ N (Nat.pow_pos (n := b) (show 0 < 10 by decide))
          exact this.trans_le (Nat.mul_le_mul_left _
            (Nat.succ_le_succ ((le_roundNat hround).trans heq.le)))
        have hN' : N < (10 ^ (p - 2) + 1) * 10 ^ a := by
          calc N < 10 ^ b * (10 ^ (p - 1) + 1) := hdiv
            _ ≤ 10 ^ b * (10 * (10 ^ (p - 2) + 1)) := Nat.mul_le_mul_left _ (by omega)
            _ = (10 ^ (p - 2) + 1) * 10 ^ (b + 1) := by ring
            _ ≤ _ := Nat.mul_le_mul_left _ (Nat.pow_le_pow_right (by decide) hab)
        have hM' := roundNat_le hN' hM
        omega
      · exact ⟨hmode, hM, hround⟩
    · rintro ⟨-, ha, hb⟩
      rw [hround, some.injEq] at hb
      rcases h with ⟨hlt, -, -⟩ | ⟨-, rfl, -⟩
      · exact absurd hb hlt.ne
      · exact ha

/-- A number that is below the normal range and a multiple of the least one. -/
theorem cleanedUp_of_shows {n k : ℕ} (hN : N ≠ 0) (hlt : e + Nat.log 10 N < -ctx.exponentLimit)
    (htiny : ctx.eTiny ≤ e) (hlow : -2 ^ 31 ≤ e) (hhigh : e < 2 ^ 31)
    (hd : d.Shows isNegative N n k e) : CleanedUp ctx isNegative (N * (10 : ℚ) ^ e) d := by
  have hscale : (N : ℚ) * 10 ^ e = (N * 10 ^ (e - ctx.eTiny).toNat : ℕ) * 10 ^ ctx.eTiny := by
    have he : e = (e - ctx.eTiny).toNat + ctx.eTiny := by omega
    conv_lhs => rw [he, zpow_add₀ (by norm_num), zpow_natCast, ← mul_assoc]
    push_cast
    rfl
  rw [cleanedUp_iff_below hN hlt, hd.magnitude_eq hlow hhigh, hscale,
    mul_div_cancel_right₀ _ (zpow_ne_zero _ (by norm_num)), RoundingMode.roundNat_natCast]
  exact ⟨hd.isNegative_eq, hd.special_eq, _, rfl, rfl⟩

variable {n k : ℕ}

/-- `clean_up` below the normal range. -/
theorem Shows.cleanUp_cleansBelow (h : d.Shows isNegative N n k e) (hctx : ctx.Valid) (hN : N ≠ 0)
    (hlow : -2 ^ 31 ≤ e) (hlt : e + Nat.log 10 N < -ctx.exponentLimit) :
    d.cleanUp.Meets ctx
      (fun d' ctx' => (CleanedUp ctx isNegative (N * (10 : ℚ) ^ e) d' ↔
        CleansBelow ctx isNegative N e) ∧ ctx.SameSettings ctx')
      (LeavesSettings (cleaning ctx) N e) := by
  have hnonneg := hctx.exponentLimit_nonneg
  have hT := hctx.eTiny_eq
  have hdigits := hctx.digits_le
  rw [DecimalContext.maximumDigits] at hdigits
  have hu : Underflows ctx N e := ⟨hctx, hlow, hlt⟩
  rcases le_or_gt ctx.eTiny e with htiny | htiny
  · have hunder : int32 (e + Nat.log 10 N) < -ctx.exponentLimit := by
      rwa [int32_of_mem (by omega) (by omega)]
    apply (h.cleanUp_subnormal hlow (by omega) hunder htiny).mono _ fun _ h => h
    rintro d' ctx' ⟨hd', hctx'⟩
    exact ⟨iff_of_true (cleanedUp_of_shows hN hlt htiny hlow (by omega) hd') (Or.inl htiny), hctx'⟩
  rw [CleansBelow, or_iff_right htiny.not_ge]
  rcases lt_or_ge (e + Nat.log 10 N) (ctx.eTiny - 1) with hbelow | hshare
  · -- All digits are below the least one.
    apply (h.cleanUp_below hu hbelow).mono _ fun _ h => h
    rintro d' ctx' ⟨hd', hctx'⟩
    refine ⟨?_, hctx'⟩
    rw [cleanedUp_iff_eTiny hN hlt htiny hd', roundNat_eq_digitBelow_iff hN (by omega)]
    exact ⟨fun h => ⟨h.1, fun _ => h.2, fun hle => absurd hbelow (by omega)⟩,
      fun h => ⟨h.1, h.2.1 hbelow⟩⟩
  rcases lt_or_ge (e + Nat.log 10 N) ctx.eTiny with hjust | hreach
  · -- The first digit is the one below the least one.
    apply (h.cleanUp_shared hu htiny hshare fun hle => absurd hjust hle.not_gt).mono _ fun _ h => h
    rintro d' ctx' ⟨⟨M, k', e', hd', hsettles⟩, hctx'⟩
    refine ⟨?_, hctx'⟩
    rw [cleanedUp_iff_eTiny hN hlt htiny hd', hsettles.roundNat_iff hN (by omega)]
    exact ⟨fun h => ⟨h, fun hlt' => absurd hlt' hshare.not_gt, fun hle => absurd hjust hle.not_gt⟩,
      fun h => h.1⟩
  rcases lt_or_ge (-ctx.exponentLimit - e + 1) (2 ^ 31) with hupto | hupto
  · apply (h.cleanUp_shared hu htiny hshare fun _ => hupto).mono _ fun _ h => h
    rintro d' ctx' ⟨⟨M, k', e', hd', hsettles⟩, hctx'⟩
    refine ⟨?_, hctx'⟩
    rw [cleanedUp_iff_eTiny hN hlt htiny hd', hsettles.roundNat_iff hN (by omega)]
    exact ⟨fun h => ⟨h, fun hlt' => absurd hlt' hshare.not_gt,
      fun _ hle => absurd hupto hle.not_gt⟩, fun h => h.1⟩
  · -- The number of digits that are to be put in front is too great.
    apply (h.cleanUp_wrapped hu hreach hupto).mono _ fun _ h => h
    rintro d' ctx' ⟨⟨M, k', e', hd', hcarries⟩, hctx'⟩
    refine ⟨?_, hctx'⟩
    rw [cleanedUp_iff_eTiny hN hlt htiny hd',
      hcarries.roundNat_iff hN (by omega) (by omega) (by omega) (by omega) (by omega)]
    exact ⟨fun h => ⟨h.1, fun hlt' => absurd hlt' hshare.not_gt, fun _ _ => h.2⟩,
      fun h => ⟨h.1, h.2.2 hreach hupto⟩⟩

theorem Shows.magnitude_int32 (h : d.Shows isNegative N n k e) :
    d.magnitude = N * (10 : ℚ) ^ int32 e := by
  rw [magnitude, h.coefficient.toNat_eq, h.exponent_eq]

theorem log_eq_of_mul_zpow_eq {M : ℕ} {E : ℤ} (hN : N ≠ 0) (hM : M ≠ 0)
    (heq : (N : ℚ) * 10 ^ e = M * 10 ^ E) : e + Nat.log 10 N = E + Nat.log 10 M := by
  have hiff : ∀ j : ℤ, e + Nat.log 10 N < j ↔ E + Nat.log 10 M < j := fun j => by
    rw [← mul_zpow_lt_zpow_iff hN, heq, mul_zpow_lt_zpow_iff hM]
  have hle := (hiff (E + Nat.log 10 M + 1)).mpr (by omega)
  have hge := (hiff (e + Nat.log 10 N + 1)).mp (by omega)
  omega

theorem limited_iff (hN : N ≠ 0) : Limited ctx isNegative (N * (10 : ℚ) ^ e) d ↔
    if e + Nat.log 10 N ≤ ctx.exponentLimit then
      d.special = .none ∧ d.magnitude = N * (10 : ℚ) ^ e
    else if toLargest ctx.roundingMode isNegative then
      d.special = .none ∧ d.magnitude = largest ctx
    else d.special = .infinity := by
  have hiff : (N : ℚ) * 10 ^ e < 10 ^ (ctx.exponentLimit + 1) ↔
      e + Nat.log 10 N ≤ ctx.exponentLimit := by
    rw [mul_zpow_lt_zpow_iff hN, Int.lt_add_one_iff]
  simp only [Limited, hiff]

theorem log_nines {p : ℕ} (hp : 0 < p) : 10 ^ p - 1 ≠ 0 ∧ Nat.log 10 (10 ^ p - 1) = p - 1 := by
  obtain ⟨q, rfl⟩ : ∃ q, p = q + 1 := ⟨p - 1, by omega⟩
  have hpos : 0 < 10 ^ q := Nat.pow_pos (by decide)
  rw [Nat.add_sub_cancel]
  exact ⟨by omega, Nat.log_eq_of_pow_le_of_lt_pow (by omega) (by omega)⟩

/-- A number that is rounded does not lose its first digit. -/
theorem exists_roundMagnitude {mode : RoundingMode} {p : ℕ} {r : ℚ} (hN : N ≠ 0) (hp : 0 < p)
    (hround : mode.roundMagnitude isNegative 10 p (N * (10 : ℚ) ^ e) = some r) :
    ∃ (M : ℕ) (E : ℤ), M ≠ 0 ∧ r = M * (10 : ℚ) ^ E ∧ e + Nat.log 10 N ≤ E + Nat.log 10 M := by
  rw [← Nat.cast_ofNat (R := ℚ) (n := 10)] at hround ⊢
  rcases lt_or_ge (Nat.log 10 N) p with hshort | hlong
  · rw [RoundingMode.roundMagnitude_of_short (by decide) hshort, some.injEq] at hround
    exact ⟨N, e, hN, hround.symm, le_rfl⟩
  · obtain ⟨a, ha⟩ : ∃ a, Nat.log 10 N + 1 = a + p := ⟨Nat.log 10 N + 1 - p, by omega⟩
    rw [RoundingMode.roundMagnitude_of_long (by decide) hN (ha.trans (Nat.add_comm _ _))] at hround
    obtain ⟨m, hm, rfl⟩ := map_eq_some_iff.mp hround
    have hlow := (pow_le_div ha (by omega) hp).trans (le_roundNat hm)
    have hpos : 0 < 10 ^ (p - 1) := Nat.pow_pos (by decide)
    have hlog : p - 1 ≤ Nat.log 10 m := Nat.le_log_of_pow_le (by decide) hlow
    exact ⟨m, _, by omega, rfl, by omega⟩

/-- Above the limit a finite number other than the largest one is not what `clean_up` should
give. -/
theorem not_cleanedUp {M : ℕ} {E : ℤ} (hN : N ≠ 0) (hp : 0 < ctx.digits)
    (hle : -ctx.exponentLimit ≤ e + Nat.log 10 N) (hlt : ctx.exponentLimit < e + Nat.log 10 N)
    (hspecial : d.special = .none) (hM : M ≠ 0) (hvalue : d.magnitude = M * (10 : ℚ) ^ E)
    (hlog : E + Nat.log 10 M ≠ ctx.exponentLimit) :
    ¬CleanedUp ctx isNegative (N * (10 : ℚ) ^ e) d := by
  rw [cleanedUp_iff_within hN hle]
  rintro ⟨-, r, hround, hlimited⟩
  obtain ⟨M', E', hM', rfl, hr⟩ := exists_roundMagnitude hN hp hround
  rw [limited_iff hM', if_neg (by omega), hspecial] at hlimited
  split_ifs at hlimited
  have hnines := log_nines hp
  rw [hvalue, largest] at hlimited
  have heq := log_eq_of_mul_zpow_eq hM hnines.1 hlimited.2
  rw [hnines.2] at heq
  omega

/-- An adjusted exponent above every `INTEGER` becomes negative, and the number is not seen to be
above the limit. -/
theorem Shows.cleanUp_not_cleanedUp (h : d.Shows isNegative N n k e) (hctx : ctx.Valid)
    (hN : N ≠ 0) (hlow : -2 ^ 31 ≤ e) (hhigh : e < 2 ^ 31) (hn : Nat.log 10 N + 1 < 2 ^ 31)
    (hlarge : 2 ^ 31 ≤ e + Nat.log 10 N) :
    d.cleanUp.Meets ctx
      (fun d' ctx' => ¬CleanedUp ctx isNegative (N * (10 : ℚ) ^ e) d' ∧ ctx.SameSettings ctx')
      (LeavesSettings (cleaning ctx) N e) := by
  have hnonneg := hctx.exponentLimit_nonneg
  have hpos := hctx.digits_pos
  have hT := hctx.eTiny_eq
  have hdigits := hctx.digits_le
  have hbound := hctx.exponentLimit_le
  rw [DecimalContext.maximumDigits] at hdigits
  rw [DecimalContext.maximumExponent] at hbound
  have hwrapped : int32 (e + Nat.log 10 N) = e + Nat.log 10 N - 2 ^ 32 :=
    int32_of_ge (by omega) (by omega)
  have hstays : ∀ d' : Decimal, d'.Shows isNegative N (Nat.log 10 N + 1) k e →
      ¬CleanedUp ctx isNegative (N * (10 : ℚ) ^ e) d' := fun d' hd' =>
    not_cleanedUp hN hpos (by omega) (by omega) hd'.special_eq hN (hd'.magnitude_eq hlow hhigh)
      (by omega)
  rcases lt_or_ge (int32 (e + Nat.log 10 N)) (-ctx.exponentLimit) with hunder | hnormal
  · apply (h.cleanUp_subnormal hlow hhigh hunder (by omega)).mono _ fun _ h => h
    exact fun d' ctx' hd' => ⟨hstays d' hd'.1, hd'.2⟩
  rcases lt_or_ge (Nat.log 10 N) ctx.digits with hshort | hlong
  · apply (h.cleanUp_short hctx hshort hnormal).mono _ fun _ h => h
    rintro d' ctx' ⟨hd', hctx'⟩
    rw [if_pos (by omega)] at hd'
    exact ⟨hstays d' hd', hctx'⟩
  by_cases hmode : ctx.roundingMode = .unnecessary
  · apply (h.cleanUp_unnecessary hpos (by omega) hnormal hmode).mono _ fun _ h => h
    exact fun d' ctx' hd' => ⟨hstays d' hd'.1.2, hd'.2⟩
  · obtain ⟨a, ha⟩ : ∃ a, Nat.log 10 N + 1 = a + ctx.digits :=
      ⟨Nat.log 10 N + 1 - ctx.digits, by omega⟩
    obtain ⟨m, hround⟩ : ∃ m, ctx.roundingMode.roundNat isNegative ((N : ℚ) / (10 ^ a : ℕ)) =
      some m := RoundingMode.exists_roundNat hmode _
    apply (h.cleanUp_long hpos ha (by omega) hnormal hmode hround).mono _ fun _ h => h
    rintro d' ctx' ⟨⟨M, e', hM, hd'⟩, hctx'⟩
    have hcarries : Carries ctx.roundingMode isNegative N a ctx.digits e M e' := by
      rw [Carries, if_neg hmode]
      exact ⟨m, hround, hM⟩
    obtain ⟨hM0, hlog, he'⟩ := hcarries.log_eq hmode ha (by omega) hpos
    have hadjusted : int32 (e' + (ctx.digits - 1)) < 0 := by
      rw [int32, Int.bmod_def]
      omega
    rw [if_pos (by omega)] at hd'
    refine ⟨not_cleanedUp hN hpos (by omega) (by omega) hd'.special_eq hM0 hd'.magnitude_int32 ?_,
      hctx'⟩
    rw [hlog, int32, Int.bmod_def]
    omega

theorem cleanedUp_iff_limited {r : ℚ} (hN : N ≠ 0)
    (hle : -ctx.exponentLimit ≤ e + Nat.log 10 N)
    (hround : ctx.roundingMode.roundMagnitude isNegative 10 ctx.digits (N * (10 : ℚ) ^ e) =
      some r) (hneg : d.isNegative = isNegative) :
    CleanedUp ctx isNegative (N * (10 : ℚ) ^ e) d ↔ Limited ctx isNegative r d := by
  rw [cleanedUp_iff_within hN hle, hround]
  constructor
  · rintro ⟨-, r', hr, hlimited⟩
    rwa [some.inj hr]
  · exact fun h => ⟨hneg, r, rfl, h⟩

theorem Overflows.isNegative_eq {mode : RoundingMode} {p : ℕ} {l E : ℤ}
    (h : Overflows mode p l isNegative E d) : d.isNegative = isNegative := by
  rw [Overflows] at h
  by_cases hto : toLargest mode isNegative = true
  · rw [if_pos hto] at h
    obtain ⟨k, hd⟩ := h
    exact hd.isNegative_eq
  · rw [if_neg hto] at h
    rw [h]
    rfl

/-- Above the limit a number with a negative exponent does not become the largest one. -/
theorem Overflows.limited_iff {E : ℤ} (hctx : ctx.Valid)
    (h : Overflows ctx.roundingMode ctx.digits ctx.exponentLimit isNegative E d) (hN : N ≠ 0)
    (hlt : ctx.exponentLimit < e + Nat.log 10 N)
    (hwide : E < 0 → ctx.exponentLimit < ctx.digits - 1) :
    Limited ctx isNegative (N * (10 : ℚ) ^ e) d ↔
      (toLargest ctx.roundingMode isNegative = true → 0 ≤ E) := by
  have hnonneg := hctx.exponentLimit_nonneg
  have hpos := hctx.digits_pos
  have hdigits := hctx.digits_le
  have hbound := hctx.exponentLimit_le
  rw [DecimalContext.maximumDigits] at hdigits
  rw [DecimalContext.maximumExponent] at hbound
  rw [Decimal.limited_iff hN, if_neg (by omega)]
  rw [Overflows] at h
  by_cases hto : toLargest ctx.roundingMode isNegative = true
  · rw [if_pos hto] at h ⊢
    obtain ⟨k, hd⟩ := h
    have hnines := log_nines hpos
    rw [hd.special_eq, largest]
    rcases lt_or_ge E 0 with hE | hE
    · rw [if_pos hE] at hd
      refine iff_of_false (fun heq => ?_) fun h => absurd (h hto) (by omega)
      have hvalue := heq.2
      rw [hd.magnitude_eq (by omega) (by omega)] at hvalue
      have hsame := log_eq_of_mul_zpow_eq hnines.1 hnines.1 hvalue
      omega
    · rw [if_neg (by omega)] at hd
      exact iff_of_true ⟨rfl, hd.magnitude_eq (by omega) (by omega)⟩ fun _ => hE
  · rw [if_neg hto] at h ⊢
    exact iff_of_true (h ▸ rfl) fun h => absurd h hto

/-- The modes that take large numbers to the largest one never round away from zero. -/
theorem roundNat_of_toLargest {mode : RoundingMode} {a : ℕ}
    (hto : toLargest mode isNegative = true) :
    mode.roundNat isNegative ((N : ℚ) / (10 ^ a : ℕ)) = some (N / 10 ^ a) := by
  rw [RoundingMode.roundNat_div (Nat.pow_pos (by decide))]
  split_ifs
  · rfl
  · cases mode <;> cases isNegative <;> first | rfl | exact absurd hto (by decide)

/-- `clean_up` of a number that has no more digits than the context. -/
theorem Shows.cleanUp_cleans_short (h : d.Shows isNegative N n k e) (hctx : ctx.Valid) (hN : N ≠ 0)
    (hlow : -2 ^ 31 ≤ e) (hhigh : e < 2 ^ 31) (hshort : Nat.log 10 N < ctx.digits)
    (hle : -ctx.exponentLimit ≤ e + Nat.log 10 N) (hlt : e + Nat.log 10 N < 2 ^ 31) :
    d.cleanUp.Meets ctx
      (fun d' ctx' => (CleanedUp ctx isNegative (N * (10 : ℚ) ^ e) d' ↔
        CleansWithin ctx isNegative N e) ∧ ctx.SameSettings ctx')
      (LeavesSettings (cleaning ctx) N e) := by
  have hbound := hctx.exponentLimit_le
  rw [DecimalContext.maximumExponent] at hbound
  have hadjusted := int32_of_mem (x := e + Nat.log 10 N) (by omega) hlt
  have hround : ctx.roundingMode.roundMagnitude isNegative 10 ctx.digits (N * (10 : ℚ) ^ e) =
      some (N * (10 : ℚ) ^ e) := by
    rw [← Nat.cast_ofNat (R := ℚ) (n := 10),
      RoundingMode.roundMagnitude_of_short (by decide) hshort]
  have hzero : Nat.log 10 N + 1 - ctx.digits = 0 := by omega
  have hcarry : ctx.roundingMode.roundNat isNegative ((N : ℚ) / (10 ^ 0 : ℕ)) ≠
      some (10 ^ ctx.digits) := by
    rw [pow_zero, Nat.cast_one, div_one, RoundingMode.roundNat_natCast]
    exact fun heq => (Nat.lt_pow_of_log_lt (by decide) hshort).ne (some.inj heq)
  rw [CleansWithin, hzero, Nat.cast_zero, add_zero]
  apply (h.cleanUp_short hctx hshort (by rwa [hadjusted])).mono _ fun _ h => h
  rintro d' ctx' ⟨hd', hctx'⟩
  refine ⟨?_, hctx'⟩
  rw [hadjusted, if_neg hN] at hd'
  split_ifs at hd' with hfits
  · rw [cleanedUp_iff_limited hN hle hround hd'.isNegative_eq, limited_iff hN, if_pos hfits]
    exact iff_of_true ⟨hd'.special_eq, hd'.magnitude_eq hlow hhigh⟩
      ⟨hlt, fun _ _ => by rw [pow_zero, Nat.mod_one], fun _ h => absurd hfits h.not_ge,
        fun h => absurd h hcarry⟩
  · obtain ⟨hmode, hover⟩ := hd'
    rw [int32_of_mem hlow hhigh] at hover
    rw [cleanedUp_iff_limited hN hle hround hover.isNegative_eq,
      hover.limited_iff hctx hN (by omega) (by omega)]
    exact ⟨fun hto => ⟨hlt, fun h => absurd h hmode, fun h _ => hto h, fun h => absurd h hcarry⟩,
      fun hcleans hto => hcleans.2.2.1 hto (by omega)⟩

/-- `clean_up` of a number with too many digits, where rounding is not permitted. -/
theorem Shows.cleanUp_cleans_unnecessary (h : d.Shows isNegative N n k e) (hctx : ctx.Valid)
    (hN : N ≠ 0) (hlow : -2 ^ 31 ≤ e) (hhigh : e < 2 ^ 31) (hlong : ctx.digits ≤ Nat.log 10 N)
    (hle : -ctx.exponentLimit ≤ e + Nat.log 10 N) (hlt : e + Nat.log 10 N < 2 ^ 31)
    (hmode : ctx.roundingMode = .unnecessary) :
    d.cleanUp.Meets ctx
      (fun d' ctx' => (CleanedUp ctx isNegative (N * (10 : ℚ) ^ e) d' ↔
        CleansWithin ctx isNegative N e) ∧ ctx.SameSettings ctx')
      (LeavesSettings (cleaning ctx) N e) := by
  have hpos := hctx.digits_pos
  have hbound := hctx.exponentLimit_le
  rw [DecimalContext.maximumExponent] at hbound
  have hadjusted := int32_of_mem (x := e + Nat.log 10 N) (by omega) hlt
  obtain ⟨a, ha⟩ : ∃ a, Nat.log 10 N + 1 = a + ctx.digits :=
    ⟨Nat.log 10 N + 1 - ctx.digits, by omega⟩
  have hround : ctx.roundingMode.roundMagnitude isNegative 10 ctx.digits (N * (10 : ℚ) ^ e) =
      if N % 10 ^ a = 0 then some (N * (10 : ℚ) ^ e) else none := by
    rw [← Nat.cast_ofNat (R := ℚ) (n := 10), RoundingMode.roundMagnitude_of_long (by decide) hN
      (ha.trans (Nat.add_comm _ _)), hmode, RoundingMode.roundNat_div (Nat.pow_pos (by decide))]
    split_ifs with hzero
    · obtain ⟨q, hq⟩ := Nat.dvd_of_mod_eq_zero hzero
      rw [map_some, hq, Nat.mul_div_cancel_left _ (Nat.pow_pos (by decide)),
        zpow_add₀ (by norm_num), zpow_natCast]
      push_cast
      ring_nf
    · rfl
  rw [CleansWithin, ha, Nat.add_sub_cancel]
  apply (h.cleanUp_unnecessary hpos (by omega) (by rwa [hadjusted]) hmode).mono _ fun _ h => h
  rintro d' ctx' ⟨⟨hfits, hd'⟩, hctx'⟩
  rw [hadjusted] at hfits
  refine ⟨?_, hctx'⟩
  by_cases hzero : N % 10 ^ a = 0
  · rw [if_pos hzero] at hround
    rw [cleanedUp_iff_limited hN hle hround hd'.isNegative_eq, limited_iff hN, if_pos hfits]
    exact iff_of_true ⟨hd'.special_eq, hd'.magnitude_eq hlow hhigh⟩
      ⟨hlt, fun _ _ => hzero, fun _ h => absurd hfits h.not_ge, fun _ => by omega⟩
  · rw [if_neg hzero] at hround
    rw [cleanedUp_iff_within hN hle, hround]
    exact iff_of_false (fun h => by obtain ⟨-, r, hr, -⟩ := h; cases hr)
      fun h => hzero (h.2.1 hmode hfits)

/-- A carry does not change the value. -/
theorem Carries.value_eq {mode : RoundingMode} {a p m M : ℕ} {e' : ℤ}
    (h : Carries mode isNegative N a p e M e') (hmode : mode ≠ .unnecessary)
    (hm : mode.roundNat isNegative ((N : ℚ) / (10 ^ a : ℕ)) = some m) (hp : 0 < p) :
    (m : ℚ) * 10 ^ (e + a) = M * 10 ^ e' := by
  rw [Carries, if_neg hmode] at h
  obtain ⟨m', hm', h⟩ := h
  obtain rfl : m' = m := some.inj (hm'.symm.trans hm)
  rcases h with ⟨-, rfl, rfl⟩ | ⟨rfl, rfl, rfl⟩
  · rfl
  · obtain ⟨q, hq⟩ : ∃ q, p = q + 1 := ⟨p - 1, by omega⟩
    rw [hq, Nat.add_sub_cancel, zpow_add_one₀ (by norm_num)]
    push_cast
    ring

/-- `clean_up` of a number with too many digits. -/
theorem Shows.cleanUp_cleans_long (h : d.Shows isNegative N n k e) (hctx : ctx.Valid) (hN : N ≠ 0)
    (hlow : -2 ^ 31 ≤ e) (hlong : ctx.digits ≤ Nat.log 10 N)
    (hle : -ctx.exponentLimit ≤ e + Nat.log 10 N) (hlt : e + Nat.log 10 N < 2 ^ 31)
    (hmode : ctx.roundingMode ≠ .unnecessary) :
    d.cleanUp.Meets ctx
      (fun d' ctx' => (CleanedUp ctx isNegative (N * (10 : ℚ) ^ e) d' ↔
        CleansWithin ctx isNegative N e) ∧ ctx.SameSettings ctx')
      (LeavesSettings (cleaning ctx) N e) := by
  have hpos := hctx.digits_pos
  have hnonneg := hctx.exponentLimit_nonneg
  have hbound := hctx.exponentLimit_le
  rw [DecimalContext.maximumExponent] at hbound
  obtain ⟨a, ha⟩ : ∃ a, Nat.log 10 N + 1 = a + ctx.digits :=
    ⟨Nat.log 10 N + 1 - ctx.digits, by omega⟩
  obtain ⟨m, hm⟩ : ∃ m, ctx.roundingMode.roundNat isNegative ((N : ℚ) / (10 ^ a : ℕ)) = some m :=
    RoundingMode.exists_roundNat hmode _
  have hround : ctx.roundingMode.roundMagnitude isNegative 10 ctx.digits (N * (10 : ℚ) ^ e) =
      some (m * (10 : ℚ) ^ (e + a)) := by
    rw [← Nat.cast_ofNat (R := ℚ) (n := 10), RoundingMode.roundMagnitude_of_long (by decide) hN
      (ha.trans (Nat.add_comm _ _)), hm, map_some]
  have hadjusted := int32_of_mem (x := e + Nat.log 10 N) (by omega) hlt
  rw [CleansWithin, ha, Nat.add_sub_cancel, hm, some.injEq]
  apply (h.cleanUp_long hpos ha (by omega) (by rwa [hadjusted]) hmode hm).mono _ fun _ h => h
  rintro d' ctx' ⟨⟨M, e', hM, hd'⟩, hctx'⟩
  refine ⟨?_, hctx'⟩
  have hcarries : Carries ctx.roundingMode isNegative N a ctx.digits e M e' := by
    rw [Carries, if_neg hmode]
    exact ⟨m, hm, hM⟩
  obtain ⟨hM0, hlog, he'⟩ := hcarries.log_eq hmode ha (by omega) hpos
  have hvalue := hcarries.value_eq hmode hm hpos
  have hcarry : m = 10 ^ ctx.digits → e' = e + a + 1 := by
    rintro rfl
    rcases hM with ⟨hlt, -⟩ | ⟨-, -, h⟩
    · exact absurd hlt (lt_irrefl _)
    · exact h
  rw [hvalue] at hround
  rcases lt_or_ge (e' + (ctx.digits - 1)) (2 ^ 31) with hsmall | hlarge
  · rw [int32_of_mem (by omega) hsmall] at hd'
    split_ifs at hd' with hfits
    · rw [cleanedUp_iff_limited hN hle hround hd'.isNegative_eq, limited_iff hM0,
        if_pos (by omega)]
      exact iff_of_true ⟨hd'.special_eq, hd'.magnitude_eq (by omega) (by omega)⟩
        ⟨hlt, fun h => absurd h hmode, fun _ h => absurd h (by omega), fun h => by omega⟩
    · rw [int32_of_mem (by omega) (by omega)] at hd'
      rw [cleanedUp_iff_limited hN hle hround hd'.isNegative_eq,
        hd'.limited_iff hctx hM0 (by omega) (by omega)]
      have hsame : toLargest ctx.roundingMode isNegative = true → e' = e + a := fun hto => by
        rw [roundNat_of_toLargest hto, some.injEq] at hm
        have hless : m < 10 ^ ctx.digits := by
          rw [← hm, Nat.div_lt_iff_lt_mul (Nat.pow_pos (by decide)), ← pow_add]
          exact Nat.lt_pow_of_log_lt (by decide) (by omega)
        rcases hM with ⟨-, -, h⟩ | ⟨heq, -, -⟩
        · exact h
        · exact absurd heq hless.ne
      constructor
      · intro hto
        refine ⟨hlt, fun h => absurd h hmode, fun h _ => ?_, fun h => ?_⟩
        · rw [← hsame h]
          exact hto h
        · have := hcarry h
          omega
      · intro hcleans hto
        have he := hsame hto
        rw [he]
        exact hcleans.2.2.1 hto (by omega)
  · -- The carry takes the adjusted exponent above every `INTEGER`.
    have hwrapped : int32 (e' + (ctx.digits - 1)) < 0 := by
      rw [int32, Int.bmod_def]
      omega
    have hm' : m = 10 ^ ctx.digits := by
      rcases hM with ⟨-, -, h⟩ | ⟨h, -, -⟩
      · omega
      · exact h
    have hdigits := hctx.digits_le
    rw [DecimalContext.maximumDigits] at hdigits
    rw [if_pos (by omega)] at hd'
    refine iff_of_false (not_cleanedUp hN hpos hle (by omega) hd'.special_eq hM0
      hd'.magnitude_int32 ?_) fun hcleans => ?_
    · rw [hlog, int32, Int.bmod_def]
      omega
    · have := hcleans.2.2.2 hm'
      omega

/-- `clean_up` of zero. -/
theorem Shows.cleanUp_cleansZero (h : d.Shows isNegative 0 n k e) (hctx : ctx.Valid)
    (hlow : -2 ^ 31 ≤ e) (hhigh : e < 2 ^ 31) :
    d.cleanUp.Meets ctx (fun d' ctx' => (CleanedUp ctx isNegative 0 d' ↔
        (ctx.roundingMode = .up → ctx.eTiny - 1 ≤ e)) ∧ ctx.SameSettings ctx')
      (LeavesSettings (cleaning ctx) 0 e) := by
  have hpos := hctx.digits_pos
  have hT := hctx.eTiny_eq
  have hdigits := hctx.digits_le
  rw [DecimalContext.maximumDigits] at hdigits
  have hlog : Nat.log 10 0 = 0 := Nat.log_zero_right 10
  have hadjusted : int32 (e + Nat.log 10 0) = e := by
    rw [hlog, Nat.cast_zero, add_zero, int32_of_mem hlow hhigh]
  have hzero : ∀ (d' : Decimal) {m l : ℕ} {E : ℤ}, d'.Shows isNegative 0 m l E →
      CleanedUp ctx isNegative 0 d' := fun d' m l E hd' =>
    cleanedUp_zero_iff.mpr ⟨hd'.isNegative_eq, hd'.special_eq, by
      rw [hd'.magnitude_int32, Nat.cast_zero, zero_mul]⟩
  rcases lt_or_ge e (-ctx.exponentLimit) with hlt | hle
  · have hu : Underflows ctx 0 e := ⟨hctx, hlow, by rwa [hlog, Nat.cast_zero, add_zero]⟩
    rcases le_or_gt ctx.eTiny e with htiny | htiny
    · apply (h.cleanUp_subnormal hlow hhigh (by rwa [hadjusted]) htiny).mono _ fun _ h => h
      exact fun d' ctx' hd' => ⟨iff_of_true (hzero d' hd'.1) fun _ => by omega, hd'.2⟩
    rcases lt_or_ge e (ctx.eTiny - 1) with hbelow | hshare
    · apply (h.cleanUp_below hu (by rw [hlog, Nat.cast_zero, add_zero]; exact hbelow)).mono _
        fun _ h => h
      rintro d' ctx' ⟨hd', hctx'⟩
      refine ⟨?_, hctx'⟩
      have hne : (10 : ℚ) ^ ctx.eTiny ≠ 0 := zpow_ne_zero _ (by norm_num)
      have hdigit : digitBelow ctx.roundingMode isNegative 0 =
          if ctx.roundingMode = .up then 1 else 0 := by
        cases ctx.roundingMode <;> simp [digitBelow]
      rw [cleanedUp_zero_iff, hd'.magnitude_eTiny, hdigit]
      by_cases hup : ctx.roundingMode = .up
      · rw [if_pos hup, Nat.cast_one, one_mul]
        exact iff_of_false (fun h => hne h.2.2) fun h => by
          have := h hup
          omega
      · rw [if_neg hup, Nat.cast_zero, zero_mul]
        exact iff_of_true ⟨hd'.isNegative_eq, hd'.special_eq, rfl⟩ fun h => absurd h hup
    · apply (h.cleanUp_shared hu htiny (by omega) fun hle => by omega).mono _ fun _ h => h
      rintro d' ctx' ⟨⟨M, k', e', hd', hsettles⟩, hctx'⟩
      have hM : M = 0 := by
        rw [Settles] at hsettles
        split_ifs at hsettles
        · exact hsettles.1
        · have hround := hsettles.1
          rw [Nat.cast_zero, zero_div, ← Nat.cast_zero, RoundingMode.roundNat_natCast] at hround
          exact (some.inj hround).symm
      subst hM
      exact ⟨iff_of_true (hzero d' hd') fun _ => hshare, hctx'⟩
  · apply (h.cleanUp_short hctx (by omega) (by rwa [hadjusted])).mono _ fun _ h => h
    rintro d' ctx' ⟨hd', hctx'⟩
    refine ⟨iff_of_true ?_ fun _ => by omega, hctx'⟩
    rw [if_pos rfl] at hd'
    split_ifs at hd'
    · exact hzero d' hd'
    · exact hzero d' hd'

/-- `clean_up` of a finite number, whatever the context. -/
theorem Shows.cleanUp_cleans (h : d.Shows isNegative N n k e) (hctx : ctx.Valid)
    (hlow : -2 ^ 31 ≤ e) (hhigh : e < 2 ^ 31) (hn : Nat.log 10 N + 1 < 2 ^ 31) :
    d.cleanUp.Meets ctx
      (fun d' ctx' => (CleanedUp ctx isNegative (N * (10 : ℚ) ^ e) d' ↔
        CleansUp ctx isNegative N e) ∧ ctx.SameSettings ctx')
      (LeavesSettings (cleaning ctx) N e) := by
  rw [CleansUp]
  by_cases hN : N = 0
  · subst hN
    rw [if_pos rfl, Nat.cast_zero, zero_mul]
    exact h.cleanUp_cleansZero hctx hlow hhigh
  rw [if_neg hN]
  rcases lt_or_ge (e + Nat.log 10 N) (-ctx.exponentLimit) with hbelow | hle
  · rw [if_pos hbelow]
    exact h.cleanUp_cleansBelow hctx hN hlow hbelow
  rw [if_neg hle.not_gt]
  rcases lt_or_ge (e + Nat.log 10 N) (2 ^ 31) with hlt | hlarge
  · rcases lt_or_ge (Nat.log 10 N) ctx.digits with hshort | hlong
    · exact h.cleanUp_cleans_short hctx hN hlow hhigh hshort hle hlt
    by_cases hmode : ctx.roundingMode = .unnecessary
    · exact h.cleanUp_cleans_unnecessary hctx hN hlow hhigh hlong hle hlt hmode
    · exact h.cleanUp_cleans_long hctx hN hlow hlong hle hlt hmode
  · apply (h.cleanUp_not_cleanedUp hctx hN hlow hhigh hn hlarge).mono _ fun _ h => h
    exact fun d' ctx' hd' => ⟨iff_of_false hd'.1 fun h => absurd h.1 hlarge.not_gt, hd'.2⟩

/-- `clean_up` rounds a finite number as it should exactly where `CleansUp` holds, and leaves the
settings of the context.  An exception is raised as `CleanUpRaises` says. -/
theorem cleanUp_cleanedUp_iff (hctx : ctx.Valid) (hspecial : d.special = .none)
    (hvalid : d.coefficient.Valid) (hcount : d.coefficient.count < 2 ^ 31)
    (hlow : -2 ^ 31 ≤ d.exponent) (hhigh : d.exponent < 2 ^ 31) :
    d.cleanUp.Meets ctx (fun d' ctx' => (CleanedUp ctx d.isNegative d.magnitude d' ↔
        CleansUp ctx d.isNegative d.coefficient.toNat d.exponent) ∧ ctx.SameSettings ctx')
      (CleanUpRaises ctx) := by
  have hd := shows_of_valid hspecial hvalid hlow hhigh
  have hn : Nat.log 10 d.coefficient.toNat + 1 < 2 ^ 31 := by
    have hle : Nat.log 10 d.coefficient.toNat ≤ d.coefficient.count - 1 := by
      have hlt := hd.coefficient.lt
      rcases Nat.eq_zero_or_pos d.coefficient.toNat with hzero | hne
      · rw [hzero, Nat.log_zero_right]
        exact Nat.zero_le _
      · exact Nat.le_sub_one_of_lt (Nat.log_lt_of_lt_pow hne.ne' hlt)
    omega
  have hmeets := (hd.cleanUp_cleans hctx hlow hhigh hn).error
    fun m ctx' => (cleanUp_raises hd.isSpecial_eq ctx (.refl ctx)).2 m ctx'
  exact hmeets.mono (fun _ _ h => h) fun _ h => h.2

end

/-- Two digits, and exponents up to nine. -/
def small (mode : RoundingMode) : DecimalContext := (DecimalContext.make 2 mode).setExponentLimit 9

/-- The number `25E-11`. -/
def subnormal : Decimal := ⟨⟨⟨[5, 2], 2⟩, 2⟩, -11, false, .none⟩

/-- `25E-11` becomes `2E-10`. -/
theorem cleanUp_cleanedUp_iff_subnormal :
    CleanedUp (small .halfEven) false subnormal.magnitude
      ⟨⟨⟨[2, 0, 0], 3⟩, 1⟩, -10, false, .none⟩ := by
  have h := @cleanUp_cleanedUp_iff (small .halfEven) subnormal
    ⟨by decide, by decide, by decide, by decide⟩ rfl ⟨rfl, by decide, by decide, by decide⟩
    (by decide) (by decide) (by decide)
  obtain ⟨ctx', hrun⟩ : ∃ ctx', subnormal.cleanUp (small .halfEven) =
      some (.ok ⟨⟨⟨[2, 0, 0], 3⟩, 1⟩, -10, false, .none⟩, ctx') := ⟨_, rfl⟩
  have hlog : Nat.log 10 25 = 1 := by decide
  refine (h.of_run hrun).1.mpr ?_
  rw [show subnormal.coefficient.toNat = 25 by decide, CleansUp, if_neg (by decide), hlog,
    if_pos (by decide)]
  exact Or.inr ⟨by decide, fun hlt => absurd hlt (by rw [hlog]; decide),
    fun _ hle => absurd hle (by decide)⟩

/-- The number `0E-20`. -/
def tinyZero : Decimal := ⟨⟨⟨[0], 1⟩, 1⟩, -20, false, .none⟩

/-- Rounded up, `0E-20` becomes `1E-10`. -/
theorem cleanUp_tinyZero : ∃ d' ctx', tinyZero.cleanUp (small .up) = some (.ok d', ctx') ∧
    ¬CleanedUp (small .up) false tinyZero.magnitude d' := by
  refine ⟨⟨⟨⟨[1], 1⟩, 1⟩, -10, false, .none⟩, _, rfl, ?_⟩
  rw [magnitude, show tinyZero.coefficient.toNat = 0 by decide, Nat.cast_zero, zero_mul,
    cleanedUp_zero_iff, magnitude, show Coefficient.toNat ⟨⟨[1], 1⟩, 1⟩ = 1 by decide]
  norm_num

end Decimal

end Gobo
