/-
`round` of decimal numbers: the digits that are kept are those of the number rounded at the
position of the last of them.
-/
import Gobo.DecimalArithmetic
import Gobo.DecimalSignals
import Mathlib.Data.Rat.Floor

namespace Gobo

namespace Decimal

/-- The number `d` shows `N` with `n` digits in an array of `k`, the sign, and the exponent as
far as an `INTEGER` holds it. -/
structure Shows (d : Decimal) (isNegative : Bool) (N n k : ℕ) (e : ℤ) : Prop where
  coefficient : d.coefficient.Shows N n k
  exponent_eq : d.exponent = int32 e
  isNegative_eq : d.isNegative = isNegative
  special_eq : d.special = .none

section

variable {d : Decimal} {isNegative : Bool} {N n k a p : ℕ} {e : ℤ}

theorem Shows.isSpecial_eq (h : d.Shows isNegative N n k e) : d.isSpecial = false := by
  rw [isSpecial, h.special_eq]
  rfl

theorem Shows.count_eq (h : d.Shows isNegative N n k e) : d.count = n := by
  rw [count, h.isSpecial_eq, if_neg Bool.false_ne_true, h.coefficient.count_eq]

theorem Shows.adjustedExponent_eq (h : d.Shows isNegative N n k e) :
    d.adjustedExponent = int32 (e + n - 1) := by
  rw [adjustedExponent, h.exponent_eq, h.count_eq, add_sub_assoc, int32_int32_add, add_sub_assoc]

theorem Shows.isZero_iff (h : d.Shows isNegative N n k e) : d.isZero = true ↔ N = 0 := by
  rw [isZero, h.isSpecial_eq, Bool.not_false, Bool.true_and, h.coefficient.isZero_iff]

/-- A number with another coefficient and another exponent. -/
theorem Shows.with (h : d.Shows isNegative N n k e) {c : Coefficient} {M m l : ℕ}
    (hc : c.Shows M m l) (e' : ℤ) :
    Shows { d with coefficient := c, exponent := int32 e' } isNegative M m l e' :=
  ⟨hc, rfl, h.isNegative_eq, h.special_eq⟩

theorem Shows.withCoefficient (h : d.Shows isNegative N n k e) {c : Coefficient} {M m l : ℕ}
    (hc : c.Shows M m l) : Shows { d with coefficient := c } isNegative M m l e :=
  ⟨hc, h.exponent_eq, h.isNegative_eq, h.special_eq⟩

/-- Some digit below the index `i` is not zero. -/
theorem exists_digit_iff (h : d.Shows isNegative N n k e) {i : ℕ} (hi : i ≤ n) :
    (∃ index < i, d.coefficient.digit index ≠ 0) ↔ N % 10 ^ i ≠ 0 := by
  have hmod := numeral_mod (b := 10) (d := d.coefficient.digit) (k := i) (n := n - i)
  rw [Nat.add_sub_of_le hi, h.coefficient.numeral_eq] at hmod
  rw [hmod fun j hj => h.coefficient.digit_lt hj, ne_eq, numeral_eq_zero_iff (by decide)]
  push Not
  exact Iff.rfl

theorem lostDigits_iff (h : d.Shows isNegative N (a + p) k e) :
    d.lostDigits p = true ↔ N % 10 ^ a ≠ 0 := by
  rw [lostDigits, decide_eq_true_iff, h.count_eq, Nat.add_sub_cancel]
  exact exists_digit_iff h (Nat.le_add_right a p)

/-- The first of the discarded digits and the others decide. -/
theorem compare_half {a : ℕ} (N : ℕ) : compare (2 * (N % 10 ^ (a + 1))) (10 ^ (a + 1)) =
    if N / 10 ^ a % 10 > 5 then .gt
    else if N / 10 ^ a % 10 < 5 then .lt
    else if N % 10 ^ a ≠ 0 then .gt
    else .eq := by
  have hsplit : N % 10 ^ (a + 1) = N % 10 ^ a + 10 ^ a * (N / 10 ^ a % 10) := by
    rw [pow_succ, Nat.mod_mul]
  have hpos : 0 < 10 ^ a := Nat.pow_pos (by decide)
  have hlow := Nat.mod_lt N hpos
  rw [hsplit, pow_succ]
  generalize N % 10 ^ a = r at *
  generalize N / 10 ^ a % 10 = v
  generalize 10 ^ a = b at *
  split_ifs with hgt hlt hr
  · have hle : b * 6 ≤ b * v := Nat.mul_le_mul_left b hgt
    exact Nat.compare_eq_gt.mpr (by omega)
  · have hle : b * v ≤ b * 4 := Nat.mul_le_mul_left b (by omega)
    exact Nat.compare_eq_lt.mpr (by omega)
  · obtain rfl : v = 5 := by omega
    exact Nat.compare_eq_gt.mpr (by omega)
  · obtain rfl : v = 5 := by omega
    exact Nat.compare_eq_eq.mpr (by omega)

theorem threeWayCompareDiscardedToHalf_eq (h : d.Shows isNegative N (a + p) k e) (ha : 0 < a) :
    d.threeWayCompareDiscardedToHalf p = some (match compare (2 * (N % 10 ^ a)) (10 ^ a) with
      | .lt => -1
      | .eq => 0
      | .gt => 1) := by
  obtain ⟨a, rfl⟩ : ∃ b, a = b + 1 := ⟨a - 1, by omega⟩
  have hindex : (d.count : ℤ) - p - 1 = (a : ℕ) := by
    rw [h.count_eq]
    push_cast
    ring
  have hitem := (Coefficient.Rewrites.refl d.coefficient).exists_item (i := a)
    (by have := h.coefficient.count_le; rw [h.coefficient.full]; omega)
  have hlow : d.count - p - 1 = a := by
    rw [h.count_eq]
    omega
  rw [threeWayCompareDiscardedToHalf, hindex, hitem, hlow, h.coefficient.digit_eq (by omega),
    compare_half, some_bind]
  simp only [exists_digit_iff h (by omega : a ≤ a + 1 + p)]
  split_ifs <;> rfl

/-- The digits in front are kept as they are. -/
theorem Shows.exists_doRoundDown (h : d.Shows isNegative N (a + p) k e) (hp : 0 < p) :
    ∃ d', d.doRoundDown p = some d' ∧ d'.Shows isNegative (N / 10 ^ a) p k (e + a) := by
  obtain ⟨c, c', hshift, -, hcut, hc'⟩ := h.coefficient.exists_shiftRight hp
  refine ⟨_, ?_, h.with hc' (e + a)⟩
  rw [doRoundDown, shiftRight, h.count_eq, Nat.add_sub_cancel, hshift, h.exponent_eq,
    int32_int32_add, Option.map_some, some_bind, keepHead, hcut]
  rfl

/-- The number `M` is shown with `p` digits; a carry out of them moves them. -/
def Keeps (d : Decimal) (isNegative : Bool) (M p k : ℕ) (e : ℤ) : Prop :=
  M < 10 ^ p ∧ d.Shows isNegative M p k e ∨
    M = 10 ^ p ∧ d.Shows isNegative (10 ^ (p - 1)) p k (e + 1)

/-- The digits in front are incremented. -/
theorem Shows.exists_doRoundUp (h : d.Shows isNegative N (a + p) k e) (ha : 0 < a) (hp : 0 < p)
    (hlost : N % 10 ^ a ≠ 0) :
    ∃ d', d.doRoundUp p = some d' ∧ Keeps d' isNegative (N / 10 ^ a + 1) p k (e + a) := by
  obtain ⟨c, n, hadd, hc, hn⟩ := h.coefficient.exists_integerQuickAddMsd hp ha
  have hfirst : d.addOneMsd p =
      some { d with coefficient := c, exponent := int32 (e + a) } := by
    rw [addOneMsd, if_pos ((lostDigits_iff h).mpr hlost), hadd, h.count_eq, h.exponent_eq,
      int32_int32_add]
    push_cast
    rw [add_sub_cancel_right]
    rfl
  have hshow := h.with hc (e + a)
  have hlow : N / 10 ^ a < 10 ^ p := by
    have hN := h.coefficient.lt
    rw [pow_add] at hN
    exact Nat.div_lt_of_lt_mul hN
  rw [doRoundUp, hfirst, some_bind]
  by_cases hlt : N / 10 ^ a + 1 < 10 ^ p
  · rw [if_pos hlt] at hn
    subst hn
    rw [if_neg (by rw [hshow.count_eq]; exact Nat.lt_irrefl _)]
    exact ⟨_, rfl, Or.inl ⟨hlt, hshow⟩⟩
  · rw [if_neg hlt, Nat.add_comm] at hn
    subst hn
    have hM : N / 10 ^ a + 1 = 10 ^ p := by omega
    obtain ⟨p, rfl⟩ : ∃ q, p = q + 1 := ⟨p - 1, by omega⟩
    obtain ⟨d', hdown, hd'⟩ := hshow.exists_doRoundDown hp
    rw [if_pos (by rw [hshow.count_eq]; omega)]
    rw [hM, pow_succ, pow_one, Nat.mul_div_cancel _ (by decide), Nat.cast_one] at hd'
    exact ⟨d', hdown, Or.inr ⟨hM, hd'⟩⟩

/-- Without a digit to lose `do_round_up` keeps the digits in front. -/
theorem Shows.doRoundUp_eq (h : d.Shows isNegative N (a + p) k e) (ha : 0 < a)
    (hlost : N % 10 ^ a = 0) : d.doRoundUp p = d.doRoundDown p := by
  have hnot : ¬d.lostDigits p = true := fun hl => (lostDigits_iff h).mp hl hlost
  rw [doRoundUp, addOneMsd, if_neg hnot, Option.bind_eq_bind, Option.bind_some, h.count_eq,
    if_pos (by omega), doRoundDown, h.count_eq]
  rfl

/-- The digits that are kept are those of the number rounded at the last of them. -/
theorem Shows.exists_roundIn {mode : RoundingMode} {m : ℕ}
    (h : d.Shows isNegative N (a + p) k e) (ha : 0 < a) (hp : 0 < p)
    (hmode : mode ≠ .unnecessary)
    (hround : mode.roundNat isNegative ((N : ℚ) / (10 ^ a : ℕ)) = some m) :
    ∃ d', d.roundIn mode p = some d' ∧ Keeps d' isNegative m p k (e + a) := by
  have hlow : N / 10 ^ a < 10 ^ p := by
    have hN := h.coefficient.lt
    rw [pow_add] at hN
    exact Nat.div_lt_of_lt_mul hN
  obtain ⟨d₁, hdown, hd₁⟩ := h.exists_doRoundDown hp
  have htest := threeWayCompareDiscardedToHalf_eq h ha
  rw [RoundingMode.roundNat_div (Nat.pow_pos (by decide))] at hround
  by_cases hlost : N % 10 ^ a = 0
  · have hup := (h.doRoundUp_eq ha hlost).trans hdown
    have hnot : d.lostDigits p = false :=
      Bool.eq_false_iff.mpr fun hl => (lostDigits_iff h).mp hl hlost
    rw [if_pos hlost, Option.some.injEq] at hround
    rw [hlost, Nat.mul_zero, Nat.compare_eq_lt.mpr (Nat.pow_pos (by decide))] at htest
    refine ⟨d₁, ?_, Or.inl ⟨hround ▸ hlow, hround ▸ hd₁⟩⟩
    cases mode with
    | up => exact hup
    | down => exact hdown
    | ceiling => simp [roundIn, doRoundCeiling, hnot, hdown]
    | floor => simp [roundIn, doRoundFloor, hnot, hdown]
    | halfUp => simp [roundIn, doRoundHalfUp, htest, hdown]
    | halfDown => simp [roundIn, doRoundHalfDown, htest, hdown]
    | halfEven => simp [roundIn, doRoundHalfEven, htest, hdown]
    | unnecessary => exact absurd rfl hmode
  · obtain ⟨d₂, hup, hd₂⟩ := h.exists_doRoundUp ha hp hlost
    have hdown' : d.doRoundDown p = some d₁ ∧ Keeps d₁ isNegative (N / 10 ^ a) p k (e + a) :=
      ⟨hdown, Or.inl ⟨hlow, hd₁⟩⟩
    have hyes := (lostDigits_iff h).mpr hlost
    rw [if_neg hlost, Option.map_eq_some_iff] at hround
    obtain ⟨bump, hbumps, hm⟩ := hround
    -- the mode calls the routine that gives the neighbour it is for
    have hcall : d.roundIn mode p = if bump then d.doRoundUp p else d.doRoundDown p := by
      have hparity : d.coefficient.item ((d.count : ℤ) - p) = some (N / 10 ^ a % 10) := by
        rw [h.count_eq, Nat.cast_add, add_sub_cancel_right,
          (Coefficient.Rewrites.refl d.coefficient).exists_item
            (by have := h.coefficient.count_le; rw [h.coefficient.full]; omega),
          h.coefficient.digit_eq (by omega)]
      generalize compare (2 * (N % 10 ^ a)) (10 ^ a) = toHalf at htest hbumps
      cases mode with
      | up => cases hbumps; rfl
      | down => cases hbumps; rfl
      | ceiling =>
          cases hbumps
          cases isNegative <;> simp [roundIn, doRoundCeiling, h.isNegative_eq, hyes]
      | floor =>
          cases hbumps
          cases isNegative <;> simp [roundIn, doRoundFloor, h.isNegative_eq, hyes]
      | halfUp =>
          cases hbumps
          cases toHalf <;> simp [roundIn, doRoundHalfUp, htest]
      | halfDown =>
          cases hbumps
          cases toHalf <;> simp [roundIn, doRoundHalfDown, htest]
      | halfEven =>
          cases hbumps
          cases toHalf <;> rcases Nat.mod_two_eq_zero_or_one (N / 10 ^ a) with heven | hodd <;>
            simp [roundIn, doRoundHalfEven, *]
      | unnecessary => exact absurd rfl hmode
    rw [hcall]
    cases bump with
    | false => exact ⟨d₁, hdown, hm ▸ hdown'.2⟩
    | true => exact ⟨d₂, hup, hm ▸ hd₂⟩

/-- What `round` notes in the context. -/
def roundNoted (ctx : DecimalContext) (lost : Bool) : DecimalContext :=
  let ctx := ctx.noted .rounded "Argument rounded"
  if lost then ctx.noted .inexact "Inexact when rouding" else ctx

theorem sameSettings_roundNoted (ctx : DecimalContext) (lost : Bool) :
    ctx.SameSettings (roundNoted ctx lost) := by
  cases lost
  · exact .noted ctx _ _
  · exact (DecimalContext.SameSettings.noted ctx _ _).trans (.noted _ _ _)

theorem isFlagged_inexact_roundNoted (ctx : DecimalContext) (lost : Bool) :
    (roundNoted ctx lost).isFlagged .inexact = (ctx.isFlagged .inexact || lost) := by
  cases lost <;>
    simp [roundNoted, DecimalContext.isFlagged, DecimalContext.noted, DecimalContext.setFlag]

/-- A number with too many digits is rounded, or a trapped signal raises an exception before. -/
theorem round_meets {ctx : DecimalContext} {d' : Decimal} (hspecial : d.isSpecial = false)
    (hcount : ctx.digits < d.count) (hin : d.roundIn ctx.roundingMode ctx.digits = some d') :
    d.round.Meets ctx
      (fun result ctx' => result = d' ∧ ctx' = roundNoted ctx (d.lostDigits ctx.digits))
      (fun ctx' => ctx.SameSettings ctx') := by
  apply Action.Meets.state_bind
  rw [if_neg (by rw [hspecial]; exact Bool.false_ne_true), if_pos hcount]
  apply DecimalContext.signal_bind (.noted _ _ _)
  apply Action.Meets.bind (Q := fun _ ctx' => ctx' = roundNoted ctx (d.lostDigits ctx.digits))
  · apply Action.Meets.onlyIf
    · intro hlost
      apply DecimalContext.signal_meets
      · exact (DecimalContext.SameSettings.noted ctx _ _).trans (.noted _ _ _)
      · rw [hlost]
        rfl
    · intro hlost
      rw [Bool.eq_false_iff.mpr hlost]
      rfl
  · rintro - - rfl
    exact Action.Meets.lift hin ⟨rfl, rfl⟩

/-- `coefficient * 10 ^ exponent`. -/
def magnitude (d : Decimal) : ℚ := d.coefficient.toNat * (10 : ℚ) ^ d.exponent

theorem Shows.magnitude_eq (h : d.Shows isNegative N n k e) (hlow : -2 ^ 31 ≤ e)
    (hhigh : e < 2 ^ 31) : d.magnitude = N * (10 : ℚ) ^ e := by
  rw [magnitude, h.coefficient.toNat_eq, h.exponent_eq, int32_of_mem hlow hhigh]

theorem Keeps.exists_shows {M : ℕ} (h : Keeps d isNegative M p k e) :
    ∃ M' e', d.Shows isNegative M' p k e' ∧ (M' : ℚ) * 10 ^ e' = M * 10 ^ e ∧
      e ≤ e' ∧ e' ≤ e + 1 := by
  rcases h with ⟨-, h⟩ | ⟨rfl, h⟩
  · exact ⟨M, e, h, rfl, le_rfl, by omega⟩
  · have hp := h.coefficient.count_pos
    refine ⟨_, _, h, ?_, by omega, le_rfl⟩
    obtain ⟨p, rfl⟩ : ∃ q, p = q + 1 := ⟨p - 1, by omega⟩
    rw [Nat.add_sub_cancel, zpow_add_one₀ (by norm_num)]
    push_cast
    ring

theorem shows_of_valid (hspecial : d.special = .none) (hvalid : d.coefficient.Valid)
    (hlow : -2 ^ 31 ≤ d.exponent) (hhigh : d.exponent < 2 ^ 31) :
    d.Shows d.isNegative d.coefficient.toNat d.coefficient.count d.coefficient.capacity
      d.exponent :=
  ⟨⟨hvalid, rfl, rfl, rfl⟩, (int32_of_mem hlow hhigh).symm, rfl, hspecial⟩

/-- A coefficient whose first digit is not zero has as many digits as its number. -/
theorem Shows.log_eq (h : d.Shows isNegative N n k e) (htop : d.coefficient.digit (n - 1) ≠ 0) :
    Nat.log 10 N + 1 = n := by
  have hn := h.coefficient.count_pos
  obtain ⟨n, rfl⟩ : ∃ m, n = m + 1 := ⟨n - 1, by omega⟩
  rw [← h.coefficient.numeral_eq,
    log_numeral (fun i hi => h.coefficient.digit_lt hi) htop]

/-- The result of `round` is the number that the mode prescribes at the position of the last digit
that is kept.  Only a signal of rounding may raise an exception. -/
theorem round_rounds (hspecial : d.special = .none) (hvalid : d.coefficient.Valid)
    {ctx : DecimalContext} (hdigits : 0 < ctx.digits) (hcount : ctx.digits < d.coefficient.count)
    (hmode : ctx.roundingMode ≠ .unnecessary) (hlow : -2 ^ 31 ≤ d.exponent)
    (hhigh : d.exponent + (d.coefficient.count - ctx.digits : ℕ) + 1 < 2 ^ 31) :
    d.round.Meets ctx
      (fun d' ctx' => d'.special = .none ∧ d'.isNegative = d.isNegative ∧
        d'.coefficient.Valid ∧ d'.coefficient.count = ctx.digits ∧
        (∃ m, ctx.roundingMode.roundNat d.isNegative
            (d.magnitude / 10 ^ (d.exponent + (d.coefficient.count - ctx.digits : ℕ))) = some m ∧
          d'.magnitude = m * 10 ^ (d.exponent + (d.coefficient.count - ctx.digits : ℕ))) ∧
        (d.coefficient.digit (d.coefficient.count - 1) ≠ 0 →
          ctx.roundingMode.roundMagnitude d.isNegative 10 ctx.digits d.magnitude =
            some d'.magnitude) ∧
        (ctx'.isFlagged .inexact = true ↔ ctx.isFlagged .inexact = true ∨
          ∃ i < d.coefficient.count - ctx.digits, d.coefficient.digit i ≠ 0) ∧
        ctx.SameSettings ctx')
      (fun ctx' => ctx.SameSettings ctx' ∧ ctx.RaisedBy roundSignals ctx') := by
  obtain ⟨a, ha⟩ : ∃ a, d.coefficient.count = a + ctx.digits :=
    ⟨d.coefficient.count - ctx.digits, by omega⟩
  have hd := shows_of_valid hspecial hvalid hlow (by omega)
  rw [ha] at hd
  rw [ha, Nat.add_sub_cancel] at hhigh ⊢
  have hquotient : d.magnitude / 10 ^ (d.exponent + a) =
      (d.coefficient.toNat : ℚ) / (10 ^ a : ℕ) := by
    rw [magnitude, zpow_add₀ (by norm_num), zpow_natCast, Nat.cast_pow, mul_comm ((10 : ℚ) ^ _)]
    exact mul_div_mul_right _ _ (zpow_ne_zero _ (by norm_num))
  obtain ⟨m, hround⟩ : ∃ m, ctx.roundingMode.roundNat d.isNegative
      ((d.coefficient.toNat : ℚ) / (10 ^ a : ℕ)) = some m :=
    RoundingMode.exists_roundNat hmode _
  obtain ⟨d', hin, hkeeps⟩ := hd.exists_roundIn (by omega) hdigits hmode hround
  have hmeets := (round_meets hd.isSpecial_eq (by rw [hd.count_eq]; omega) hin).error
    fun m ctx' => (round_raises hd.isSpecial_eq ctx (.refl ctx)).2 m ctx'
  apply hmeets.mono _ fun _ h => h
  rintro result ctx' ⟨rfl, rfl⟩
  obtain ⟨M, e', hshows, hvalue, hle, hle'⟩ := hkeeps.exists_shows
  have hmagnitude := hshows.magnitude_eq (by omega) (by omega)
  rw [hvalue] at hmagnitude
  refine ⟨hshows.special_eq, hshows.isNegative_eq, hshows.coefficient.valid,
    hshows.coefficient.count_eq, ⟨m, hquotient ▸ hround, hmagnitude⟩, ?_, ?_,
    sameSettings_roundNoted ctx _⟩
  · intro htop
    have hlog := hd.log_eq htop
    rw [magnitude, ← Nat.cast_ofNat (R := ℚ) (n := 10), RoundingMode.roundMagnitude_of_long
      (by decide) (by rintro h0; rw [h0, Nat.log_zero_right] at hlog; omega) (hlog.trans
        (Nat.add_comm _ _)), hround, hmagnitude]
    rfl
  · rw [isFlagged_inexact_roundNoted, Bool.or_eq_true, lostDigits_iff hd,
      exists_digit_iff hd (Nat.le_add_right a _)]

end

/-- The number `9996`. -/
def nines : Decimal := ⟨⟨⟨[6, 9, 9, 9], 4⟩, 4⟩, 0, false, .none⟩

theorem round_rounds_nines : RoundingMode.halfEven.roundMagnitude false 10 3 nines.magnitude =
    some (⟨⟨⟨[0, 0, 1, 0], 4⟩, 3⟩, 2, false, .none⟩ : Decimal).magnitude := by
  have hdigits : 0 < (DecimalContext.make 3 .halfEven).digits := by decide
  have h := round_rounds (d := nines) rfl ⟨rfl, by decide, by decide, by decide⟩ hdigits
    (by decide) (by decide) (by decide) (by decide)
  exact (h.of_run rfl).2.2.2.2.2.1 (by decide)

/-- The number `123` with two zeroes in front. -/
def leadingZeroes : Decimal := ⟨⟨⟨[3, 2, 1, 0, 0], 5⟩, 5⟩, 0, false, .none⟩

/-- With three digits `123` becomes `100`: the zeroes in front are digits, too. -/
theorem round_leadingZeroes : ∃ d' ctx',
    leadingZeroes.round (DecimalContext.make 3 .halfUp) = some (.ok d', ctx') ∧
      RoundingMode.halfUp.roundMagnitude false 10 3 leadingZeroes.magnitude ≠
        some d'.magnitude := by
  refine ⟨⟨⟨⟨[1, 0, 0, 0, 0], 5⟩, 3⟩, 2, false, .none⟩, _, rfl, ?_⟩
  have hvalue : leadingZeroes.magnitude = (123 : ℕ) * ((10 : ℕ) : ℚ) ^ (0 : ℤ) := by
    rw [magnitude, show leadingZeroes.coefficient.toNat = 123 by decide]
    norm_num [leadingZeroes]
  rw [hvalue, RoundingMode.roundMagnitude_of_short (by decide)
    (Nat.log_lt_of_lt_pow (by decide) (by decide)), magnitude]
  rw [show Coefficient.toNat ⟨⟨[1, 0, 0, 0, 0], 5⟩, 3⟩ = 1 by decide]
  norm_num

end Decimal

end Gobo
