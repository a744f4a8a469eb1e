/-
`multiply` of decimal numbers: the long multiplication of the coefficients, and the product rounded
to the digits of the context.
-/
import Gobo.DecimalCleaned

namespace Gobo

open Function

namespace Coefficient

/-- The turn of the loop over the digits of the longer factor. -/
def rowTurn (localA : Coefficient) (digit i j : ℕ) (s : Coefficient × ℕ) :
    Option (Coefficient × ℕ) := do
  let x ← localA.item j
  let y ← s.1.item (i + j : ℕ)
  let c ← s.1.setDigit ((s.2 + digit * x + y) % 10) (i + j : ℕ)
  some (c, (s.2 + digit * x + y) / 10)

/-- The turn of the loop over the digits of the shorter factor.  The last carry is written, not
added. -/
def row (localA localB : Coefficient) (i : ℕ) (c : Coefficient) : Option Coefficient := do
  let digit ← localB.item i
  let s ← forUp (rowTurn localA digit i) localA.count 0 (c, 0)
  if s.2 > 0 then s.1.setDigit s.2 (i + localA.count : ℕ) else some s.1

/-- `integer_multiply (a, b)` into `c`, whose digits below `count` are set to zero first. -/
def integerMultiply (c a b : Coefficient) : Option Coefficient := do
  let c ← forUp (fun i c => c.setDigit 0 i) c.count 0 c
  let locals := if a.count > b.count then (a, b) else (b, a)
  let c ← forUp (row locals.1 locals.2) locals.2.count 0 c
  some { c with count := locals.2.count + locals.1.count }.stripLeadingZeroes

section

variable {a b c : Coefficient} {A B na nb ka kb k : ℕ}

/-- The digits of the array of `k` show `V`, and are zero from the index `m` on. -/
structure Accumulates (d : ℕ → ℕ) (V m k : ℕ) : Prop where
  digit_lt : ∀ i, d i < 10
  digit_eq : ∀ i, m ≤ i → d i = 0
  numeral_eq : numeral 10 d k = V

/-- The invariant of a row: the carry stands for what is still to be added at its index. -/
def RowSoFar (c a : Coefficient) (V digit i na k j : ℕ) (s : Coefficient × ℕ) : Prop :=
  ∃ d W, c.Rewrites d s.1 ∧ Accumulates d W (i + na) k ∧ s.2 < 10 ∧
    W + s.2 * 10 ^ (i + j) = V + 10 ^ i * (digit * numeral 10 a.digit j)

theorem Shows.rowTurn_spec (ha : a.Shows A na ka) (hfull : c.digits.count = k) {V digit i j : ℕ}
    (hdigit : digit < 10) (hi : i + na < k) (hj : j < na) {s : Coefficient × ℕ}
    (h : RowSoFar c a V digit i na k j s) :
    ∃ s', rowTurn a digit i j s = some s' ∧ RowSoFar c a V digit i na k (j + 1) s' := by
  obtain ⟨d, W, hs, hd, hcarry, hW⟩ := h
  have hx := ha.digit_lt hj
  have hy := hd.digit_lt (i + j)
  have hitem : a.item j = some (a.digit j) :=
    (Rewrites.refl a).exists_item (by rw [ha.full]; exact hj.trans_le ha.count_le)
  have hitem' : s.1.item (i + j : ℕ) = some (d (i + j)) := hs.exists_item (by omega)
  have hprod : digit * a.digit j ≤ 9 * 9 :=
    Nat.mul_le_mul (Nat.le_of_lt_succ hdigit) (Nat.le_of_lt_succ hx)
  obtain ⟨c', hset, hc'⟩ := hs.exists_setDigit (i := i + j) (by omega)
    ((s.2 + digit * a.digit j + d (i + j)) % 10)
  have hupdate := numeral_update (b := 10) (d := d) (show i + j < k by omega)
    ((s.2 + digit * a.digit j + d (i + j)) % 10)
  refine ⟨(c', (s.2 + digit * a.digit j + d (i + j)) / 10), ?_, _, _, hc', ⟨?_, ?_, rfl⟩, ?_, ?_⟩
  · rw [rowTurn, hitem]
    simp only [some_bind, hitem', hset]
  · intro m
    rcases eq_or_ne m (i + j) with rfl | hne
    · rw [update_self]
      exact Nat.mod_lt _ (by decide)
    · rw [update_of_ne hne]
      exact hd.digit_lt m
  · intro m hm
    rw [update_of_ne (by omega)]
    exact hd.digit_eq m hm
  · change (s.2 + digit * a.digit j + d (i + j)) / 10 < 10
    omega
  · have hsplit := Nat.mod_add_div (s.2 + digit * a.digit j + d (i + j)) 10
    rw [hd.numeral_eq] at hupdate
    rw [numeral_succ, ← Nat.add_assoc, pow_succ]
    rw [← Nat.add_right_cancel_iff (n := d (i + j) * 10 ^ (i + j))]
    calc _ = numeral 10 (update d (i + j) _) k + d (i + j) * 10 ^ (i + j) +
          (s.2 + digit * a.digit j + d (i + j)) / 10 * (10 ^ (i + j) * 10) := by ring
      _ = W + ((s.2 + digit * a.digit j + d (i + j)) % 10 +
          10 * ((s.2 + digit * a.digit j + d (i + j)) / 10)) * 10 ^ (i + j) := by
            rw [hupdate]
            ring
      _ = W + s.2 * 10 ^ (i + j) + digit * a.digit j * 10 ^ (i + j) +
          d (i + j) * 10 ^ (i + j) := by
            rw [hsplit]
            ring
      _ = _ := by
            rw [hW, pow_add]
            ring

/-- A row adds the product of the longer factor and a digit of the shorter one. -/
theorem Shows.exists_row (ha : a.Shows A na ka) (hb : b.Shows B nb kb)
    (hfull : c.digits.count = k) {i : ℕ} (hi : i < nb) (hk : na + nb ≤ k) {d : ℕ → ℕ}
    {s : Coefficient} (hs : c.Rewrites d s)
    (hd : Accumulates d (A * numeral 10 b.digit i) (i + na) k) :
    ∃ d' s', row a b i s = some s' ∧ c.Rewrites d' s' ∧
      Accumulates d' (A * numeral 10 b.digit (i + 1)) (i + 1 + na) k := by
  have hitem : b.item i = some (b.digit i) :=
    (Rewrites.refl b).exists_item (by rw [hb.full]; exact hi.trans_le hb.count_le)
  obtain ⟨s₁, hrun, d₁, W, hs₁, hd₁, hcarry, hW⟩ :
      ∃ s₁, forUp (rowTurn a (b.digit i) i) a.count 0 (s, 0) = some s₁ ∧
        RowSoFar c a (A * numeral 10 b.digit i) (b.digit i) i na k (0 + na) s₁ := by
    rw [ha.count_eq]
    apply forUp_spec (RowSoFar c a (A * numeral 10 b.digit i) (b.digit i) i na k)
    · intro j s _ hj hs
      exact ha.rowTurn_spec hfull (hb.digit_lt hi) (by omega) (by omega) hs
    · exact ⟨d, _, hs, hd, Nat.zero_lt_succ 9, by simp⟩
  rw [Nat.zero_add, ha.numeral_eq] at hW
  have hsum : A * numeral 10 b.digit (i + 1) = W + s₁.2 * 10 ^ (i + na) := by
    rw [hW, numeral_succ]
    ring
  rw [row, hitem]
  simp only [some_bind, hrun]
  split_ifs with hpos
  · obtain ⟨c', hset, hc'⟩ := hs₁.exists_setDigit (i := i + na) (by omega) s₁.2
    rw [ha.count_eq]
    have hupdate := numeral_update (b := 10) (d := d₁) (show i + na < k by omega) s₁.2
    rw [hd₁.digit_eq (i + na) (Nat.le_refl _), Nat.zero_mul, Nat.add_zero, hd₁.numeral_eq]
      at hupdate
    refine ⟨_, c', hset, hc', fun m => ?_, fun m hm => ?_, hupdate.trans hsum.symm⟩
    · rcases eq_or_ne m (i + na) with rfl | hne
      · rw [update_self]
        exact hcarry
      · rw [update_of_ne hne]
        exact hd₁.digit_lt m
    · rw [update_of_ne (by omega)]
      exact hd₁.digit_eq m (by omega)
  · have hzero : s₁.2 = 0 := by omega
    rw [hzero, Nat.zero_mul, Nat.add_zero] at hsum
    exact ⟨d₁, s₁.1, rfl, hs₁, hd₁.digit_lt, fun m hm => hd₁.digit_eq m (by omega),
      hd₁.numeral_eq.trans hsum.symm⟩

/-- The digits in front of the first one are zero. -/
theorem Accumulates.digit_eq_zero {d : ℕ → ℕ} {V m i : ℕ} (h : Accumulates d V m k) (hm : m ≤ k)
    (hi : Nat.log 10 V + 1 ≤ i) : d i = 0 := by
  have hV : V < 10 ^ i := (Nat.lt_pow_succ_log_self (by decide) V).trans_le
    (Nat.pow_le_pow_right (by decide) hi)
  rcases Nat.lt_or_ge i k with hlt | hge
  · have hdigit := numeral_digit (n := k) (fun j _ => h.digit_lt j) hlt
    rw [h.numeral_eq, Nat.div_eq_of_lt hV] at hdigit
    exact hdigit.symm
  · exact h.digit_eq i (hm.trans hge)

/-- `integer_multiply` gives the product without a zero in front, and leaves no digit behind. -/
theorem Shows.exists_integerMultiply (hc : c.Shows 0 1 k) (hzero : c.digit = fun _ => 0)
    (ha : a.Shows A na ka) (hb : b.Shows B nb kb) (hk : na + nb ≤ k) :
    ∃ c', c.integerMultiply a b = some c' ∧ c'.Shows (A * B) (Nat.log 10 (A * B) + 1) k ∧
      ∀ i, Nat.log 10 (A * B) + 1 ≤ i → c'.digit i = 0 := by
  -- The longer factor is the first one.
  have hlocals : ∃ a' b' A' B' na' nb' ka' kb',
      (if a.count > b.count then (a, b) else (b, a)) = (a', b') ∧ a'.Shows A' na' ka' ∧
        b'.Shows B' nb' kb' ∧ A' * B' = A * B ∧ na' + nb' = na + nb := by
    split_ifs
    · exact ⟨a, b, A, B, na, nb, ka, kb, rfl, ha, hb, rfl, rfl⟩
    · exact ⟨b, a, B, A, nb, na, kb, ka, rfl, hb, ha, Nat.mul_comm _ _, Nat.add_comm _ _⟩
  obtain ⟨a', b', A', B', na', nb', ka', kb', hlocals, ha', hb', hprod, hsum⟩ := hlocals
  have hpos := ha'.count_pos
  obtain ⟨c₁, hclear, hc₁⟩ := (Rewrites.refl c).exists_clear (i := 0) (j := c.count) (by
    rw [hc.full, hc.count_eq]
    omega)
  have hdigit₁ : c.Rewrites (fun _ => 0) c₁ := hc₁.congr fun i => by
    rw [hzero]
    exact ite_self 0
  obtain ⟨c₂, hrun, d, hc₂, hd⟩ : ∃ c₂, forUp (row a' b') b'.count 0 c₁ = some c₂ ∧
      ∃ d, c.Rewrites d c₂ ∧
        Accumulates d (A' * numeral 10 b'.digit (0 + nb')) (0 + nb' + na') k := by
    rw [hb'.count_eq]
    apply forUp_spec (fun i c₂ => ∃ d, c.Rewrites d c₂ ∧
      Accumulates d (A' * numeral 10 b'.digit i) (i + na') k)
    · rintro i s - hi ⟨d, hs, hd⟩
      obtain ⟨d', s', hrow, hs', hd'⟩ := ha'.exists_row hb' hc.full (by omega) (by omega) hs hd
      exact ⟨s', hrow, d', hs', hd'⟩
    · refine ⟨_, hdigit₁, fun _ => by decide, fun _ _ => rfl, ?_⟩
      rw [numeral_zero, Nat.mul_zero]
      exact numeral_eq_zero fun _ _ => rfl
  rw [Nat.zero_add, hb'.numeral_eq, hprod] at hd
  have hshow : Shows { c₂ with count := nb' + na' } (A * B) (nb' + na') k := by
    apply hc.rewrite hc₂ (by omega) (by omega) fun i _ => hd.digit_lt i
    have hsplit := numeral_add_of_zero (b := 10) (d := d) (n := nb' + na') (k := k - (nb' + na'))
      fun i _ => hd.digit_eq _ (by omega)
    rw [Nat.add_sub_of_le (by omega), hd.numeral_eq] at hsplit
    exact hsplit.symm
  refine ⟨_, ?_, hshow.strip, fun i hi => ?_⟩
  · rw [hb'.count_eq] at hrun
    rw [integerMultiply]
    simp only [hlocals, Option.bind_eq_bind, hclear, Option.bind_some, hrun, hb'.count_eq,
      ha'.count_eq]
  · have hi' := hd.digit_eq_zero (by omega) hi
    rw [← hc₂.digit_eq] at hi'
    exact hi'

end

end Coefficient

namespace Decimal

open DecimalContext (signal)

/-- The sign of a product. -/
def withSignOfProduct (result d other : Decimal) : Decimal :=
  if d.sign = other.sign then result.setPositive else result.setNegative

/-- The product of two finite numbers that are not zero, before `clean_up`. -/
def exactProduct (d other : Decimal) : Option Decimal := do
  let result ← make (d.count + other.count + 2)
  let c ← result.coefficient.integerMultiply d.coefficient other.coefficient
  let result := { result with coefficient := c }.setExponent (int32 (d.exponent + other.exponent))
  some (result.withSignOfProduct d other)

/-- The product of two numbers one of which is zero. -/
def zeroProduct (d other : Decimal) (digits : ℕ) : Option Decimal :=
  (make digits).map fun result =>
    (result.setExponent (int32 (d.exponent + other.exponent))).withSignOfProduct d other

/-- `multiply (other, ctx)`. -/
def multiply (d other : Decimal) : Action DecimalContext Decimal := do
  if d.isSpecial ∨ other.isSpecial then
    if d.isNan ∨ other.isNan then do
      Action.onlyIf (d.isSignalingNan ∨ other.isSignalingNan)
        (signal .invalidOperation "sNan in multiply")
      pure nan
    else if d.isInfinity ∨ other.isInfinity then
      if d.isZero ∨ other.isZero then do
        signal .invalidOperation "0 * Inf"
        pure nan
      else if d.sign = other.sign then pure infinity
      else pure negativeInfinity
    else pure nan
  else if d.isZero ∨ other.isZero then do
    let ctx ← Action.state
    Action.lift (d.zeroProduct other ctx.digits)
  else do
    let result ← Action.lift (d.exactProduct other)
    result.cleanUp

section

variable {ctx : DecimalContext} {d other result : Decimal} {s t : Bool} {A B na nb ka kb N n k : ℕ}
  {ea eb e : ℤ}

theorem Shows.sign_eq (h : d.Shows s N n k e) : d.sign = if s then -1 else 1 := by
  rw [sign, h.isNegative_eq]

theorem Shows.withSignOfProduct (h : result.Shows false N n k e) (hd : d.Shows s A na ka ea)
    (ho : other.Shows t B nb kb eb) :
    (result.withSignOfProduct d other).Shows (s != t) N n k e := by
  rw [Decimal.withSignOfProduct, hd.sign_eq, ho.sign_eq]
  cases s <;> cases t
  · exact ⟨h.coefficient, h.exponent_eq, rfl, h.special_eq⟩
  · exact ⟨h.coefficient, h.exponent_eq, rfl, h.special_eq⟩
  · exact ⟨h.coefficient, h.exponent_eq, rfl, h.special_eq⟩
  · exact ⟨h.coefficient, h.exponent_eq, rfl, h.special_eq⟩

theorem exists_make (hk : 0 < k) : ∃ d, make k = some d ∧ d.Shows false 0 1 k 0 ∧
    d.coefficient.digit = fun _ => 0 := by
  obtain ⟨c, hput, hc, hzero⟩ := Coefficient.exists_zeroes hk
  exact ⟨_, by rw [make, hput]; rfl, ⟨hc, rfl, rfl, rfl⟩, hzero⟩

/-- The product is exact before `clean_up`. -/
theorem Shows.exists_exactProduct (hd : d.Shows s A na ka ea) (ho : other.Shows t B nb kb eb) :
    ∃ result, d.exactProduct other = some result ∧
      result.Shows (s != t) (A * B) (Nat.log 10 (A * B) + 1) (na + nb + 2) (ea + eb) := by
  obtain ⟨r, hmake, hr, hzero⟩ := exists_make (k := na + nb + 2) (by omega)
  obtain ⟨c, hmultiply, hc, -⟩ := hr.coefficient.exists_integerMultiply hzero hd.coefficient
    ho.coefficient (by omega)
  have hexponent : int32 (d.exponent + other.exponent) = int32 (ea + eb) := by
    rw [hd.exponent_eq, ho.exponent_eq, int32_int32_add, add_comm, int32_int32_add, add_comm]
  refine ⟨_, ?_, (hr.with hc (ea + eb)).withSignOfProduct hd ho⟩
  rw [exactProduct, hd.count_eq, ho.count_eq, hmake]
  simp only [some_bind, hmultiply, hexponent]
  rfl

/-- The product with zero. -/
theorem Shows.exists_zeroProduct (hd : d.Shows s A na ka ea) (ho : other.Shows t B nb kb eb)
    {digits : ℕ} (hdigits : 0 < digits) :
    ∃ result, d.zeroProduct other digits = some result ∧
      result.Shows (s != t) 0 1 digits (ea + eb) := by
  obtain ⟨r, hmake, hr, -⟩ := exists_make hdigits
  have hexponent : int32 (d.exponent + other.exponent) = int32 (ea + eb) := by
    rw [hd.exponent_eq, ho.exponent_eq, int32_int32_add, add_comm, int32_int32_add, add_comm]
  refine ⟨_, ?_, (hr.with hr.coefficient (ea + eb)).withSignOfProduct hd ho⟩
  rw [zeroProduct, hmake, hexponent]
  rfl

/-- A finite number with a filled array and parts that are `INTEGER`s. -/
structure Finite (d : Decimal) : Prop where
  special_eq : d.special = .none
  valid : d.coefficient.Valid
  count_lt : d.coefficient.count < 2 ^ 31
  exponent_ge : -2 ^ 31 ≤ d.exponent
  exponent_lt : d.exponent < 2 ^ 31

theorem Finite.shows (h : d.Finite) : d.Shows d.isNegative d.coefficient.toNat d.coefficient.count
    d.coefficient.capacity d.exponent :=
  shows_of_valid h.special_eq h.valid h.exponent_ge h.exponent_lt

/-- `clean_up` of an exact result within the limits. -/
theorem Shows.cleanUp_rounds {r : ℚ} (h : d.Shows s N n k e) (hctx : ctx.Valid) (hN : N ≠ 0)
    (hround : ctx.roundingMode.roundMagnitude s 10 ctx.digits (N * (10 : ℚ) ^ e) = some r)
    (hlow : 10 ^ (-ctx.exponentLimit) ≤ N * (10 : ℚ) ^ e) (hhigh : r < 10 ^ (ctx.exponentLimit + 1))
    (hsum : ctx.roundingMode = .unnecessary → -2 ^ 31 ≤ e) :
    d.cleanUp.Meets ctx
      (fun d' ctx' => (d'.special = .none ∧ d'.isNegative = s ∧ d'.magnitude = r) ∧
        ctx.SameSettings ctx')
      (LeavesSettings (cleaning ctx) N e) := by
  have hpos := hctx.digits_pos
  have hdigits := hctx.digits_le
  have hbound := hctx.exponentLimit_le
  rw [DecimalContext.maximumDigits] at hdigits
  rw [DecimalContext.maximumExponent] at hbound
  have hle : -ctx.exponentLimit ≤ e + Nat.log 10 N :=
    not_lt.mp fun hlt => absurd hlow ((mul_zpow_lt_zpow_iff hN).mpr hlt).not_ge
  have htop : e + Nat.log 10 N ≤ ctx.exponentLimit := by
    obtain ⟨M, E, hM, hr, hlog⟩ := exists_roundMagnitude hN hpos hround
    rw [hr] at hhigh
    have := (mul_zpow_lt_zpow_iff hM).mp hhigh
    omega
  have hadjusted := int32_of_mem (x := e + Nat.log 10 N) (by omega) (by omega)
  rw [← Nat.cast_ofNat (R := ℚ) (n := 10)] at hround
  rcases lt_or_ge (Nat.log 10 N) ctx.digits with hshort | hlong
  · rw [RoundingMode.roundMagnitude_of_short (by decide) hshort, Option.some.injEq,
      Nat.cast_ofNat] at hround
    apply (h.cleanUp_short hctx hshort (by rwa [hadjusted])).mono _ fun _ h => h
    rintro d' ctx' ⟨hd', hctx'⟩
    rw [hadjusted, if_pos htop] at hd'
    exact ⟨⟨hd'.special_eq, hd'.isNegative_eq,
      (hd'.magnitude_eq (by omega) (by omega)).trans hround⟩, hctx'⟩
  obtain ⟨a, ha⟩ : ∃ a, Nat.log 10 N + 1 = a + ctx.digits :=
    ⟨Nat.log 10 N + 1 - ctx.digits, by omega⟩
  rw [RoundingMode.roundMagnitude_of_long (by decide) hN (ha.trans (Nat.add_comm _ _)),
    Option.map_eq_some_iff, Nat.cast_ofNat] at hround
  obtain ⟨m, hm, rfl⟩ := hround
  by_cases hmode : ctx.roundingMode = .unnecessary
  · apply (h.cleanUp_unnecessary hpos (by omega) (by rwa [hadjusted]) hmode).mono _ fun _ h => h
    rintro d' ctx' ⟨⟨-, hd'⟩, hctx'⟩
    refine ⟨⟨hd'.special_eq, hd'.isNegative_eq, ?_⟩, hctx'⟩
    rw [hd'.magnitude_eq (hsum hmode) (by omega)]
    rw [hmode, RoundingMode.roundNat_div (Nat.pow_pos (by decide))] at hm
    split_ifs at hm with hzero
    · obtain ⟨q, hq⟩ := Nat.dvd_of_mod_eq_zero hzero
      rw [hq, Nat.mul_div_cancel_left _ (Nat.pow_pos (by decide)), Option.some.injEq] at hm
      rw [hq, hm, zpow_add₀ (by norm_num), zpow_natCast]
      push_cast
      ring
    · cases hm
  · apply (h.cleanUp_long hpos ha (by omega) (by rwa [hadjusted]) hmode hm).mono _ fun _ h => h
    rintro d' ctx' ⟨⟨M, e', hM, hd'⟩, hctx'⟩
    have hcarries : Carries ctx.roundingMode s N a ctx.digits e M e' := by
      rw [Carries, if_neg hmode]
      exact ⟨m, hm, hM⟩
    obtain ⟨hM0, hlog, he'⟩ := hcarries.log_eq hmode ha (by omega) hpos
    have hvalue := hcarries.value_eq hmode hm hpos
    rw [hvalue, mul_zpow_lt_zpow_iff hM0] at hhigh
    rw [int32_of_mem (by omega) (by omega), if_pos (by omega)] at hd'
    exact ⟨⟨hd'.special_eq, hd'.isNegative_eq,
      (hd'.magnitude_eq (by omega) (by omega)).trans hvalue.symm⟩, hctx'⟩

/-- The product is rounded. -/
theorem Shows.multiply_rounds {r : ℚ} (hd : d.Shows s A na ka ea) (ho : other.Shows t B nb kb eb)
    (hctx : ctx.Valid) (hround : ctx.roundingMode.roundMagnitude (s != t) 10 ctx.digits
      ((A * B : ℕ) * (10 : ℚ) ^ (ea + eb)) = some r)
    (hlow : A * B ≠ 0 → 10 ^ (-ctx.exponentLimit) ≤ ((A * B : ℕ) * (10 : ℚ) ^ (ea + eb)))
    (hhigh : r < 10 ^ (ctx.exponentLimit + 1))
    (hsum : ctx.roundingMode = .unnecessary → -2 ^ 31 ≤ ea + eb) :
    (d.multiply other).Meets ctx
      (fun d' ctx' => (d'.special = .none ∧ d'.isNegative = (s != t) ∧ d'.magnitude = r) ∧
        ctx.SameSettings ctx')
      (CleanUpRaises ctx) := by
  rw [multiply, if_neg (by rw [hd.isSpecial_eq, ho.isSpecial_eq]; decide)]
  by_cases hzero : A * B = 0
  · have hzero' : d.isZero = true ∨ other.isZero = true := by
      rw [hd.isZero_iff, ho.isZero_iff]
      exact Nat.mul_eq_zero.mp hzero
    rw [if_pos hzero']
    obtain ⟨result, hrun, hresult⟩ := hd.exists_zeroProduct ho hctx.digits_pos
    apply Action.Meets.state_bind
    apply Action.Meets.lift hrun
    rw [hzero, Nat.cast_zero, zero_mul, RoundingMode.roundMagnitude_zero,
      Option.some.injEq] at hround
    refine ⟨⟨hresult.special_eq, hresult.isNegative_eq, ?_⟩, .refl ctx⟩
    rw [hresult.magnitude_int32, Nat.cast_zero, zero_mul, hround]
  · have hzero' : ¬(d.isZero = true ∨ other.isZero = true) := by
      rw [hd.isZero_iff, ho.isZero_iff]
      exact fun h => hzero (Nat.mul_eq_zero.mpr h)
    rw [if_neg hzero']
    obtain ⟨result, hrun, hresult⟩ := hd.exists_exactProduct ho
    apply Action.Meets.lift_bind hrun
    have hmeets := (hresult.cleanUp_rounds hctx hzero hround (hlow hzero) hhigh hsum).error
      fun m ctx' => (cleanUp_raises hresult.isSpecial_eq ctx (.refl ctx)).2 m ctx'
    exact hmeets.mono (fun _ _ h => h) fun _ h => h.2

theorem magnitude_mul (d other : Decimal) : d.magnitude * other.magnitude =
    ((d.coefficient.toNat * other.coefficient.toNat : ℕ) : ℚ) *
      (10 : ℚ) ^ (d.exponent + other.exponent) := by
  rw [magnitude, magnitude, zpow_add₀ (by norm_num)]
  push_cast
  ring

end

/-- The number `12`. -/
def dozen : Decimal := ⟨⟨⟨[2, 1], 2⟩, 2⟩, 0, false, .none⟩

def nine : Decimal := ⟨⟨⟨[9], 1⟩, 1⟩, 0, false, .none⟩

def eleven : Decimal := ⟨⟨⟨[1, 1], 2⟩, 2⟩, 0, false, .none⟩

end Decimal

end Gobo
