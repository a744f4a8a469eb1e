/-
`clean_up` of decimal numbers: a number is brought within the digits and the limits of a context.
-/
import Gobo.DecimalRounding

namespace Gobo

open Function

theorem numeral_nines (n : ℕ) : numeral 10 (fun _ => 9) n = 10 ^ n - 1 := by
  induction n with
  | zero => rfl
  | succ n ih =>
      rw [numeral_succ, ih, pow_succ]
      omega

namespace Coefficient

variable {c : Coefficient} {N n k : ℕ}

/-- All digits become nine. -/
theorem Shows.exists_nines (h : c.Shows N n k) :
    ∃ c', forUp (fun index c => c.put 9 index) n 0 c = some c' ∧ c'.Shows (10 ^ n - 1) n k := by
  have hle := h.count_le
  obtain ⟨c', hrun, hc'⟩ : ∃ c', forUp (fun index c => c.put 9 index) n 0 c = some c' ∧
      c.Rewrites (fun j => if j < 0 + n then 9 else c.digit j) c' := by
    apply forUp_spec (fun i c₁ => c.Rewrites (fun j => if j < i then 9 else c.digit j) c₁)
    · intro i c₁ _ hi hc₁
      obtain ⟨c₂, hset, hc₂⟩ := hc₁.exists_setDigit (i := i) (by rw [h.full]; omega) 9
      refine ⟨c₂, (put_of_lt ?_).trans hset, hc₂.congr fun j => ?_⟩
      · rw [hc₁.count_eq, h.count_eq]
        omega
      · rcases Nat.lt_trichotomy j i with hlt | rfl | hgt
        · rw [update_of_ne (Nat.ne_of_lt hlt), if_pos hlt, if_pos (Nat.lt_succ_of_lt hlt)]
        · rw [update_self, if_pos (Nat.lt_succ_self j)]
        · rw [update_of_ne (Nat.ne_of_gt hgt), if_neg (Nat.not_lt_of_gt hgt),
            if_neg (by omega)]
    · exact (Rewrites.refl c).congr fun j => (if_neg (Nat.not_lt_zero j)).symm
  refine ⟨c', hrun, ?_⟩
  have hshow := h.rewrite hc' (M := 10 ^ n - 1) h.count_pos hle
    (fun i hi => by rw [if_pos (by omega)]; decide) (by
      rw [← numeral_nines n]
      exact numeral_congr fun i hi => if_pos (by omega))
  rwa [show ({ c' with count := n } : Coefficient) = c' by
    rw [← h.count_eq, ← hc'.count_eq]] at hshow

end Coefficient

namespace Decimal

section

variable {d : Decimal} {isNegative : Bool} {N n k : ℕ} {e : ℤ} {ctx : DecimalContext}

theorem Shows.strip (h : d.Shows isNegative N n k e) :
    d.stripLeadingZeroes.Shows isNegative N (Nat.log 10 N + 1) k e :=
  h.withCoefficient h.coefficient.strip

theorem Shows.exists_grow (h : d.Shows isNegative N n k e) {m : ℕ} (hm : n ≤ m) :
    ∃ d', d.grow m = some d' ∧ d'.Shows isNegative N m (max k m) e := by
  obtain ⟨c, hgrow, hc, -⟩ := h.coefficient.exists_grow hm
  exact ⟨_, by rw [grow, hgrow]; rfl, h.withCoefficient hc⟩

theorem Shows.exists_nines (h : d.Shows isNegative N n k e) :
    ∃ d', forUp (fun index d => d.put 9 index) n 0 d = some d' ∧
      d'.Shows isNegative (10 ^ n - 1) n k e := by
  obtain ⟨c, hrun, hc⟩ := h.coefficient.exists_nines
  have hlift : ∀ n i (d : Decimal), forUp (fun index d => d.put 9 index) n i d =
      (forUp (fun index c => c.put 9 index) n i d.coefficient).map
        fun c => { d with coefficient := c } := by
    intro n
    induction n with
    | zero => exact fun i d => rfl
    | succ n ih =>
        intro i d
        rw [forUp, forUp, put]
        cases d.coefficient.put 9 i with
        | none => rfl
        | some c => exact ih (i + 1) _
  exact ⟨_, by rw [hlift, hrun]; rfl, h.withCoefficient hc⟩

/-- The greatest coefficient with the digits of the context. -/
theorem Shows.exists_setLargest (h : d.Shows isNegative N n k e) (hn : n ≤ ctx.digits) :
    ∃ d' k', d.setLargest ctx = some d' ∧
      d'.Shows isNegative (10 ^ ctx.digits - 1) ctx.digits k'
        (if d.exponent < 0 then -ctx.exponentLimit + (ctx.digits - 1)
        else ctx.exponentLimit - (ctx.digits - 1)) := by
  obtain ⟨d₁, k', hgrow, h₁⟩ : ∃ d₁ k',
      (if d.count < ctx.digits then d.grow ctx.digits else some d) = some d₁ ∧
        d₁.Shows isNegative N ctx.digits k' e := by
    rw [h.count_eq]
    rcases Nat.lt_or_eq_of_le hn with hlt | heq
    · rw [if_pos hlt]
      obtain ⟨d₁, hgrow, h₁⟩ := h.exists_grow hn
      exact ⟨d₁, _, hgrow, h₁⟩
    · rw [if_neg (Nat.not_lt_of_le (Nat.le_of_eq heq.symm))]
      exact ⟨d, k, rfl, heq ▸ h⟩
  obtain ⟨d₂, hnines, h₂⟩ := h₁.exists_nines
  obtain ⟨c, hkeep, hc⟩ := h₂.coefficient.exists_keepHead h₂.coefficient.count_pos (Nat.le_refl _)
  rw [Nat.mod_eq_of_lt h₂.coefficient.lt] at hc
  have h₃ := h₂.withCoefficient hc
  have hkeep' : d₂.keepHead ctx.digits = some { d₂ with coefficient := c } := by
    rw [keepHead, hkeep]
    rfl
  refine ⟨_, k', ?_, h₂.with hc _⟩
  have hexponent : d.exponent = d₂.exponent := by rw [h₂.exponent_eq, h.exponent_eq]
  simp only [setLargest, hgrow, some_bind, h₁.count_eq, hnines, hkeep',
    h₃.count_eq, hexponent, apply_ite int32]
  rfl

/-- The modes that take a number above the limit to the largest finite one. -/
def toLargest (mode : RoundingMode) (isNegative : Bool) : Bool :=
  match mode with
  | .down => true
  | .ceiling => isNegative
  | .floor => !isNegative
  | _ => false

/-- What `do_overflow` makes of a number. -/
def Overflows (mode : RoundingMode) (digits : ℕ) (limit : ℤ) (isNegative : Bool) (exponent : ℤ)
    (d' : Decimal) : Prop :=
  if toLargest mode isNegative then
    ∃ k, d'.Shows isNegative (10 ^ digits - 1) digits k
      (if exponent < 0 then -limit + (digits - 1) else limit - (digits - 1))
  else d' = promoteToInfinity isNegative

theorem Shows.overflowed_meets (h : d.Shows isNegative N n k e) (hn : n ≤ ctx.digits)
    (hmode : ctx.roundingMode ≠ .unnecessary) (ctx₁ : DecimalContext) {E : DecimalContext → Prop} :
    (d.overflowed ctx).Meets ctx₁
      (fun d' ctx' => Overflows ctx.roundingMode ctx.digits ctx.exponentLimit isNegative
        d.exponent d' ∧ ctx' = ctx₁) E := by
  obtain ⟨d', k', hlargest, hd'⟩ := h.exists_setLargest hn
  have hlift : toLargest ctx.roundingMode isNegative = true →
      (Action.lift (d.setLargest ctx)).Meets ctx₁
        (fun d' ctx' => Overflows ctx.roundingMode ctx.digits ctx.exponentLimit isNegative
        d.exponent d' ∧ ctx' = ctx₁) E := fun hto =>
    Action.Meets.lift hlargest ⟨by rw [Overflows, if_pos hto]; exact ⟨k', hd'⟩, rfl⟩
  have hpure : toLargest ctx.roundingMode isNegative = false →
      (pure (promoteToInfinity d.isNegative) : Action DecimalContext Decimal).Meets ctx₁
        (fun d' ctx' => Overflows ctx.roundingMode ctx.digits ctx.exponentLimit isNegative
        d.exponent d' ∧ ctx' = ctx₁) E := fun hto =>
    Action.Meets.pure ⟨by rw [Overflows, hto, h.isNegative_eq]; rfl, rfl⟩
  rw [overflowed, h.isNegative_eq]
  rw [h.isNegative_eq] at hpure
  generalize ctx.roundingMode = mode at hmode hlift hpure ⊢
  cases mode with
  | unnecessary => exact absurd rfl hmode
  | down => exact hlift rfl
  | ceiling =>
      cases isNegative with
      | false => exact hpure rfl
      | true => exact hlift rfl
  | floor =>
      cases isNegative with
      | false => exact hlift rfl
      | true => exact hpure rfl
  | _ => exact hpure rfl

/-- `do_overflow` of a number that is not zero. -/
theorem Shows.doOverflow_meets (h : d.Shows isNegative N n k e) (hN : N ≠ 0)
    (hn : ctx.roundingMode ≠ .unnecessary → n ≤ ctx.digits) :
    d.doOverflow.Meets ctx
      (fun d' ctx' => ctx.roundingMode ≠ .unnecessary ∧ Overflows ctx.roundingMode ctx.digits
        ctx.exponentLimit isNegative d.exponent d' ∧ ctx.SameSettings ctx')
      (fun ctx' => ctx.SameSettings ctx') := by
  have hzero : d.isZero = false := Bool.eq_false_iff.mpr fun hz => hN (h.isZero_iff.mp hz)
  apply Action.Meets.state_bind
  rw [hzero, Bool.not_false, if_pos rfl]
  have hnoted := DecimalContext.SameSettings.noted ctx .overflow ""
  apply DecimalContext.signal_bind hnoted
  by_cases hmode : ctx.roundingMode = .unnecessary
  · rw [overflowed, hmode]
    exact (Action.Meets.raise (A := Decimal) (Q := fun _ _ => False) hnoted).bind
      fun _ _ h => h.elim
  · apply (h.overflowed_meets (hn hmode) hmode _).bind
    rintro d' - ⟨hd', rfl⟩
    have hinexact := hnoted.trans (.noted _ .inexact "do_overflow")
    have hrounded := hinexact.trans (.noted _ .rounded "do_overflow")
    apply DecimalContext.signal_bind hinexact
    apply DecimalContext.signal_bind hrounded
    exact Action.Meets.pure ⟨hmode, hd', hrounded⟩

/-- `do_overflow` of zero. -/
theorem Shows.doOverflow_zero_meets (h : d.Shows isNegative 0 n k e) {E : DecimalContext → Prop} :
    d.doOverflow.Meets ctx
      (fun d' ctx' => d' = d.setExponent ctx.exponentLimit ∧ ctx' = ctx) E := by
  apply Action.Meets.state_bind
  rw [h.isZero_iff.mpr rfl]
  exact Action.Meets.pure ⟨rfl, rfl⟩

/-- The digit that stands for a number all of whose digits are below the least one. -/
def digitBelow (mode : RoundingMode) (isNegative : Bool) (N : ℕ) : ℕ :=
  match mode with
  | .up => 1
  | .ceiling => if isNegative = false ∧ N % 10 ≠ 0 then 1 else 0
  | .floor => if isNegative = true ∧ N % 10 ≠ 0 then 1 else 0
  | _ => 0

theorem Shows.underflowDigit_eq (h : d.Shows isNegative N n k e) (mode : RoundingMode) :
    d.underflowDigit mode = digitBelow mode isNegative N := by
  have hn := h.coefficient.count_pos
  have hlost : d.lostDigits (d.coefficient.count - 1) = decide (N % 10 ≠ 0) := by
    rw [h.coefficient.count_eq, Bool.eq_iff_iff, decide_eq_true_iff]
    have hsplit : n = 1 + (n - 1) := by omega
    have h' := h
    rw [hsplit] at h'
    rw [lostDigits_iff h', pow_one]
  cases mode with
  | ceiling =>
      simp only [underflowDigit, hlost, h.isNegative_eq, digitBelow]
      cases isNegative <;> simp
  | floor =>
      simp only [underflowDigit, hlost, h.isNegative_eq, digitBelow]
      cases isNegative <;> simp
  | _ => rfl

theorem digitBelow_lt (mode : RoundingMode) (isNegative : Bool) (N : ℕ) :
    digitBelow mode isNegative N < 2 := by
  cases mode <;> simp only [digitBelow] <;> (try split_ifs) <;> decide

theorem Shows.underflowBelow_meets (h : d.Shows isNegative N n k e) {t : ℤ} (ht : int32 t = t) :
    (d.underflowBelow t).Meets ctx
      (fun d' ctx' => d'.Shows isNegative (digitBelow ctx.roundingMode isNegative N) 1 k t ∧
        ctx.SameSettings ctx')
      (fun ctx' => ctx.SameSettings ctx') := by
  have hdigit := digitBelow_lt ctx.roundingMode isNegative N
  obtain ⟨c, hput, hc⟩ := h.coefficient.exists_put (v := digitBelow ctx.roundingMode isNegative N)
    (by omega)
  obtain ⟨c', hkeep, hc'⟩ := hc.exists_keepHead (m := 1) Nat.one_pos h.coefficient.count_pos
  rw [pow_one, Nat.mul_add_mod, Nat.mod_eq_of_lt (by omega)] at hc'
  apply Action.Meets.state_bind
  apply Action.Meets.change_bind
  apply Action.Meets.change_bind
  have hsame : ctx.SameSettings ((ctx.setDigits (d.coefficient.count - 1)).setDigits ctx.digits) :=
    ⟨rfl, rfl, rfl, rfl, rfl, rfl⟩
  have hinexact := hsame.trans (.noted _ .inexact "Rescaling to e_tiny")
  have hrounded := hinexact.trans (.noted _ .rounded "Rescaling to e_tiny")
  have hunderflow := hrounded.trans (.noted _ .underflow "Rescaling to e_tiny")
  apply Action.Meets.lift_bind (a := { d with coefficient := c })
  · rw [h.underflowDigit_eq, put, hput]
    rfl
  apply Action.Meets.lift_bind (a := { d with coefficient := c' })
  · rw [keepHead, hkeep]
    rfl
  apply DecimalContext.signal_bind hinexact
  apply DecimalContext.signal_bind hrounded
  apply DecimalContext.signal_bind hunderflow
  exact Action.Meets.pure ⟨⟨hc', ht.symm, h.isNegative_eq, h.special_eq⟩, hunderflow⟩

/-- `do_underflow` around `round`. -/
theorem underflowShared_meets {t shared : ℤ} {d₁ : Decimal} {q : ℕ} {P : ℕ → ℤ → Prop}
    (hgrown : d.underflowGrown ctx t shared = some (d₁, q))
    (hround : d₁.round.Meets (ctx.setDigits q)
      (fun d₂ ctx' => (∃ M n₂ k₂ e₂, d₂.Shows isNegative M n₂ k₂ e₂ ∧ P M e₂) ∧
        (ctx.setDigits q).SameSettings ctx')
      (fun ctx' => (ctx.setDigits q).SameSettings ctx'))
    (hlimit : ∀ M e₂, P M e₂ → int32 (e₂ + Nat.log 10 M) ≤ ctx.exponentLimit) :
    (d.underflowShared t shared).Meets ctx
      (fun d' ctx' => (∃ M k' e₂, d'.Shows isNegative M (Nat.log 10 M + 1) k' e₂ ∧ P M e₂) ∧
        ctx.SameSettings ctx')
      (fun ctx' => ctx.SameSettings ctx' ∨ (ctx.setDigits q).SameSettings ctx') := by
  apply Action.Meets.state_bind
  apply Action.Meets.lift_bind hgrown
  apply Action.Meets.change_bind
  apply (hround.mono (fun _ _ h => h) fun _ h => Or.inr h).bind
  rintro d₂ ctx₂ ⟨⟨M, n₂, k₂, e₂, hd₂, hP⟩, hsame⟩
  apply Action.Meets.change_bind
  apply Action.Meets.state_bind
  have hback : ctx.SameSettings (ctx₂.setDigits ctx.digits) :=
    ⟨rfl, hsame.roundingMode, hsame.exponentLimit, hsame.isExtended, hsame.exceptionOnTrap,
      hsame.traps⟩
  have hstrip := hd₂.strip
  apply Action.Meets.bind (Q := fun _ ctx' => ctx.SameSettings ctx')
  · apply Action.Meets.onlyIf
    · intro _
      have hnoted := hback.trans (.noted _ .underflow "Underflow when rescaling")
      exact DecimalContext.signal_meets (Or.inl hnoted) hnoted
    · exact fun _ => hback
  · intro _ ctx₃ hctx₃
    have hno : d₂.stripLeadingZeroes.isOverflow (ctx₂.setDigits ctx.digits) = false := by
      rw [isOverflow, decide_eq_false_iff_not, hstrip.adjustedExponent_eq, hback.exponentLimit]
      push_cast
      rw [← add_assoc, add_sub_cancel_right]
      exact not_lt_of_ge (hlimit M e₂ hP)
    rw [if_neg (by rw [hno]; exact Bool.false_ne_true)]
    exact Action.Meets.pure ⟨⟨M, k₂, e₂, hstrip, hP⟩, hctx₃⟩

/-- The context is left as it was, or with the precision of one digit if the number is just below
the least one. -/
def LeavesSettings (ctx : DecimalContext) (N : ℕ) (e : ℤ) (ctx' : DecimalContext) : Prop :=
  ctx.SameSettings ctx' ∨ e + Nat.log 10 N = ctx.eTiny - 1 ∧ (ctx.setDigits 1).SameSettings ctx'

theorem restoreRounded_meets (wasRounded : Bool) (reason : Option String) :
    (restoreRounded wasRounded reason).Meets ctx (fun _ ctx' => ctx.SameSettings ctx')
      (fun ctx' => ctx.SameSettings ctx') := by
  have hreset : ctx.SameSettings (ctx.resetFlag .rounded) := ⟨rfl, rfl, rfl, rfl, rfl, rfl⟩
  cases wasRounded with
  | false => exact Action.Meets.change hreset
  | true =>
      cases reason with
      | none => exact Action.Meets.change hreset
      | some reason => exact DecimalContext.signal_meets (.noted _ _ _) (.noted _ _ _)

/-- `do_underflow` around the part that finds the digits at `e_tiny`. -/
theorem doUnderflow_meets {Q : Decimal → Prop} {E : DecimalContext → Prop}
    (hE : ∀ ctx', ctx.SameSettings ctx' → E ctx') (htiny : d.exponent < ctx.eTiny)
    (hx : ∀ ctx₁, ctx.SameSettings ctx₁ →
      (if int32 (d.adjustedExponent - ctx.eTiny + 1) < 0 then d.underflowBelow ctx.eTiny
        else d.underflowShared ctx.eTiny (int32 (d.adjustedExponent - ctx.eTiny + 1))).Meets ctx₁
        (fun d' ctx' => Q d' ∧ ctx.SameSettings ctx') E) :
    d.doUnderflow.Meets ctx
      (fun d' ctx' => (∃ d₁, Q d₁ ∧ d' = d₁.setExponent ctx.eTiny) ∧ ctx.SameSettings ctx') E := by
  have hnoted := DecimalContext.SameSettings.noted ctx .subnormal ""
  apply Action.Meets.state_bind
  apply Action.Meets.bind (Q := fun _ ctx' => ctx.SameSettings ctx')
  · exact Action.Meets.onlyIf (fun _ => DecimalContext.signal_meets (hE _ hnoted) hnoted)
      fun _ => .refl ctx
  · intro _ ctx₁ hctx₁
    rw [if_pos htiny]
    apply (hx ctx₁ hctx₁).bind
    rintro d₁ ctx₂ ⟨hQ, hctx₂⟩
    apply Action.Meets.bind (Q := fun _ ctx' => ctx.SameSettings ctx')
    · exact Action.Meets.onlyIf (fun _ => (restoreRounded_meets _ _).mono
        (fun _ _ h => hctx₂.trans h) fun _ h => hE _ (hctx₂.trans h)) fun _ => hctx₂
    · exact fun _ _ hctx₃ => Action.Meets.pure ⟨⟨d₁, hQ, rfl⟩, hctx₃⟩

theorem doUnderflow_meets_of_le (htiny : ctx.eTiny ≤ d.exponent) :
    d.doUnderflow.Meets ctx (fun d' ctx' => d' = d ∧ ctx.SameSettings ctx')
      (fun ctx' => ctx.SameSettings ctx') := by
  have hnoted := DecimalContext.SameSettings.noted ctx .subnormal ""
  apply Action.Meets.state_bind
  apply Action.Meets.bind (Q := fun _ ctx' => ctx.SameSettings ctx')
  · exact Action.Meets.onlyIf (fun _ => DecimalContext.signal_meets hnoted hnoted)
      fun _ => .refl ctx
  · intro _ ctx₁ hctx₁
    rw [if_neg (not_lt_of_ge htiny)]
    exact Action.Meets.pure ⟨rfl, hctx₁⟩

/-- The exponents within which a number that underflows is. -/
structure Underflows (ctx : DecimalContext) (N : ℕ) (e : ℤ) : Prop where
  valid : ctx.Valid
  le : -2 ^ 31 ≤ e
  lt : e + Nat.log 10 N < -ctx.exponentLimit

theorem Shows.adjustedExponent_of_mem (h : d.Shows isNegative N (Nat.log 10 N + 1) k e)
    (hlow : -2 ^ 31 ≤ e) (hhigh : e + Nat.log 10 N < 2 ^ 31) :
    d.adjustedExponent = e + Nat.log 10 N := by
  rw [h.adjustedExponent_eq]
  push_cast
  rw [← add_assoc, add_sub_cancel_right]
  exact int32_of_mem (by omega) hhigh

theorem Shows.exponent_of_mem (h : d.Shows isNegative N n k e) (hlow : -2 ^ 31 ≤ e)
    (hhigh : e < 2 ^ 31) : d.exponent = e :=
  h.exponent_eq.trans (int32_of_mem hlow hhigh)

/-- A number far below the least one. -/
theorem Shows.doUnderflow_meets_below (h : d.Shows isNegative N (Nat.log 10 N + 1) k e)
    (hu : Underflows ctx N e) (hbelow : e + Nat.log 10 N < ctx.eTiny - 1) :
    d.doUnderflow.Meets ctx (fun d' ctx' =>
        d'.Shows isNegative (digitBelow ctx.roundingMode isNegative N) 1 k ctx.eTiny ∧
          ctx.SameSettings ctx')
      (fun ctx' => ctx.SameSettings ctx') := by
  obtain ⟨hvalid, hlow, hlt⟩ := hu
  have hnonneg := hvalid.exponentLimit_nonneg
  have hT := hvalid.eTiny_eq
  have htiny := int32_mem (-ctx.exponentLimit - (ctx.digits - 1))
  rw [← DecimalContext.eTiny] at htiny
  have hexponent := h.exponent_of_mem hlow (by omega)
  have hadjusted := h.adjustedExponent_of_mem hlow (by omega)
  have hshared : int32 (d.adjustedExponent - ctx.eTiny + 1) < 0 := by
    rw [hadjusted, int32_of_mem (by omega) (by omega)]
    omega
  apply (doUnderflow_meets (Q := fun d' => d'.Shows isNegative
    (digitBelow ctx.roundingMode isNegative N) 1 k ctx.eTiny) (fun _ h => h)
    (by rw [hexponent]; omega) _).mono _ fun _ h => h
  · intro ctx₁ hctx₁
    rw [if_pos hshared]
    apply (h.underflowBelow_meets (int32_of_mem htiny.1 htiny.2)).mono
    · rintro d' ctx' ⟨hd', hctx'⟩
      exact ⟨hctx₁.roundingMode ▸ hd', hctx₁.trans hctx'⟩
    · exact fun _ h => hctx₁.trans h
  · rintro d' ctx' ⟨⟨d₁, hd₁, rfl⟩, hctx'⟩
    exact ⟨⟨hd₁.coefficient, (int32_of_mem htiny.1 htiny.2).symm, hd₁.isNegative_eq,
      hd₁.special_eq⟩, hctx'⟩

/-- What `round` makes of a number whose first digit is zero, if it drops `a` digits. -/
def Settles (mode : RoundingMode) (isNegative : Bool) (N a : ℕ) (e : ℤ) (M : ℕ) (e' : ℤ) : Prop :=
  if mode = .unnecessary then M = N ∧ e' = e
  else mode.roundNat isNegative ((N : ℚ) / (10 ^ a : ℕ)) = some M ∧ e' = e + a

theorem roundNat_le {mode : RoundingMode} {a M B : ℕ} (hN : N < B * 10 ^ a)
    (hround : mode.roundNat isNegative ((N : ℚ) / (10 ^ a : ℕ)) = some M) : M ≤ B := by
  have hpos : 0 < 10 ^ a := Nat.pow_pos (by decide)
  have hlt : N / 10 ^ a < B := (Nat.div_lt_iff_lt_mul hpos).mpr hN
  rw [RoundingMode.roundNat_div hpos] at hround
  split_ifs at hround with hzero
  · have := Option.some.inj hround
    omega
  · obtain ⟨bump, -, rfl⟩ := Option.map_eq_some_iff.mp hround
    cases bump
    · exact Nat.le_of_lt hlt
    · exact hlt

theorem le_roundNat {mode : RoundingMode} {a M : ℕ}
    (hround : mode.roundNat isNegative ((N : ℚ) / (10 ^ a : ℕ)) = some M) : N / 10 ^ a ≤ M := by
  rw [RoundingMode.roundNat_div (Nat.pow_pos (by decide))] at hround
  split_ifs at hround with hzero
  · exact Nat.le_of_eq (Option.some.inj hround)
  · obtain ⟨bump, -, rfl⟩ := Option.map_eq_some_iff.mp hround
    cases bump
    · exact Nat.le_refl _
    · exact Nat.le_succ _

/-- The first `p` digits of a number with `a + p` of them. -/
theorem pow_le_div {a p : ℕ} (h : Nat.log 10 N + 1 = a + p) (ha : 0 < a) (hp : 0 < p) :
    10 ^ (p - 1) ≤ N / 10 ^ a := by
  have hN : N ≠ 0 := by
    rintro rfl
    rw [Nat.log_zero_right] at h
    omega
  rw [Nat.le_div_iff_mul_le (Nat.pow_pos (by decide)), ← pow_add,
    show p - 1 + a = Nat.log 10 N by omega]
  exact Nat.pow_log_le_self 10 hN

theorem Shows.round_meets_settles {a q : ℕ} (h : d.Shows isNegative N (a + q) k e) (ha : 0 < a)
    (hq : ctx.digits = q) (hpos : 0 < q) (hN : N < 10 ^ (q - 1) * 10 ^ a) :
    d.round.Meets ctx (fun d' ctx' => (∃ M n' k' e', d'.Shows isNegative M n' k' e' ∧
        Settles ctx.roundingMode isNegative N a e M e') ∧ ctx.SameSettings ctx')
      (fun ctx' => ctx.SameSettings ctx') := by
  subst hq
  have hcount : ctx.digits < d.count := by
    rw [h.count_eq]
    omega
  by_cases hmode : ctx.roundingMode = .unnecessary
  · apply (round_meets h.isSpecial_eq hcount (by rw [hmode]; rfl)).mono _ fun _ h => h
    rintro d' ctx' ⟨rfl, rfl⟩
    exact ⟨⟨N, _, k, e, h, by rw [Settles, if_pos hmode]; exact ⟨rfl, rfl⟩⟩,
      sameSettings_roundNoted ctx _⟩
  · obtain ⟨m, hround⟩ : ∃ m, ctx.roundingMode.roundNat isNegative ((N : ℚ) / (10 ^ a : ℕ)) =
        some m := RoundingMode.exists_roundNat hmode _
    obtain ⟨d₁, hin, hkeeps⟩ := h.exists_roundIn ha hpos hmode hround
    have hm := roundNat_le hN hround
    have hlt : 10 ^ (ctx.digits - 1) < 10 ^ ctx.digits :=
      Nat.pow_lt_pow_right (by decide) (by omega)
    have hd₁ : d₁.Shows isNegative m ctx.digits k (e + a) := by
      rcases hkeeps with ⟨-, hd₁⟩ | ⟨heq, -⟩
      · exact hd₁
      · omega
    apply (round_meets h.isSpecial_eq hcount hin).mono _ fun _ h => h
    rintro d' ctx' ⟨rfl, rfl⟩
    exact ⟨⟨m, _, k, _, hd₁, by rw [Settles, if_neg hmode]; exact ⟨hround, rfl⟩⟩,
      sameSettings_roundNoted ctx _⟩

section

variable (h : d.Shows isNegative N (Nat.log 10 N + 1) k e) (hu : Underflows ctx N e)
variable (htiny : e < ctx.eTiny) (hshare : ctx.eTiny - 1 ≤ e + Nat.log 10 N)

include h hu htiny hshare

/-- The digits that are put in front let `round` drop those below the least exponent. -/
theorem Shows.exists_underflowGrown
    (hupto : ctx.eTiny ≤ e + Nat.log 10 N → -ctx.exponentLimit - e + 1 < 2 ^ 31) : ∃ d₁ k₁ q,
      d.underflowGrown ctx ctx.eTiny (e + Nat.log 10 N - ctx.eTiny + 1) = some (d₁, q) ∧
      d₁.Shows isNegative N ((ctx.eTiny - e).toNat + q) k₁ e ∧ 0 < q ∧ q ≤ ctx.digits ∧
      N < 10 ^ (q - 1) * 10 ^ (ctx.eTiny - e).toNat ∧
      (q = ctx.digits ∨ q = 1 ∧ e + Nat.log 10 N = ctx.eTiny - 1) := by
  obtain ⟨hvalid, hlow, hlt⟩ := hu
  have hnonneg := hvalid.exponentLimit_nonneg
  have hpos := hvalid.digits_pos
  have hT := hvalid.eTiny_eq
  have hdigits := hvalid.digits_le
  have hlimit := hvalid.exponentLimit_le
  rw [DecimalContext.maximumDigits] at hdigits
  rw [DecimalContext.maximumExponent] at hlimit
  have hN : N < 10 ^ (Nat.log 10 N + 1) := Nat.lt_pow_succ_log_self (by decide) N
  have hexponent := h.exponent_of_mem hlow (by omega)
  by_cases hzero : e + Nat.log 10 N = ctx.eTiny - 1
  · obtain ⟨d₁, hgrow, hd₁⟩ := h.exists_grow (Nat.le_succ (Nat.log 10 N + 1))
    have ha : (ctx.eTiny - e).toNat = Nat.log 10 N + 1 := by omega
    refine ⟨d₁, _, 1, ?_, by rw [ha]; exact hd₁, Nat.one_pos, hpos, ?_, Or.inr ⟨rfl, hzero⟩⟩
    · rw [underflowGrown, if_pos (by omega), h.count_eq, hgrow]
      rfl
    · rwa [ha, Nat.sub_self, pow_zero, Nat.one_mul]
  · have hprecision : (int32 (-ctx.exponentLimit - ctx.eTiny + 1)).toNat = ctx.digits := by
      rw [int32_of_mem (by omega) (by omega)]
      omega
    have hcount : int32 (-ctx.exponentLimit - d.exponent + 1) = -ctx.exponentLimit - e + 1 := by
      rw [hexponent, int32_of_mem (by omega) (hupto (by omega))]
    have hle : Nat.log 10 N + 1 ≤ (-ctx.exponentLimit - e + 1).toNat := by omega
    obtain ⟨d₁, hgrow, hd₁⟩ := h.exists_grow hle
    have ha : (-ctx.exponentLimit - e + 1).toNat = (ctx.eTiny - e).toNat + ctx.digits := by omega
    refine ⟨d₁, _, ctx.digits, ?_, ha ▸ hd₁, hpos, Nat.le_refl _, ?_, Or.inl rfl⟩
    · rw [underflowGrown, if_neg (by omega), hcount, h.count_eq]
      dsimp only
      rw [if_pos (by omega), hgrow, hprecision]
      rfl
    · rw [← pow_add]
      exact hN.trans_le (Nat.pow_le_pow_right (by decide) (by omega))

/-- `do_underflow` around `round`, once the digits have been put in front. -/
theorem Shows.doUnderflow_meets_grown {d₁ : Decimal} {q : ℕ} {P : ℕ → ℤ → Prop}
    (hgrown : d.underflowGrown ctx ctx.eTiny (e + Nat.log 10 N - ctx.eTiny + 1) = some (d₁, q))
    (hq : q = ctx.digits ∨ q = 1 ∧ e + Nat.log 10 N = ctx.eTiny - 1)
    (hround : ∀ ctx₁ : DecimalContext, ctx₁.digits = q → ctx₁.roundingMode = ctx.roundingMode →
      d₁.round.Meets ctx₁
        (fun d₂ ctx' => (∃ M n₂ k₂ e₂, d₂.Shows isNegative M n₂ k₂ e₂ ∧ P M e₂) ∧
          ctx₁.SameSettings ctx')
        (fun ctx' => ctx₁.SameSettings ctx'))
    (hlimit : ∀ M e₂, P M e₂ → int32 (e₂ + Nat.log 10 M) ≤ ctx.exponentLimit) :
    d.doUnderflow.Meets ctx
      (fun d' ctx' => (∃ M k' e₂, d'.Shows isNegative M (Nat.log 10 M + 1) k' ctx.eTiny ∧ P M e₂) ∧
        ctx.SameSettings ctx')
      (LeavesSettings ctx N e) := by
  obtain ⟨hvalid, hlow, hlt⟩ := hu
  have hnonneg := hvalid.exponentLimit_nonneg
  have hdigits := hvalid.digits_le
  have hbound := hvalid.exponentLimit_le
  rw [DecimalContext.maximumDigits] at hdigits
  rw [DecimalContext.maximumExponent] at hbound
  have hshared : int32 (d.adjustedExponent - ctx.eTiny + 1) =
      e + Nat.log 10 N - ctx.eTiny + 1 := by
    rw [h.adjustedExponent_of_mem hlow (by omega), int32_of_mem (by omega) (by omega)]
  apply (doUnderflow_meets (Q := fun d' => ∃ M k' e₂,
    d'.Shows isNegative M (Nat.log 10 M + 1) k' e₂ ∧ P M e₂) (fun _ h => Or.inl h)
    (by rw [h.exponent_of_mem hlow (by omega)]; exact htiny) _).mono _ fun _ h => h
  · intro ctx₁ hctx₁
    rw [hshared, if_neg (by omega)]
    have hround₁ := hround (ctx₁.setDigits q) rfl hctx₁.roundingMode
    have hgrown₁ : d.underflowGrown ctx₁ ctx.eTiny (e + Nat.log 10 N - ctx.eTiny + 1) =
        some (d₁, q) := by
      rw [← hgrown, underflowGrown, underflowGrown, hctx₁.exponentLimit]
    apply (underflowShared_meets hgrown₁ hround₁ fun M e₂ hP =>
      hctx₁.exponentLimit ▸ hlimit M e₂ hP).mono
    · exact fun _ _ h => ⟨h.1, hctx₁.trans h.2⟩
    · rintro ctx' (hctx' | hctx')
      · exact Or.inl (hctx₁.trans hctx')
      · have hset : (ctx.setDigits q).SameSettings ctx' :=
          ⟨hctx'.digits, hctx'.roundingMode.trans hctx₁.roundingMode,
            hctx'.exponentLimit.trans hctx₁.exponentLimit, hctx'.isExtended.trans hctx₁.isExtended,
            hctx'.exceptionOnTrap.trans hctx₁.exceptionOnTrap, hctx'.traps.trans hctx₁.traps⟩
        rcases hq with rfl | ⟨rfl, hjust⟩
        · exact Or.inl hset
        · exact Or.inr ⟨hjust, hset⟩
  · rintro d' ctx' ⟨⟨d₂, ⟨M, k', e₂, hd₂, hP⟩, rfl⟩, hctx'⟩
    have hmem := int32_mem (-ctx.exponentLimit - (ctx.digits - 1))
    exact ⟨⟨M, k', e₂, ⟨hd₂.coefficient, (int32_of_mem hmem.1 hmem.2).symm, hd₂.isNegative_eq,
      hd₂.special_eq⟩, hP⟩, hctx'⟩

/-- A number with digits at the least exponent, or just below it. -/
theorem Shows.doUnderflow_meets_shared
    (hupto : ctx.eTiny ≤ e + Nat.log 10 N → -ctx.exponentLimit - e + 1 < 2 ^ 31) :
    d.doUnderflow.Meets ctx
      (fun d' ctx' => (∃ M k' e', d'.Shows isNegative M (Nat.log 10 M + 1) k' ctx.eTiny ∧
        Settles ctx.roundingMode isNegative N (ctx.eTiny - e).toNat e M e') ∧
          ctx.SameSettings ctx')
      (LeavesSettings ctx N e) := by
  obtain ⟨d₁, k₁, q, hgrown, hd₁, hq, hqp, hN, hq'⟩ :=
    h.exists_underflowGrown hu htiny hshare hupto
  have hlt := hu.lt
  have hnonneg := hu.valid.exponentLimit_nonneg
  have hT := hu.valid.eTiny_eq
  have hbound := hu.valid.exponentLimit_le
  rw [DecimalContext.maximumExponent] at hbound
  have hlow := hu.le
  apply h.doUnderflow_meets_grown hu htiny hshare hgrown hq'
  · intro ctx₁ hdigits hmode
    have hround := hd₁.round_meets_settles (by omega) hdigits hq hN
    rwa [hmode] at hround
  · intro M e' hsettles
    rw [Settles] at hsettles
    split_ifs at hsettles with hmode
    · obtain ⟨rfl, rfl⟩ := hsettles
      rw [int32_of_mem (by omega) (by omega)]
      omega
    · obtain ⟨hround, rfl⟩ := hsettles
      have hM := roundNat_le hN hround
      have hlog : Nat.log 10 M ≤ q - 1 := by
        calc Nat.log 10 M ≤ Nat.log 10 (10 ^ (q - 1)) := Nat.log_mono_right hM
          _ = q - 1 := Nat.log_pow (by decide) _
      rw [int32_of_mem (by omega) (by omega)]
      omega

end

/-- What `round` makes of a number with `a + p` digits. -/
def Carries (mode : RoundingMode) (isNegative : Bool) (N a p : ℕ) (e : ℤ) (M : ℕ) (e' : ℤ) :
    Prop :=
  if mode = .unnecessary then M = N ∧ e' = e
  else ∃ m, mode.roundNat isNegative ((N : ℚ) / (10 ^ a : ℕ)) = some m ∧
    (m < 10 ^ p ∧ M = m ∧ e' = e + a ∨ m = 10 ^ p ∧ M = 10 ^ (p - 1) ∧ e' = e + a + 1)

theorem Shows.round_meets_carries {a p : ℕ} (h : d.Shows isNegative N (a + p) k e) (ha : 0 < a)
    (hp : ctx.digits = p) (hpos : 0 < p) :
    d.round.Meets ctx (fun d' ctx' => (∃ M n' k' e', d'.Shows isNegative M n' k' e' ∧
        Carries ctx.roundingMode isNegative N a p e M e') ∧ ctx.SameSettings ctx')
      (fun ctx' => ctx.SameSettings ctx') := by
  subst hp
  have hcount : ctx.digits < d.count := by
    rw [h.count_eq]
    omega
  by_cases hmode : ctx.roundingMode = .unnecessary
  · apply (round_meets h.isSpecial_eq hcount (by rw [hmode]; rfl)).mono _ fun _ h => h
    rintro d' ctx' ⟨rfl, rfl⟩
    exact ⟨⟨N, _, k, e, h, by rw [Carries, if_pos hmode]; exact ⟨rfl, rfl⟩⟩,
      sameSettings_roundNoted ctx _⟩
  · obtain ⟨m, hround⟩ : ∃ m, ctx.roundingMode.roundNat isNegative ((N : ℚ) / (10 ^ a : ℕ)) =
        some m := RoundingMode.exists_roundNat hmode _
    obtain ⟨d₁, hin, hkeeps⟩ := h.exists_roundIn ha hpos hmode hround
    apply (round_meets h.isSpecial_eq hcount hin).mono _ fun _ h => h
    rintro d' ctx' ⟨rfl, rfl⟩
    refine ⟨?_, sameSettings_roundNoted ctx _⟩
    simp only [Carries, if_neg hmode]
    rcases hkeeps with ⟨hlt, hd₁⟩ | ⟨heq, hd₁⟩
    · exact ⟨m, _, k, _, hd₁, m, hround, Or.inl ⟨hlt, rfl, rfl⟩⟩
    · exact ⟨_, _, k, _, hd₁, m, hround, Or.inr ⟨heq, rfl, rfl⟩⟩

/-- The digits that are kept, once they are rounded. -/
theorem Carries.log_eq {mode : RoundingMode} {a p M : ℕ} {e' : ℤ}
    (h : Carries mode isNegative N a p e M e') (hmode : mode ≠ .unnecessary)
    (ha : Nat.log 10 N + 1 = a + p) (ha' : 0 < a) (hp : 0 < p) :
    M ≠ 0 ∧ Nat.log 10 M = p - 1 ∧ (e' = e + a ∨ e' = e + a + 1) := by
  rw [Carries, if_neg hmode] at h
  obtain ⟨m, hround, h⟩ := h
  have hlow := (pow_le_div ha ha' hp).trans (le_roundNat hround)
  have hpos : 0 < 10 ^ (p - 1) := Nat.pow_pos (by decide)
  rcases h with ⟨hlt, rfl, rfl⟩ | ⟨-, rfl, rfl⟩
  · refine ⟨by omega, ?_, Or.inl rfl⟩
    exact Nat.log_eq_of_pow_le_of_lt_pow hlow (by rwa [Nat.sub_add_cancel hp])
  · exact ⟨hpos.ne', Nat.log_pow (by decide) _, Or.inr rfl⟩

/-- Where the number of digits that are to be put in front is above every `INTEGER`, none are, and
`round` keeps too many. -/
theorem Shows.doUnderflow_meets_wrapped (h : d.Shows isNegative N (Nat.log 10 N + 1) k e)
    (hu : Underflows ctx N e) (hshare : ctx.eTiny ≤ e + Nat.log 10 N)
    (hupto : 2 ^ 31 ≤ -ctx.exponentLimit - e + 1) :
    d.doUnderflow.Meets ctx
      (fun d' ctx' => (∃ M k' e', d'.Shows isNegative M (Nat.log 10 M + 1) k' ctx.eTiny ∧
        Carries ctx.roundingMode isNegative N (Nat.log 10 N + 1 - ctx.digits) ctx.digits e M e') ∧
          ctx.SameSettings ctx')
      (LeavesSettings ctx N e) := by
  have hlow := hu.le
  have hlt := hu.lt
  have hnonneg := hu.valid.exponentLimit_nonneg
  have hpos := hu.valid.digits_pos
  have hT := hu.valid.eTiny_eq
  have hdigits := hu.valid.digits_le
  have hbound := hu.valid.exponentLimit_le
  rw [DecimalContext.maximumDigits] at hdigits
  rw [DecimalContext.maximumExponent] at hbound
  have hexponent := h.exponent_of_mem hlow (by omega)
  obtain ⟨a, ha⟩ : ∃ a, Nat.log 10 N + 1 = a + ctx.digits :=
    ⟨Nat.log 10 N + 1 - ctx.digits, by omega⟩
  have hgrown : d.underflowGrown ctx ctx.eTiny (e + Nat.log 10 N - ctx.eTiny + 1) =
      some (d, ctx.digits) := by
    have hwrapped : int32 (-ctx.exponentLimit - e + 1) < 0 := by
      rw [int32, Int.bmod_def]
      omega
    have hprecision : (int32 (-ctx.exponentLimit - ctx.eTiny + 1)).toNat = ctx.digits := by
      rw [int32_of_mem (by omega) (by omega)]
      omega
    rw [underflowGrown, if_neg (by omega), hexponent]
    dsimp only
    rw [if_neg (by omega), hprecision]
    rfl
  have hd := h
  rw [ha] at hd
  rw [ha, Nat.add_sub_cancel]
  apply h.doUnderflow_meets_grown hu (by omega) (by omega) hgrown (Or.inl rfl)
  · intro ctx₁ hdigits₁ hmode₁
    have hround := hd.round_meets_carries (by omega) hdigits₁ hpos
    rwa [hmode₁] at hround
  · intro M e' hcarries
    by_cases hmode : ctx.roundingMode = .unnecessary
    · rw [Carries, if_pos hmode] at hcarries
      obtain ⟨rfl, rfl⟩ := hcarries
      rw [int32_of_mem (by omega) (by omega)]
      omega
    · obtain ⟨-, hlog, he'⟩ := hcarries.log_eq hmode ha (by omega) hpos
      rw [hlog, int32_of_mem (by omega) (by omega)]
      omega

/-- The context during `clean_up`. -/
def cleaning (ctx : DecimalContext) : DecimalContext :=
  (ctx.disableTrap .lostDigits).resetFlag .lostDigits

/-- The trap of lost digits is back at the end of `clean_up`, but not where an exception is raised
before. -/
theorem cleanUp_meets {Q : Decimal → Prop} {E : DecimalContext → Prop}
    (hspecial : d.isSpecial = false)
    (hx : d.cleanUpDigits.Meets (cleaning ctx)
      (fun d' ctx' => Q d' ∧ (cleaning ctx).SameSettings ctx') E) :
    d.cleanUp.Meets ctx (fun d' ctx' => Q d' ∧ ctx.SameSettings ctx') E := by
  rw [cleanUp, if_neg (by rw [hspecial]; exact Bool.false_ne_true)]
  apply Action.Meets.state_bind
  apply Action.Meets.change_bind
  apply Action.Meets.bind hx
  rintro d' ctx₂ ⟨hQ, hctx₂⟩
  have htraps : ctx₂.traps = update ctx.traps .lostDigits false := hctx₂.traps
  have hrest : ∀ ctx₃ : DecimalContext, ctx₃.traps = ctx.traps → ctx₃.digits = ctx₂.digits →
      ctx₃.roundingMode = ctx₂.roundingMode → ctx₃.exponentLimit = ctx₂.exponentLimit →
      ctx₃.isExtended = ctx₂.isExtended → ctx₃.exceptionOnTrap = ctx₂.exceptionOnTrap →
      ctx.SameSettings ctx₃ := by
    intro ctx₃ h₁ h₂ h₃ h₄ h₅ h₆
    exact ⟨h₂.trans hctx₂.digits, h₃.trans hctx₂.roundingMode, h₄.trans hctx₂.exponentLimit,
      h₅.trans hctx₂.isExtended, h₆.trans hctx₂.exceptionOnTrap, h₁⟩
  apply Action.Meets.bind (Q := fun _ ctx' => ctx.SameSettings ctx')
  · apply Action.Meets.onlyIf
    · intro htrap
      refine Action.Meets.change (hrest _ ?_ rfl rfl rfl rfl rfl)
      rw [DecimalContext.isTrapped] at htrap
      rw [DecimalContext.enableTrap, htraps, update_idem, ← htrap, update_eq_self]
    · intro htrap
      refine hrest _ ?_ rfl rfl rfl rfl rfl
      rw [DecimalContext.isTrapped, Bool.not_eq_true] at htrap
      rw [htraps, ← htrap, update_eq_self]
  · intro _ ctx₃ hctx₃
    apply Action.Meets.state_bind
    apply Action.Meets.change_bind
    apply Action.Meets.pure
    refine ⟨hQ, ?_⟩
    split_ifs
    · exact hctx₃.trans ⟨rfl, rfl, rfl, rfl, rfl, rfl⟩
    · exact hctx₃.trans ⟨rfl, rfl, rfl, rfl, rfl, rfl⟩

theorem cleanUpDigits_meets_of_underflow {Q : Decimal → DecimalContext → Prop}
    {E : DecimalContext → Prop}
    (hunder : d.stripLeadingZeroes.adjustedExponent < -ctx.exponentLimit)
    (hx : d.stripLeadingZeroes.doUnderflow.Meets ctx Q E) : d.cleanUpDigits.Meets ctx Q E := by
  apply Action.Meets.state_bind
  rw [if_pos (by rw [isUnderflow]; exact decide_eq_true hunder)]
  exact hx

/-- Within the limits from below the number is rounded, then compared with the limit above. -/
theorem cleanUpDigits_meets_of_normal {Q R : Decimal → DecimalContext → Prop}
    {E : DecimalContext → Prop}
    (hnormal : -ctx.exponentLimit ≤ d.stripLeadingZeroes.adjustedExponent)
    (hround : (if 0 < ctx.digits ∧ ctx.digits < d.stripLeadingZeroes.count then
      d.stripLeadingZeroes.round else pure d.stripLeadingZeroes).Meets ctx R E)
    (hlimit : ∀ d₁ ctx₁, R d₁ ctx₁ →
      (if d₁.isOverflow ctx₁ then d₁.doOverflow else pure d₁).Meets ctx₁ Q E) :
    d.cleanUpDigits.Meets ctx Q E := by
  apply Action.Meets.state_bind
  rw [if_neg (by rw [isUnderflow, decide_eq_true_iff]; exact not_lt_of_ge hnormal)]
  apply hround.bind
  intro d₁ ctx₁ hR
  exact Action.Meets.state_bind (hlimit d₁ ctx₁ hR)

theorem Underflows.cleaning (hu : Underflows ctx N e) : Underflows (cleaning ctx) N e :=
  ⟨⟨hu.valid.digits_pos, hu.valid.digits_le, hu.valid.exponentLimit_nonneg,
    hu.valid.exponentLimit_le⟩, hu.le, hu.lt⟩

section

variable (h : d.Shows isNegative N n k e)

include h

theorem Shows.stripped_adjustedExponent :
    d.stripLeadingZeroes.adjustedExponent = int32 (e + Nat.log 10 N) := by
  rw [h.strip.adjustedExponent_eq]
  push_cast
  rw [← add_assoc, add_sub_cancel_right]

theorem Shows.stripped_underflows (hu : Underflows ctx N e) :
    d.stripLeadingZeroes.adjustedExponent < -ctx.exponentLimit := by
  have hnonneg := hu.valid.exponentLimit_nonneg
  rw [h.strip.adjustedExponent_of_mem hu.le (by have := hu.lt; omega)]
  exact hu.lt

/-- A number far below the least one becomes zero, or the least one. -/
theorem Shows.cleanUp_below (hu : Underflows ctx N e)
    (hbelow : e + Nat.log 10 N < ctx.eTiny - 1) :
    d.cleanUp.Meets ctx (fun d' ctx' =>
        d'.Shows isNegative (digitBelow ctx.roundingMode isNegative N) 1 k ctx.eTiny ∧
          ctx.SameSettings ctx')
      (LeavesSettings (cleaning ctx) N e) :=
  cleanUp_meets h.isSpecial_eq <|
    cleanUpDigits_meets_of_underflow (h.stripped_underflows hu.cleaning) <|
      (h.strip.doUnderflow_meets_below hu.cleaning hbelow).mono (fun _ _ h => h) fun _ => Or.inl

/-- A number below the normal range is rounded to a multiple of the least one. -/
theorem Shows.cleanUp_shared (hu : Underflows ctx N e)
    (htiny : e < ctx.eTiny) (hshare : ctx.eTiny - 1 ≤ e + Nat.log 10 N)
    (hupto : ctx.eTiny ≤ e + Nat.log 10 N → -ctx.exponentLimit - e + 1 < 2 ^ 31) :
    d.cleanUp.Meets ctx
      (fun d' ctx' => (∃ M k' e', d'.Shows isNegative M (Nat.log 10 M + 1) k' ctx.eTiny ∧
        Settles ctx.roundingMode isNegative N (ctx.eTiny - e).toNat e M e') ∧
          ctx.SameSettings ctx')
      (LeavesSettings (cleaning ctx) N e) :=
  cleanUp_meets h.isSpecial_eq <|
    cleanUpDigits_meets_of_underflow (h.stripped_underflows hu.cleaning) <|
      h.strip.doUnderflow_meets_shared hu.cleaning htiny hshare hupto

theorem Shows.cleanUp_wrapped (hu : Underflows ctx N e)
    (hshare : ctx.eTiny ≤ e + Nat.log 10 N) (hupto : 2 ^ 31 ≤ -ctx.exponentLimit - e + 1) :
    d.cleanUp.Meets ctx
      (fun d' ctx' => (∃ M k' e', d'.Shows isNegative M (Nat.log 10 M + 1) k' ctx.eTiny ∧
        Carries ctx.roundingMode isNegative N (Nat.log 10 N + 1 - ctx.digits) ctx.digits e M e') ∧
          ctx.SameSettings ctx')
      (LeavesSettings (cleaning ctx) N e) :=
  cleanUp_meets h.isSpecial_eq <|
    cleanUpDigits_meets_of_underflow (h.stripped_underflows hu.cleaning) <|
      h.strip.doUnderflow_meets_wrapped hu.cleaning hshare hupto

/-- A number below the normal range whose digits are not below the least one stays. -/
theorem Shows.cleanUp_subnormal (hlow : -2 ^ 31 ≤ e)
    (hhigh : e < 2 ^ 31) (hunder : int32 (e + Nat.log 10 N) < -ctx.exponentLimit)
    (htiny : ctx.eTiny ≤ e) :
    d.cleanUp.Meets ctx
      (fun d' ctx' => d'.Shows isNegative N (Nat.log 10 N + 1) k e ∧ ctx.SameSettings ctx')
      (LeavesSettings (cleaning ctx) N e) := by
  have htiny' : (cleaning ctx).eTiny ≤ d.stripLeadingZeroes.exponent := by
    rw [h.strip.exponent_of_mem hlow hhigh]
    exact htiny
  have hunder' : d.stripLeadingZeroes.adjustedExponent < -(cleaning ctx).exponentLimit := by
    rw [h.stripped_adjustedExponent]
    exact hunder
  apply cleanUp_meets h.isSpecial_eq
  apply cleanUpDigits_meets_of_underflow hunder'
  apply (doUnderflow_meets_of_le htiny').mono
  · rintro d' ctx' ⟨rfl, hctx'⟩
    exact ⟨h.strip, hctx'⟩
  · exact fun _ => Or.inl

/-- The end of `clean_up`: a number above the limit overflows. -/
theorem Shows.limit_meets {mode : RoundingMode} {p : ℕ} {l : ℤ}
    (hmode : ctx.roundingMode = mode) (hp : ctx.digits = p) (hl : ctx.exponentLimit = l)
    (hn : mode ≠ .unnecessary → n ≤ p) :
    (if d.isOverflow ctx then d.doOverflow else pure d).Meets ctx
      (fun d' ctx' => (if int32 (e + n - 1) ≤ l then d' = d
        else if N = 0 then d' = d.setExponent l
        else mode ≠ .unnecessary ∧ Overflows mode p l isNegative (int32 e) d') ∧
          ctx.SameSettings ctx')
      (fun ctx' => ctx.SameSettings ctx') := by
  subst hmode hp hl
  have hover : d.isOverflow ctx = decide (ctx.exponentLimit < int32 (e + n - 1)) := by
    rw [isOverflow, h.adjustedExponent_eq]
  rw [hover]
  by_cases hle : int32 (e + n - 1) ≤ ctx.exponentLimit
  · rw [if_neg (by rw [decide_eq_true_iff]; exact not_lt_of_ge hle)]
    simp only [if_pos hle]
    exact Action.Meets.pure ⟨rfl, .refl ctx⟩
  · rw [if_pos (decide_eq_true (not_le.mp hle))]
    simp only [if_neg hle]
    by_cases hN : N = 0
    · subst hN
      simp only [if_true]
      apply h.doOverflow_zero_meets.mono _ fun _ h => h
      rintro d' ctx' ⟨rfl, rfl⟩
      exact ⟨rfl, .refl _⟩
    · simp only [if_neg hN, ← h.exponent_eq]
      exact (h.doOverflow_meets hN hn).mono (fun _ _ h => ⟨⟨h.1, h.2.1⟩, h.2.2⟩) fun _ h => h

theorem Shows.exponent_limit (hctx : ctx.Valid) :
    (d.setExponent ctx.exponentLimit).Shows isNegative N n k ctx.exponentLimit := by
  have hnonneg := hctx.exponentLimit_nonneg
  have hlimit := hctx.exponentLimit_le
  rw [DecimalContext.maximumExponent] at hlimit
  have hexponent := int32_of_mem (x := ctx.exponentLimit) (by omega) (by omega)
  exact ⟨h.coefficient, hexponent.symm, h.isNegative_eq, h.special_eq⟩

/-- A number of the normal range that has no more digits than the context. -/
theorem Shows.cleanUp_short (hctx : ctx.Valid) (hshort : Nat.log 10 N < ctx.digits)
    (hnormal : -ctx.exponentLimit ≤ int32 (e + Nat.log 10 N)) :
    d.cleanUp.Meets ctx (fun d' ctx' =>
        (if int32 (e + Nat.log 10 N) ≤ ctx.exponentLimit then
          d'.Shows isNegative N (Nat.log 10 N + 1) k e
        else if N = 0 then d'.Shows isNegative 0 1 k ctx.exponentLimit
        else ctx.roundingMode ≠ .unnecessary ∧ Overflows ctx.roundingMode ctx.digits
          ctx.exponentLimit isNegative (int32 e) d') ∧ ctx.SameSettings ctx')
      (LeavesSettings (cleaning ctx) N e) := by
  have hcount : ¬(0 < ctx.digits ∧ ctx.digits < d.stripLeadingZeroes.count) := by
    rw [h.strip.count_eq]
    omega
  apply cleanUp_meets h.isSpecial_eq
  apply cleanUpDigits_meets_of_normal
    (R := fun d₁ ctx₁ => d₁ = d.stripLeadingZeroes ∧ ctx₁ = cleaning ctx)
  · rw [h.stripped_adjustedExponent]
    exact hnormal
  · exact (if_neg hcount).symm ▸ Action.Meets.pure ⟨rfl, rfl⟩
  · rintro - - ⟨rfl, rfl⟩
    have hadjusted : int32 (e + (Nat.log 10 N + 1 : ℕ) - 1) = int32 (e + Nat.log 10 N) := by
      push_cast
      rw [← add_assoc, add_sub_cancel_right]
    have hmode : (cleaning ctx).roundingMode = ctx.roundingMode := rfl
    have hdigits : (cleaning ctx).digits = ctx.digits := rfl
    have hlimit : (cleaning ctx).exponentLimit = ctx.exponentLimit := rfl
    have hlimit := h.strip.limit_meets hmode hdigits hlimit fun _ => hshort
    rw [hadjusted] at hlimit
    apply hlimit.mono _ fun _ => Or.inl
    rintro d' ctx' ⟨hd', hctx'⟩
    refine ⟨?_, hctx'⟩
    split_ifs at hd' ⊢ with hle hN
    · rw [hd']
      exact h.strip
    · subst hN
      rw [hd']
      exact h.strip.exponent_limit hctx
    · exact hd'

/-- A number of the normal range that has too many digits is rounded. -/
theorem Shows.cleanUp_long {a m : ℕ} (hpos : 0 < ctx.digits)
    (ha : Nat.log 10 N + 1 = a + ctx.digits) (ha' : 0 < a)
    (hnormal : -ctx.exponentLimit ≤ int32 (e + Nat.log 10 N))
    (hmode : ctx.roundingMode ≠ .unnecessary)
    (hround : ctx.roundingMode.roundNat isNegative ((N : ℚ) / (10 ^ a : ℕ)) = some m) :
    d.cleanUp.Meets ctx
      (fun d' ctx' => (∃ M e', (m < 10 ^ ctx.digits ∧ M = m ∧ e' = e + a ∨
          m = 10 ^ ctx.digits ∧ M = 10 ^ (ctx.digits - 1) ∧ e' = e + a + 1) ∧
        if int32 (e' + (ctx.digits - 1)) ≤ ctx.exponentLimit then
          d'.Shows isNegative M ctx.digits k e'
        else Overflows ctx.roundingMode ctx.digits ctx.exponentLimit isNegative (int32 e') d') ∧
          ctx.SameSettings ctx')
      (LeavesSettings (cleaning ctx) N e) := by
  have hlong : 0 < ctx.digits ∧ ctx.digits < d.stripLeadingZeroes.count := by
    rw [h.strip.count_eq]
    omega
  have hstrip := h.strip
  rw [ha] at hstrip
  obtain ⟨d₁, hin, hkeeps⟩ := hstrip.exists_roundIn ha' hpos hmode hround
  obtain ⟨M, e', hd₁, hM⟩ : ∃ M e', d₁.Shows isNegative M ctx.digits k e' ∧
      (m < 10 ^ ctx.digits ∧ M = m ∧ e' = e + a ∨
        m = 10 ^ ctx.digits ∧ M = 10 ^ (ctx.digits - 1) ∧ e' = e + a + 1) := by
    rcases hkeeps with ⟨hlt, hd₁⟩ | ⟨heq, hd₁⟩
    · exact ⟨m, _, hd₁, Or.inl ⟨hlt, rfl, rfl⟩⟩
    · exact ⟨_, _, hd₁, Or.inr ⟨heq, rfl, rfl⟩⟩
  have hM0 : M ≠ 0 := by
    have hquotient := le_roundNat hround
    have hlow := pow_le_div (p := ctx.digits) ha ha' hpos
    have hp : 0 < 10 ^ (ctx.digits - 1) := Nat.pow_pos (by decide)
    rcases hM with ⟨-, rfl, -⟩ | ⟨-, rfl, -⟩ <;> omega
  apply cleanUp_meets h.isSpecial_eq
  apply cleanUpDigits_meets_of_normal
    (R := fun result ctx₁ => result = d₁ ∧ (cleaning ctx).SameSettings ctx₁)
  · rw [h.stripped_adjustedExponent]
    exact hnormal
  · have hin' : d.stripLeadingZeroes.roundIn (cleaning ctx).roundingMode (cleaning ctx).digits =
        some d₁ := hin
    have hcount : (cleaning ctx).digits < d.stripLeadingZeroes.count := hlong.2
    exact (if_pos hlong).symm ▸ (round_meets h.strip.isSpecial_eq hcount hin').mono
      (fun _ _ h => ⟨h.1, h.2 ▸ sameSettings_roundNoted _ _⟩) fun _ => Or.inl
  · rintro result ctx₁ ⟨rfl, hctx₁⟩
    have hmode₁ : ctx₁.roundingMode = ctx.roundingMode := hctx₁.roundingMode
    have hdigits₁ : ctx₁.digits = ctx.digits := hctx₁.digits
    have hlimit₁ : ctx₁.exponentLimit = ctx.exponentLimit := hctx₁.exponentLimit
    have hlimit := hd₁.limit_meets hmode₁ hdigits₁ hlimit₁ fun _ => Nat.le_refl _
    apply hlimit.mono _ fun _ hctx' => Or.inl (hctx₁.trans hctx')
    rintro d' ctx' ⟨hd', hctx'⟩
    refine ⟨⟨M, e', hM, ?_⟩, hctx₁.trans hctx'⟩
    rw [add_sub_assoc, if_neg hM0] at hd'
    split_ifs at hd' ⊢
    · exact hd' ▸ hd₁
    · exact hd'.2

/-- Where rounding is not permitted the number stays as it is. -/
theorem Shows.cleanUp_unnecessary (hpos : 0 < ctx.digits)
    (hlong : ctx.digits < Nat.log 10 N + 1)
    (hnormal : -ctx.exponentLimit ≤ int32 (e + Nat.log 10 N))
    (hmode : ctx.roundingMode = .unnecessary) :
    d.cleanUp.Meets ctx
      (fun d' ctx' => (int32 (e + Nat.log 10 N) ≤ ctx.exponentLimit ∧
        d'.Shows isNegative N (Nat.log 10 N + 1) k e) ∧ ctx.SameSettings ctx')
      (LeavesSettings (cleaning ctx) N e) := by
  have hcount : 0 < ctx.digits ∧ ctx.digits < d.stripLeadingZeroes.count := by
    rw [h.strip.count_eq]
    omega
  have hN : N ≠ 0 := by
    rintro rfl
    rw [Nat.log_zero_right] at hlong
    omega
  have hadjusted : int32 (e + (Nat.log 10 N + 1 : ℕ) - 1) = int32 (e + Nat.log 10 N) := by
    push_cast
    rw [← add_assoc, add_sub_cancel_right]
  apply cleanUp_meets h.isSpecial_eq
  apply cleanUpDigits_meets_of_normal
    (R := fun result ctx₁ => result = d.stripLeadingZeroes ∧ (cleaning ctx).SameSettings ctx₁)
  · rw [h.stripped_adjustedExponent]
    exact hnormal
  · have hin : d.stripLeadingZeroes.roundIn (cleaning ctx).roundingMode (cleaning ctx).digits =
        some d.stripLeadingZeroes := by
      rw [show (cleaning ctx).roundingMode = .unnecessary from hmode]
      rfl
    have hcount' : (cleaning ctx).digits < d.stripLeadingZeroes.count := hcount.2
    exact (if_pos hcount).symm ▸ (round_meets h.strip.isSpecial_eq hcount' hin).mono
      (fun _ _ h => ⟨h.1, h.2 ▸ sameSettings_roundNoted _ _⟩) fun _ => Or.inl
  · rintro result ctx₁ ⟨rfl, hctx₁⟩
    have hdigits₁ : ctx₁.digits = ctx.digits := hctx₁.digits
    have hlimit₁ : ctx₁.exponentLimit = ctx.exponentLimit := hctx₁.exponentLimit
    have hlimit := h.strip.limit_meets (hctx₁.roundingMode.trans hmode) hdigits₁ hlimit₁
      fun hne => absurd rfl hne
    rw [hadjusted] at hlimit
    apply hlimit.mono _ fun _ hctx' => Or.inl (hctx₁.trans hctx')
    rintro d' ctx' ⟨hd', hctx'⟩
    rw [if_neg hN] at hd'
    split_ifs at hd' with hle
    · exact ⟨⟨hle, hd' ▸ h.strip⟩, hctx₁.trans hctx'⟩
    · exact absurd rfl hd'.1

end

end

end Decimal

end Gobo
