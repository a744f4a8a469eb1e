/-
Decimal numbers that are written in scientific notation and read again.
-/
import Gobo.DecimalText

namespace Gobo

namespace Decimal

open TextParser DecimalContext

section

variable {d : Decimal} {ctx : DecimalContext} {p : TextParser} {w : WrittenNumber}
  {isNegative b : Bool} {N n k : ℕ} {e : ℤ}

/-- `clean_up` may raise an exception for a number below the normal range. -/
def RaisesSubnormal (ctx : DecimalContext) : Prop :=
  ctx.isTrapped .subnormal = true ∧ ctx.exceptionOnTrap = true

/-- A number that is within the limits of the context stays, without zeroes in front. -/
theorem Shows.cleanUp_keeps (h : d.Shows isNegative N n k e) (hctx : ctx.Valid)
    (hshort : Nat.log 10 N < ctx.digits) (htiny : ctx.eTiny ≤ e)
    (hlimit : e + Nat.log 10 N ≤ ctx.exponentLimit) :
    d.cleanUp.Meets ctx
      (fun d' ctx' => d'.Shows isNegative N (Nat.log 10 N + 1) k e ∧ ctx.SameSettings ctx')
      (fun _ => RaisesSubnormal ctx) := by
  have hT := hctx.eTiny_eq
  have hdigits := hctx.digits_le
  have hbound := hctx.exponentLimit_le
  rw [maximumDigits] at hdigits
  rw [maximumExponent] at hbound
  have hadjusted : d.stripLeadingZeroes.adjustedExponent = e + Nat.log 10 N :=
    h.stripped_adjustedExponent.trans (int32_of_mem (by omega) (by omega))
  have hexponent : d.stripLeadingZeroes.exponent = e :=
    h.strip.exponent_of_mem (by omega) (by omega)
  apply cleanUp_meets h.isSpecial_eq
  rcases lt_or_ge (e + Nat.log 10 N) (-ctx.exponentLimit) with hunder | hnormal
  · apply cleanUpDigits_meets_of_underflow (by rw [hadjusted]; exact hunder)
    have hnoted := DecimalContext.SameSettings.noted (cleaning ctx) .subnormal ""
    apply Action.Meets.state_bind
    apply Action.Meets.bind (Q := fun _ ctx' => (cleaning ctx).SameSettings ctx')
    · refine Action.Meets.onlyIf (fun _ => ?_) fun _ => .refl _
      exact DecimalContext.signal_meets_of_trap (fun htrap hraise => ⟨htrap, hraise⟩) hnoted
    · intro _ ctx₁ hctx₁
      rw [if_neg (by rw [hexponent]; exact not_lt_of_ge htiny)]
      exact Action.Meets.pure ⟨h.strip, hctx₁⟩
  · apply cleanUpDigits_meets_of_normal
      (R := fun d₁ ctx₁ => d₁ = d.stripLeadingZeroes ∧ ctx₁ = cleaning ctx)
    · rw [hadjusted]
      exact hnormal
    · rw [if_neg (by rw [h.strip.count_eq]; exact fun h => h.2.not_ge hshort)]
      exact Action.Meets.pure ⟨rfl, rfl⟩
    · rintro - - ⟨rfl, rfl⟩
      rw [if_neg (by rw [isOverflow, hadjusted, decide_eq_true_iff]; exact hlimit.not_gt)]
      exact Action.Meets.pure ⟨h.strip, .refl _⟩

theorem WellFormed.of_false (hw : w.WellFormed false) (b : Bool) : w.WellFormed b :=
  ⟨hw.sign, hw.integer, hw.fraction, fun c hc => (hw.point_eq c hc).imp id fun h => (nomatch h.2),
    hw.digits_ne, hw.fraction_eq, hw.exponent⟩

/-- The shared parser makes the number that is written, if its exponent is an `INTEGER`. -/
theorem exists_makeFromStringCtx (ctx : DecimalContext) (hw : w.WellFormed p.isCommaAllowed)
    (hcomma : w.CommaBetween) (hvalue : w.exponentValue ≤ 2147483647) :
    ∃ (d : Decimal) (k : ℕ),
      d.Shows w.isNegative w.coefficient w.digits.length k w.exponentOfLast ∧
        makeFromStringCtx p w.text ctx = d.cleanUp ctx := by
  obtain ⟨-, hread, hparsed⟩ := hasRead_decimalParse hw hcomma
  obtain ⟨c, hnumber, hc⟩ :=
    HasRead.exists_number hread hw (p.decimalParse w.text) ctx.digits
  have hkept : w.keptExponent ctx.digits = w.exponentValue := if_pos hvalue
  have hexponent : exponentFromParser (p.decimalParse w.text) (p.decimalParse w.text) ctx.digits =
      _ := HasRead.exponent_eq hread hw
  rw [hread.exponentSign_eq, hkept] at hexponent
  refine ⟨_, _, ⟨hc, hexponent.trans ?_, rfl, rfl⟩, HasRead.makeFromParser_eq hread hparsed hnumber⟩
  rw [WrittenNumber.exponentOfLast]
  cases w.exponentIsNegative with
  | false => rfl
  | true => rfl

end

end Decimal

end Gobo
