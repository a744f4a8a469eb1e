/-
Decimal numbers (`MA_DECIMAL`): their digits, exponent and sign, the rounding to the digits of a
context, and what is done where a number is outside the limits of a context.
-/
import Gobo.DecimalCoefficient
import Gobo.DecimalContext

namespace Gobo

/-- The values of `special`. -/
inductive SpecialValue
  | none
  | infinity
  | signalingNan
  | quietNan
deriving DecidableEq, Repr

/-- A decimal number.  Special values show the coefficient `special_coefficient`. -/
structure Decimal where
  coefficient : Coefficient
  exponent : ℤ
  isNegative : Bool
  special : SpecialValue
deriving Repr, DecidableEq

namespace Decimal

/-- `make (a_precision)`. -/
def make (aPrecision : ℕ) : Option Decimal :=
  ((Coefficient.make aPrecision).put 0 0).map fun coefficient => ⟨coefficient, 0, false, .none⟩

/-- `special_coefficient`. -/
def specialCoefficient : Coefficient := ⟨Special.makeFilled 0 1, 1⟩

/-- `make_special` with the sign that is set after it. -/
def makeSpecial (codeSpecial : SpecialValue) (isNegative : Bool) : Decimal :=
  ⟨specialCoefficient, 0, isNegative, codeSpecial⟩

/-- `nan`. -/
def nan : Decimal := makeSpecial .quietNan false

/-- `infinity`. -/
def infinity : Decimal := makeSpecial .infinity false

/-- `negative_infinity`. -/
def negativeInfinity : Decimal := makeSpecial .infinity true

variable (d other : Decimal)

def isSpecial : Bool := d.special ≠ .none

def isSignalingNan : Bool := d.special = .signalingNan

def isQuietNan : Bool := d.special = .quietNan

def isNan : Bool := d.isSignalingNan || d.isQuietNan

def isInfinity : Bool := d.special = .infinity

def isZero : Bool := !d.isSpecial && d.coefficient.isZero

def count : ℕ := if d.isSpecial then 0 else d.coefficient.count

def adjustedExponent : ℤ := int32 (d.exponent + d.count - 1)

def setExponent (e : ℤ) : Decimal := { d with exponent := e }

def setNegative : Decimal := { d with isNegative := true }

def setPositive : Decimal := { d with isNegative := false }

/-- `sign`. -/
def sign : ℤ := if d.isNegative then -1 else 1

def grow (aCount : ℕ) : Option Decimal :=
  (d.coefficient.grow aCount).map fun c => { d with coefficient := c }

def shiftRight (aCount : ℕ) : Option Decimal :=
  (d.coefficient.shiftRight aCount).map fun c =>
    { d with coefficient := c, exponent := int32 (d.exponent + aCount) }

def keepHead (aCount : ℕ) : Option Decimal :=
  (d.coefficient.keepHead aCount).map fun c => { d with coefficient := c }

def put (v : ℕ) (index : ℤ) : Option Decimal :=
  (d.coefficient.put v index).map fun c => { d with coefficient := c }

def stripLeadingZeroes : Decimal := { d with coefficient := d.coefficient.stripLeadingZeroes }

section

variable (digits : ℕ)

/-- `lost_digits (ctx)`; `digits` is that of the context. -/
def lostDigits : Bool :=
  decide (∃ index < d.count - digits, d.coefficient.digit index ≠ 0)

/-- `three_way_compare_discarded_to_half (ctx)`. -/
def threeWayCompareDiscardedToHalf : Option ℤ := do
  let digit ← d.coefficient.item ((d.count : ℤ) - digits - 1)
  some <|
    if digit > 5 then 1
    else if digit < 5 then -1
    else if ∃ index < d.count - digits - 1, d.coefficient.digit index ≠ 0 then 1
    else 0

/-- The first part of `do_round_up`: the increment of the digits that are kept. -/
def addOneMsd : Option Decimal :=
  if d.lostDigits digits then
    (d.coefficient.integerQuickAddMsd 1 digits).map fun c =>
      { d with coefficient := c, exponent := int32 (d.exponent + (d.count - digits)) }
  else some d

/-- `do_round_up (ctx)`. -/
def doRoundUp : Option Decimal := do
  let d ← d.addOneMsd digits
  if digits < d.count then do
    let d ← d.shiftRight (d.count - digits)
    d.keepHead digits
  else some d

/-- `do_round_down (ctx)`. -/
def doRoundDown : Option Decimal := do
  let d ← d.shiftRight (d.count - digits)
  d.keepHead digits

/-- `do_round_ceiling (ctx)`. -/
def doRoundCeiling : Option Decimal :=
  if d.isNegative ∨ !d.lostDigits digits then d.doRoundDown digits else d.doRoundUp digits

/-- `do_round_floor (ctx)`. -/
def doRoundFloor : Option Decimal :=
  if !d.isNegative ∨ !d.lostDigits digits then d.doRoundDown digits else d.doRoundUp digits

/-- `do_round_half_up (ctx)`. -/
def doRoundHalfUp : Option Decimal := do
  let test ← d.threeWayCompareDiscardedToHalf digits
  if test = 1 ∨ test = 0 then d.doRoundUp digits else d.doRoundDown digits

/-- `do_round_half_down (ctx)`. -/
def doRoundHalfDown : Option Decimal := do
  let test ← d.threeWayCompareDiscardedToHalf digits
  if test = -1 then d.doRoundDown digits
  else if test = 1 then d.doRoundUp digits
  else d.doRoundDown digits

/-- `do_round_half_even (ctx)`. -/
def doRoundHalfEven : Option Decimal := do
  let test ← d.threeWayCompareDiscardedToHalf digits
  if test = -1 then d.doRoundDown digits
  else if test = 1 then d.doRoundUp digits
  else do
    let digit ← d.coefficient.item ((d.count : ℤ) - digits)
    if digit % 2 = 0 then d.doRoundDown digits else d.doRoundUp digits

end

/-- The `inspect ctx.rounding_mode` of `round`. -/
def roundIn (mode : RoundingMode) (digits : ℕ) : Option Decimal :=
  match mode with
  | .up => d.doRoundUp digits
  | .down => d.doRoundDown digits
  | .ceiling => d.doRoundCeiling digits
  | .floor => d.doRoundFloor digits
  | .halfUp => d.doRoundHalfUp digits
  | .halfDown => d.doRoundHalfDown digits
  | .halfEven => d.doRoundHalfEven digits
  | .unnecessary => some d

open DecimalContext (signal)

/-- `round (ctx)`. -/
def round : Action DecimalContext Decimal := do
  let ctx ← Action.state
  if d.isSpecial then do
    Action.onlyIf (d.special = .signalingNan) (signal .invalidOperation "sNaN in 'round'")
    pure d
  else if ctx.digits < d.count then do
    signal .rounded "Argument rounded"
    Action.onlyIf (d.lostDigits ctx.digits) (signal .inexact "Inexact when rouding")
    Action.lift (d.roundIn ctx.roundingMode ctx.digits)
  else pure d

/-- `is_overflow (ctx)`. -/
def isOverflow (ctx : DecimalContext) : Bool := ctx.exponentLimit < d.adjustedExponent

/-- `is_underflow (ctx)`. -/
def isUnderflow (ctx : DecimalContext) : Bool := d.adjustedExponent < -ctx.exponentLimit

/-- `set_largest (ctx)`. -/
def setLargest (ctx : DecimalContext) : Option Decimal := do
  let d ← (if d.count < ctx.digits then d.grow ctx.digits else some d)
  let d ← forUp (fun index d => d.put 9 index) d.count 0 d
  let d ← d.keepHead ctx.digits
  some <| d.setExponent <|
    if d.exponent < 0 then int32 (-ctx.exponentLimit + (d.count - 1))
    else int32 (ctx.exponentLimit - (d.count - 1))

/-- `promote_to_infinity (a_sign)`. -/
def promoteToInfinity (isNegative : Bool) : Decimal := makeSpecial .infinity isNegative

/-- The `inspect ctx.rounding_mode` of `do_overflow`.  There is no branch for `Round_unnecessary`,
which raises an exception. -/
def overflowed (ctx : DecimalContext) : Action DecimalContext Decimal :=
  match ctx.roundingMode with
  | .halfUp | .halfEven | .halfDown | .up => pure (promoteToInfinity d.isNegative)
  | .down => Action.lift (d.setLargest ctx)
  | .ceiling =>
      if d.isNegative then Action.lift (d.setLargest ctx)
      else pure (promoteToInfinity d.isNegative)
  | .floor =>
      if !d.isNegative then Action.lift (d.setLargest ctx)
      else pure (promoteToInfinity d.isNegative)
  | .unnecessary => Action.raise "Unmatched inspect value"

/-- `do_overflow (ctx)`. -/
def doOverflow : Action DecimalContext Decimal := do
  let ctx ← Action.state
  if !d.isZero then do
    signal .overflow ""
    let d ← d.overflowed ctx
    signal .inexact "do_overflow"
    signal .rounded "do_overflow"
    pure d
  else pure (d.setExponent ctx.exponentLimit)

/-- The digit that is kept of a number all of whose digits are below the least one; `digits` is
forced to the count of the coefficient less one while it is looked for. -/
def underflowDigit (mode : RoundingMode) : ℕ :=
  let digits := d.coefficient.count - 1
  match mode with
  | .up => 1
  | .ceiling => if !d.isNegative ∧ d.lostDigits digits then 1 else 0
  | .floor => if !d.isNegative ∨ !d.lostDigits digits then 0 else 1
  | _ => 0

/-- `do_underflow` where no digit reaches `e_tiny`. -/
def underflowBelow (eTiny : ℤ) : Action DecimalContext Decimal := do
  let ctx ← Action.state
  let savedDigits := ctx.digits
  Action.change fun ctx => ctx.setDigits (d.coefficient.count - 1)
  let value := d.underflowDigit ctx.roundingMode
  Action.change fun ctx => ctx.setDigits savedDigits
  let d ← Action.lift (d.put value 0)
  let d ← Action.lift (d.keepHead 1)
  let d := d.setExponent eTiny
  signal .inexact "Rescaling to e_tiny"
  signal .rounded "Rescaling to e_tiny"
  signal .underflow "Rescaling to e_tiny"
  pure d

/-- The digits that are put in front in `do_underflow`, and the precision to round to. -/
def underflowGrown (ctx : DecimalContext) (eTiny sharedDigits : ℤ) : Option (Decimal × ℕ) :=
  if sharedDigits = 0 then (d.grow (d.count + 1)).map fun d => (d, 1)
  else
    let countUptoElimit := int32 (-ctx.exponentLimit - d.exponent + 1)
    (if d.count < countUptoElimit then d.grow countUptoElimit.toNat else some d).map
      fun d => (d, (int32 (-ctx.exponentLimit - eTiny + 1)).toNat)

/-- `do_underflow` where a digit reaches `e_tiny`, or the one below it. -/
def underflowShared (eTiny sharedDigits : ℤ) : Action DecimalContext Decimal := do
  let ctx ← Action.state
  let savedDigits := ctx.digits
  let grown ← Action.lift (d.underflowGrown ctx eTiny sharedDigits)
  Action.change fun ctx => ctx.setDigits grown.2
  let d ← grown.1.round
  Action.change fun ctx => ctx.setDigits savedDigits
  let d := d.stripLeadingZeroes
  let ctx ← Action.state
  Action.onlyIf (ctx.isFlagged .subnormal ∧ ctx.isFlagged .inexact)
    (signal .underflow "Underflow when rescaling")
  if d.isOverflow ctx then d.doOverflow else pure d

/-- The end of `do_underflow` for a number that is zero. -/
def restoreRounded (wasRounded : Bool) (reason : Option String) : Action DecimalContext Unit :=
  match wasRounded, reason with
  | true, some reason => signal .rounded reason
  | _, _ => Action.change fun ctx => ctx.resetFlag .rounded

/-- `do_underflow (ctx)`. -/
def doUnderflow : Action DecimalContext Decimal := do
  let ctx ← Action.state
  Action.onlyIf (!d.isZero) (signal .subnormal "")
  let eTiny := ctx.eTiny
  if d.exponent < eTiny then do
    let sharedDigits := int32 (d.adjustedExponent - eTiny + 1)
    let result ← (if sharedDigits < 0 then d.underflowBelow eTiny
      else d.underflowShared eTiny sharedDigits)
    Action.onlyIf d.isZero (restoreRounded (ctx.isFlagged .rounded) ctx.reason)
    pure (result.setExponent eTiny)
  else pure d

/-- The part of `clean_up` between the changes of the trap and flag of lost digits. -/
def cleanUpDigits : Action DecimalContext Decimal := do
  let ctx ← Action.state
  let d := d.stripLeadingZeroes
  if d.isUnderflow ctx then d.doUnderflow
  else do
    let d ← (if 0 < ctx.digits ∧ ctx.digits < d.count then d.round else pure d)
    let ctx ← Action.state
    if d.isOverflow ctx then d.doOverflow else pure d

/-- `clean_up (ctx)`. -/
def cleanUp : Action DecimalContext Decimal := do
  if d.isSpecial then pure d
  else do
    let ctx ← Action.state
    let lostDigitsTrap := ctx.isTrapped .lostDigits
    let lostDigitsFlag := ctx.isFlagged .lostDigits
    Action.change fun ctx => (ctx.disableTrap .lostDigits).resetFlag .lostDigits
    let d ← d.cleanUpDigits
    Action.onlyIf lostDigitsTrap (Action.change fun ctx => ctx.enableTrap .lostDigits)
    let ctx ← Action.state
    Action.change fun ctx' =>
      if lostDigitsFlag ∨ ctx.isFlagged .lostDigits then ctx'.setFlag .lostDigits
      else ctx'.resetFlag .lostDigits
    pure d

end Decimal

end Gobo
