/-
The contexts of decimal arithmetic (`MA_DECIMAL_CONTEXT`): precision, rounding mode and limits,
and the signals with their flags and traps.
-/
import Gobo.Action
import Gobo.Integer32
import Gobo.Rounding

namespace Gobo

/-- The signals, in the order of their numbers. -/
inductive Signal
  | divisionByZero
  | inexact
  | invalidOperation
  | lostDigits
  | overflow
  | rounded
  | underflow
  | subnormal
deriving DecidableEq, Repr

/-- `Signal_words`. -/
def Signal.word : Signal → String
  | divisionByZero => "division_by_zero"
  | inexact => "inexact"
  | invalidOperation => "invalid_operation"
  | lostDigits => "lost_digits"
  | overflow => "overflow"
  | rounded => "rounded"
  | underflow => "underflow"
  | subnormal => "subnormal"

structure DecimalContext where
  digits : ℕ
  roundingMode : RoundingMode
  reason : Option String
  exponentLimit : ℤ
  isExtended : Bool
  exceptionOnTrap : Bool
  flags : Signal → Bool
  traps : Signal → Bool

namespace DecimalContext

/-- `Maximum_exponent`. -/
def maximumExponent : ℤ := 999999999

/-- `Maximum_digits`. -/
def maximumDigits : ℕ := 999999999

/-- `Default_digits`. -/
def defaultDigits : ℕ := 9

/-- `make (a_digits, a_rounding_mode)`. -/
def make (aDigits : ℕ) (aRoundingMode : RoundingMode) : DecimalContext :=
  ⟨aDigits, aRoundingMode, none, maximumExponent, false, false, fun _ => false, fun _ => false⟩

/-- `Default_traps`. -/
def defaultTraps : List Signal := [.divisionByZero, .invalidOperation, .overflow, .underflow]

/-- `make_default`. -/
def makeDefault : DecimalContext :=
  { make defaultDigits .halfUp with traps := fun s => decide (s ∈ defaultTraps) }

section

variable (ctx : DecimalContext)

def eTiny : ℤ := int32 (-ctx.exponentLimit - (ctx.digits - 1))

section

variable (aSignal : Signal)

def isFlagged : Bool := ctx.flags aSignal

def isTrapped : Bool := ctx.traps aSignal

/-- `set_digits` and `force_digits`. -/
def setDigits (d : ℕ) : DecimalContext := { ctx with digits := d }

def setExponentLimit (aLimit : ℤ) : DecimalContext := { ctx with exponentLimit := aLimit }

def enableTrap : DecimalContext :=
  { ctx with traps := Function.update ctx.traps aSignal true }

def disableTrap : DecimalContext :=
  { ctx with traps := Function.update ctx.traps aSignal false }

def setFlag : DecimalContext :=
  { ctx with flags := Function.update ctx.flags aSignal true }

def resetFlag : DecimalContext :=
  { ctx with flags := Function.update ctx.flags aSignal false }

/-- The context once a signal has been noted. -/
def noted (aMessage : String) : DecimalContext :=
  { ctx.setFlag aSignal with reason := some aMessage }

end

end

/-- `signal (a_signal, a_message)`: the flag is set; a trapped signal raises an exception where
exceptions are enabled. -/
def signal (aSignal : Signal) (aMessage : String) : Action DecimalContext Unit := do
  Action.change fun ctx => ctx.noted aSignal aMessage
  let ctx ← Action.state
  Action.onlyIf (ctx.isTrapped aSignal ∧ ctx.exceptionOnTrap)
    (Action.raise (aSignal.word ++ " : " ++ aMessage))

/-- A context whose precision and limit are among those that are allowed. -/
structure Valid (ctx : DecimalContext) : Prop where
  digits_pos : 0 < ctx.digits
  digits_le : ctx.digits ≤ maximumDigits
  exponentLimit_nonneg : 0 ≤ ctx.exponentLimit
  exponentLimit_le : ctx.exponentLimit ≤ maximumExponent

/-- The least exponent is not cut. -/
theorem Valid.eTiny_eq {ctx : DecimalContext} (h : ctx.Valid) :
    ctx.eTiny = -ctx.exponentLimit - (ctx.digits - 1) := by
  obtain ⟨hpos, hle, hnonneg, hlimit⟩ := h
  rw [maximumDigits] at hle
  rw [maximumExponent] at hlimit
  exact int32_of_mem (by omega) (by omega)

/-- The settings of the context, which are not its flags. -/
structure SameSettings (ctx ctx' : DecimalContext) : Prop where
  digits : ctx'.digits = ctx.digits
  roundingMode : ctx'.roundingMode = ctx.roundingMode
  exponentLimit : ctx'.exponentLimit = ctx.exponentLimit
  isExtended : ctx'.isExtended = ctx.isExtended
  exceptionOnTrap : ctx'.exceptionOnTrap = ctx.exceptionOnTrap
  traps : ctx'.traps = ctx.traps

namespace SameSettings

variable {ctx ctx' ctx'' : DecimalContext}

theorem refl (ctx : DecimalContext) : SameSettings ctx ctx := ⟨rfl, rfl, rfl, rfl, rfl, rfl⟩

theorem trans (h : SameSettings ctx ctx') (h' : SameSettings ctx' ctx'') :
    SameSettings ctx ctx'' :=
  ⟨h'.digits.trans h.digits, h'.roundingMode.trans h.roundingMode,
    h'.exponentLimit.trans h.exponentLimit, h'.isExtended.trans h.isExtended,
    h'.exceptionOnTrap.trans h.exceptionOnTrap, h'.traps.trans h.traps⟩

theorem noted (ctx : DecimalContext) (aSignal : Signal) (aMessage : String) :
    SameSettings ctx (ctx.noted aSignal aMessage) := ⟨rfl, rfl, rfl, rfl, rfl, rfl⟩

end SameSettings

/-- One of the signals was noted, and raised an exception: it is trapped, and exceptions are
enabled. -/
def RaisedBy (ctx : DecimalContext) (signals : List Signal) (ctx' : DecimalContext) : Prop :=
  ctx.exceptionOnTrap = true ∧ ∃ s ∈ signals, ctx.isTrapped s = true ∧ ctx'.isFlagged s = true

/-- What the signals and `clean_up` leave of the context: the trap of lost digits is not looked
at. -/
structure SameTraps (ctx ctx' : DecimalContext) : Prop where
  exceptionOnTrap : ctx'.exceptionOnTrap = ctx.exceptionOnTrap
  roundingMode : ctx'.roundingMode = ctx.roundingMode
  traps : ∀ s, s ≠ .lostDigits → ctx'.isTrapped s = ctx.isTrapped s

theorem SameTraps.refl (ctx : DecimalContext) : SameTraps ctx ctx := ⟨rfl, rfl, fun _ _ => rfl⟩

variable {ctx : DecimalContext} {aSignal : Signal} {aMessage : String}
  {E : DecimalContext → Prop}

/-- A signal notes itself.  It raises an exception where its trap is enabled. -/
theorem signal_meets_of_trap {Q : Unit → DecimalContext → Prop}
    (hE : ctx.isTrapped aSignal = true → ctx.exceptionOnTrap = true →
      E (ctx.noted aSignal aMessage))
    (hQ : Q () (ctx.noted aSignal aMessage)) : (signal aSignal aMessage).Meets ctx Q E := by
  apply Action.Meets.change_bind
  apply Action.Meets.state_bind
  exact Action.Meets.onlyIf (fun h => Action.Meets.raise (hE h.1 h.2)) fun _ => hQ

theorem signal_meets {Q : Unit → DecimalContext → Prop} (hE : E (ctx.noted aSignal aMessage))
    (hQ : Q () (ctx.noted aSignal aMessage)) : (signal aSignal aMessage).Meets ctx Q E :=
  signal_meets_of_trap (fun _ _ => hE) hQ

theorem signal_bind {B : Type} {f : Unit → Action DecimalContext B}
    {R : B → DecimalContext → Prop} (hE : E (ctx.noted aSignal aMessage))
    (hf : (f ()).Meets (ctx.noted aSignal aMessage) R E) :
    (signal aSignal aMessage >>= f).Meets ctx R E :=
  (signal_meets (Q := fun _ ctx' => ctx' = ctx.noted aSignal aMessage) hE rfl).bind
    fun _ _ hctx => by
      rw [hctx]
      exact hf

theorem signal_leads {signals : List Signal} (hmem : aSignal ∈ signals)
    (hlost : aSignal ≠ .lostDigits) :
    Action.Leads (SameTraps ctx) (signal aSignal aMessage)
      (fun _ ctx' => SameTraps ctx ctx' ∧ ctx'.isFlagged aSignal = true)
      (RaisedBy ctx signals) := by
  have hflag : ∀ ctx' : DecimalContext, (ctx'.noted aSignal aMessage).isFlagged aSignal = true :=
    fun ctx' => Function.update_self ..
  intro ctx' hctx
  have hmeets : (signal aSignal aMessage).Meets ctx'
      (fun _ ctx'' => SameTraps ctx ctx'' ∧ ctx''.isFlagged aSignal = true)
      (RaisedBy ctx signals) :=
    signal_meets_of_trap (fun htrap hraise =>
        ⟨hctx.exceptionOnTrap.symm.trans hraise, aSignal, hmem,
          (hctx.traps aSignal hlost).symm.trans htrap, hflag ctx'⟩)
      ⟨⟨hctx.exceptionOnTrap, hctx.roundingMode, hctx.traps⟩, hflag ctx'⟩
  refine ⟨fun a s hrun => hmeets.of_run hrun, fun m s hrun => ?_⟩
  rcases hmeets with ⟨a, s', hrun', -⟩ | ⟨m', s', hrun', hs'⟩
  · rw [hrun'] at hrun
    cases hrun
  · rw [hrun'] at hrun
    cases hrun
    exact hs'

end DecimalContext

end Gobo
