/-
The exceptions of decimal arithmetic: the signals that may raise one in `round` and `clean_up`.
-/
import Gobo.Decimal

namespace Gobo

namespace Decimal

open DecimalContext (signal SameTraps signal_leads)
open Gobo.Action (Leads)

/-- The signals of `round`. -/
def roundSignals : List Signal := [.rounded, .inexact]

/-- The signals of `clean_up`. -/
def cleanUpSignals : List Signal := [.rounded, .inexact, .overflow, .underflow, .subnormal]

/-- How `clean_up` may raise an exception: by a trapped signal, or in `do_overflow`, which has no
branch for `Round_unnecessary`. -/
def CleanUpRaises (ctx ctx' : DecimalContext) : Prop :=
  ctx.RaisedBy cleanUpSignals ctx' ∨
    ctx.roundingMode = .unnecessary ∧ ctx'.isFlagged .overflow = true

section

variable {ctx : DecimalContext} {d : Decimal} {s : Signal} {message : String}

theorem signal_cleanUpRaises (hmem : s ∈ cleanUpSignals) :
    Leads (SameTraps ctx) (signal s message)
      (fun _ ctx' => SameTraps ctx ctx' ∧ ctx'.isFlagged s = true) (CleanUpRaises ctx) := by
  have hlost : s ≠ .lostDigits := by
    rintro rfl
    exact absurd hmem (by decide)
  exact Leads.mono (signal_leads hmem hlost) (fun _ _ h => h) fun _ h => Or.inl h

theorem signal_sameTraps (hmem : s ∈ cleanUpSignals) :
    Leads (SameTraps ctx) (signal s message) (fun _ => SameTraps ctx) (CleanUpRaises ctx) :=
  Leads.mono (signal_cleanUpRaises hmem) (fun _ _ h => h.1) fun _ h => h

theorem setDigits_sameTraps {digits : ℕ} {E : DecimalContext → Prop} :
    Leads (SameTraps ctx) (Action.change fun ctx => ctx.setDigits digits)
      (fun _ => SameTraps ctx) E :=
  Leads.change fun _ h => ⟨h.exceptionOnTrap, h.roundingMode, h.traps⟩

/-- `round` of a number that is not special raises an exception by no other signals. -/
theorem round_raises (hspecial : d.isSpecial = false) :
    Leads (SameTraps ctx) d.round (fun _ => SameTraps ctx) (ctx.RaisedBy roundSignals) := by
  have hsignal : ∀ {s : Signal} {message : String}, s ∈ roundSignals →
      Leads (SameTraps ctx) (signal s message) (fun _ => SameTraps ctx)
        (ctx.RaisedBy roundSignals) := by
    intro s message hmem
    have hlost : s ≠ .lostDigits := by
      rintro rfl
      exact absurd hmem (by decide)
    exact Leads.mono (signal_leads hmem hlost) (fun _ _ h => h.1) fun _ h => h
  refine Leads.state_bind fun ctx₁ _ => ?_
  rw [if_neg (by rw [hspecial]; exact Bool.false_ne_true)]
  refine Leads.ite (fun _ => ?_) fun _ => Leads.pure fun _ h => h
  refine Leads.bind (hsignal (by decide)) fun _ => ?_
  refine Leads.bind (Leads.onlyIf (hsignal (by decide)) fun _ h => h) fun _ => ?_
  exact Leads.lift fun _ _ _ h => h

theorem round_cleanUpRaises (hspecial : d.isSpecial = false) :
    Leads (SameTraps ctx) d.round (fun _ => SameTraps ctx) (CleanUpRaises ctx) := by
  have hsub : ∀ s ∈ roundSignals, s ∈ cleanUpSignals := by decide
  exact Leads.mono (round_raises hspecial) (fun _ _ h => h)
    fun _ ⟨hraise, s, hs, htrap⟩ => Or.inl ⟨hraise, s, hsub s hs, htrap⟩

theorem doOverflow_raises :
    Leads (SameTraps ctx) d.doOverflow (fun _ => SameTraps ctx) (CleanUpRaises ctx) := by
  refine Leads.state_bind fun ctx₁ hctx₁ => Leads.ite (fun _ => ?_) fun _ => Leads.pure fun _ h => h
  refine Leads.bind (signal_cleanUpRaises (by decide)) fun _ => ?_
  refine Leads.bind (Q := fun _ => SameTraps ctx) ?_ fun _ => ?_
  · rw [overflowed]
    split
    · exact Leads.pure fun _ h => h.1
    · exact Leads.pure fun _ h => h.1
    · exact Leads.pure fun _ h => h.1
    · exact Leads.pure fun _ h => h.1
    · exact Leads.lift fun _ _ _ h => h.1
    · exact Leads.ite (fun _ => Leads.lift fun _ _ _ h => h.1) fun _ => Leads.pure fun _ h => h.1
    · exact Leads.ite (fun _ => Leads.lift fun _ _ _ h => h.1) fun _ => Leads.pure fun _ h => h.1
    · exact Leads.raise fun _ h => Or.inr ⟨hctx₁.roundingMode.symm.trans ‹_›, h.2⟩
  · refine Leads.bind (signal_sameTraps (by decide)) fun _ => ?_
    exact Leads.bind (signal_sameTraps (by decide)) fun _ => Leads.pure fun _ h => h

theorem underflowBelow_raises (eTiny : ℤ) :
    Leads (SameTraps ctx) (d.underflowBelow eTiny) (fun _ => SameTraps ctx)
      (CleanUpRaises ctx) := by
  refine Leads.state_bind fun ctx₁ _ => ?_
  refine Leads.bind setDigits_sameTraps fun _ => Leads.bind setDigits_sameTraps fun _ => ?_
  refine Leads.lift_bind fun _ _ => Leads.lift_bind fun _ _ => ?_
  refine Leads.bind (signal_sameTraps (by decide)) fun _ => ?_
  refine Leads.bind (signal_sameTraps (by decide)) fun _ => ?_
  exact Leads.bind (signal_sameTraps (by decide)) fun _ => Leads.pure fun _ h => h

theorem underflowGrown_isSpecial {eTiny sharedDigits : ℤ} {grown : Decimal × ℕ}
    (h : d.underflowGrown ctx eTiny sharedDigits = some grown) :
    grown.1.isSpecial = d.isSpecial := by
  have hgrow : ∀ {k : ℕ} {d' : Decimal}, d.grow k = some d' → d'.isSpecial = d.isSpecial := by
    intro k d' hd'
    obtain ⟨c, -, rfl⟩ := Option.map_eq_some_iff.mp hd'
    rfl
  rw [underflowGrown] at h
  split at h
  · obtain ⟨d', hd', rfl⟩ := Option.map_eq_some_iff.mp h
    exact hgrow hd'
  · obtain ⟨d', hd', rfl⟩ := Option.map_eq_some_iff.mp h
    split at hd'
    · exact hgrow hd'
    · cases hd'
      rfl

theorem underflowShared_raises (hspecial : d.isSpecial = false) (eTiny sharedDigits : ℤ) :
    Leads (SameTraps ctx) (d.underflowShared eTiny sharedDigits) (fun _ => SameTraps ctx)
      (CleanUpRaises ctx) := by
  refine Leads.state_bind fun ctx₁ _ => Leads.lift_bind fun grown hgrown => ?_
  refine Leads.bind setDigits_sameTraps fun _ => ?_
  refine Leads.bind (round_cleanUpRaises ((underflowGrown_isSpecial hgrown).trans hspecial))
    fun _ => ?_
  refine Leads.bind setDigits_sameTraps fun _ => Leads.state_bind fun ctx₂ _ => ?_
  refine Leads.bind (Leads.onlyIf (signal_sameTraps (by decide)) fun _ h => h) fun _ => ?_
  exact Leads.ite (fun _ => doOverflow_raises) fun _ => Leads.pure fun _ h => h

theorem doUnderflow_raises (hspecial : d.isSpecial = false) :
    Leads (SameTraps ctx) d.doUnderflow (fun _ => SameTraps ctx) (CleanUpRaises ctx) := by
  refine Leads.state_bind fun ctx₁ _ => ?_
  refine Leads.bind (Leads.onlyIf (signal_sameTraps (by decide)) fun _ h => h) fun _ => ?_
  refine Leads.ite (fun _ => ?_) fun _ => Leads.pure fun _ h => h
  refine Leads.bind (Leads.ite (fun _ => underflowBelow_raises _)
    fun _ => underflowShared_raises hspecial _ _) fun _ => ?_
  refine Leads.bind (Leads.onlyIf ?_ fun _ h => h) fun _ => Leads.pure fun _ h => h
  unfold restoreRounded
  split
  · exact signal_sameTraps (by decide)
  · exact Leads.change fun _ h => ⟨h.exceptionOnTrap, h.roundingMode, h.traps⟩

theorem cleanUp_raises (hspecial : d.isSpecial = false) :
    Leads (SameTraps ctx) d.cleanUp (fun _ => SameTraps ctx) (CleanUpRaises ctx) := by
  have htraps : ∀ {ctx' : DecimalContext} (b : Bool), SameTraps ctx ctx' → ∀ s, s ≠ .lostDigits →
      Function.update ctx'.traps .lostDigits b s = ctx.traps s := by
    intro ctx' b h s hs
    rw [Function.update_of_ne hs]
    exact h.traps s hs
  rw [cleanUp, if_neg (by rw [hspecial]; exact Bool.false_ne_true)]
  refine Leads.state_bind fun ctx₁ _ => ?_
  refine Leads.bind (Q := fun _ => SameTraps ctx)
    (Leads.change fun _ h => ⟨h.exceptionOnTrap, h.roundingMode, htraps false h⟩) fun _ => ?_
  refine Leads.bind (Q := fun _ => SameTraps ctx) ?_ fun _ => ?_
  · have hstrip : d.stripLeadingZeroes.isSpecial = false := hspecial
    refine Leads.state_bind fun ctx₂ _ => Leads.ite (fun _ => doUnderflow_raises hstrip) fun _ => ?_
    refine Leads.bind (Leads.ite (fun _ => round_cleanUpRaises hstrip)
      fun _ => Leads.pure fun _ h => h) fun _ => Leads.state_bind fun ctx₃ _ => ?_
    exact Leads.ite (fun _ => doOverflow_raises) fun _ => Leads.pure fun _ h => h
  · refine Leads.bind (Q := fun _ => SameTraps ctx) (Leads.onlyIf (Leads.change fun _ h =>
      ⟨h.exceptionOnTrap, h.roundingMode, htraps true h⟩) fun _ h => h) fun _ => ?_
    refine Leads.state_bind fun ctx₂ _ => Leads.bind (Q := fun _ => SameTraps ctx)
      (Leads.change fun _ h => ?_) fun _ => Leads.pure fun _ h => h
    split
    · exact ⟨h.exceptionOnTrap, h.roundingMode, h.traps⟩
    · exact ⟨h.exceptionOnTrap, h.roundingMode, h.traps⟩

end

end Decimal

end Gobo
