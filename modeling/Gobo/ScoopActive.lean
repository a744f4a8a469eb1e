/-
The sessions of active regions: the processor of a region runs the first one, until it
is closed and its calls are executed.
-/
import Gobo.ScoopCallQueues

namespace Gobo

open Option

namespace Scoop

variable {R : Type} [DecidableEq R]

/-- The session that a thread runs, or is about to remove. -/
def runningSession : ScoopPhase R → Option Nat
  | .execute x => some x
  | .call x _ => some x
  | .executed x => some x
  | .remove x => some x
  | _ => none

structure ActiveSound (isPassive : R → Bool) (s : Scoop R) : Prop where
  reserved : s.ReservedIn isPassive fun r => isPassive r = false
  runs : ∀ {a : ScoopAgent R} {x : Nat}, runningSession (s.phase a) = some x →
    isPassive (s.callee x) = false → s.isRunning x = true ∧ s.isFreed x = false

/-- All calls of a session that a processor is about to remove were executed. -/
def Exhausted (isPassive : R → Bool) (s : Scoop R) : Prop :=
  ∀ ⦃a : ScoopAgent R⦄ ⦃x : Nat⦄, s.phase a = .remove x → isPassive (s.callee x) = false →
    (s.calls x).firstCall = none

section

variable {isPassive : R → Bool} {s t : Scoop R} {a b : ScoopAgent R} {x : Nat}
  {action : ScoopAction R}

omit [DecidableEq R] in
theorem session_of_running {p : ScoopPhase R} (hp : runningSession p = some x) :
    session p = some x := by
  cases p <;> first | exact hp | exact nomatch hp

/-- Only the processor of an active region runs a session of it. -/
theorem Sound.eq_processor (hs : s.Sound isPassive) (ha : session (s.phase a) = some x)
    (hactive : isPassive (s.callee x) = false) : a = .processor (s.callee x) := by
  refine Scoop.eq_processor ?_ hactive
  have hphase := hs.phases a
  generalize s.phase a = p at ha hphase
  cases p with
  | execute y => exact some.inj ha ▸ hphase.serves
  | call y c => exact some.inj ha ▸ hphase.serves
  | executed y => exact some.inj ha ▸ hphase.1.serves
  | remove y => exact some.inj ha ▸ hphase.serves
  | decrement y => exact some.inj ha ▸ hphase.serves
  | idle => exact nomatch ha
  | submitting y => exact nomatch ha
  | adding y => exact nomatch ha
  | wakeup r => exact nomatch ha
  | promote r => exact nomatch ha
  | promoting r c => exact nomatch ha
  | promoted r => exact nomatch ha

/-- A thread that removes a session counts it next. -/
theorem phase_removed (h : step isPassive s (.proceed a) = some t) (ha : s.phase a = .remove x) :
    t.phase a = .decrement x := by
  have hstep : ThreadStep isPassive s a (s.phase a) t := proceed_cases h
  rw [ha] at hstep
  have hself : Function.update s.phase a (.decrement x) a = .decrement x :=
    Function.update_self _ _ _
  cases hstep with
  | removed => exact hself
  | rested hp => rcases hp with hp | hp <;> exact nomatch hp
  | ran hp => rcases hp with hp | hp <;> exact nomatch hp

theorem ActiveSound.removesRunning (h : s.ActiveSound isPassive) :
    s.RemovesRunningIn (fun r => isPassive r = false) action := by
  cases action with
  | proceed a =>
      rw [RemovesRunningIn]
      split
      case h_1 x ha => exact h.runs (congrArg runningSession ha)
      case h_2 => trivial
  | rootCreated => trivial
  | sessionOpen => trivial
  | passLock => trivial
  | sessionAddCall => trivial
  | sessionAddRunningCall => trivial
  | sessionClose => trivial
  | start => trivial

theorem ActiveSound.runs_step (h : s.ActiveSound isPassive)
    (hstep : step isPassive s action = some t) (ha : runningSession (t.phase a) = some x)
    (hactive : isPassive (t.callee x) = false) : t.isRunning x = true ∧ t.isFreed x = false := by
  have hs := h.reserved.sound
  have ht := (step_cases hstep).sound hs
  have hlater := (session_cases hs hstep).later hs
  obtain ⟨hsubmitted, hcreated⟩ := ht.created_of_session (session_of_running ha)
  -- What is true before the step is true after it.
  suffices hbefore : s.isSubmitted x = true ∧ (s.isRunning x = true ∨ t.isRunning x = true) ∧
      s.isFreed x = false by
    obtain ⟨hold, hrunning, hfreed⟩ := hbefore
    refine ⟨hrunning.elim (fun hrunning => hlater.running hrunning) id, ?_⟩
    by_contra hgone
    have hcases := (session_cases hs hstep).freed_cases hs hcreated (Bool.not_eq_false _ ▸ hgone)
    rcases hcases.2 with hfreed' | hnew | ⟨b, rfl, hb⟩
    · exact absurd (hfreed'.symm.trans hfreed) (by simp)
    · exact absurd (hsubmitted.symm.trans hnew) (by simp)
    · have hsame := hlater.callee (hs.typed.created hold)
      have hab : a = b := by
        rw [ht.eq_processor (session_of_running ha) hactive, hsame,
          hs.eq_processor (congrArg session hb) (hsame ▸ hactive)]
      rw [hab, phase_removed hstep hb] at ha
      exact nomatch ha
  have hkept : ∀ {b : ScoopAgent R}, runningSession (s.phase b) = some x →
      s.isSubmitted x = true ∧ (s.isRunning x = true ∨ t.isRunning x = true) ∧
        s.isFreed x = false := by
    intro b hb
    have hold := (hs.created_of_session (session_of_running hb)).1
    obtain ⟨hrunning, hfreed⟩ := h.runs hb (hlater.callee (hs.typed.created hold) ▸ hactive)
    exact ⟨hold, Or.inl hrunning, hfreed⟩
  have hentered := enters hs hstep a
  generalize t.phase a = p at ha hentered
  cases hentered with
  | kept => exact hkept ha
  | elsewhere hp => exact nomatch hp.symm.trans (session_of_running ha)
  | ran hfirst hrun =>
      obtain rfl := some.inj ha
      have hold := (hs.typed.first hfirst).2
      refine ⟨hold, Or.inr ?_,
        h.reserved.not_freed_of_first (hlater.callee (hs.typed.created hold) ▸ hactive) hfirst⟩
      rw [hrun]
      exact Function.update_self _ _ _
  | performed hb =>
      obtain rfl := some.inj ha
      exact hkept (congrArg runningSession hb)
  | popped hb hfirst =>
      obtain rfl := some.inj ha
      exact hkept (congrArg runningSession hb)
  | left hb hempty hpassive =>
      obtain rfl := some.inj ha
      exact hkept (congrArg runningSession hb)
  | ended hb hempty hclosed hactive =>
      obtain rfl := some.inj ha
      exact hkept (congrArg runningSession hb)
  | foundClosed hb hclosed =>
      obtain rfl := some.inj ha
      exact hkept (congrArg runningSession hb)
  | closing hopen hold hpassive hempty =>
      obtain rfl := some.inj ha
      rw [hlater.callee (hs.typed.created hold), hpassive] at hactive
      exact nomatch hactive
  | removed hb => exact nomatch ha

theorem Exhausted.step (h : s.Exhausted isPassive) (hs : s.Sound isPassive) (hc : s.Closing)
    (hstep : step isPassive s action = some t) : t.Exhausted isPassive := by
  intro a x ha hactive
  have hlater := (session_cases hs hstep).later hs
  have hstays : s.isSubmitted x = true → s.isLocked x = false → (s.calls x).firstCall = none →
      (t.calls x).firstCall = none := by
    intro hsubmitted hunlocked hempty
    rw [(unlocked_step hstep (hs.typed.created hsubmitted) hunlocked).2 hempty]
    exact hempty
  have hentered := enters hs hstep a
  generalize hp : t.phase a = p at hentered
  rw [hp] at ha
  cases hentered with
  | kept =>
      have hsubmitted := (hs.created_of_session (congrArg session ha)).1
      refine hstays hsubmitted (hc.phases (congrArg removedSession ha)) (h ha ?_)
      exact hlater.callee (hs.typed.created hsubmitted) ▸ hactive
  | elsewhere hnone => exact nomatch (ha ▸ hnone)
  | ran => exact nomatch ha
  | performed => exact nomatch ha
  | popped => exact nomatch ha
  | left => exact nomatch ha
  | ended hb hempty hclosed _ =>
      injection ha with heq
      subst heq
      exact hstays (hs.created_of_session (congrArg session hb)).1 (hc.unlocked hclosed) hempty
  | foundClosed hb hclosed =>
      injection ha with heq
      subst heq
      have hphase := hs.phases a
      rw [hb] at hphase
      rw [hlater.callee (hs.typed.created hphase.1.submitted), hphase.2] at hactive
      exact nomatch hactive
  | closing hopen hold hpassive hempty =>
      injection ha with heq
      subst heq
      rw [hlater.callee (hs.typed.created hold), hpassive] at hactive
      exact nomatch hactive
  | removed => exact nomatch ha

theorem ActiveSound.step (h : s.ActiveSound isPassive)
    (hstep : step isPassive s action = some t) : t.ActiveSound isPassive where
  reserved := h.reserved.step h.removesRunning hstep
  runs := h.runs_step hstep

theorem activeSound_init (isPassive : R → Bool) (r : R) : (init r).ActiveSound isPassive :=
  ⟨reservedIn_init isPassive _ r, nofun⟩

end

end Scoop

end Gobo
