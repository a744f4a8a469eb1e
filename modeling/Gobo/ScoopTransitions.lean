/-
What one section of the SCOOP runtime can do, said once.
-/
import Gobo.Scoop

namespace Gobo

open Option Function

namespace Scoop

variable {R : Type} [DecidableEq R]

/-- The phase of a client after a call. -/
inductive AfterCall (isPassive : R → Bool) (s : Scoop R) (x : Nat) : ScoopPhase R → Prop where
  | submitting (hnew : s.isSubmitted x = false)
      (hlocked : ∀ y ∈ x :: s.siblings x, s.isLocked y = true) :
      AfterCall isPassive s x (.submitting x)
  | wakeup (hold : s.isSubmitted x = true) (hpassive : isPassive (s.callee x) = true) :
      AfterCall isPassive s x (.wakeup (s.callee x))
  | idle (hold : s.isSubmitted x = true) (hactive : isPassive (s.callee x) = false) :
      AfterCall isPassive s x .idle

/-- The phase of a client after it closed a submitted session. -/
inductive AfterClose (isPassive : R → Bool) (s : Scoop R) (x : Nat) : ScoopPhase R → Prop where
  | remove (hpassive : isPassive (s.callee x) = true) (hempty : (s.calls x).firstCall = none) :
      AfterClose isPassive s x (.remove x)
  | wakeup (hpassive : isPassive (s.callee x) = true) :
      AfterClose isPassive s x (.wakeup (s.callee x))
  | idle (hactive : isPassive (s.callee x) = false) : AfterClose isPassive s x .idle

/-- The actions that increment the open count of a session. -/
def Increments (s : Scoop R) : ScoopAction R → Nat → Prop
  | .sessionOpen caller callee _, x => s.lockedSession caller callee = some x
  | .passLock y, x => y = x
  | _, _ => False

/-- No open count that is the largest `uint32_t` is incremented. -/
def OpensFit (s : Scoop R) (action : ScoopAction R) : Prop :=
  ∀ x, s.Increments action x → s.isOpen x + 1 < 2 ^ 32

/-- What a client can do. -/
inductive ClientStep (isPassive : R → Bool) (s : Scoop R) : ScoopAction R → Scoop R → Prop where
  | nothing {action : ScoopAction R} : ClientStep isPassive s action s
  | rooted (hidle : s.phase (.caller s.mainRegion) = .idle) (hroot : s.isRootCreated = false) :
      ClientStep isPassive s .rootCreated
        { s with sessionsCount := s.sessionsCount - 1, isRootCreated := true }
  | opened {caller callee : R} {sibling : Option Nat}
      (hidle : s.phase (.caller caller) = .idle) (hne : callee ≠ caller)
      (hlocked : s.lockedSession caller callee = none)
      (hsibling : ∀ a, sibling = some a → s.isJoinable caller a = true) :
      ClientStep isPassive s (.sessionOpen caller callee sibling)
        (s.addSession caller callee sibling)
  | locked {action : ScoopAction R} {x : Nat} (hidle : s.phase (.caller (s.caller x)) = .idle)
      (hlocked : s.isLocked x = true) (hincrements : s.Increments action x) :
      ClientStep isPassive s action (s.setOpen x (ScoopLocks.increment (s.isOpen x)))
  | added {action : ScoopAction R} {x : Nat} {p : ScoopPhase R}
      (hidle : s.phase (.caller (s.caller x)) = .idle) (hlocked : s.isLocked x = true)
      (hafter : AfterCall isPassive s x p) :
      ClientStep isPassive s action
        ((s.addCall x ⟨s.callsCreated, false⟩ ((s.calls x).add ⟨s.callsCreated, false⟩)).goto
          (.caller (s.caller x)) p)
  | pushed {action : ScoopAction R} {x : Nat} {p : ScoopPhase R}
      (hidle : s.phase (.caller (s.caller x)) = .idle) (hlocked : s.isLocked x = true)
      (hwaiting : s.isRunning x = false) (hafter : AfterCall isPassive s x p) :
      ClientStep isPassive s action
        ((s.addCall x ⟨s.callsCreated, true⟩ ((s.calls x).push ⟨s.callsCreated, true⟩)).goto
          (.caller (s.caller x)) p)
  | unlocked {x : Nat} (hidle : s.phase (.caller (s.caller x)) = .idle) (hopen : 1 < s.isOpen x) :
      ClientStep isPassive s (.sessionClose x) (s.setOpen x (s.isOpen x - 1))
  | freed {x : Nat} (hidle : s.phase (.caller (s.caller x)) = .idle) (hopen : s.isOpen x = 1)
      (hnew : s.isSubmitted x = false) :
      ClientStep isPassive s (.sessionClose x)
        { (s.setOpen x 0).unlink x with
          isFreed := update s.isFreed x true
          log := s.log ++ [.closed x] }
  | closed {x : Nat} {p : ScoopPhase R} (hidle : s.phase (.caller (s.caller x)) = .idle)
      (hopen : s.isOpen x = 1) (hold : s.isSubmitted x = true)
      (hafter : AfterClose isPassive s x p) :
      ClientStep isPassive s (.sessionClose x)
        ((((s.setOpen x 0).unlink x).record [.closed x]).goto (.caller (s.caller x)) p)

/-- What a thread can do in a phase. -/
inductive ThreadStep (isPassive : R → Bool) (s : Scoop R) (a : ScoopAgent R) :
    ScoopPhase R → Scoop R → Prop where
  | counted {x : Nat} (hsingle : s.isMultisession x = false) :
      ThreadStep isPassive s a (.submitting x) (s.countSession a x)
  | submittedAll {x : Nat} (hmulti : s.multisessionsMutex = none)
      (hfree : ∀ y ∈ x :: s.siblings x, s.mutex (s.callee y) = none) :
      ThreadStep isPassive s a (.submitting x)
        { s with
          toScoopSessions := s.submitAll (x :: s.siblings x)
          sessionsCount := (s.sessionsCount + (x :: s.siblings x).length) % 2 ^ 32
          log := s.log ++ (x :: s.siblings x).flatMap fun y => [.counted y, .submitted y]
          phase := update s.phase a .idle }
  | submitted {x : Nat} (hfree : s.mutex (s.callee x) = none) :
      ThreadStep isPassive s a (.adding x)
        { s with
          toScoopSessions := s.submit x
          log := s.log ++ [.submitted x]
          phase := update s.phase a
            (if isPassive (s.callee x) then .wakeup (s.callee x) else .idle) }
  | rested {r : R} {p : ScoopPhase R} (hp : p = .wakeup r ∨ p = .promoted r)
      (hfree : s.mutex r = none)
      (hwait : ∀ x, s.firstSession r = some x → s.mustWait x = true) :
      ThreadStep isPassive s a p (s.goto a .idle)
  | waited {r : R} {x : Nat} (hfree : s.mutex r = none) (hfirst : s.firstSession r = some x)
      (hwait : s.mustWait x = true) : ThreadStep isPassive s a (.wakeup r) (s.goto a (.promote r))
  | ran {r : R} {x : Nat} {p : ScoopPhase R} (hp : p = .wakeup r ∨ p = .promoted r)
      (hfree : s.mutex r = none) (hfirst : s.firstSession r = some x)
      (hready : s.mustWait x = false) : ThreadStep isPassive s a p (s.runSession a x)
  | locked {r : R} (hmulti : s.multisessionsMutex = none) (hfree : s.mutex r = none) :
      ThreadStep isPassive s a (.promote r)
        { s with
          multisessionsMutex := some a
          mutex := update s.mutex r (some a)
          phase := update s.phase a (.promoting r (s.firstSession r)) }
  | gaveUp {r : R} : ThreadStep isPassive s a (.promoting r none) (s.unlock a r s.toScoopSessions)
  | promoted {r : R} {x : Nat} {m : ScoopSessions R} (hready : s.mustWait x = false)
      (hpromote : s.promote x = some m) :
      ThreadStep isPassive s a (.promoting r (some x)) (s.unlock a r m)
  | promotedAll {r : R} {x : Nat} {m : ScoopSessions R} (hwait : s.mustWait x = true)
      (hfree : ∀ y ∈ s.siblings x, s.mutex (s.callee y) = none)
      (hready : s.areReady (s.siblings x) = some true)
      (hpromote : s.promoteAll (x :: s.siblings x) = some m) :
      ThreadStep isPassive s a (.promoting r (some x)) (s.unlock a r m)
  | passed {r : R} {x : Nat} (hwait : s.mustWait x = true)
      (hbusy : s.areReady (s.siblings x) = some false) :
      ThreadStep isPassive s a (.promoting r (some x)) (s.goto a (.promoting r (s.next x)))
  | popped {x : Nat} {c : ScoopCall} (hfirst : (s.calls x).firstCall = some c) :
      ThreadStep isPassive s a (.execute x)
        { s with
          calls := update s.calls x ((s.calls x).pop c)
          phase := update s.phase a (.call x c) }
  | stayed {x : Nat} : ThreadStep isPassive s a (.execute x) s
  | ended {x : Nat} (hempty : (s.calls x).firstCall = none) (hclosed : s.isOpen x = 0)
      (hactive : isPassive (s.callee x) = false) :
      ThreadStep isPassive s a (.execute x) (s.goto a (.remove x))
  | left {x : Nat} (hempty : (s.calls x).firstCall = none)
      (hpassive : isPassive (s.callee x) = true) :
      ThreadStep isPassive s a (.execute x) (s.goto a (.executed x))
  | performed {x : Nat} {c : ScoopCall} :
      ThreadStep isPassive s a (.call x c) ((s.record [.executed x c]).goto a (.execute x))
  | foundClosed {x : Nat} (hclosed : s.isOpen x = 0) :
      ThreadStep isPassive s a (.executed x) (s.goto a (.remove x))
  | foundOpen {x : Nat} (hopen : 0 < s.isOpen x) :
      ThreadStep isPassive s a (.executed x) (s.goto a .idle)
  | removed {x : Nat} (hfree : s.mutex (s.callee x) = none) :
      ThreadStep isPassive s a (.remove x)
        { s with
          toScoopSessions := s.remove x
          log := s.log ++ [.removed x]
          phase := update s.phase a (.decrement x) }
  | uncounted {x : Nat} :
      ThreadStep isPassive s a (.decrement x) (s.uncountSession isPassive a x)

/-- What a section can do. -/
inductive Transition (isPassive : R → Bool) (s : Scoop R) : ScoopAction R → Scoop R → Prop where
  | client {action : ScoopAction R} {t : Scoop R} (h : ClientStep isPassive s action t) :
      Transition isPassive s action t
  | started {a : ScoopAgent R} {r : R} (hidle : s.phase a = .idle)
      (hserves : serves isPassive r a = true) :
        Transition isPassive s (.start a r) (s.goto a (.wakeup r))
  | proceeded {a : ScoopAgent R} {t : Scoop R} (h : ThreadStep isPassive s a (s.phase a) t) :
      Transition isPassive s (.proceed a) t

section

variable {isPassive : R → Bool} {s t : Scoop R} {a : ScoopAgent R} {x : Nat} {r : R}
  {p : ScoopPhase R}

omit [DecidableEq R] in
theorem afterCall_cases (h : s.afterCall isPassive x = some p) : AfterCall isPassive s x p := by
  rw [afterCall] at h
  split at h
  case isTrue hold =>
      obtain rfl := some.inj h
      split
      case isTrue hpassive => exact .wakeup hold hpassive
      case isFalse hactive => exact .idle hold (Bool.eq_false_iff.mpr hactive)
  case isFalse hnew =>
      split at h
      case isTrue hlocked =>
          obtain rfl := some.inj h
          exact .submitting (Bool.eq_false_iff.mpr hnew) (List.all_eq_true.mp hlocked)
      case isFalse => exact nomatch h

theorem asClient_eq_some {u : Option (Scoop R)} (h : s.asClient r u = some t) :
    s.phase (.caller r) = .idle ∧ u = some t := by
  rw [asClient] at h
  split at h
  case isTrue hidle => exact ⟨hidle, h⟩
  case isFalse => exact nomatch h

theorem sessionOpen_cases {caller callee : R} {sibling : Option Nat}
    (hidle : s.phase (.caller caller) = .idle)
    (h : s.sessionOpen caller callee sibling = some t) :
    ClientStep isPassive s (.sessionOpen caller callee sibling) t := by
  rw [sessionOpen] at h
  split at h
  case isTrue =>
      obtain rfl := some.inj h
      exact .nothing
  case isFalse hne =>
      split at h
      case h_1 x hlocked =>
          obtain rfl := some.inj h
          rw [lockedSession] at hlocked
          have hfound := List.find?_some hlocked
          obtain ⟨hcaller, -, hopen⟩ := of_decide_eq_true hfound
          exact .locked (hcaller ▸ hidle) hopen hlocked
      case h_2 hlocked =>
          split at h
          case isTrue hsibling =>
              obtain rfl := some.inj h
              refine .opened hidle hne hlocked fun a ha => ?_
              rw [ha] at hsibling
              exact hsibling
          case isFalse => exact nomatch h

theorem sessionClose_cases (hidle : s.phase (.caller (s.caller x)) = .idle) :
    ClientStep isPassive s (.sessionClose x) (s.sessionClose isPassive x) := by
  have hset : ∀ n, (s.setOpen x n).isOpen x = n := fun n => update_self _ _ _
  rw [sessionClose]
  split
  case isTrue => exact .nothing
  case isFalse hopen =>
      simp only [hset]
      split
      case isTrue hmore => exact .unlocked hidle (by omega)
      case isFalse hlast =>
          have hone : s.isOpen x = 1 := by omega
          rw [hone, Nat.sub_self]
          split
          case isTrue hnew => exact .freed hidle hone hnew
          case isFalse hold =>
              refine .closed hidle hone (Bool.not_eq_false _ ▸ hold) ?_
              split
              case isTrue hpassive =>
                  split
                  case isTrue hempty => exact .remove hpassive hempty
                  case isFalse => exact .wakeup hpassive
              case isFalse hactive => exact .idle (Bool.eq_false_iff.mpr hactive)

theorem start_cases (h : s.start isPassive a r = some t) :
    Transition isPassive s (.start a r) t := by
  rw [start] at h
  split at h
  case isTrue hallowed =>
      obtain rfl := some.inj h
      exact .started hallowed.2.1 hallowed.1
  case isFalse => exact nomatch h

theorem addMultisession_cases (h : s.addMultisession a x = some t) :
    ThreadStep isPassive s a (.submitting x) t := by
  rw [addMultisession] at h
  split at h
  case isTrue hfree =>
      obtain rfl := some.inj h
      refine .submittedAll hfree.1 fun y hy => ?_
      exact of_decide_eq_true (List.all_eq_true.mp hfree.2 y hy)
  case isFalse => exact nomatch h

theorem wakeup_cases (h : s.wakeup a r = some t) : ThreadStep isPassive s a (.wakeup r) t := by
  rw [wakeup] at h
  split at h
  case isTrue hfree =>
      obtain rfl := some.inj h
      split
      case h_1 x hfirst =>
          split
          case isTrue hwait => exact .waited hfree hfirst hwait
          case isFalse hready =>
              exact .ran (Or.inl rfl) hfree hfirst (Bool.eq_false_iff.mpr hready)
      case h_2 hnone =>
          refine .rested (Or.inl rfl) hfree fun x hx => ?_
          exact nomatch hnone.symm.trans hx
  case isFalse => exact nomatch h

theorem lock_cases (h : s.lock a r = some t) : ThreadStep isPassive s a (.promote r) t := by
  rw [lock] at h
  split at h
  case isTrue hfree =>
      obtain rfl := some.inj h
      exact .locked hfree.1 hfree.2
  case isFalse => exact nomatch h

theorem promoteCandidate_cases (h : s.promoteCandidate a r x = some t) :
    ThreadStep isPassive s a (.promoting r (some x)) t := by
  rw [promoteCandidate] at h
  split at h
  case isTrue hwait =>
      split at h
      case isTrue hfree =>
          obtain ⟨ready, hready, h⟩ := bind_eq_some_iff.mp h
          split at h
          case isTrue heq =>
              obtain ⟨m, hm, rfl⟩ := map_eq_some_iff.mp h
              refine .promotedAll hwait (fun y hy => ?_) (heq ▸ hready) hm
              exact of_decide_eq_true (List.all_eq_true.mp hfree y hy)
          case isFalse heq =>
              obtain rfl := some.inj h
              exact .passed hwait (Bool.eq_false_iff.mpr heq ▸ hready)
      case isFalse => exact nomatch h
  case isFalse hready =>
      obtain ⟨m, hm, rfl⟩ := map_eq_some_iff.mp h
      exact .promoted (Bool.eq_false_iff.mpr hready) hm

theorem afterPromotion_cases (h : s.afterPromotion isPassive a r = some t) :
    ThreadStep isPassive s a (.promoted r) t := by
  rw [afterPromotion] at h
  split at h
  case isTrue hfree =>
      split at h
      case h_1 x hfirst =>
          obtain rfl := some.inj h
          split
          case isTrue hwait =>
              refine .rested (Or.inr rfl) hfree fun y hy => ?_
              obtain rfl := some.inj (hfirst.symm.trans hy)
              exact hwait
          case isFalse hready =>
              exact .ran (Or.inr rfl) hfree hfirst (Bool.eq_false_iff.mpr hready)
      case h_2 hnone =>
          split at h
          case isTrue =>
              obtain rfl := some.inj h
              refine .rested (Or.inr rfl) hfree fun x hx => ?_
              exact nomatch hnone.symm.trans hx
          case isFalse => exact nomatch h
  case isFalse => exact nomatch h

theorem execute_cases : ThreadStep isPassive s a (.execute x) (s.execute isPassive a x) := by
  rw [execute]
  split
  case h_1 c hfirst => exact .popped hfirst
  case h_2 hempty =>
      split
      case isTrue => exact .stayed
      case isFalse hover =>
          split
          case isTrue hpassive => exact .left hempty hpassive
          case isFalse hactive =>
              have hactive := Bool.eq_false_iff.mpr hactive
              refine .ended hempty ?_ hactive
              exact Nat.eq_zero_of_not_pos fun hopen => hover ⟨hopen, hactive⟩

/-- A thread takes the step of its phase. -/
theorem proceed_cases (h : s.proceed isPassive a = some t) :
    ThreadStep isPassive s a (s.phase a) t := by
  rw [proceed] at h
  split at h
  case h_1 => exact nomatch h
  case h_2 x hphase =>
      rw [hphase]
      split at h
      case isTrue => exact addMultisession_cases h
      case isFalse hsingle =>
          obtain rfl := some.inj h
          exact .counted (Bool.eq_false_iff.mpr hsingle)
  case h_3 x hphase =>
      rw [hphase]
      rw [addSingleSession] at h
      split at h
      case isTrue hfree =>
          obtain rfl := some.inj h
          exact .submitted hfree
      case isFalse => exact nomatch h
  case h_4 r hphase => exact hphase ▸ wakeup_cases h
  case h_5 r hphase => exact hphase ▸ lock_cases h
  case h_6 r hphase =>
      obtain rfl := some.inj h
      rw [hphase]
      exact .gaveUp
  case h_7 r x hphase => exact hphase ▸ promoteCandidate_cases h
  case h_8 r hphase => exact hphase ▸ afterPromotion_cases h
  case h_9 x hphase =>
      obtain rfl := some.inj h
      rw [hphase]
      exact execute_cases
  case h_10 x c hphase =>
      obtain rfl := some.inj h
      rw [hphase]
      exact .performed
  case h_11 x hphase =>
      obtain rfl := some.inj h
      rw [hphase]
      split
      case isTrue hclosed => exact .foundClosed hclosed
      case isFalse hopen => exact .foundOpen (Nat.pos_of_ne_zero hopen)
  case h_12 x hphase =>
      rw [hphase]
      rw [removeSession] at h
      split at h
      case isTrue hfree =>
          obtain rfl := some.inj h
          exact .removed hfree
      case isFalse => exact nomatch h
  case h_13 x hphase =>
      obtain rfl := some.inj h
      rw [hphase]
      exact .uncounted

theorem step_cases {action : ScoopAction R} (h : step isPassive s action = some t) :
    Transition isPassive s action t := by
  cases action with
  | rootCreated =>
      obtain ⟨hidle, h⟩ := asClient_eq_some h
      rw [rootCreated] at h
      split at h
      case isTrue => exact nomatch h
      case isFalse hroot =>
          obtain rfl := some.inj h
          exact .client (.rooted hidle (Bool.eq_false_iff.mpr hroot))
  | sessionOpen caller callee sibling =>
      obtain ⟨hidle, h⟩ := asClient_eq_some h
      exact .client (sessionOpen_cases hidle h)
  | passLock x =>
      obtain ⟨hidle, h⟩ := asClient_eq_some h
      rw [passLock] at h
      split at h
      case isTrue hopen =>
          obtain rfl := some.inj h
          exact .client (.locked hidle hopen rfl)
      case isFalse => exact nomatch h
  | sessionAddCall x =>
      obtain ⟨hidle, h⟩ := asClient_eq_some h
      rw [sessionAddCall] at h
      split at h
      case isTrue hopen =>
          obtain ⟨p, hp, rfl⟩ := map_eq_some_iff.mp h
          exact .client (.added hidle hopen (afterCall_cases hp))
      case isFalse => exact nomatch h
  | sessionAddRunningCall x =>
      obtain ⟨hidle, h⟩ := asClient_eq_some h
      rw [sessionAddRunningCall] at h
      split at h
      case isTrue hopen =>
          split at h
          case isTrue =>
              obtain rfl := some.inj h
              exact .client .nothing
          case isFalse hwaiting =>
              obtain ⟨p, hp, rfl⟩ := map_eq_some_iff.mp h
              exact .client
                (.pushed hidle hopen.1 (Bool.eq_false_iff.mpr hwaiting) (afterCall_cases hp))
      case isFalse => exact nomatch h
  | sessionClose x =>
      obtain ⟨hidle, h⟩ := asClient_eq_some h
      obtain rfl := some.inj h
      exact .client (sessionClose_cases hidle)
  | start a r => exact start_cases h
  | proceed a => exact .proceeded (proceed_cases h)

end

end Scoop

end Gobo
