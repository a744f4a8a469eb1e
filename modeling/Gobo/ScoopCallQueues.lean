/-
The calls of sessions in any run of the SCOOP runtime: each call is executed, being
executed, or in the queue of its session, and there are none for a closed session.
-/
import Gobo.ScoopReservation

namespace Gobo

open Option List Function

namespace Scoop

variable {R : Type} [DecidableEq R]

/-- Why something happens. -/
inductive Caused (s : Scoop R) : ScoopAction R → ScoopEvent → Prop where
  | counted {a : ScoopAgent R} {x : Nat}
      (hphase : ∃ y, s.phase a = .submitting y ∧ x ∈ y :: s.siblings y) :
      Caused s (.proceed a) (.counted x)
  | submitted {a : ScoopAgent R} {x : Nat}
      (hphase : s.phase a = .adding x ∨ ∃ y, s.phase a = .submitting y ∧ x ∈ y :: s.siblings y) :
      Caused s (.proceed a) (.submitted x)
  | added {action : ScoopAction R} {x : Nat} {c : ScoopCall} (hlocked : s.isLocked x = true)
      (hnew : c.id = s.callsCreated) : Caused s action (.added x c)
  | executed {a : ScoopAgent R} {x : Nat} {c : ScoopCall} (hphase : s.phase a = .call x c) :
      Caused s (.proceed a) (.executed x c)
  | closed {x : Nat} (hopen : s.isOpen x = 1) : Caused s (.sessionClose x) (.closed x)
  | removed {a : ScoopAgent R} {x : Nat} (hphase : s.phase a = .remove x) :
      Caused s (.proceed a) (.removed x)
  | uncounted {a : ScoopAgent R} {x : Nat} (hphase : s.phase a = .decrement x) :
      Caused s (.proceed a) (.uncounted x)

section

variable {isPassive : R → Bool} {s t : Scoop R} {a : ScoopAgent R} {p : ScoopPhase R} {x : Nat}
  {c : ScoopCall} {action : ScoopAction R}

/-- A step appends to the log what it causes. -/
theorem log_cases (h : step isPassive s action = some t) :
    ∃ es, t.log = s.log ++ es ∧ (∀ e ∈ es, Caused s action e) ∧
      ∀ e ∈ es, es = [e] ∨ ∃ x, e = .counted x ∨ e = .submitted x := by
  have hnone : ∀ {u : Scoop R}, u.log = s.log →
      ∃ es, u.log = s.log ++ es ∧ (∀ e ∈ es, Caused s action e) ∧
        ∀ e ∈ es, es = [e] ∨ ∃ x, e = .counted x ∨ e = .submitted x :=
    fun hlog => ⟨[], hlog.trans (append_nil _).symm, fun e he => absurd he not_mem_nil,
      fun e he => absurd he not_mem_nil⟩
  have hone : ∀ {u : Scoop R} {e : ScoopEvent}, u.log = s.log ++ [e] → Caused s action e →
      ∃ es, u.log = s.log ++ es ∧ (∀ e ∈ es, Caused s action e) ∧
        ∀ e ∈ es, es = [e] ∨ ∃ x, e = .counted x ∨ e = .submitted x :=
    fun hlog hcaused => ⟨_, hlog, forall_mem_singleton.mpr hcaused,
      forall_mem_singleton.mpr (Or.inl rfl)⟩
  cases step_cases h with
  | client h =>
      cases h with
      | added hidle hlocked hafter =>
          exact hone rfl (.added hlocked rfl)
      | pushed hidle hlocked hwaiting hafter =>
          exact hone rfl (.added hlocked rfl)
      | freed hidle hopen hnew => exact hone rfl (.closed hopen)
      | closed hidle hopen hold hafter =>
          exact hone rfl (.closed hopen)
      | nothing => exact hnone rfl
      | rooted => exact hnone rfl
      | opened => exact hnone rfl
      | locked => exact hnone rfl
      | unlocked => exact hnone rfl
  | started => exact hnone rfl
  | @proceeded a _ h =>
      generalize hphase : s.phase a = p at h
      cases h with
      | counted =>
          exact hone rfl (.counted ⟨_, hphase, mem_cons_self⟩)
      | @submittedAll x hmulti hfree =>
          refine ⟨_, rfl, fun e he => ?_, fun e he => Or.inr ?_⟩
          · obtain ⟨y, hy, he⟩ := mem_flatMap.mp he
            rcases mem_cons.mp he with rfl | he
            · exact .counted ⟨x, hphase, hy⟩
            · rw [mem_singleton.mp he]
              exact .submitted (Or.inr ⟨x, hphase, hy⟩)
          · obtain ⟨y, -, he⟩ := mem_flatMap.mp he
            rcases mem_cons.mp he with rfl | he
            · exact ⟨y, Or.inl rfl⟩
            · exact ⟨y, Or.inr (mem_singleton.mp he)⟩
      | submitted => exact hone rfl (.submitted (Or.inl hphase))
      | performed => exact hone rfl (.executed hphase)
      | removed => exact hone rfl (.removed hphase)
      | uncounted => exact hone rfl (.uncounted hphase)
      | rested => exact hnone rfl
      | waited => exact hnone rfl
      | ran => exact hnone rfl
      | locked => exact hnone rfl
      | gaveUp => exact hnone rfl
      | promoted => exact hnone rfl
      | promotedAll => exact hnone rfl
      | passed => exact hnone rfl
      | popped => exact hnone rfl
      | stayed => exact hnone rfl
      | ended => exact hnone rfl
      | left => exact hnone rfl
      | foundClosed => exact hnone rfl
      | foundOpen => exact hnone rfl

/-- A session that is not locked stays so, and gets no call. -/
theorem unlocked_step (h : step isPassive s action = some t) (hx : x < s.created)
    (hunlocked : s.isLocked x = false) :
    t.isLocked x = false ∧ ((s.calls x).firstCall = none → t.calls x = s.calls x) := by
  have hunlink : ∀ y, update s.isLocked y false x = false := by
    intro y
    by_cases hxy : x = y
    · rw [hxy, update_self]
    · rw [update_of_ne hxy, hunlocked]
  have hcalls : ∀ {y : Nat} {q : CallQueue}, s.isLocked y = true →
      update s.calls y q x = s.calls x := by
    intro y q hy
    have hxy : x ≠ y := by
      rintro rfl
      exact absurd (hy.symm.trans hunlocked) (by simp)
    exact update_of_ne hxy _ _
  cases step_cases h with
  | client h =>
      cases h with
      | opened =>
          have hne := Nat.ne_of_lt hx
          exact ⟨(update_of_ne hne _ _).trans hunlocked,
            fun _ => update_of_ne hne _ _⟩
      | added hidle hlocked hafter => exact ⟨hunlocked, fun _ => hcalls hlocked⟩
      | pushed hidle hlocked hwaiting hafter => exact ⟨hunlocked, fun _ => hcalls hlocked⟩
      | freed hidle hopen hnew => exact ⟨hunlink _, fun _ => rfl⟩
      | closed hidle hopen hold hafter => exact ⟨hunlink _, fun _ => rfl⟩
      | nothing => exact ⟨hunlocked, fun _ => rfl⟩
      | rooted => exact ⟨hunlocked, fun _ => rfl⟩
      | locked => exact ⟨hunlocked, fun _ => rfl⟩
      | unlocked => exact ⟨hunlocked, fun _ => rfl⟩
  | started => exact ⟨hunlocked, fun _ => rfl⟩
  | proceeded h =>
      generalize s.phase _ = p at h
      cases h with
      | @popped y c hfirst =>
          refine ⟨hunlocked, fun hempty => update_of_ne ?_ _ _⟩
          rintro rfl
          exact nomatch hempty.symm.trans hfirst
      | counted => exact ⟨hunlocked, fun _ => rfl⟩
      | submittedAll => exact ⟨hunlocked, fun _ => rfl⟩
      | submitted => exact ⟨hunlocked, fun _ => rfl⟩
      | rested => exact ⟨hunlocked, fun _ => rfl⟩
      | waited => exact ⟨hunlocked, fun _ => rfl⟩
      | ran => exact ⟨hunlocked, fun _ => rfl⟩
      | locked => exact ⟨hunlocked, fun _ => rfl⟩
      | gaveUp => exact ⟨hunlocked, fun _ => rfl⟩
      | promoted => exact ⟨hunlocked, fun _ => rfl⟩
      | promotedAll => exact ⟨hunlocked, fun _ => rfl⟩
      | passed => exact ⟨hunlocked, fun _ => rfl⟩
      | stayed => exact ⟨hunlocked, fun _ => rfl⟩
      | ended => exact ⟨hunlocked, fun _ => rfl⟩
      | left => exact ⟨hunlocked, fun _ => rfl⟩
      | performed => exact ⟨hunlocked, fun _ => rfl⟩
      | foundClosed => exact ⟨hunlocked, fun _ => rfl⟩
      | foundOpen => exact ⟨hunlocked, fun _ => rfl⟩
      | removed => exact ⟨hunlocked, fun _ => rfl⟩
      | uncounted => exact ⟨hunlocked, fun _ => rfl⟩

/-- The session that a thread runs or removes. -/
def session : ScoopPhase R → Option Nat
  | .execute x => some x
  | .call x _ => some x
  | .executed x => some x
  | .remove x => some x
  | .decrement x => some x
  | _ => none

/-- How a thread comes to a phase in which it runs or removes a session. -/
inductive Enters (isPassive : R → Bool) (s t : Scoop R) :
    ScoopAction R → ScoopAgent R → ScoopPhase R → Prop where
  | kept {action : ScoopAction R} {b : ScoopAgent R} : Enters isPassive s t action b (s.phase b)
  | elsewhere {action : ScoopAction R} {b : ScoopAgent R} {p : ScoopPhase R}
      (hp : session p = none) : Enters isPassive s t action b p
  | ran {b : ScoopAgent R} {x : Nat} (hfirst : s.firstSession (s.callee x) = some x)
      (hrun : t.toScoopSessions = s.run x) :
      Enters isPassive s t (.proceed b) b (.execute x)
  | performed {b : ScoopAgent R} {x : Nat} {c : ScoopCall} (hb : s.phase b = .call x c) :
      Enters isPassive s t (.proceed b) b (.execute x)
  | popped {b : ScoopAgent R} {x : Nat} {c : ScoopCall} (hb : s.phase b = .execute x)
      (hfirst : (s.calls x).firstCall = some c) : Enters isPassive s t (.proceed b) b (.call x c)
  | left {b : ScoopAgent R} {x : Nat} (hb : s.phase b = .execute x)
      (hempty : (s.calls x).firstCall = none) (hpassive : isPassive (s.callee x) = true) :
      Enters isPassive s t (.proceed b) b (.executed x)
  | ended {b : ScoopAgent R} {x : Nat} (hb : s.phase b = .execute x)
      (hempty : (s.calls x).firstCall = none) (hclosed : s.isOpen x = 0)
      (hactive : isPassive (s.callee x) = false) : Enters isPassive s t (.proceed b) b (.remove x)
  | foundClosed {b : ScoopAgent R} {x : Nat} (hb : s.phase b = .executed x)
      (hclosed : s.isOpen x = 0) : Enters isPassive s t (.proceed b) b (.remove x)
  | closing {x : Nat} (hopen : s.isOpen x = 1) (hold : s.isSubmitted x = true)
      (hpassive : isPassive (s.callee x) = true) (hempty : (s.calls x).firstCall = none) :
      Enters isPassive s t (.sessionClose x) (.caller (s.caller x)) (.remove x)
  | removed {b : ScoopAgent R} {x : Nat} (hb : s.phase b = .remove x) :
      Enters isPassive s t (.proceed b) b (.decrement x)

theorem enters (hs : s.Sound isPassive) (h : step isPassive s action = some t)
    (b : ScoopAgent R) : Enters isPassive s t action b (t.phase b) := by
  -- Only the thread that takes the step gets a new phase.
  have hgoto : ∀ {a : ScoopAgent R} {p : ScoopPhase R}, Enters isPassive s t action a p →
      Enters isPassive s t action b (update s.phase a p b) := by
    intro a p hp
    by_cases hba : b = a
    · rw [hba, update_self]
      exact hp
    · rw [update_of_ne hba]
      exact .kept
  cases step_cases h with
  | client h =>
      cases h with
      | nothing => exact .kept
      | rooted => exact .kept
      | opened => exact .kept
      | locked => exact .kept
      | unlocked => exact .kept
      | freed => exact .kept
      | added hidle hopen hafter =>
          refine hgoto (.elsewhere ?_)
          cases hafter <;> rfl
      | pushed hidle hopen hwaiting hafter =>
          refine hgoto (.elsewhere ?_)
          cases hafter <;> rfl
      | closed hidle hopen hold hafter =>
          refine hgoto ?_
          cases hafter with
          | remove hpassive hempty => exact .closing hopen hold hpassive hempty
          | wakeup => exact .elsewhere rfl
          | idle => exact .elsewhere rfl
  | started => exact hgoto (.elsewhere rfl)
  | @proceeded a _ h =>
      generalize hphase : s.phase a = p at h
      cases h with
      | counted => exact hgoto (.elsewhere rfl)
      | submittedAll => exact hgoto (.elsewhere rfl)
      | submitted =>
          refine hgoto (.elsewhere ?_)
          split <;> rfl
      | rested => exact hgoto (.elsewhere rfl)
      | waited => exact hgoto (.elsewhere rfl)
      | ran hp hfree hfirst hready =>
          exact hgoto (.ran ((hs.typed.first hfirst).1 ▸ hfirst) rfl)
      | locked => exact hgoto (.elsewhere rfl)
      | gaveUp => exact hgoto (.elsewhere rfl)
      | promoted => exact hgoto (.elsewhere rfl)
      | promotedAll => exact hgoto (.elsewhere rfl)
      | passed => exact hgoto (.elsewhere rfl)
      | popped hfirst => exact hgoto (.popped hphase hfirst)
      | stayed => exact .kept
      | ended hempty hclosed hactive =>
          exact hgoto (.ended hphase hempty hclosed hactive)
      | left hempty hpassive => exact hgoto (.left hphase hempty hpassive)
      | performed => exact hgoto (.performed hphase)
      | foundClosed hclosed => exact hgoto (.foundClosed hphase hclosed)
      | foundOpen => exact hgoto (.elsewhere rfl)
      | removed => exact hgoto (.removed hphase)
      | uncounted =>
          refine hgoto (.elsewhere ?_)
          split <;> rfl

theorem isLocked_sessionClose (h : step isPassive s (.sessionClose x) = some t)
    (hopen : s.isOpen x = 1) : t.isLocked x = false := by
  obtain ⟨-, h⟩ := asClient_eq_some h
  obtain rfl := some.inj h
  have hset : (s.setOpen x (s.isOpen x - 1)).isOpen x = 0 := by
    rw [hopen]
    exact update_self _ _ _
  have hne : ¬s.isOpen x = 0 := by omega
  rw [sessionClose, if_neg hne, if_neg (not_not_intro hset)]
  split
  case isTrue => exact update_self _ _ _
  case isFalse => exact update_self _ _ _

/-- How a session gets freed. -/
theorem SessionStep.freed_cases {m : ScoopSessions R} (hs : s.Sound isPassive)
    (h : SessionStep s action m) (hx : x < m.created) (hfreed : m.isFreed x = true) :
    x < s.created ∧ (s.isFreed x = true ∨ m.isSubmitted x = false ∨
      ∃ a, action = .proceed a ∧ s.phase a = .remove x) := by
  cases h with
  | same => exact ⟨hx, Or.inl hfreed⟩
  | opened =>
      have hne : x ≠ s.created := by
        rintro rfl
        exact absurd ((update_self _ _ _).symm.trans hfreed) (by simp)
      refine ⟨Nat.lt_of_le_of_ne (Nat.le_of_lt_succ hx) hne, Or.inl ?_⟩
      exact (update_of_ne hne _ _).symm.trans hfreed
  | @freed y hnew =>
      refine ⟨hx, ?_⟩
      by_cases hxy : x = y
      · subst hxy
        exact Or.inr (Or.inl hnew)
      · exact Or.inl ((update_of_ne hxy _ _).symm.trans hfreed)
  | submitted hnodup hfresh =>
      have hall := hs.typed.submitAll fun y hy => (hfresh y hy).1
      rw [hall.created] at hx
      rw [hall.isFreed] at hfreed
      exact ⟨hx, Or.inl hfreed⟩
  | ran => exact ⟨hx, Or.inl hfreed⟩
  | promoted ha hpromote =>
      have hall := hs.typed.promoteAll (hs.promotes ha).1 hpromote
      rw [hall.created] at hx
      rw [hall.isFreed] at hfreed
      exact ⟨hx, Or.inl hfreed⟩
  | @removed a y ha hsubmitted =>
      rw [ScoopSessions.remove_eq] at hx hfreed
      refine ⟨hx, ?_⟩
      by_cases hxy : x = y
      · subst hxy
        exact Or.inr (Or.inr ⟨a, rfl, ha⟩)
      · exact Or.inl ((update_of_ne hxy _ _).symm.trans hfreed)

theorem Sound.created_of_session (hs : s.Sound isPassive) (ha : session (s.phase a) = some x) :
    s.isSubmitted x = true ∧ x < s.created := by
  suffices hsubmitted : s.isSubmitted x = true from ⟨hsubmitted, hs.typed.created hsubmitted⟩
  have hphase := hs.phases a
  generalize s.phase a = p at ha hphase
  cases p with
  | execute y => exact some.inj ha ▸ hphase.submitted
  | call y c => exact some.inj ha ▸ hphase.submitted
  | executed y => exact some.inj ha ▸ hphase.1.submitted
  | remove y => exact some.inj ha ▸ hphase.submitted
  | decrement y => exact some.inj ha ▸ hphase.submitted
  | idle => exact nomatch ha
  | submitting y => exact nomatch ha
  | adding y => exact nomatch ha
  | wakeup r => exact nomatch ha
  | promote r => exact nomatch ha
  | promoting r c => exact nomatch ha
  | promoted r => exact nomatch ha

/-- The session that a thread removes. -/
def removedSession : ScoopPhase R → Option Nat
  | .remove x => some x
  | .decrement x => some x
  | _ => none

omit [DecidableEq R] in
theorem session_of_removed {p : ScoopPhase R} (hp : removedSession p = some x) :
    session p = some x := by
  cases p <;> first | exact hp | exact nomatch hp

/-- The locked sessions are open, and a session that is to be removed, or was removed, is
not one of them. -/
structure Closing (s : Scoop R) : Prop where
  locked : ∀ {x : Nat}, s.isLocked x = true → 0 < s.isOpen x
  phases : ∀ {a : ScoopAgent R} {x : Nat}, removedSession (s.phase a) = some x →
    s.isLocked x = false
  freed : ∀ {x : Nat}, x < s.created → s.isFreed x = true → s.isLocked x = false
  removed : ∀ {x : Nat}, .removed x ∈ s.log → x < s.created ∧ s.isLocked x = false

omit [DecidableEq R] in
theorem Closing.unlocked (hc : s.Closing) (hclosed : s.isOpen x = 0) : s.isLocked x = false := by
  rw [Bool.eq_false_iff]
  exact fun hlocked => Nat.ne_of_gt (hc.locked hlocked) hclosed

theorem Closing.locked_step (hc : s.Closing) (hok : s.OpensFit action)
    (h : step isPassive s action = some t) (hx : t.isLocked x = true) : 0 < t.isOpen x := by
  have hopen : ∀ {y n : Nat}, 0 < n → s.isLocked x = true →
      0 < update s.isOpen y n x := by
    intro y n hn hx
    rw [update_apply]
    split
    · exact hn
    · exact hc.locked hx
  have hclose : ∀ {y : Nat}, update s.isLocked y false x = true →
      0 < update s.isOpen y 0 x := by
    intro y hx
    have hxy : x ≠ y := by
      rintro rfl
      exact absurd ((update_self _ _ _).symm.trans hx) (by simp)
    rw [update_of_ne hxy] at hx ⊢
    exact hc.locked hx
  cases step_cases h with
  | client h =>
      cases h with
      | opened =>
          by_cases hnew : x = s.created
          · subst hnew
            exact Nat.lt_of_lt_of_eq Nat.one_pos
              (update_self s.created 1 s.isOpen).symm
          · refine Nat.lt_of_lt_of_eq (hc.locked ?_) (update_of_ne hnew _ _).symm
            exact (update_of_ne hnew _ _).symm.trans hx
      | locked hidle hlocked hincrements =>
          refine hopen ?_ hx
          rw [ScoopLocks.increment_eq (hok _ hincrements)]
          exact Nat.succ_pos _
      | unlocked hidle hmore => exact hopen (Nat.sub_pos_of_lt hmore) hx
      | freed => exact hclose hx
      | closed => exact hclose hx
      | nothing => exact hc.locked hx
      | rooted => exact hc.locked hx
      | added => exact hc.locked hx
      | pushed => exact hc.locked hx
  | started => exact hc.locked hx
  | proceeded h =>
      generalize s.phase _ = p at h
      cases h <;> exact hc.locked hx

theorem Closing.step (hc : s.Closing) (hs : s.Sound isPassive) (hok : s.OpensFit action)
    (h : step isPassive s action = some t) : t.Closing := by
  have ht := (step_cases h).sound hs
  have hlater := (session_cases hs h).later hs
  have hstays : ∀ {a : ScoopAgent R} {x : Nat}, session (s.phase a) = some x →
      s.isLocked x = false → t.isLocked x = false :=
    fun ha hunlocked => (unlocked_step h (hs.created_of_session ha).2 hunlocked).1
  refine ⟨hc.locked_step hok h, fun {a x} ha => ?_, fun {x} hx hfreed => ?_, fun {x} hx => ?_⟩
  · have hentered := enters hs h a
    generalize t.phase a = p at ha hentered
    cases hentered with
    | kept => exact hstays (session_of_removed ha) (hc.phases ha)
    | elsewhere hp => exact nomatch hp.symm.trans (session_of_removed ha)
    | ran => exact nomatch ha
    | performed => exact nomatch ha
    | popped => exact nomatch ha
    | left => exact nomatch ha
    | ended hb hempty hclosed hactive =>
        obtain rfl := some.inj ha
        exact hstays (congrArg session hb) (hc.unlocked hclosed)
    | foundClosed hb hclosed =>
        obtain rfl := some.inj ha
        exact hstays (congrArg session hb) (hc.unlocked hclosed)
    | closing hopen hold hpassive hempty =>
        obtain rfl := some.inj ha
        exact isLocked_sessionClose h hopen
    | removed hb =>
        obtain rfl := some.inj ha
        exact hstays (congrArg session hb) (hc.phases (congrArg removedSession hb))
  · obtain ⟨hcreated, hcases⟩ := (session_cases hs h).freed_cases hs hx hfreed
    rcases hcases with hold | hnew | ⟨a, -, ha⟩
    · exact (unlocked_step h hcreated (hc.freed hcreated hold)).1
    · exact ht.freedUnlocked hnew hfreed
    · exact hstays (congrArg session ha) (hc.phases (congrArg removedSession ha))
  · obtain ⟨es, hlog, hcaused, -⟩ := log_cases h
    rw [hlog] at hx
    rcases mem_append.mp hx with hx | hx
    · obtain ⟨hcreated, hunlocked⟩ := hc.removed hx
      exact ⟨Nat.lt_of_lt_of_le hcreated hlater.created, (unlocked_step h hcreated hunlocked).1⟩
    · cases hcaused _ hx with
      | removed ha =>
          have hcreated := (hs.created_of_session (congrArg session ha)).2
          refine ⟨Nat.lt_of_lt_of_le hcreated hlater.created, ?_⟩
          exact hstays (congrArg session ha) (hc.phases (congrArg removedSession ha))

omit [DecidableEq R] in
theorem closing_init (r : R) : (init r).Closing :=
  ⟨nofun, nofun, fun hx => absurd hx (Nat.not_lt_zero _), fun hx => absurd hx not_mem_nil⟩

/-- Is a call of a session added or executed? -/
def concerns (x : Nat) : ScoopEvent → Bool
  | .added y _ => y = x
  | .executed y _ => y = x
  | _ => false

/-- What a step does to the calls of a session. -/
inductive CallStep (s t : Scoop R) (x : Nat) : Prop where
  | kept (hcalls : t.calls x = s.calls x ∨ x = s.created ∧ t.calls x = CallQueue.empty)
      (es : List ScoopEvent) (hlog : t.log = s.log ++ es) (hnone : ∀ e ∈ es, concerns x e = false)
      (hcall : ∀ b c, t.phase b = .call x c ↔ s.phase b = .call x c)
  | added {c : ScoopCall} (hlocked : s.isLocked x = true) (hid : c.id = s.callsCreated)
      (hcreated : t.callsCreated = s.callsCreated + 1)
      (hcalls : t.calls x = (s.calls x).add c ∨
        t.calls x = (s.calls x).push c ∧ c.isRunningCall = true)
      (hlog : t.log = s.log ++ [.added x c])
      (hcall : ∀ b d, t.phase b = .call x d ↔ s.phase b = .call x d)
  | popped {a : ScoopAgent R} {c : ScoopCall} (ha : s.phase a = .execute x)
      (hfirst : (s.calls x).firstCall = some c) (hcalls : t.calls x = (s.calls x).pop c)
      (hlog : t.log = s.log) (hphase : t.phase = update s.phase a (.call x c))
  | performed {a : ScoopAgent R} {c : ScoopCall} (ha : s.phase a = .call x c)
      (hcalls : t.calls x = s.calls x) (hlog : t.log = s.log ++ [.executed x c])
      (hphase : t.phase = update s.phase a (.execute x))

theorem call_update_iff (ha : ∀ c, s.phase a ≠ .call x c) (hp : ∀ c, p ≠ .call x c)
    (b : ScoopAgent R) (c : ScoopCall) :
    update s.phase a p b = .call x c ↔ s.phase b = .call x c := by
  by_cases hba : b = a
  · subst hba
    rw [update_self]
    exact ⟨fun h => absurd h (hp c), fun h => absurd h (ha c)⟩
  · rw [update_of_ne hba]

/-- A thread other than those that execute calls of the session goes on. -/
theorem CallStep.goto (hcalls : t.calls x = s.calls x) (es : List ScoopEvent)
    (hlog : t.log = s.log ++ es) (hnone : ∀ e ∈ es, concerns x e = false)
    (hphase : t.phase = update s.phase a p) (ha : ∀ c, s.phase a ≠ .call x c)
    (hp : ∀ c, p ≠ .call x c) : CallStep s t x :=
  .kept (Or.inl hcalls) es hlog hnone fun b c => by rw [hphase, call_update_iff ha hp b c]

theorem ClientStep.calls (h : ClientStep isPassive s action t) (x : Nat) : CallStep s t x := by
  have hquiet : ∀ {u : Scoop R}, u.calls = s.calls → u.log = s.log → u.phase = s.phase →
      CallStep s u x := by
    intro u hcalls hlog hphase
    refine .kept (Or.inl (congrFun hcalls x)) [] (hlog.trans (append_nil _).symm)
      (fun e he => absurd he not_mem_nil) fun b c => by rw [hphase]
  have hidle : ∀ {y : Nat}, s.phase (.caller (s.caller y)) = .idle →
      ∀ c, s.phase (.caller (s.caller y)) ≠ .call x c := by
    intro y hidle c heq
    exact nomatch hidle.symm.trans heq
  have hafter : ∀ {y : Nat} {p : ScoopPhase R}, AfterCall isPassive s y p → ∀ c, p ≠ .call x c := by
    intro y p hafter c
    cases hafter <;> exact fun heq => nomatch heq
  have hother : ∀ {y : Nat} (q : CallQueue), x ≠ y → update s.calls y q x = s.calls x :=
    fun q hxy => update_of_ne hxy _ _
  cases h with
  | nothing => exact hquiet rfl rfl rfl
  | rooted => exact hquiet rfl rfl rfl
  | opened hfree hne hlocked hsibling =>
      refine .kept ?_ [] (append_nil _).symm (fun e he => absurd he not_mem_nil)
        fun _ _ => Iff.rfl
      by_cases hx : x = s.created
      · subst hx
        exact Or.inr ⟨rfl, update_self _ _ _⟩
      · exact Or.inl (update_of_ne hx _ _)
  | locked => exact hquiet rfl rfl rfl
  | @added _ y p hfree hlocked hp =>
      by_cases hxy : x = y
      · subst hxy
        exact .added hlocked rfl rfl (Or.inl (update_self _ _ _)) rfl
          (call_update_iff (hidle hfree) (hafter hp))
      · refine .goto (hother _ hxy) _ rfl (forall_mem_singleton.mpr ?_) rfl (hidle hfree)
          (hafter hp)
        exact decide_eq_false (Ne.symm hxy)
  | @pushed _ y p hfree hlocked hwaiting hp =>
      by_cases hxy : x = y
      · subst hxy
        exact .added hlocked rfl rfl (Or.inr ⟨update_self _ _ _, rfl⟩) rfl
          (call_update_iff (hidle hfree) (hafter hp))
      · refine .goto (hother _ hxy) _ rfl (forall_mem_singleton.mpr ?_) rfl (hidle hfree)
          (hafter hp)
        exact decide_eq_false (Ne.symm hxy)
  | unlocked => exact hquiet rfl rfl rfl
  | freed =>
      exact .kept (Or.inl rfl) _ rfl (forall_mem_singleton.mpr rfl) fun _ _ => Iff.rfl
  | closed hfree hopen hold hclose =>
      refine .goto rfl _ rfl (forall_mem_singleton.mpr rfl) rfl (hidle hfree) fun c => ?_
      cases hclose <;> exact fun heq => nomatch heq

theorem ThreadStep.calls (hphase : s.phase a = p) (h : ThreadStep isPassive s a p t) (x : Nat) :
    CallStep s t x := by
  have hquiet : ∀ {u : Scoop R} {q : ScoopPhase R}, u.calls = s.calls → u.log = s.log →
      u.phase = update s.phase a q → (∀ c, s.phase a ≠ .call x c) →
      (∀ c, q ≠ .call x c) → CallStep s u x := by
    intro u q hcalls hlog hgoto ha hq
    exact .goto (congrFun hcalls x) [] (hlog.trans (append_nil _).symm)
      (fun e he => absurd he not_mem_nil) hgoto ha hq
  have ha : (∀ c, p ≠ .call x c) → ∀ c, s.phase a ≠ .call x c := fun hp c => hphase ▸ hp c
  cases h with
  | counted =>
      exact .goto rfl _ rfl (forall_mem_singleton.mpr rfl) rfl
        (ha fun _ heq => nomatch heq) fun _ heq => nomatch heq
  | submittedAll =>
      refine .goto rfl _ rfl (fun e he => ?_) rfl (ha fun _ heq => nomatch heq) fun _ heq =>
        nomatch heq
      obtain ⟨y, -, he⟩ := mem_flatMap.mp he
      rcases mem_cons.mp he with rfl | he
      · rfl
      · rw [mem_singleton.mp he]
        rfl
  | submitted =>
      refine .goto rfl _ rfl (forall_mem_singleton.mpr rfl) rfl
        (ha fun _ heq => nomatch heq) fun _ heq => ?_
      split at heq <;> exact nomatch heq
  | rested hp =>
      refine hquiet rfl rfl rfl (ha ?_) fun _ heq => nomatch heq
      rcases hp with rfl | rfl <;> exact fun _ heq => nomatch heq
  | waited => exact hquiet rfl rfl rfl (ha fun _ heq => nomatch heq) fun _ heq => nomatch heq
  | ran hp =>
      refine hquiet rfl rfl rfl (ha ?_) fun _ heq => nomatch heq
      rcases hp with rfl | rfl <;> exact fun _ heq => nomatch heq
  | locked => exact hquiet rfl rfl rfl (ha fun _ heq => nomatch heq) fun _ heq => nomatch heq
  | gaveUp => exact hquiet rfl rfl rfl (ha fun _ heq => nomatch heq) fun _ heq => nomatch heq
  | promoted => exact hquiet rfl rfl rfl (ha fun _ heq => nomatch heq) fun _ heq => nomatch heq
  | promotedAll => exact hquiet rfl rfl rfl (ha fun _ heq => nomatch heq) fun _ heq => nomatch heq
  | passed => exact hquiet rfl rfl rfl (ha fun _ heq => nomatch heq) fun _ heq => nomatch heq
  | @popped y c hfirst =>
      by_cases hxy : x = y
      · subst hxy
        exact .popped hphase hfirst (update_self _ _ _) rfl rfl
      · refine .goto (update_of_ne hxy _ _) [] (append_nil _).symm
          (fun e he => absurd he not_mem_nil) rfl (ha fun _ heq => nomatch heq) fun d heq => ?_
        injection heq with hyx
        exact hxy hyx.symm
  | stayed =>
      exact .kept (Or.inl rfl) [] (append_nil _).symm (fun e he => absurd he not_mem_nil)
        fun _ _ => Iff.rfl
  | ended => exact hquiet rfl rfl rfl (ha fun _ heq => nomatch heq) fun _ heq => nomatch heq
  | left => exact hquiet rfl rfl rfl (ha fun _ heq => nomatch heq) fun _ heq => nomatch heq
  | @performed y c =>
      by_cases hxy : x = y
      · subst hxy
        exact .performed hphase rfl rfl rfl
      · refine .goto rfl _ rfl (forall_mem_singleton.mpr (decide_eq_false (Ne.symm hxy))) rfl
          (ha fun d heq => ?_) fun _ heq => nomatch heq
        injection heq with hyx
        exact hxy hyx.symm
  | foundClosed => exact hquiet rfl rfl rfl (ha fun _ heq => nomatch heq) fun _ heq => nomatch heq
  | foundOpen => exact hquiet rfl rfl rfl (ha fun _ heq => nomatch heq) fun _ heq => nomatch heq
  | removed =>
      exact .goto rfl _ rfl (forall_mem_singleton.mpr rfl) rfl
        (ha fun _ heq => nomatch heq) fun _ heq => nomatch heq
  | uncounted =>
      refine .goto rfl _ rfl (forall_mem_singleton.mpr rfl) rfl
        (ha fun _ heq => nomatch heq) fun _ heq => ?_
      split at heq <;> exact nomatch heq

theorem call_cases (h : step isPassive s action = some t) (x : Nat) : CallStep s t x := by
  cases step_cases h with
  | client h => exact h.calls x
  | @started a r hidle =>
      exact .goto rfl [] (append_nil _).symm (fun e he => absurd he not_mem_nil) rfl
        (fun _ heq => nomatch hidle.symm.trans heq) fun _ heq => nomatch heq
  | proceeded h => exact h.calls rfl x

/-- The calls of a session: executed, being executed, or in the queue. -/
structure Held (s : Scoop R) (x : Nat) (cs : List ScoopCall) : Prop where
  holds : (s.calls x).Holds cs
  added : ∀ c ∈ cs, .added x c ∈ s.log
  executed : ∀ c, .added x c ∈ s.log →
    .executed x c ∈ s.log ∨ c ∈ cs ∨ ∃ a, s.phase a = .call x c

/-- Every call was added to a session that exists. -/
structure CallsSound (s : Scoop R) : Prop where
  held : ∀ x, ∃ cs, s.Held x cs
  added : ∀ {x : Nat} {c : ScoopCall}, .added x c ∈ s.log → x < s.created ∧ c.id < s.callsCreated

theorem callsCreated_le (h : step isPassive s action = some t) :
    s.callsCreated ≤ t.callsCreated := by
  cases step_cases h with
  | client h => cases h <;> first | exact Nat.le_refl _ | exact Nat.le_succ _
  | started => exact Nat.le_refl _
  | proceeded h =>
      generalize s.phase _ = p at h
      cases h <;> exact Nat.le_refl _

theorem not_concerns {es : List ScoopEvent} (h : ∀ e ∈ es, concerns x e = false) :
    .added x c ∉ es ∧ .executed x c ∉ es := by
  refine ⟨fun he => ?_, fun he => ?_⟩
  · exact absurd ((decide_eq_true rfl).symm.trans (h _ he)) (by simp)
  · exact absurd ((decide_eq_true rfl).symm.trans (h _ he)) (by simp)

theorem CallsSound.held_step (hc : s.CallsSound) (h : step isPassive s action = some t) (x : Nat) :
    ∃ cs, t.Held x cs := by
  obtain ⟨cs, hheld⟩ := hc.held x
  have hold : ∀ {es : List ScoopEvent}, t.log = s.log ++ es → ∀ c ∈ cs, .added x c ∈ t.log :=
    fun hlog c hmem => hlog ▸ mem_append_left _ (hheld.added c hmem)
  cases call_cases h x with
  | kept hcalls es hlog hnone hcall =>
      have hadded : ∀ c, .added x c ∈ t.log → .added x c ∈ s.log := by
        intro c hmem
        rw [hlog] at hmem
        exact (mem_append.mp hmem).resolve_right (not_concerns hnone).1
      rcases hcalls with hcalls | ⟨hx, hcalls⟩
      · refine ⟨cs, hcalls ▸ hheld.holds, hold hlog, fun c hmem => ?_⟩
        rcases hheld.executed c (hadded c hmem) with hexecuted | hqueued | ⟨a, ha⟩
        · exact Or.inl (hlog ▸ mem_append_left es hexecuted)
        · exact Or.inr (Or.inl hqueued)
        · exact Or.inr (Or.inr ⟨a, (hcall a c).mpr ha⟩)
      · refine ⟨[], hcalls ▸ CallQueue.Holds.empty, fun c hmem => absurd hmem not_mem_nil,
          fun c hmem => ?_⟩
        exact absurd (hc.added (hadded c hmem)).1 (hx ▸ Nat.lt_irrefl _)
  | @added c hlocked hid hcreated hcalls hlog hcall =>
      have hfresh : c ∉ cs := fun hmem => absurd (hc.added (hheld.added c hmem)).2 (by omega)
      obtain ⟨ds, hds, hmem⟩ : ∃ ds, (t.calls x).Holds ds ∧ ∀ d, d ∈ ds ↔ d = c ∨ d ∈ cs := by
        rcases hcalls with hcalls | ⟨hcalls, -⟩
        · exact ⟨_, hcalls ▸ hheld.holds.add hfresh, fun d => by simp [or_comm]⟩
        · exact ⟨_, hcalls ▸ hheld.holds.push hfresh, fun d => mem_cons⟩
      refine ⟨ds, hds, fun d hd => ?_, fun d hd => ?_⟩
      · rcases (hmem d).mp hd with rfl | hd
        · exact hlog ▸ mem_append_right _ (mem_singleton_self _)
        · exact hold hlog d hd
      · rw [hlog] at hd
        rcases mem_append.mp hd with hd | hd
        · rcases hheld.executed d hd with hexecuted | hqueued | ⟨a, ha⟩
          · exact Or.inl (hlog ▸ mem_append_left _ hexecuted)
          · exact Or.inr (Or.inl ((hmem d).mpr (Or.inr hqueued)))
          · exact Or.inr (Or.inr ⟨a, (hcall a d).mpr ha⟩)
        · have hdc : d = c := by
            have heq := mem_singleton.mp hd
            injection heq
          exact Or.inr (Or.inl ((hmem d).mpr (Or.inl hdc)))
  | @popped a c ha hfirst hcalls hlog hphase =>
      obtain ⟨ds, rfl⟩ := hheld.holds.exists_of_first hfirst
      have hadded := hold (hlog.trans (append_nil _).symm)
      refine ⟨ds, hcalls ▸ hheld.holds.pop, fun d hd => hadded d (mem_cons_of_mem c hd),
        fun d hd => ?_⟩
      rw [hlog] at hd ⊢
      rcases hheld.executed d hd with hexecuted | hqueued | ⟨b, hb⟩
      · exact Or.inl hexecuted
      · rcases mem_cons.mp hqueued with rfl | hqueued
        · exact Or.inr (Or.inr ⟨a, by rw [hphase, update_self]⟩)
        · exact Or.inr (Or.inl hqueued)
      · have hba : b ≠ a := by
          rintro rfl
          exact nomatch ha.symm.trans hb
        exact Or.inr (Or.inr ⟨b, by rw [hphase, update_of_ne hba, hb]⟩)
  | @performed a c ha hcalls hlog hphase =>
      refine ⟨cs, hcalls ▸ hheld.holds, hold hlog, fun d hd => ?_⟩
      rw [hlog] at hd ⊢
      have hbefore : .added x d ∈ s.log := by
        refine (mem_append.mp hd).resolve_right fun hmem => ?_
        exact nomatch mem_singleton.mp hmem
      rcases hheld.executed d hbefore with hexecuted | hqueued | ⟨b, hb⟩
      · exact Or.inl (mem_append_left _ hexecuted)
      · exact Or.inr (Or.inl hqueued)
      · by_cases hba : b = a
        · subst hba
          have hphase' := ha.symm.trans hb
          injection hphase' with _ hcd
          exact Or.inl (mem_append_right _ (hcd ▸ mem_singleton_self _))
        · exact Or.inr (Or.inr ⟨b, by rw [hphase, update_of_ne hba, hb]⟩)

theorem CallsSound.step (hc : s.CallsSound) (hs : s.Sound isPassive)
    (h : step isPassive s action = some t) : t.CallsSound := by
  refine ⟨hc.held_step h, fun {x c} hmem => ?_⟩
  have hcreated := ((session_cases hs h).later hs).created
  obtain ⟨es, hlog, hcaused, -⟩ := log_cases h
  rw [hlog] at hmem
  rcases mem_append.mp hmem with hmem | hmem
  · obtain ⟨hx, hid⟩ := hc.added hmem
    exact ⟨Nat.lt_of_lt_of_le hx hcreated, Nat.lt_of_lt_of_le hid (callsCreated_le h)⟩
  · cases hcaused _ hmem with
    | added hlocked hid =>
        refine ⟨Nat.lt_of_lt_of_le (hs.lockedCreated hlocked) hcreated, ?_⟩
        cases call_cases h x with
        | kept hcalls es' hlog' hnone hcall =>
            obtain rfl : es = es' := append_cancel_left (hlog.symm.trans hlog')
            exact absurd hmem (not_concerns hnone).1
        | added _ _ hincremented _ _ _ => omega
        | popped _ _ _ hlog' _ =>
            have hnil := append_right_eq_self.mp (hlog.symm.trans hlog')
            exact absurd (hnil ▸ hmem) not_mem_nil
        | performed _ _ hlog' _ =>
            have heq := append_cancel_left (hlog.symm.trans hlog')
            rw [heq] at hmem
            exact nomatch mem_singleton.mp hmem

omit [DecidableEq R] in
theorem callsSound_init (r : R) : (init r).CallsSound := by
  refine ⟨fun x => ⟨[], CallQueue.Holds.empty, fun c hmem => ?_, fun c hmem => ?_⟩, fun hmem => ?_⟩
  · exact absurd hmem not_mem_nil
  · exact absurd hmem not_mem_nil
  · exact absurd hmem not_mem_nil

end

end Scoop

end Gobo
