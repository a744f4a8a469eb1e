/-
Sessions that a caller submits one after the other to the same active region: the first
one is executed first as long as no promotion moves a session past another one of its
caller.
-/
import Gobo.ScoopCallOrder

namespace Gobo

open List

namespace Scoop

variable {R : Type} [DecidableEq R]

/-- The sessions in the order in which they were submitted. -/
def submissions (log : List ScoopEvent) : List Nat :=
  log.filterMap fun e => match e with
    | .submitted x => some x
    | _ => none

/-- A session was submitted to an active region before another one of its caller. -/
structure Precedes (isPassive : R → Bool) (s : Scoop R) (x y : Nat) : Prop where
  submitted : [x, y].Sublist (submissions s.log)
  caller : s.caller x = s.caller y
  callee : s.callee x = s.callee y
  active : isPassive (s.callee x) = false

/-- A session is somewhere in front of another one in the list of their callee. -/
def IsBefore (s : Scoop R) (x y : Nat) : Prop :=
  ∃ xs, Chain s.next (s.firstSession (s.callee x)) xs ∧ [x, y].Sublist xs

/-- No promotion moves a session of an active region past one of the same caller. -/
def KeepsSubmissionOrder (isPassive : R → Bool) (s : Scoop R) : ScoopAction R → Prop
  | .proceed a =>
      match s.phase a with
      | .promoting _ (some x) => ∀ y ∈ s.promotes x, isPassive (s.callee y) = false →
          ∀ z, s.callee z = s.callee y → s.caller z = s.caller y → ¬s.IsBefore z y
      | _ => True
  | _ => True

section

variable {isPassive : R → Bool} {s t : Scoop R} {a : ScoopAgent R} {x y z : Nat} {r : R}
  {c d : ScoopCall} {action : ScoopAction R} {xs ys : List Nat}

theorem submissions_append (log es : List ScoopEvent) :
    submissions (log ++ es) = submissions log ++ submissions es :=
  filterMap_append

theorem submissions_eq_nil {es : List ScoopEvent} (h : ∀ x, .submitted x ∉ es) :
    submissions es = [] := by
  refine filterMap_eq_nil_iff.mpr fun e he => ?_
  cases e with
  | submitted x => exact absurd he (h x)
  | _ => rfl

theorem submissions_flatMap (xs : List Nat) :
    submissions (xs.flatMap fun y => [.counted y, .submitted y]) = xs := by
  induction xs with
  | nil => rfl
  | cons x xs ih =>
      rw [flatMap_cons, submissions_append, ih]
      rfl

/-- What a step submits. -/
theorem submission_cases (hs : s.Sound isPassive) (h : step isPassive s action = some t) :
    submissions t.log = submissions s.log ∨
      ∃ xs, submissions t.log = submissions s.log ++ xs ∧ t.toScoopSessions = s.submitAll xs ∧
        xs.Nodup ∧ (xs.map s.callee).Nodup ∧
        ∀ y ∈ xs, y < s.created ∧ s.isSubmitted y = false ∧ s.isFreed y = false := by
  obtain ⟨es, hlog, hcaused, -⟩ := log_cases h
  by_cases hnone : ∀ x, .submitted x ∉ es
  · rw [hlog, submissions_append, submissions_eq_nil hnone, append_nil]
    exact Or.inl rfl
  · -- Only a thread that submits sessions causes that.
    obtain ⟨x, hmem⟩ := not_forall_not.mp hnone
    cases hcaused _ hmem with
    | @submitted a _ hphase =>
        have hstep : ThreadStep isPassive s a (s.phase a) t := proceed_cases h
        rcases hphase with hphase | ⟨y, hphase, -⟩
        · rw [hphase] at hstep
          have ha := hs.phases a
          rw [hphase] at ha
          have hfresh : ∀ y ∈ [x], y < s.created ∧ s.isSubmitted y = false ∧ s.isFreed y = false :=
            fun y hy => hs.fresh ha.1 y (mem_cons.mpr (Or.inl (mem_singleton.mp hy)))
          cases hstep with
          | submitted hfree =>
              exact Or.inr ⟨[x], submissions_append _ _, rfl, nodup_singleton x,
                nodup_singleton _, hfresh⟩
          | rested hp => rcases hp with hp | hp <;> exact nomatch hp
          | ran hp => rcases hp with hp | hp <;> exact nomatch hp
        · have hsubmits := hs.submits hphase
          have hgroup := hs.grouped y hsubmits.created
          rw [hphase] at hstep
          cases hstep with
          | submittedAll hmulti hfree =>
              refine Or.inr ⟨_, ?_, rfl, hgroup.nodup, hgroup.callees, hs.fresh hsubmits⟩
              rw [submissions_append, submissions_flatMap]
          | counted hsingle =>
              refine Or.inl ?_
              exact (submissions_append _ _).trans (append_nil _)
          | rested hp => rcases hp with hp | hp <;> exact nomatch hp
          | ran hp => rcases hp with hp | hp <;> exact nomatch hp

/-- What a step does to the list of a region. -/
inductive QueueStep (s : Scoop R) (r : R) (xs : List Nat) : ScoopAction R → List Nat → Prop where
  | kept {action : ScoopAction R} : QueueStep s r xs action xs
  | grown {action : ScoopAction R} (zs : List Nat) : QueueStep s r xs action (xs ++ zs)
  | promoted {a : ScoopAgent R} {q : R} {x y : Nat} (ha : s.phase a = .promoting q (some x))
      (hy : y ∈ s.promotes x) (hr : s.callee y = r) :
      QueueStep s r xs (.proceed a) (y :: xs.erase y)
  | removed {a : ScoopAgent R} {x : Nat} (ha : s.phase a = .remove x) (hr : s.callee x = r) :
      QueueStep s r xs (.proceed a) (xs.erase x)

theorem Sound.promotes_distinct (hs : s.Sound isPassive)
    (ha : s.phase a = .promoting r (some x)) : ((s.promotes x).map s.callee).Nodup := by
  have hphase := hs.phases a
  rw [ha] at hphase
  have hgroup := hs.grouped x (hs.typed.created (hphase.1.2 x rfl).2)
  rw [Scoop.promotes]
  split
  case isTrue =>
      split
      case isTrue => exact hgroup.callees
      case isFalse => exact nodup_nil
  case isFalse => exact nodup_singleton _

/-- The callees of sessions that are promoted execute no other session. -/
theorem Sound.ready_of_promotes (hs : s.Sound isPassive) (ha : s.phase a = .promoting r (some x))
    (hq : s.QueuedAt (s.callee y)) (hy : y ∈ s.promotes x) :
    s.firstSession (s.callee y) = some y ∨ ¬s.FirstRuns (s.callee y) := by
  by_cases hyx : y = x
  · subst hyx
    have hphase := hs.phases a
    rw [ha] at hphase
    exact (hq.candidate ((hphase.1.2 y rfl).1 ▸ ha)).2
  · rw [Scoop.promotes] at hy
    split at hy
    case isTrue =>
        split at hy
        case isTrue hready => exact areReady_iff hready y ((mem_cons.mp hy).resolve_left hyx)
        case isFalse => exact absurd hy not_mem_nil
    case isFalse => exact absurd (mem_singleton.mp hy) hyx

theorem ActiveSound.queue_cases (h : s.ActiveSound isPassive)
    (hstep : Scoop.step isPassive s action = some t) (hr : isPassive r = false)
    (hq : ScoopSessions.Queued s.toScoopSessions r (s.FirstRuns r) xs) :
    ∃ ys stale, ScoopSessions.Queued t.toScoopSessions r stale ys ∧ QueueStep s r xs action ys := by
  have hs := h.reserved.sound
  have hsafe : s.SafeIn (fun r => isPassive r = false) action :=
    hs.safeIn h.reserved.freedIn h.reserved.queued h.removesRunning
  have hsession := session_cases hs hstep
  generalize t.toScoopSessions = m at hsession
  cases hsession with
  | same => exact ⟨xs, _, hq, .kept⟩
  | opened hsibling => exact ⟨xs, _, hq.newSession hs.typed _ _ _, .kept⟩
  | freed hnew => exact ⟨xs, _, hq.free hnew, .kept⟩
  | submitted hnodup hfresh => exact ⟨_, _, hq.submitAll hs.typed hnodup hfresh, .grown _⟩
  | ran hfirst => exact ⟨xs, _, hq.run hfirst, .kept⟩
  | @promoted a q x m ha hpromote =>
      have hsubmitted := (hs.promotes ha).1
      rw [SafeIn, ha] at hsafe
      have hready : ∀ y ∈ s.promotes x, s.callee y = r →
          y ∈ xs ∧ (s.firstSession r = some y ∨ ¬s.FirstRuns r) := by
        intro y hy hyr
        refine ⟨(hq.mem_iff y).mpr ⟨hyr, hsubmitted y hy, hsafe y hy (hyr ▸ hr)⟩, ?_⟩
        subst hyr
        exact hs.ready_of_promotes ha (h.reserved.queued _ hr) hy
      rcases hq.promoteAll hs.typed hsubmitted (hs.promotes_distinct ha) hready hpromote with
        ⟨-, hq'⟩ | ⟨y, hy, hyr, hq'⟩
      · exact ⟨xs, _, hq', .kept⟩
      · exact ⟨_, _, hq', .promoted ha hy hyr⟩
  | @removed a x ha hsubmitted =>
      rw [SafeIn, ha] at hsafe
      by_cases hxr : s.callee x = r
      · subst hxr
        obtain ⟨hfreed, hprevious⟩ := hsafe hr
        have hx := (hq.mem_iff x).mpr ⟨rfl, hsubmitted, hfreed⟩
        exact ⟨_, _, hq.remove hx hprevious, .removed ha rfl⟩
      · exact ⟨xs, _, (hs.typed.sameAt_remove x hxr).queued hq, .kept⟩

omit [DecidableEq R] in
/-- No session is in front of the first one. -/
theorem not_isBefore_first (hcallee : s.callee x = s.callee y)
    (hfirst : s.firstSession (s.callee y) = some y) : ¬s.IsBefore x y := by
  rintro ⟨xs, hchain, hsub⟩
  rw [hcallee, hfirst] at hchain
  obtain ⟨zs, rfl⟩ := head?_eq_some_iff.mp hchain.head?_eq
  have hnot := (nodup_cons.mp hchain.nodup).1
  cases hsub with
  | cons _ hsub => exact hnot (hsub.subset (mem_cons_of_mem x mem_cons_self))
  | cons_cons _ hsub => exact hnot (hsub.subset mem_cons_self)

theorem ActiveSound.isBefore_step (h : s.ActiveSound isPassive)
    (hok : s.KeepsSubmissionOrder isPassive action)
    (hstep : Scoop.step isPassive s action = some t) (hsubmitted : s.isSubmitted x = true)
    (hcaller : s.caller x = s.caller y) (hcallee : s.callee x = s.callee y)
    (hactive : isPassive (s.callee x) = false) (hfreed : t.isFreed x = false)
    (hbefore : s.IsBefore x y) : t.IsBefore x y := by
  have hlater := (session_cases h.reserved.sound hstep).later h.reserved.sound
  have hsame := hlater.callee (h.reserved.sound.typed.created hsubmitted)
  obtain ⟨xs, hq, -⟩ := h.reserved.queued _ hactive
  obtain ⟨ys, stale, hq', hchange⟩ := h.queue_cases hstep hactive hq
  have hsub : [x, y].Sublist xs := by
    obtain ⟨zs, hchain, hsub⟩ := hbefore
    exact hq.linked.chain.unique hchain ▸ hsub
  refine ⟨ys, hsame ▸ hq'.linked.chain, ?_⟩
  cases hchange with
  | kept => exact hsub
  | grown zs => exact hsub.trans (sublist_append_left _ _)
  | @promoted a q w z ha hz hr =>
      rw [KeepsSubmissionOrder, ha] at hok
      have hyz : y ≠ z := by
        rintro rfl
        exact hok y hz (hcallee ▸ hactive) x hcallee hcaller hbefore
      have herase : ([x, y].erase z).Sublist (xs.erase z) := hsub.erase z
      by_cases hxz : x = z
      · subst hxz
        rw [erase_cons_head] at herase
        exact herase.cons_cons x
      · rw [erase_of_not_mem (by simp [Ne.symm hxz, Ne.symm hyz])] at herase
        exact herase.cons z
  | @removed a z ha hr =>
      have hxz : x ≠ z := by
        rintro rfl
        have hmem := (hq'.mem_iff x).mpr ⟨hsame, hlater.submitted hsubmitted, hfreed⟩
        exact hq.linked.nodup.not_mem_erase hmem
      have hyz : y ≠ z := by
        rintro rfl
        obtain ⟨hrunning, hyfreed⟩ := h.runs (congrArg runningSession ha) (hcallee ▸ hactive)
        have hysubmitted := (h.reserved.sound.created_of_session (congrArg session ha)).1
        refine not_isBefore_first hcallee ?_ hbefore
        exact h.reserved.first_of_running (hcallee ▸ hactive) hysubmitted hyfreed hrunning
      have herase : ([x, y].erase z).Sublist (xs.erase z) := hsub.erase z
      rwa [erase_of_not_mem (by simp [Ne.symm hxz, Ne.symm hyz])] at herase

/-- Sessions of a caller stay in the order in which it submitted them. -/
structure SubmissionOrder (isPassive : R → Bool) (s : Scoop R) : Prop where
  submitted : ∀ {x : Nat}, x ∈ submissions s.log → s.isSubmitted x = true
  before : ∀ {x y : Nat}, s.Precedes isPassive x y → s.isFreed x = false → s.IsBefore x y
  executed : ∀ {x y : Nat} {d : ScoopCall}, s.Precedes isPassive x y → .executed y d ∈ s.log →
    s.isFreed x = true
  complete : ∀ {x : Nat}, s.isSubmitted x = true → isPassive (s.callee x) = false →
    s.isFreed x = true → executedCalls x s.log = addedCalls x s.log
  last : ∀ {x y : Nat} {c d : ScoopCall}, s.Precedes isPassive x y →
    ¬[.executed y d, .executed x c].Sublist s.log
  all : ∀ {x y : Nat} {d : ScoopCall} {front back : List ScoopEvent}, s.Precedes isPassive x y →
    s.log = front ++ .executed y d :: back → executedCalls x front = addedCalls x s.log

section

variable (h : s.SubmissionOrder isPassive)

include h

theorem SubmissionOrder.submitted_step (hs : s.Sound isPassive)
    (hstep : step isPassive s action = some t) (hx : x ∈ submissions t.log) :
    t.isSubmitted x = true := by
  have hlater := (session_cases hs hstep).later hs
  rcases submission_cases hs hstep with hsame | ⟨xs, hnew, hsessions, -, -, hfresh⟩
  · exact hlater.submitted (h.submitted (hsame ▸ hx))
  · rw [hnew] at hx
    rcases mem_append.mp hx with hx | hx
    · exact hlater.submitted (h.submitted hx)
    · rw [hsessions, (hs.typed.submitAll fun y hy => (hfresh y hy).1).isSubmitted,
        decide_eq_true hx]
      rfl

/-- What precedes after a step preceded before, or a session was submitted just now. -/
theorem SubmissionOrder.precedes_cases (hs : s.Sound isPassive)
    (hstep : step isPassive s action = some t) (hxy : t.Precedes isPassive x y) :
    s.Precedes isPassive x y ∨ s.isSubmitted y = false ∧ x ∈ submissions s.log ∧
      ∃ xs, y ∈ xs ∧ t.toScoopSessions = s.submitAll xs ∧ xs.Nodup ∧
        ∀ y ∈ xs, y < s.created ∧ s.isSubmitted y = false ∧ s.isFreed y = false := by
  have hlater := (session_cases hs hstep).later hs
  obtain ⟨hsub, hcaller, hcallee, hactive⟩ := hxy
  have hold : [x, y].Sublist (submissions s.log) → s.Precedes isPassive x y := by
    intro hsub
    have hx := hs.typed.created (h.submitted (hsub.subset mem_cons_self))
    have hy := hs.typed.created
      (h.submitted (hsub.subset (mem_cons_of_mem x mem_cons_self)))
    rw [hlater.caller hx, hlater.caller hy] at hcaller
    rw [hlater.callee hx, hlater.callee hy] at hcallee
    rw [hlater.callee hx] at hactive
    exact ⟨hsub, hcaller, hcallee, hactive⟩
  rcases submission_cases hs hstep with hsame | ⟨xs, hnew, hsessions, hnodup, hdistinct, hfresh⟩
  · exact Or.inl (hold (hsame ▸ hsub))
  · rw [hnew] at hsub
    obtain ⟨front, back, hxy, hfront, hback⟩ := sublist_append_iff.mp hsub
    cases front with
    | nil =>
        -- Sessions submitted together have different callees.
        obtain rfl : [x, y] = back := hxy
        have hmap : [s.callee x, s.callee y].Nodup := hdistinct.sublist (hback.map s.callee)
        have hkept := (hs.typed.submitAll fun y hy => (hfresh y hy).1).callee
        rw [hsessions, hkept] at hcallee
        exact absurd hcallee (by simpa using hmap)
    | cons z front =>
        injection hxy with hxz hrest
        subst hxz
        cases front with
        | nil =>
            obtain rfl : [y] = back := hrest
            have hy := hback.subset mem_cons_self
            exact Or.inr ⟨(hfresh y hy).2.1, hfront.subset mem_cons_self, xs, hy, hsessions,
              hnodup, hfresh⟩
        | cons w front =>
            injection hrest with hyw hrest
            subst hyw
            obtain ⟨rfl, -⟩ := append_eq_nil_iff.mp hrest.symm
            exact Or.inl (hold hfront)

theorem SubmissionOrder.before_step (ha : s.ActiveSound isPassive)
    (hok : s.KeepsSubmissionOrder isPassive action) (hstep : step isPassive s action = some t)
    (hxy : t.Precedes isPassive x y) (hfreed : t.isFreed x = false) : t.IsBefore x y := by
  have hs := ha.reserved.sound
  have hlater := (session_cases hs hstep).later hs
  have hstill : s.isSubmitted x = true → s.isFreed x = false := by
    intro hsubmitted
    by_contra hgone
    have hgone' := hlater.freed hsubmitted (Bool.not_eq_false _ ▸ hgone)
    exact absurd (hgone'.symm.trans hfreed) (by simp)
  rcases h.precedes_cases hs hstep hxy with hold | ⟨hy, hx, xs, hmem, hsessions, hnodup, hfresh⟩
  · have hsubmitted := h.submitted (hold.submitted.subset mem_cons_self)
    exact ha.isBefore_step hok hstep hsubmitted hold.caller hold.callee hold.active hfreed
      (h.before hold (hstill hsubmitted))
  · have hsubmitted := h.submitted hx
    have hsame := hlater.callee (hs.typed.created hsubmitted)
    have hactive : isPassive (s.callee x) = false := hsame ▸ hxy.active
    obtain ⟨zs, hq, hxmem⟩ := ha.reserved.mem_of_not_freed hactive hsubmitted (hstill hsubmitted)
    have hq' := hq.submitAll hs.typed hnodup hfresh
    rw [← hsessions] at hq'
    refine ⟨_, hsame ▸ hq'.linked.chain, ?_⟩
    have hycallee : s.callee y = t.callee x := by
      rw [← hlater.callee (hfresh y hmem).1, ← hxy.callee]
    have hyfilter : y ∈ xs.filter fun z => s.callee z = t.callee x :=
      mem_filter.mpr ⟨hmem, decide_eq_true hycallee⟩
    exact (singleton_sublist.mpr hxmem).append (singleton_sublist.mpr hyfilter)

/-- A session that was executed was submitted before. -/
theorem SubmissionOrder.precedes_of_executed
    (ho : s.Orderly isPassive) (hstep : step isPassive s action = some t)
    (hxy : t.Precedes isPassive x y) (hy : .executed y d ∈ s.log ∨ ∃ a, s.phase a = .call y d) :
    s.Precedes isPassive x y := by
  refine (h.precedes_cases ho.active.reserved.sound hstep hxy).resolve_right fun hnew => ?_
  have hsubmitted : s.isSubmitted y = true := by
    rcases hy with hmem | ⟨a, ha⟩
    · exact (ho.order.executed hmem).1
    · exact (ho.active.reserved.sound.created_of_session (congrArg session ha)).1
  exact absurd (hsubmitted.symm.trans hnew.1) (by simp)

/-- Where a session is executed, the ones before it were removed. -/
theorem SubmissionOrder.freed_of_call
    (ha : s.ActiveSound isPassive) (hxy : s.Precedes isPassive x y)
    (hphase : s.phase a = .call y d) : s.isFreed x = true := by
  by_contra hfreed
  have hbefore := h.before hxy (Bool.not_eq_true _ ▸ hfreed)
  have hactive : isPassive (s.callee y) = false := hxy.callee ▸ hxy.active
  obtain ⟨hrunning, hyfreed⟩ := ha.runs (congrArg runningSession hphase) hactive
  have hsubmitted := (ha.reserved.sound.created_of_session (congrArg session hphase)).1
  exact not_isBefore_first hxy.callee
    (ha.reserved.first_of_running hactive hsubmitted hyfreed hrunning) hbefore

theorem SubmissionOrder.executed_step (ho : s.Orderly isPassive)
    (hstep : step isPassive s action = some t) (hxy : t.Precedes isPassive x y)
    (hmem : .executed y d ∈ t.log) : t.isFreed x = true := by
  have hs := ho.active.reserved.sound
  have hlater := (session_cases hs hstep).later hs
  have hfreed : s.Precedes isPassive x y → s.isFreed x = true → t.isFreed x = true :=
    fun hold => hlater.freed (h.submitted (hold.submitted.subset mem_cons_self))
  rcases executed_new hstep hmem with hmem | ⟨-, a, hphase⟩
  · have hold := h.precedes_of_executed ho hstep hxy (Or.inl hmem)
    exact hfreed hold (h.executed hold hmem)
  · have hold := h.precedes_of_executed ho hstep hxy (Or.inr ⟨a, hphase⟩)
    exact hfreed hold (h.freed_of_call ho.active hold hphase)

end

/-- Nothing is added to a session that was removed, and nothing of it is executed. -/
theorem Orderly.quiet_of_freed (ho : s.Orderly isPassive)
    (hstep : Scoop.step isPassive s action = some t) (hsubmitted : s.isSubmitted x = true)
    (hactive : isPassive (s.callee x) = false) (hfreed : s.isFreed x = true) :
    addedCalls x t.log = addedCalls x s.log ∧ executedCalls x t.log = executedCalls x s.log := by
  obtain ⟨es, hlog, hcaused, -⟩ := log_cases hstep
  have hcreated := ho.active.reserved.sound.typed.created hsubmitted
  have hunlocked := ho.closing.freed hcreated hfreed
  have hadded : ∀ c, .added x c ∉ es := by
    intro c hmem
    cases hcaused _ hmem with
    | added hlocked => exact absurd (hlocked.symm.trans hunlocked) (by simp)
  have hexecuted : ∀ c, .executed x c ∉ es := by
    intro c hmem
    cases hcaused _ hmem with
    | executed hphase =>
        have hnot := (ho.active.runs (congrArg runningSession hphase) hactive).2
        exact absurd (hfreed.symm.trans hnot) (by simp)
  rw [hlog, addedCalls_append, executedCalls_append, addedCalls_eq_nil hadded,
    executedCalls_eq_nil hexecuted, append_nil, append_nil]
  exact ⟨rfl, rfl⟩

/-- A session that was freed is not submitted. -/
theorem SessionStep.submitted_cases {m : ScoopSessions R} (hs : s.Sound isPassive)
    (h : SessionStep s action m) (hx : m.isSubmitted x = true) :
    s.isSubmitted x = true ∨ s.isFreed x = false := by
  cases h with
  | same => exact Or.inl hx
  | opened =>
      have hne : x ≠ s.created := by
        rintro rfl
        exact absurd ((Function.update_self _ _ _).symm.trans hx) (by simp)
      exact Or.inl ((Function.update_of_ne hne _ _).symm.trans hx)
  | freed => exact Or.inl hx
  | @submitted a xs hnodup hfresh =>
      rw [(hs.typed.submitAll fun y hy => (hfresh y hy).1).isSubmitted, Bool.or_eq_true] at hx
      rcases hx with hmem | hx
      · exact Or.inr (hfresh x (of_decide_eq_true hmem)).2.2
      · exact Or.inl hx
  | ran => exact Or.inl hx
  | promoted ha hpromote =>
      rw [(hs.typed.promoteAll (hs.promotes ha).1 hpromote).isSubmitted] at hx
      exact Or.inl hx
  | removed ha hsubmitted =>
      rw [ScoopSessions.remove_eq] at hx
      exact Or.inl hx

theorem log_of_remove (h : step isPassive s (.proceed a) = some t) (ha : s.phase a = .remove x) :
    t.log = s.log ++ [.removed x] := by
  have hstep : ThreadStep isPassive s a (s.phase a) t := proceed_cases h
  rw [ha] at hstep
  cases hstep with
  | removed => rfl
  | rested hp => rcases hp with hp | hp <;> exact nomatch hp
  | ran hp => rcases hp with hp | hp <;> exact nomatch hp

section

variable (h : s.SubmissionOrder isPassive) (ho : s.Orderly isPassive)
variable (hstep : step isPassive s action = some t)

include h ho hstep

theorem SubmissionOrder.complete_step (hsubmitted : t.isSubmitted x = true)
    (hactive : isPassive (t.callee x) = false) (hfreed : t.isFreed x = true) :
    executedCalls x t.log = addedCalls x t.log := by
  have hs := ho.active.reserved.sound
  have hsession := session_cases hs hstep
  obtain ⟨hcreated, hcases⟩ := hsession.freed_cases hs
    (((step_cases hstep).sound hs).typed.created hsubmitted) hfreed
  have hactive' : isPassive (s.callee x) = false := (hsession.later hs).callee hcreated ▸ hactive
  rcases hcases with hfreed | hnew | ⟨a, rfl, hphase⟩
  · have hold := (hsession.submitted_cases hs hsubmitted).resolve_right (by simp [hfreed])
    obtain ⟨hadded, hexecuted⟩ := ho.quiet_of_freed hstep hold hactive' hfreed
    rw [hadded, hexecuted]
    exact h.complete hold hactive' hfreed
  · exact absurd (hsubmitted.symm.trans hnew) (by simp)
  · rw [log_of_remove hstep hphase, addedCalls_append, executedCalls_append,
      ho.order.executed_of_remove ho.active ho.exhausted hphase hactive']
    rfl

theorem SubmissionOrder.last_step (hxy : t.Precedes isPassive x y) :
    ¬[.executed y d, .executed x c].Sublist t.log := by
  intro hexecuted
  have hold : .executed y d ∈ s.log → s.Precedes isPassive x y :=
    fun hmem => h.precedes_of_executed ho hstep hxy (Or.inl hmem)
  have hnot : ¬[.executed y d, .executed x c].Sublist s.log :=
    fun hsub => h.last (hold (hsub.subset mem_cons_self)) hsub
  obtain ⟨es, hlog, hnone | ⟨z, f, a, rfl, hphase⟩⟩ := log_executed hstep
  · rw [hlog] at hexecuted
    refine hnot (sublist_of_append hexecuted fun e he => ?_)
    rcases mem_cons.mp he with rfl | he
    · exact hnone y d
    · exact mem_singleton.mp he ▸ hnone x c
  · rw [hlog] at hexecuted
    rcases sublist_concat hexecuted with hsub | ⟨front, hlast, hfront⟩
    · exact hnot hsub
    · have hlast' : [ScoopEvent.executed y d] ++ [.executed x c] = front ++ [.executed z f] := hlast
      obtain ⟨rfl, hxz⟩ := append_inj' hlast' rfl
      injection head_eq_of_cons_eq hxz with hxz
      subst hxz
      -- The first session was removed before the other one was executed.
      have hmem := hfront.subset mem_cons_self
      have hfreed := h.executed (hold hmem) hmem
      have hrunning := (ho.active.runs (congrArg runningSession hphase) (hold hmem).active).2
      exact absurd (hfreed.symm.trans hrunning) (by simp)

theorem SubmissionOrder.all_step (hxy : t.Precedes isPassive x y)
    {front back : List ScoopEvent} (hlog : t.log = front ++ .executed y d :: back) :
    executedCalls x front = addedCalls x t.log := by
  have hquiet : s.Precedes isPassive x y → s.isFreed x = true →
      s.isSubmitted x = true ∧ addedCalls x t.log = addedCalls x s.log := by
    intro hold hfreed
    have hsubmitted := h.submitted (hold.submitted.subset mem_cons_self)
    exact ⟨hsubmitted, (ho.quiet_of_freed hstep hsubmitted hold.active hfreed).1⟩
  obtain ⟨es, hes, hnone | ⟨z, f, a, rfl, hphase⟩⟩ := log_executed hstep
  · rcases append_cons_cases (hes.symm.trans hlog) with ⟨rest, hs_log⟩ | ⟨rest, -, hrest⟩
    · have hmem : .executed y d ∈ s.log := hs_log ▸ mem_append_right front mem_cons_self
      have hold := h.precedes_of_executed ho hstep hxy (Or.inl hmem)
      rw [(hquiet hold (h.executed hold hmem)).2]
      exact h.all hold hs_log
    · exact absurd (hrest ▸ mem_append_right rest mem_cons_self) (hnone y d)
  · rcases append_cons_cases (hes.symm.trans hlog) with ⟨rest, hs_log⟩ | ⟨rest, hfront, hrest⟩
    · have hmem : .executed y d ∈ s.log := hs_log ▸ mem_append_right front mem_cons_self
      have hold := h.precedes_of_executed ho hstep hxy (Or.inl hmem)
      rw [(hquiet hold (h.executed hold hmem)).2]
      exact h.all hold hs_log
    · obtain ⟨rfl, hzy⟩ : rest = [] ∧ ScoopEvent.executed z f = .executed y d := by
        cases rest with
        | nil => exact ⟨rfl, head_eq_of_cons_eq hrest⟩
        | cons _ rest => exact absurd hrest (by simp)
      injection hzy with hzy hfd
      subst hzy hfd
      have hold := h.precedes_of_executed ho hstep hxy (Or.inr ⟨a, hphase⟩)
      have hfreed := h.freed_of_call ho.active hold hphase
      obtain ⟨hsubmitted, hadded⟩ := hquiet hold hfreed
      rw [hadded, hfront, append_nil]
      exact h.complete hsubmitted hold.active hfreed

end

theorem SubmissionOrder.step (h : s.SubmissionOrder isPassive) (ho : s.Orderly isPassive)
    (hok : s.KeepsSubmissionOrder isPassive action) (hstep : step isPassive s action = some t) :
    t.SubmissionOrder isPassive where
  submitted := h.submitted_step ho.active.reserved.sound hstep
  before := h.before_step ho.active hok hstep
  executed := h.executed_step ho hstep
  complete := h.complete_step ho hstep
  last := h.last_step ho hstep
  all := fun hxy => h.all_step ho hstep hxy

omit [DecidableEq R] in
theorem submissionOrder_init (isPassive : R → Bool) (r : R) :
    (init r).SubmissionOrder isPassive where
  submitted := fun hx => absurd hx not_mem_nil
  before := fun hxy => nomatch sublist_nil.mp hxy.submitted
  executed := fun _ hmem => absurd hmem not_mem_nil
  complete := fun hx => nomatch hx
  last := fun _ h => nomatch sublist_nil.mp h
  all := fun hxy => nomatch sublist_nil.mp hxy.submitted

end

/-- As long as no promotion moves a session past one of the same caller, and no open count
wraps, all calls of the session that a caller submits first are executed before those of the
second one. -/
theorem executed_in_submission_order (isPassive : R → Bool) (r : R) {cs : List (ScoopAction R)}
    {t : Scoop R} (hcs : Permitted (step isPassive)
      (fun s action => s.KeepsSubmissionOrder isPassive action ∧ s.OpensFit action) (init r) cs)
    (h : runAll (step isPassive) (init r) cs = some t) {x y : Nat}
    (hxy : t.Precedes isPassive x y) :
    (∀ c d, ¬[.executed y d, .executed x c].Sublist t.log) ∧
      ∀ front d back, t.log = front ++ .executed y d :: back →
        executedCalls x front = addedCalls x t.log := by
  have ht : t.Orderly isPassive ∧ t.SubmissionOrder isPassive := by
    refine run_preserves (fun s => s.Orderly isPassive ∧ s.SubmissionOrder isPassive)
      (fun s action u hs hok hstep => ?_)
        ⟨orderly_init isPassive r, submissionOrder_init isPassive r⟩
      hcs h
    exact ⟨hs.1.step hok.2 hstep, hs.2.step hs.1 hok.1 hstep⟩
  exact ⟨fun c d => ht.2.last hxy, fun front d back => ht.2.all hxy⟩

/-- Two sessions of a caller with the same region, which executes them. -/
def successiveRun : List (ScoopAction Nat) :=
  [.sessionOpen 1 0 none, .sessionAddCall 0, .proceed (.caller 1), .proceed (.caller 1),
    .sessionClose 0, .sessionOpen 1 0 none, .sessionAddCall 1, .proceed (.caller 1),
    .proceed (.caller 1), .start (.processor 0) 0] ++
    (replicate 6 (.proceed (.processor 0)) ++
      .start (.processor 0) 0 :: replicate 3 (.proceed (.processor 0)))

theorem executed_in_submission_order_successive : Permitted (step fun _ => false)
        (fun s action => s.KeepsSubmissionOrder (fun _ => false) action ∧ s.OpensFit action)
        (init 1) successiveRun ∧
      ∃ t, runAll (step fun _ => false) (init 1) successiveRun = some t ∧
        executedCalls 0 t.log = [⟨0, false⟩] ∧ executedCalls 1 t.log = [⟨1, false⟩] ∧
        ∀ c d, ¬[.executed 1 d, .executed 0 c].Sublist t.log := by
  have hcs : Permitted (step fun _ => false)
      (fun s action => s.KeepsSubmissionOrder (fun _ => false) action ∧ s.OpensFit action)
      (init 1) successiveRun := by
    refine ⟨?_, ?_, ?_, ?_, ?_, ?_, ?_, ?_, ?_, ?_, ?_, ?_, ?_, ?_, ?_, ?_, ?_, ?_, ?_, ?_, trivial⟩
    all_goals exact ⟨trivial, nofun⟩
  obtain ⟨t, ht⟩ : ∃ t, runAll (step fun _ => false) (init 1) successiveRun = some t := ⟨_, rfl⟩
  have hexecuted : executedCalls 0 t.log = [⟨0, false⟩] ∧ executedCalls 1 t.log = [⟨1, false⟩] := by
    obtain rfl := Option.some.inj ht
    exact ⟨rfl, rfl⟩
  refine ⟨hcs, t, ht, hexecuted.1, hexecuted.2, (executed_in_submission_order _ 1 hcs ht ?_).1⟩
  obtain rfl := Option.some.inj ht
  exact ⟨List.Sublist.refl [0, 1], rfl, rfl, rfl⟩

/-- Region 9 is busy; a multisession of caller 2 with the regions 0 and 9 waits for it
when this caller submits a session with region 0 alone. -/
def passedOverRun : List (ScoopAction Nat) :=
  [.sessionOpen 1 9 none, .sessionAddCall 0, .proceed (.caller 1), .proceed (.caller 1),
    .start (.processor 9) 9, .proceed (.processor 9),
    .sessionOpen 2 0 none, .sessionOpen 2 9 (some 1), .sessionAddCall 1, .proceed (.caller 2),
    .sessionClose 1, .sessionClose 2,
    .sessionOpen 2 0 none, .sessionAddCall 3, .proceed (.caller 2), .proceed (.caller 2),
    .start (.processor 0) 0, .proceed (.processor 0), .proceed (.processor 0),
    .proceed (.processor 0), .proceed (.processor 0), .proceed (.processor 0),
    .proceed (.processor 0), .proceed (.processor 0)]

/-- The session that was submitted second is executed first. -/
theorem promoted_before_predecessor :
    ∃ t, runAll (step fun _ => false) (init 1) passedOverRun = some t ∧
      t.Precedes (fun _ => false) 1 3 ∧ .executed 3 ⟨2, false⟩ ∈ t.log ∧
      addedCalls 1 t.log = [⟨1, false⟩] ∧ executedCalls 1 t.log = [] := by
  refine ⟨_, rfl, ⟨?_, rfl, rfl, rfl⟩, ?_, rfl, rfl⟩
  · have hsub : [1, 3].Sublist [0, 1, 2, 3] := by decide
    exact hsub
  · exact mem_append_right _ (mem_singleton_self _)

end Scoop

end Gobo
