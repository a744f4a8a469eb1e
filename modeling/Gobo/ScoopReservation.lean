/-
Reservation: the sessions of a multisession start to run together, or all of them wait.
-/
import Gobo.ScoopQueues

namespace Gobo

open List Function

namespace Scoop

variable {R : Type} [DecidableEq R]

/-- In the regions `P`, only sessions that ran are removed. -/
def FreedIn (P : R → Prop) (s : Scoop R) : Prop :=
  ∀ x, P (s.callee x) → s.isSubmitted x = true → s.isFreed x = true → s.isRunning x = true

/-- In the regions `P`, a session to be removed is running, and was not removed before. -/
def RemovesRunningIn (P : R → Prop) (s : Scoop R) : ScoopAction R → Prop
  | .proceed a =>
      match s.phase a with
      | .remove x => P (s.callee x) → s.isRunning x = true ∧ s.isFreed x = false
      | _ => True
  | _ => True

end Scoop

namespace ScoopSessions

variable {R : Type} {m m' m'' : ScoopSessions R}

/-- What is true later if it is true of a state. -/
structure Later (m m' : ScoopSessions R) : Prop where
  created : m.created ≤ m'.created
  submitted : ∀ {x : Nat}, m.isSubmitted x = true → m'.isSubmitted x = true
  callee : ∀ {x : Nat}, x < m.created → m'.callee x = m.callee x
  caller : ∀ {x : Nat}, x < m.created → m'.caller x = m.caller x
  siblings : ∀ {x : Nat}, m.isSubmitted x = true → m'.siblings x = m.siblings x
  running : ∀ {x : Nat}, m.isRunning x = true → m'.isRunning x = true
  freed : ∀ {x : Nat}, m.isSubmitted x = true → m.isFreed x = true → m'.isFreed x = true

theorem Later.refl (m : ScoopSessions R) : Later m m :=
  ⟨Nat.le_refl _, id, fun _ => rfl, fun _ => rfl, fun _ => rfl, id, fun _ => id⟩

theorem Later.trans (h : Later m m') (h' : Later m' m'') : Later m m'' where
  created := Nat.le_trans h.created h'.created
  submitted := fun hx => h'.submitted (h.submitted hx)
  callee := fun hx => (h'.callee (Nat.lt_of_lt_of_le hx h.created)).trans (h.callee hx)
  caller := fun hx => (h'.caller (Nat.lt_of_lt_of_le hx h.created)).trans (h.caller hx)
  siblings := fun hx => (h'.siblings (h.submitted hx)).trans (h.siblings hx)
  running := fun hx => h'.running (h.running hx)
  freed := fun hx hfreed => h'.freed (h.submitted hx) (h.freed hx hfreed)

theorem Keeps.later (h : Keeps m m') (hrunning : ∀ x, m.isRunning x = true → m'.isRunning x = true)
    (hfreed : ∀ x, m.isFreed x = true → m'.isFreed x = true) : Later m m' where
  created := Nat.le_of_eq h.created.symm
  submitted := fun hx => by rw [h.isSubmitted, hx]
  callee := fun _ => by rw [h.callee]
  caller := fun _ => by rw [h.caller]
  siblings := fun _ => h.siblings _
  running := hrunning _
  freed := fun _ => hfreed _

/-- A flag that is set stays set. -/
theorem update_true {f : Nat → Bool} {x y : Nat} (h : f y = true) :
    update f x true y = true := by
  by_cases hyx : y = x
  · rw [hyx, update_self]
  · rw [update_of_ne hyx, h]

end ScoopSessions

namespace Scoop

variable {R : Type} [DecidableEq R]

section

variable {isPassive : R → Bool} {s t u : Scoop R} {a b : ScoopAgent R} {r : R} {x y : Nat}
  {action : ScoopAction R} {P : R → Prop}

/-- Promoted sessions are submitted, and a group. -/
theorem Sound.promotes (hs : s.Sound isPassive) (ha : s.phase a = .promoting r (some x)) :
    (∀ y ∈ s.promotes x, s.isSubmitted y = true) ∧
      ∀ y ∈ s.promotes x, y ≠ x → s.mustWait x = true ∧ y ∈ s.siblings x := by
  have hphase := hs.phases a
  rw [ha] at hphase
  have hsubmitted := (hphase.1.2 x rfl).2
  have hgroup := hs.grouped x (hs.typed.created hsubmitted)
  rw [Scoop.promotes]
  split
  case isTrue hwait =>
      split
      case isTrue =>
          refine ⟨fun y hy => (hgroup.submitted y hy).trans hsubmitted, fun y hy hyx => ⟨hwait, ?_⟩⟩
          exact (mem_cons.mp hy).resolve_left hyx
      case isFalse => exact ⟨fun y hy => absurd hy not_mem_nil, fun y hy => absurd hy not_mem_nil⟩
  case isFalse =>
      refine ⟨forall_mem_singleton.mpr hsubmitted, fun y hy hyx => ?_⟩
      exact absurd (mem_singleton.mp hy) hyx

theorem SessionStep.later {m : ScoopSessions R} (hs : s.Sound isPassive)
    (h : SessionStep s action m) : ScoopSessions.Later s.toScoopSessions m := by
  cases h with
  | same => exact ScoopSessions.Later.refl _
  | @opened k q sibling hsibling =>
      have holder : ∀ {B : Type} (f : Nat → B) (b : B) {y : Nat}, y < s.created →
          update f s.created b y = f y :=
        fun f b y hy => update_of_ne (Nat.ne_of_lt hy) _ _
      have hrunning : ∀ {y : Nat}, s.isRunning y = true → s.isSubmitted y = true := by
        intro y hy
        by_contra hnew
        have hnot := (hs.typed.unsubmitted (Bool.eq_false_iff.mpr hnew)).2.2
        exact absurd (hy.symm.trans hnot) (by simp)
      refine ⟨Nat.le_succ _, fun hx => (holder _ _ (hs.typed.created hx)).trans hx, holder _ _,
        holder _ _, fun {x} hx => ?_,
        fun hx => (holder _ _ (hs.typed.created (hrunning hx))).trans hx,
        fun hx hfreed => (holder _ _ (hs.typed.created hx)).trans hfreed⟩
      have hgroup := hs.grouped x (hs.typed.created hx)
      refine (hgroup.newSession fun z hz hmem => ?_).siblings_eq
      have hold := (hgroup.submitted z hmem).trans hx
      exact absurd (hold.symm.trans (hsibling z hz).unsubmitted) (by simp)
  | @freed x hnew =>
      exact ScoopSessions.Keeps.later ⟨rfl, rfl, rfl, rfl, rfl⟩ (fun _ hy => hy)
        fun _ hy => ScoopSessions.update_true hy
  | @submitted a xs hnodup hfresh =>
      have hall := hs.typed.submitAll fun y hy => (hfresh y hy).1
      refine ⟨Nat.le_of_eq hall.created.symm, fun hx => by rw [hall.isSubmitted, hx, Bool.or_true],
        fun _ => by rw [hall.callee], fun _ => by rw [hall.caller], fun _ => ?_,
          fun hx => by rw [hall.isRunning, hx],
        fun _ hfreed => by rw [hall.isFreed, hfreed]⟩
      rw [ScoopSessions.siblings, ScoopSessions.siblings, hall.nextSibling, hall.created]
  | @ran a x hfirst =>
      exact (ScoopSessions.Keeps.run _ x).later (fun _ => ScoopSessions.update_true) fun _ => id
  | @promoted a q x m ha hpromote =>
      have hsubmitted := (hs.promotes ha).1
      have hall := hs.typed.promoteAll hsubmitted hpromote
      refine (ScoopSessions.Keeps.promoteAll hs.typed hsubmitted hpromote).later (fun y hy => ?_)
        fun y hy => ?_
      · rw [hall.isRunning, hy, Bool.or_true]
      · rw [hall.isFreed, hy]
  | @removed a x ha hsubmitted =>
      refine (ScoopSessions.Keeps.remove _ x).later (fun y hy => ?_) fun y hy => ?_
      · rw [ScoopSessions.remove_eq]
        exact hy
      · rw [ScoopSessions.remove_eq]
        exact ScoopSessions.update_true hy

theorem SessionStep.freedIn {m : ScoopSessions R} (hs : s.Sound isPassive) (hf : s.FreedIn P)
    (hok : s.RemovesRunningIn P action) (h : SessionStep s action m) :
    ∀ x, P (m.callee x) → m.isSubmitted x = true → m.isFreed x = true → m.isRunning x = true := by
  have hlater := h.later hs
  -- Only a session that is submitted or removed by the step is of interest.
  have hold : ∀ x, s.isSubmitted x = true → s.isFreed x = true → P (m.callee x) →
      m.isRunning x = true := by
    intro x hx hfreed hp
    rw [hlater.callee (hs.typed.created hx)] at hp
    exact hlater.running (hf x hp hx hfreed)
  intro x hp hx hfreed
  cases h with
  | same => exact hold x hx hfreed hp
  | @opened k q sibling hsibling =>
      have hne : x ≠ s.created := by
        rintro rfl
        exact absurd ((update_self _ _ _).symm.trans hx) (by simp)
      exact hold x ((update_of_ne hne _ _).symm.trans hx)
        ((update_of_ne hne _ _).symm.trans hfreed) hp
  | @freed y hnew =>
      have hxy : x ≠ y := by
        rintro rfl
        exact absurd (hx.symm.trans hnew) (by simp)
      exact hold x hx ((update_of_ne hxy _ _).symm.trans hfreed) hp
  | @submitted a xs hnodup hfresh =>
      have hall := hs.typed.submitAll fun y hy => (hfresh y hy).1
      rw [hall.isFreed] at hfreed
      have hnot : x ∉ xs := fun hmem => absurd (hfreed.symm.trans (hfresh x hmem).2.2) (by simp)
      rw [hall.isSubmitted, decide_eq_false hnot, Bool.false_or] at hx
      exact hold x hx hfreed hp
  | @ran a y hfirst => exact hold x hx hfreed hp
  | @promoted a q y m ha hpromote =>
      have hall := hs.typed.promoteAll (hs.promotes ha).1 hpromote
      rw [hall.isFreed] at hfreed
      rw [hall.isSubmitted] at hx
      exact hold x hx hfreed hp
  | @removed a y ha hsubmitted =>
      rw [ScoopSessions.remove_eq] at hx hfreed
      by_cases hxy : x = y
      · subst hxy
        rw [RemovesRunningIn, ha] at hok
        refine hlater.running (hok ?_).1
        rw [← hlater.callee (hs.typed.created hx)]
        exact hp
      · exact hold x hx ((update_of_ne hxy _ _).symm.trans hfreed) hp

/-- If only running sessions are removed, then steps are safe. -/
theorem Sound.safeIn (hs : s.Sound isPassive) (hf : s.FreedIn P) (hq : ∀ r, P r → s.QueuedAt r)
    (hok : s.RemovesRunningIn P action) : s.SafeIn P action := by
  cases action with
  | proceed a =>
      rw [RemovesRunningIn] at hok
      rw [SafeIn]
      have hphase := hs.phases a
      split
      case h_1 q x ha =>
          intro y hy hp
          by_cases hyx : y = x
          · subst hyx
            rw [ha] at hphase
            exact ((hq _ hp).candidate ((hphase.1.2 y rfl).1 ▸ ha)).1
          · obtain ⟨hsubmitted, hsiblings⟩ := hs.promotes ha
            obtain ⟨hwait, hsibling⟩ := hsiblings y hy hyx
            rw [ha] at hphase
            have hx := hs.typed.created (hphase.1.2 x rfl).2
            have hrunning := (hs.grouped.running_eq hx hsibling).trans (mustWait_eq_true hwait).1
            by_contra hfreed
            have hran := hf y hp (hsubmitted y hy) (Bool.not_eq_false _ ▸ hfreed)
            exact absurd (hran.symm.trans hrunning) (by simp)
      case h_2 x ha =>
          intro hp
          rw [ha] at hok hphase
          obtain ⟨hrunning, hfreed⟩ := hok hp
          refine ⟨hfreed, fun _ => ?_⟩
          obtain ⟨xs, hqueued, -⟩ := hq _ hp
          have hx := (hqueued.mem_iff x).mpr ⟨rfl, hphase.submitted, hfreed⟩
          exact hqueued.first_eq.trans (hqueued.running x hx hrunning)
      case h_3 => trivial
  | rootCreated => trivial
  | sessionOpen => trivial
  | passLock => trivial
  | sessionAddCall => trivial
  | sessionAddRunningCall => trivial
  | sessionClose => trivial
  | start => trivial

/-- What holds in the regions `P` if only running sessions are removed there. -/
structure ReservedIn (isPassive : R → Bool) (P : R → Prop) (s : Scoop R) : Prop where
  sound : s.Sound isPassive
  freedIn : s.FreedIn P
  queued : ∀ r, P r → s.QueuedAt r

theorem ReservedIn.step (h : s.ReservedIn isPassive P) (hok : s.RemovesRunningIn P action)
    (hstep : step isPassive s action = some t) : t.ReservedIn isPassive P := by
  have hsafe := h.sound.safeIn h.freedIn h.queued hok
  exact ⟨(step_cases hstep).sound h.sound,
    (session_cases h.sound hstep).freedIn h.sound h.freedIn hok,
    fun _ hr => QueuedAt.step h.queued h.sound hsafe hstep hr⟩

theorem reservedIn_init (isPassive : R → Bool) (P : R → Prop) (r : R) :
    (init r).ReservedIn isPassive P :=
  ⟨sound_init isPassive r, fun _ _ hx => (nomatch hx), fun q _ => queuedAt_init r q⟩

section

variable (h : s.ReservedIn isPassive P) (hp : P (s.callee x))

include h hp

/-- The list of a region is the only place of a session that waits or runs. -/
theorem ReservedIn.mem_of_not_freed
    (hsubmitted : s.isSubmitted x = true) (hfreed : s.isFreed x = false) :
    ∃ xs, ScoopSessions.Queued s.toScoopSessions (s.callee x) (s.FirstRuns (s.callee x)) xs ∧
      x ∈ xs := by
  obtain ⟨xs, hq, -⟩ := h.queued _ hp
  exact ⟨xs, hq, (hq.mem_iff x).mpr ⟨rfl, hsubmitted, hfreed⟩⟩

/-- A session that is running and was not removed is the first one. -/
theorem ReservedIn.first_of_running
    (hsubmitted : s.isSubmitted x = true) (hfreed : s.isFreed x = false)
    (hrunning : s.isRunning x = true) : s.firstSession (s.callee x) = some x := by
  obtain ⟨xs, hq, hx⟩ := h.mem_of_not_freed hp hsubmitted hfreed
  exact hq.first_eq.trans (hq.running x hx hrunning)

/-- The first session of a region was not removed. -/
theorem ReservedIn.not_freed_of_first
    (hfirst : s.firstSession (s.callee x) = some x) : s.isFreed x = false := by
  obtain ⟨xs, hq, -⟩ := h.queued _ hp
  exact ((hq.mem_iff x).mp (mem_of_head? (hq.first_eq.symm.trans hfirst))).2.2

end

end

/-- A session is met in the list of its callee. -/
def IsListed (s : Scoop R) (x : Nat) : Prop :=
  ∃ xs, Chain s.next (s.firstSession (s.callee x)) xs ∧ x ∈ xs

/-- The sessions of a multisession all wait in their lists, or those that were not
removed are running, each the first of its region. -/
def Reserved (s : Scoop R) (x : Nat) : Prop :=
  (∀ y ∈ x :: s.siblings x, s.isRunning y = false ∧ s.IsListed y) ∨
    ∀ y ∈ x :: s.siblings x, s.isFreed y = false →
      s.isRunning y = true ∧ s.firstSession (s.callee y) = some y

/-- The callee of a session executes it. -/
def Executes (s : Scoop R) (x : Nat) : Prop :=
  s.firstSession (s.callee x) = some x ∧ s.isRunning x = true

section

variable {isPassive : R → Bool} {s t u : Scoop R} {x y x' y' : Nat}

theorem ReservedIn.reserved (h : s.ReservedIn isPassive fun _ => True)
    (hx : s.isSubmitted x = true) : s.Reserved x := by
  have hgroup := h.sound.grouped x (h.sound.typed.created hx)
  have hsubmitted : ∀ y ∈ x :: s.siblings x, s.isSubmitted y = true :=
    fun y hy => (hgroup.submitted y hy).trans hx
  rcases Bool.eq_false_or_eq_true (s.isRunning x) with hrunning | hwaiting
  · refine Or.inr fun y hy hfreed => ?_
    have hyrunning := (hgroup.running y hy).trans hrunning
    exact ⟨hyrunning, h.first_of_running trivial (hsubmitted y hy) hfreed hyrunning⟩
  · refine Or.inl fun y hy => ?_
    have hywaiting := (hgroup.running y hy).trans hwaiting
    have hfreed : s.isFreed y = false := by
      by_contra hne
      have hran := h.freedIn y trivial (hsubmitted y hy) (Bool.not_eq_false _ ▸ hne)
      exact absurd (hran.symm.trans hywaiting) (by simp)
    obtain ⟨xs, hq, hmem⟩ := h.mem_of_not_freed trivial (hsubmitted y hy) hfreed
    exact ⟨hywaiting, xs, hq.linked.chain, hmem⟩

theorem reservedIn_run {cs : List (ScoopAction R)} (hs : s.ReservedIn isPassive fun _ => True)
    (hcs : Permitted (step isPassive) (RemovesRunningIn fun _ => True) s cs)
    (h : runAll (step isPassive) s cs = some t) :
    (t.ReservedIn isPassive fun _ => True) ∧
      ScoopSessions.Later s.toScoopSessions t.toScoopSessions := by
  refine run_preserves (fun u => (u.ReservedIn isPassive fun _ => True) ∧
    ScoopSessions.Later s.toScoopSessions u.toScoopSessions) (fun u action v hu hok hstep => ?_)
    ⟨hs, ScoopSessions.Later.refl _⟩ hcs h
  have hstepped := session_cases hu.1.sound hstep
  exact ⟨hu.1.step hok hstep, hu.2.trans (hstepped.later hu.1.sound)⟩

/-- When a session is executed, a session that is executed later has not started, and
neither have its siblings. -/
theorem not_running_of_executes (hs : s.ReservedIn isPassive fun _ => True)
    (hu : u.ReservedIn isPassive fun _ => True)
    (hlater : ScoopSessions.Later s.toScoopSessions u.toScoopSessions)
    (hx : s.Executes x) (hx' : u.Executes x') (hne : x ≠ x') (hcallee : u.callee x = u.callee x')
    (hy' : y' ∈ u.siblings x') : s.isRunning y' = false := by
  by_contra hrunning
  rw [Bool.not_eq_false] at hrunning
  have hsubmitted : s.isSubmitted y' = true := by
    by_contra hnew
    have hnot := (hs.sound.typed.unsubmitted (Bool.eq_false_iff.mpr hnew)).2.2
    exact absurd (hrunning.symm.trans hnot) (by simp)
  -- `x'` is a sibling of `y'` already.
  have hx'submitted := (hu.sound.typed.first hx'.1).2
  have hx'mem : x' ∈ y' :: s.siblings y' := by
    rw [← hlater.siblings hsubmitted]
    exact hu.sound.grouped.mem_siblings_self (hu.sound.typed.created hx'submitted)
      (mem_cons_of_mem x' hy')
  have hgroup := hs.sound.grouped y' (hs.sound.typed.created hsubmitted)
  have hx'old := (hgroup.submitted x' hx'mem).trans hsubmitted
  have hx'running := (hgroup.running x' hx'mem).trans hrunning
  have hx'freed : s.isFreed x' = false := by
    by_contra hfreed
    have hgone := hlater.freed hx'old (Bool.not_eq_false _ ▸ hfreed)
    exact absurd (hgone.symm.trans (hu.not_freed_of_first trivial hx'.1)) (by simp)
  have hfirst := hs.first_of_running trivial hx'old hx'freed hx'running
  have hsame : s.callee x' = s.callee x := by
    rw [← hlater.callee (hs.sound.typed.created hx'old),
      ← hlater.callee (hs.sound.typed.created (hs.sound.typed.first hx.1).2), hcallee]
  rw [hsame, hx.1] at hfirst
  exact hne (Option.some.inj hfirst)

end

/-- In a run, the callee of two sessions executes the first one before the second. -/
def ExecutesInOrder (isPassive : R → Bool) (s : Scoop R) (cs : List (ScoopAction R))
    (x x' : Nat) : Prop :=
  ∃ i j u v, i ≤ j ∧ runAll (step isPassive) s (cs.take i) = some u ∧
    runAll (step isPassive) s (cs.take j) = some v ∧ u.Executes x ∧ v.Executes x'

/-- As long as every session that is removed is running and was not removed before,
reservation is atomic, and two multisessions are executed in the same order by any two
callees they share. -/
theorem reservation_atomic (isPassive : R → Bool) (r : R) {cs : List (ScoopAction R)} {t : Scoop R}
    (hcs : Permitted (step isPassive) (RemovesRunningIn fun _ => True) (init r) cs)
    (h : runAll (step isPassive) (init r) cs = some t) :
    (∀ x, t.isSubmitted x = true → t.Reserved x) ∧
      ∀ x y x' y', y ∈ t.siblings x → y' ∈ t.siblings x' → x ≠ x' → t.callee x = t.callee x' →
        t.callee y = t.callee y' →
        ¬(ExecutesInOrder isPassive (init r) cs x x' ∧
          ExecutesInOrder isPassive (init r) cs y' y) := by
  have hinit := reservedIn_init isPassive (fun _ => True) r
  have hlast := (reservedIn_run hinit hcs h).1
  refine ⟨fun x hx => hlast.reserved hx, ?_⟩
  -- Every state of the run has its invariant, and leads to the last one.
  have hstate : ∀ {i u}, runAll (step isPassive) (init r) (cs.take i) = some u →
      (u.ReservedIn isPassive fun _ => True) := by
    intro i u hu
    obtain ⟨ds, hds, hrun⟩ := exists_run_between hcs (Nat.zero_le i) rfl hu
    exact (reservedIn_run hinit hds hrun).1
  have hbetween : ∀ {i j u v}, i ≤ j → runAll (step isPassive) (init r) (cs.take i) = some u →
      runAll (step isPassive) (init r) (cs.take j) = some v →
      ScoopSessions.Later u.toScoopSessions v.toScoopSessions := by
    intro i j u v hij hu hv
    obtain ⟨ds, hds, hrun⟩ := exists_run_between hcs hij hu hv
    exact (reservedIn_run (hstate hu) hds hrun).2
  have hend : ∀ {i u}, runAll (step isPassive) (init r) (cs.take i) = some u →
      ScoopSessions.Later u.toScoopSessions t.toScoopSessions := by
    intro i u hu
    have htake : cs.take (max i cs.length) = cs := take_of_length_le (Nat.le_max_right _ _)
    exact hbetween (Nat.le_max_left i cs.length) hu (htake.symm ▸ h)
  -- The siblings of the session that is executed later have not started.
  have hwaiting : ∀ {i j u v x x' y'}, i ≤ j →
      runAll (step isPassive) (init r) (cs.take i) = some u →
      runAll (step isPassive) (init r) (cs.take j) = some v → u.Executes x → v.Executes x' →
      x ≠ x' → t.callee x = t.callee x' → y' ∈ t.siblings x' → u.isRunning y' = false := by
    intro i j u v x x' y' hij hu hv hx hx' hne hcallee hy'
    have hxsubmitted := ((hstate hu).sound.typed.first hx.1).2
    have hx'submitted := ((hstate hv).sound.typed.first hx'.1).2
    refine not_running_of_executes (hstate hu) (hstate hv) (hbetween hij hu hv) hx hx' hne ?_ ?_
    · have htyped := (hstate hv).sound.typed
      rw [← (hend hv).callee (htyped.created ((hbetween hij hu hv).submitted hxsubmitted)),
        ← (hend hv).callee (htyped.created hx'submitted), hcallee]
    · rw [← (hend hv).siblings hx'submitted]
      exact hy'
  rintro x y x' y' hy hy' hne hcallee hcallee' ⟨⟨i, j, u, v, hij, hu, hv, hx, hx'⟩,
    i', j', u', v', hij', hu', hv', hyx', hyx⟩
  have hxcreated := hlast.sound.typed.created
    ((hend hu).submitted ((hstate hu).sound.typed.first hx.1).2)
  have hx'created := hlast.sound.typed.created
    ((hend hv).submitted ((hstate hv).sound.typed.first hx'.1).2)
  have hgroup := hlast.sound.grouped x hxcreated
  have hgroup' := hlast.sound.grouped x' hx'created
  have hxmem : x ∈ t.siblings y := by
    have hmem := hlast.sound.grouped.mem_siblings_self hxcreated (mem_cons_of_mem x hy)
    refine (mem_cons.mp hmem).resolve_left ?_
    rintro rfl
    exact hgroup.notMem hy
  have hne' : y' ≠ y := by
    rintro rfl
    have hmem := (hgroup.mem_iff hgroup' (mem_cons_of_mem x' hy')).mp
      (mem_cons_of_mem x hy)
    exact hne (inj_on_of_nodup_map hgroup.callees mem_cons_self hmem hcallee)
  have hywaiting := hwaiting hij hu hv hx hx' hne hcallee hy'
  have hxwaiting := hwaiting hij' hu' hv' hyx' hyx hne' hcallee'.symm hxmem
  rcases Nat.le_total i i' with hle | hle
  · have hrunning := (hbetween hle hu hu').running hx.2
    exact absurd (hrunning.symm.trans hxwaiting) (by simp)
  · have hrunning := (hbetween hle hu' hu).running hyx'.2
    exact absurd (hrunning.symm.trans hywaiting) (by simp)

theorem reservation_atomic_multisession :
    Permitted (step fun _ => false) (RemovesRunningIn fun _ => True) (init 1) multisessionRun ∧
      ∃ t, runAll (step fun _ => false) (init 1) multisessionRun = some t ∧ t.Reserved 0 ∧
        t.siblings 0 = [1] ∧ t.isFreed 0 = true ∧ t.isFreed 1 = false ∧ t.isRunning 1 = true := by
  have hcs : Permitted (step fun _ => false) (RemovesRunningIn fun _ => True) (init 1)
      multisessionRun :=
    ⟨trivial, trivial, trivial, trivial, trivial, trivial, trivial, trivial, trivial, trivial,
      trivial, trivial, trivial, trivial, trivial, trivial, trivial, trivial, trivial, trivial,
      trivial, trivial, trivial, trivial, trivial, trivial, trivial, trivial,
      fun _ => ⟨rfl, rfl⟩, trivial, trivial⟩
  refine ⟨hcs, _, rfl, (reservation_atomic _ 1 hcs rfl).1 0 rfl, ?_⟩
  exact ⟨rfl, rfl, rfl, rfl⟩

/-- A multisession with the passive region 5 and the active region 9, which is busy. Its
only call is for region 9, and its session with region 5 is closed first. -/
def earlyCloseRun : List (ScoopAction Nat) :=
  [.sessionOpen 1 9 none, .sessionAddCall 0, .proceed (.caller 1), .proceed (.caller 1),
    .start (.processor 9) 9, .proceed (.processor 9),
    .sessionOpen 2 5 none, .sessionOpen 2 9 (some 1), .sessionAddCall 2, .proceed (.caller 2),
    .sessionClose 1, .proceed (.caller 2)]

/-- The session with the passive region is removed while its sibling is waiting. -/
theorem closed_sibling_not_reserved :
    ∃ t, runAll (step fun r => r == 5) (init 0) earlyCloseRun = some t ∧
      t.multisessionsMutex = none ∧ t.isSubmitted 1 = true ∧ t.isFreed 1 = true ∧
      ¬t.Reserved 1 := by
  refine ⟨_, rfl, rfl, rfl, rfl, ?_⟩
  rintro (hwaiting | hrunning)
  · obtain ⟨-, xs, hchain, hmem⟩ := hwaiting 1 mem_cons_self
    obtain rfl : xs = [] := Chain.eq_nil_of_none hchain
    exact absurd hmem not_mem_nil
  · have hsibling := hrunning 2 (mem_cons_of_mem 1 mem_cons_self) rfl
    exact nomatch hsibling.1

end Scoop

end Gobo
