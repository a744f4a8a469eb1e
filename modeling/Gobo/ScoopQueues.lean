/-
The sessions of a region with promotions: a list whose second session may not know the
first one while that one is running.
-/
import Gobo.ScoopLists

namespace Gobo

open List Function

namespace Scoop

variable {R : Type} [DecidableEq R]

/-- The candidates before `c` have to wait. -/
def Passed (s : Scoop R) (xs : List Nat) (c : Option Nat) : Prop :=
  ∃ front back, xs = front ++ back ∧ c = back.head? ∧ ∀ y ∈ front, s.mustWait y = true

/-- The sessions of a region form a list, and a promotion has looked at the first of
them. -/
def QueuedAt (s : Scoop R) (r : R) : Prop :=
  ∃ xs, ScoopSessions.Queued s.toScoopSessions r (s.FirstRuns r) xs ∧
    ∀ a c, s.phase a = .promoting r c → s.Passed xs c

/-- In the regions `P`, a session that was removed is neither promoted nor removed, and
a removed session knows the one before it. -/
def SafeIn (P : R → Prop) (s : Scoop R) : ScoopAction R → Prop
  | .proceed a =>
      match s.phase a with
      | .promoting _ (some x) => ∀ y ∈ s.promotes x, P (s.callee y) → s.isFreed y = false
      | .remove x => P (s.callee x) → s.isFreed x = false ∧
          (s.previous x = none → s.firstSession (s.callee x) = some x)
      | _ => True
  | _ => True

section

variable {isPassive : R → Bool} {s t : Scoop R} {a b : ScoopAgent R} {p : ScoopPhase R}
  {r q : R} {c : Option Nat} {x : Nat} {xs ys : List Nat} {P : R → Prop} {m : ScoopSessions R}

theorem Sound.mutex_eq (hs : s.Sound isPassive) (ha : s.phase a = .promoting r c) :
    s.multisessionsMutex = some a ∧ s.mutex r = some a := by
  have hphase := hs.phases a
  rw [ha] at hphase
  exact hphase.2

/-- A promotion goes on only where the mutex is locked. -/
theorem Sound.not_promoting (hs : s.Sound isPassive) (hfree : s.mutex r = none) :
    s.phase a ≠ .promoting r c := by
  intro ha
  exact nomatch hfree.symm.trans (hs.mutex_eq ha).2

theorem Sound.not_promoting_of_multi (hs : s.Sound isPassive)
    (hmulti : s.multisessionsMutex = none) :
    s.phase a ≠ .promoting r c := by
  intro ha
  exact nomatch hmulti.symm.trans (hs.mutex_eq ha).1

/-- There is one promotion at a time. -/
theorem Sound.promoting_unique (hs : s.Sound isPassive) (ha : s.phase a = .promoting r c)
    {d : Option Nat} (hb : s.phase b = .promoting q d) : b = a :=
  Option.some.inj ((hs.mutex_eq hb).1.symm.trans (hs.mutex_eq ha).1)

omit [DecidableEq R] in
theorem mustWait_congr (hrunning : t.isRunning x = s.isRunning x)
    (hnext : t.nextSibling x = s.nextSibling x) : t.mustWait x = s.mustWait x := by
  rw [mustWait, mustWait, ScoopSessions.isMultisession, ScoopSessions.isMultisession, hrunning,
    hnext]

omit [DecidableEq R] in
theorem mustWait_eq_true (h : s.mustWait x = true) :
    s.isRunning x = false ∧ s.isMultisession x = true := by
  rw [mustWait, Bool.and_eq_true, Bool.not_eq_true'] at h
  exact h

/-- Where nothing changes, promotions go on as before. -/
theorem QueuedAt.same (h : s.QueuedAt r) (hs : s.Sound isPassive)
    (hsame : ScoopSessions.SameAt s.toScoopSessions t.toScoopSessions r)
    (hnext : t.nextSibling = s.nextSibling)
    (hphase : ∀ b c, t.phase b = .promoting r c → s.phase b = .promoting r c) : t.QueuedAt r := by
  obtain ⟨xs, hq, hpassed⟩ := h
  refine ⟨xs, (hsame.queued hq).mono (hsame.firstRuns hs.typed).mpr, fun b c hb => ?_⟩
  obtain ⟨front, back, heq, hc, hwait⟩ := hpassed b c (hphase b c hb)
  refine ⟨front, back, heq, hc, fun y hy => ?_⟩
  have hmem : y ∈ xs := heq ▸ mem_append_left back hy
  rw [mustWait_congr (hsame.running y ((hq.mem_iff y).mp hmem).1) (congrFun hnext y)]
  exact hwait y hy

theorem QueuedAt.of_eq (h : s.QueuedAt r) (hs : s.Sound isPassive)
    (heq : t.toScoopSessions = s.toScoopSessions)
    (hphase : ∀ b c, t.phase b = .promoting r c → s.phase b = .promoting r c) : t.QueuedAt r :=
  h.same hs (heq ▸ ScoopSessions.SameAt.refl _ r) (by rw [heq]) hphase

/-- A thread that does not promote after its step. -/
theorem promoting_of_update (h : update s.phase a p b = .promoting r c)
    (hp : ∀ q d, p ≠ .promoting q d) : s.phase b = .promoting r c := by
  by_cases hba : b = a
  · subst hba
    rw [update_self] at h
    exact absurd h (hp r c)
  · rwa [update_of_ne hba] at h

omit [DecidableEq R] in
/-- If the list of a region gets longer, its first session stays first. -/
theorem firstRuns_append {m m' : ScoopSessions R} {stale stale' : Prop}
    (hq : ScoopSessions.Queued m r stale xs) (hq' : ScoopSessions.Queued m' r stale' (xs ++ ys))
    (hrunning : m'.isRunning = m.isRunning) (h : m.FirstRuns r) : m'.FirstRuns r := by
  obtain ⟨x, hx, hrun⟩ := h
  refine ⟨x, ?_, hrunning ▸ hrun⟩
  obtain ⟨zs, rfl⟩ := head?_eq_some_iff.mp (hq.first_eq.symm.trans hx)
  exact hq'.first_eq

/-- Sessions are submitted to a region in which nothing is promoted. -/
theorem QueuedAt.submitAll (h : s.QueuedAt r) (hs : s.Sound isPassive) (hnodup : ys.Nodup)
    (hys : ∀ y ∈ ys, y < s.created ∧ s.isSubmitted y = false ∧ s.isFreed y = false)
    (hsessions : t.toScoopSessions = s.submitAll ys)
    (hphase : ∀ b c, t.phase b ≠ .promoting r c) : t.QueuedAt r := by
  obtain ⟨xs, hq, -⟩ := h
  have hq' := hq.submitAll hs.typed hnodup hys
  have hall := hs.typed.submitAll fun y hy => (hys y hy).1
  have hmono := hq'.mono (firstRuns_append hq hq' hall.isRunning)
  rw [← hsessions] at hmono
  exact ⟨_, hmono, fun b c hb => absurd hb (hphase b c)⟩

omit [DecidableEq R] in
/-- The first session of a region is run. -/
theorem QueuedAt.run (h : s.QueuedAt r) (hx : s.firstSession (s.callee x) = some x)
    (hsessions : t.toScoopSessions = s.run x) (hphase : ∀ b c, t.phase b ≠ .promoting r c) :
    t.QueuedAt r := by
  obtain ⟨xs, hq, -⟩ := h
  refine ⟨xs, ?_, fun b c hb => absurd hb (hphase b c)⟩
  rw [hsessions]
  refine (hq.run hx).mono ?_
  rintro ⟨y, hy, hrunning⟩
  refine ⟨y, hy, ?_⟩
  by_cases hyx : y = x
  · subst hyx
    exact update_self _ _ _
  · exact (update_of_ne hyx _ _).trans hrunning

/-- A session is removed from a region in which nothing is promoted. -/
theorem QueuedAt.remove (h : s.QueuedAt (s.callee x)) (hsubmitted : s.isSubmitted x = true)
    (hfreed : s.isFreed x = false)
    (hprevious : s.previous x = none → s.firstSession (s.callee x) = some x)
    (hsessions : t.toScoopSessions = s.remove x)
    (hphase : ∀ b c, t.phase b ≠ .promoting (s.callee x) c) : t.QueuedAt (s.callee x) := by
  obtain ⟨xs, hq, -⟩ := h
  have hx := (hq.mem_iff x).mpr ⟨rfl, hsubmitted, hfreed⟩
  have hq' := hq.remove hx hprevious
  suffices hruns : s.FirstRuns (s.callee x) ∧ s.firstSession (s.callee x) ≠ some x →
      (s.remove x).FirstRuns (s.callee x) by
    have hmono := hq'.mono hruns
    rw [← hsessions] at hmono
    exact ⟨_, hmono, fun b c hb => absurd hb (hphase b c)⟩
  rintro ⟨⟨y, hy, hrunning⟩, hne⟩
  refine ⟨y, ?_, ?_⟩
  · obtain ⟨zs, rfl⟩ := head?_eq_some_iff.mp (hq.first_eq.symm.trans hy)
    have hyx : (y == x) = false := by
      rw [beq_eq_false_iff_ne]
      rintro rfl
      exact hne hy
    rw [hq'.first_eq, erase_cons_tail (by simp [hyx])]
    rfl
  · rw [ScoopSessions.remove_eq]
    exact hrunning

omit [DecidableEq R] in
/-- If a promotion has passed a session, then none of the region is running. -/
theorem Passed.first_or (h : s.Passed xs (some x))
    (hq : ScoopSessions.Queued s.toScoopSessions r (s.FirstRuns r) xs) :
    x ∈ xs ∧ (s.firstSession r = some x ∨ ¬s.FirstRuns r) := by
  obtain ⟨front, back, rfl, hc, hwait⟩ := h
  obtain ⟨zs, rfl⟩ := head?_eq_some_iff.mp hc.symm
  refine ⟨mem_append_right front mem_cons_self, ?_⟩
  cases front with
  | nil => exact Or.inl hq.first_eq
  | cons w front =>
      refine Or.inr ?_
      rintro ⟨y, hy, hrunning⟩
      obtain rfl : w = y := Option.some.inj (hq.first_eq.symm.trans hy)
      have hnot := (mustWait_eq_true (hwait w mem_cons_self)).1
      exact absurd (hrunning.symm.trans hnot) (by simp)

omit [DecidableEq R] in
/-- What a promotion finds out about the siblings of a candidate. -/
theorem areReady_iff (h : m.areReady ys = some true) :
    ∀ y ∈ ys, m.firstSession (m.callee y) = some y ∨ ¬m.FirstRuns (m.callee y) := by
  induction ys with
  | nil => exact fun y hy => absurd hy not_mem_nil
  | cons z ys ih =>
      obtain ⟨busy, hbusy, h⟩ := Option.bind_eq_some_iff.mp h
      split at h
      case isTrue => exact nomatch h
      case isFalse hfree =>
          refine forall_mem_cons.mpr ⟨?_, ih h⟩
          rw [ScoopSessions.isBusy] at hbusy
          split at hbusy
          case isTrue hfirst => exact Or.inl hfirst
          case isFalse =>
              refine Or.inr ?_
              rintro ⟨y, hy, hrunning⟩
              rw [hy, Option.map_some, hrunning] at hbusy
              exact hfree (Option.some.inj hbusy).symm

/-- Sessions are promoted that are ready. -/
theorem QueuedAt.promoteAll (h : s.QueuedAt r) (hs : s.Sound isPassive)
    (hys : ∀ y ∈ ys, s.isSubmitted y = true) (hdistinct : (ys.map s.callee).Nodup)
    (hready : ∀ y ∈ ys, s.callee y = r → s.isFreed y = false ∧
      (s.firstSession r = some y ∨ ¬s.FirstRuns r))
    (hrun : s.promoteAll ys = some m) (hsessions : t.toScoopSessions = m)
    (hphase : ∀ b c, t.phase b ≠ .promoting r c) : t.QueuedAt r := by
  obtain ⟨xs, hq, -⟩ := h
  have hmem : ∀ y ∈ ys, s.callee y = r → y ∈ xs ∧ (s.firstSession r = some y ∨ ¬s.FirstRuns r) := by
    intro y hy hr
    obtain ⟨hfreed, hfree⟩ := hready y hy hr
    exact ⟨(hq.mem_iff y).mpr ⟨hr, hys y hy, hfreed⟩, hfree⟩
  subst hsessions
  rcases hq.promoteAll hs.typed hys hdistinct hmem hrun with ⟨-, hq'⟩ | ⟨y, -, -, hq'⟩
  · exact ⟨_, hq', fun b c hb => absurd hb (hphase b c)⟩
  · exact ⟨_, hq', fun b c hb => absurd hb (hphase b c)⟩

omit [DecidableEq R] in
/-- The candidate of a promotion is in the list, and may be put first. -/
theorem QueuedAt.candidate (h : s.QueuedAt r) (ha : s.phase a = .promoting r (some x)) :
    s.isFreed x = false ∧ (s.firstSession r = some x ∨ ¬s.FirstRuns r) := by
  obtain ⟨xs, hq, hpassed⟩ := h
  obtain ⟨hmem, hfree⟩ := (hpassed a _ ha).first_or hq
  exact ⟨((hq.mem_iff x).mp hmem).2.2, hfree⟩

theorem Sound.not_promoting_unlock (hs : s.Sound isPassive) (ha : s.phase a = .promoting q c)
    (b : ScoopAgent R) (d : Option Nat) : (s.unlock a q m).phase b ≠ .promoting r d := by
  intro hb
  have hphase : update s.phase a (.promoted q) b = .promoting r d := hb
  by_cases hba : b = a
  · rw [hba, update_self] at hphase
    exact nomatch hphase
  · rw [update_of_ne hba] at hphase
    exact hba (hs.promoting_unique ha hphase)

theorem QueuedAt.client {action : ScoopAction R} (h : s.QueuedAt r) (hs : s.Sound isPassive)
    (hstep : ClientStep isPassive s action t) : t.QueuedAt r := by
  cases hstep with
  | nothing => exact h
  | rooted => exact h.of_eq hs rfl fun _ _ hb => hb
  | @opened k q sibling hidle hne hlocked hsibling =>
      obtain ⟨xs, hq, hpassed⟩ := h
      refine ⟨xs, (hq.newSession hs.typed k q sibling).mono ?_, fun b c hb => ?_⟩
      · rintro ⟨y, hy, hrunning⟩
        have hne : y ≠ s.created := Nat.ne_of_lt (hs.typed.created (hs.typed.first hy).2)
        exact ⟨y, hy, (update_of_ne hne _ _).trans hrunning⟩
      · obtain ⟨front, back, heq, hc, hwait⟩ := hpassed b c hb
        refine ⟨front, back, heq, hc, fun y hy => ?_⟩
        have hsubmitted := ((hq.mem_iff y).mp (heq ▸ mem_append_left back hy)).2.1
        have hne : y ≠ s.created := Nat.ne_of_lt (hs.typed.created hsubmitted)
        rw [mustWait_congr (s := s) (update_of_ne hne _ _) ?_]
        · exact hwait y hy
        · cases sibling with
          | none => exact update_of_ne hne _ _
          | some z =>
              have hnew := (hs.joinable hlocked (hsibling z rfl)).unsubmitted
              have hyz : y ≠ z := by
                rintro rfl
                exact absurd (hsubmitted.symm.trans hnew) (by simp)
              exact (update_of_ne hyz _ _).trans (update_of_ne hne _ _)
  | locked => exact h.of_eq hs rfl fun _ _ hb => hb
  | added hidle hopen hafter =>
      refine h.of_eq hs rfl fun b c hb => promoting_of_update hb ?_
      cases hafter <;> exact fun _ _ heq => nomatch heq
  | pushed hidle hopen hwaiting hafter =>
      refine h.of_eq hs rfl fun b c hb => promoting_of_update hb ?_
      cases hafter <;> exact fun _ _ heq => nomatch heq
  | unlocked => exact h.of_eq hs rfl fun _ _ hb => hb
  | freed hidle hopen hnew =>
      obtain ⟨xs, hq, hpassed⟩ := h
      exact ⟨xs, hq.free hnew, hpassed⟩
  | closed hidle hopen hold hafter =>
      refine h.of_eq hs rfl fun b c hb => promoting_of_update hb ?_
      cases hafter <;> exact fun _ _ heq => nomatch heq

theorem ThreadStep.queuedIn (h : ∀ r, P r → s.QueuedAt r) (hs : s.Sound isPassive)
    (hphase : s.phase a = p) (hok : s.SafeIn P (.proceed a)) (hstep : ThreadStep isPassive s a p t)
    (hr : P r) : t.QueuedAt r := by
  have ha := hs.phases a
  rw [SafeIn] at hok
  rw [hphase] at ha hok
  have hquiet : ∀ {p' : ScoopPhase R}, t.toScoopSessions = s.toScoopSessions →
      t.phase = update s.phase a p' → (∀ q d, p' ≠ .promoting q d) → t.QueuedAt r := by
    intro p' hsessions hgoto hp'
    refine (h r hr).of_eq hs hsessions fun b c hb => ?_
    rw [hgoto] at hb
    exact promoting_of_update hb hp'
  cases hstep with
  | @submittedAll x hmulti hfree =>
      refine (h r hr).submitAll hs (hs.grouped x ha.created).nodup (hs.fresh ha)
        rfl fun b c hb => ?_
      exact hs.not_promoting_of_multi hmulti
        (promoting_of_update hb fun _ _ heq => by cases heq)
  | @submitted x hfree =>
      have hgoto : ∀ b c, update s.phase a
          (if isPassive (s.callee x) then .wakeup (s.callee x) else .idle) b = .promoting r c →
          s.phase b = .promoting r c := by
        intro b c hb
        refine promoting_of_update hb fun q d heq => ?_
        split at heq <;> cases heq
      by_cases hxr : s.callee x = r
      · have hfresh : ∀ y ∈ [x], y < s.created ∧ s.isSubmitted y = false ∧ s.isFreed y = false :=
          fun y hy => hs.fresh ha.1 y (mem_cons.mpr (Or.inl (mem_singleton.mp hy)))
        refine (h r hr).submitAll hs (nodup_singleton x) hfresh rfl fun b c hb => ?_
        exact hs.not_promoting (hxr ▸ hfree) (hgoto b c hb)
      · have hnext : (s.submit x).nextSibling = s.nextSibling := by rw [ScoopSessions.submit_eq]
        exact (h r hr).same hs (hs.typed.sameAt_submit x hxr) hnext hgoto
  | @ran q x _ hp hfree hfirst hready =>
      obtain ⟨hq, -⟩ := hs.typed.first hfirst
      have hgoto : ∀ b c, update s.phase a (.execute x) b = .promoting r c →
          s.phase b = .promoting r c :=
        fun b c hb => promoting_of_update hb fun _ _ heq => by cases heq
      by_cases hqr : q = r
      · refine (h r hr).run (hq.symm ▸ hfirst) rfl fun b c hb => ?_
        exact hs.not_promoting (hqr ▸ hfree) (hgoto b c hb)
      · have hne : s.callee x ≠ r := fun heq => hqr (hq.symm.trans heq)
        exact (h r hr).same hs (ScoopSessions.sameAt_run _ x hne) rfl hgoto
  | @locked q hmulti hfree =>
      obtain ⟨xs, hq, -⟩ := h r hr
      refine ⟨xs, hq, fun b c hb => ?_⟩
      by_cases hba : b = a
      · subst hba
        have hpromoting : update s.phase b (.promoting q (s.firstSession q)) b =
            .promoting r c := hb
        rw [update_self] at hpromoting
        injection hpromoting with hqr hc
        subst hqr
        exact ⟨[], xs, rfl, hc.symm.trans hq.first_eq, fun y hy => absurd hy not_mem_nil⟩
      · have hb : s.phase b = .promoting r c := (update_of_ne hba _ _).symm.trans hb
        exact absurd hb (hs.not_promoting_of_multi hmulti)
  | @gaveUp q => exact hquiet rfl rfl fun _ _ heq => by cases heq
  | @promoted q x m hready hpromote =>
      obtain ⟨hq, hsubmitted⟩ := ha.1.2 x rfl
      rw [← ScoopSessions.promoteAll_singleton] at hpromote
      refine (h r hr).promoteAll hs (forall_mem_singleton.mpr hsubmitted)
        (nodup_singleton _) (forall_mem_singleton.mpr fun hxr => ?_) hpromote rfl
        (hs.not_promoting_unlock hphase)
      exact (h r hr).candidate (hq.symm.trans hxr ▸ hphase)
  | @promotedAll q x m hwait hfree hready hpromote =>
      obtain ⟨hq, hsubmitted⟩ := ha.1.2 x rfl
      have hgroup := hs.grouped x (hs.typed.created hsubmitted)
      have hpromotes : s.promotes x = x :: s.siblings x := by simp [promotes, hwait, hready]
      refine (h r hr).promoteAll hs (fun y hy => (hgroup.submitted y hy).trans hsubmitted)
        hgroup.callees (forall_mem_cons.mpr ⟨fun hxr => ?_, fun y hy hyr => ?_⟩) hpromote rfl
        (hs.not_promoting_unlock hphase)
      · exact (h r hr).candidate (hq.symm.trans hxr ▸ hphase)
      · refine ⟨hok y (hpromotes ▸ mem_cons_of_mem x hy) (hyr ▸ hr), ?_⟩
        exact hyr ▸ areReady_iff hready y hy
  | @passed q x hwait hbusy =>
      obtain ⟨xs, hq, hpassed⟩ := h r hr
      refine ⟨xs, hq, fun b c hb => ?_⟩
      by_cases hba : b = a
      · subst hba
        have hpromoting : update s.phase b (.promoting q (s.next x)) b =
            .promoting r c := hb
        rw [update_self] at hpromoting
        injection hpromoting with hqr hc
        subst hqr
        obtain ⟨front, back, heq, hx, hpassed⟩ := hpassed b _ hphase
        obtain ⟨zs, rfl⟩ := head?_eq_some_iff.mp hx.symm
        have hnext : s.next x = zs.head? := by
          rw [heq] at hq
          exact hq.linked.next_eq
        refine ⟨front ++ [x], zs, by rw [heq, append_assoc]; rfl, hc.symm.trans hnext,
          fun y hy => ?_⟩
        rcases mem_append.mp hy with hy | hy
        · exact hpassed y hy
        · exact mem_singleton.mp hy ▸ hwait
      · exact hpassed b c ((update_of_ne hba _ _).symm.trans hb)
  | @removed x hfree =>
      have hgoto : ∀ b c, update s.phase a (.decrement x) b = .promoting r c →
          s.phase b = .promoting r c :=
        fun b c hb => promoting_of_update hb fun _ _ heq => by cases heq
      by_cases hxr : s.callee x = r
      · subst hxr
        obtain ⟨hfreed, hprevious⟩ := hok hr
        refine (h _ hr).remove ha.submitted hfreed hprevious rfl fun b c hb => ?_
        exact hs.not_promoting hfree (hgoto b c hb)
      · have hnext : (s.remove x).nextSibling = s.nextSibling := by rw [ScoopSessions.remove_eq]
        exact (h r hr).same hs (hs.typed.sameAt_remove x hxr) hnext hgoto
  | counted => exact hquiet rfl rfl fun _ _ heq => by cases heq
  | rested => exact hquiet rfl rfl fun _ _ heq => by cases heq
  | waited => exact hquiet rfl rfl fun _ _ heq => by cases heq
  | popped => exact hquiet rfl rfl fun _ _ heq => by cases heq
  | stayed => exact h r hr
  | ended => exact hquiet rfl rfl fun _ _ heq => by cases heq
  | left => exact hquiet rfl rfl fun _ _ heq => by cases heq
  | performed => exact hquiet rfl rfl fun _ _ heq => by cases heq
  | foundClosed => exact hquiet rfl rfl fun _ _ heq => by cases heq
  | foundOpen => exact hquiet rfl rfl fun _ _ heq => by cases heq
  | uncounted =>
      refine hquiet rfl rfl fun q d heq => ?_
      split at heq <;> cases heq

/-- Lists stay lists if the step is safe. -/
theorem QueuedAt.step {action : ScoopAction R} (h : ∀ r, P r → s.QueuedAt r)
    (hs : s.Sound isPassive) (hok : s.SafeIn P action) (hstep : step isPassive s action = some t)
    (hr : P r) : t.QueuedAt r := by
  cases step_cases hstep with
  | client hclient => exact (h r hr).client hs hclient
  | started => exact (h r hr).of_eq hs rfl fun b c hb => promoting_of_update hb fun _ _ heq =>
    nomatch heq
  | proceeded hthread => exact hthread.queuedIn h hs rfl hok hr

omit [DecidableEq R] in
theorem queuedAt_init (q r : R) : (init q).QueuedAt r := by
  refine ⟨[], ⟨⟨rfl, rfl, Or.inl trivial⟩, fun x => ?_, fun x hx => ?_⟩, fun _ _ ha => nomatch ha⟩
  · exact ⟨fun hx => absurd hx not_mem_nil, fun hx => nomatch hx.2.1⟩
  · exact absurd hx not_mem_nil

end

end Scoop

end Gobo
