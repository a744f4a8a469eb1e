/-
The count of sessions in any run of the SCOOP runtime whose regions are active: each session
is counted, submitted, removed and counted no more, each of these once and in this order.
-/
import Gobo.ScoopActive

namespace Gobo

open List Function

namespace Scoop

/-- What happens to a session, in this order. -/
def life (x : Nat) : List ScoopEvent :=
  [.counted x, .submitted x, .removed x, .uncounted x]

def isLife (x : Nat) (e : ScoopEvent) : Bool := decide (e ∈ life x)

def countedSession : ScoopEvent → Option Nat
  | .counted x => some x
  | _ => none

def uncountedSession : ScoopEvent → Option Nat
  | .uncounted x => some x
  | _ => none

variable {R : Type} [DecidableEq R]

/-- How many of the events of its life have happened to a session. -/
def stage (s : Scoop R) (x : Nat) : Nat :=
  if s.phase (.caller (s.caller x)) = .adding x then 1
  else if s.isSubmitted x = false then 0
  else if s.isFreed x = false then 2
  else if s.phase (.processor (s.callee x)) = .decrement x then 3
  else 4

/-- What a step adds to the log is the next part of the life of a session. -/
def Advances (x : Nat) (s t : Scoop R) : Prop :=
  ∃ es, t.log = s.log ++ es ∧
    (life x).take (s.stage x) ++ es.filter (isLife x) = (life x).take (t.stage x)

/-- The session of `main`, as long as it creates the root object. -/
def rootSessions (s : Scoop R) : Nat :=
  if s.isRootCreated then 0 else 1

/-- The sessions count does not wrap. -/
def CountFits (s : Scoop R) : ScoopAction R → Prop
  | .proceed a => ∀ x, s.phase a = .submitting x →
      s.sessionsCount + (x :: s.siblings x).length < 2 ^ 32
  | _ => True

/-- What happens to sessions, happens in this order. -/
structure Accounted (s : Scoop R) : Prop where
  life : ∀ x, s.log.filter (isLife x) = (life x).take (s.stage x)
  freed : ∀ {a : ScoopAgent R} {x : Nat}, s.phase a = .decrement x → s.isFreed x = true

/-- The count goes up and down with the sessions. -/
def Counts (s : Scoop R) : Prop :=
  s.sessionsCount + (s.log.filterMap uncountedSession).length =
    (s.log.filterMap countedSession).length + s.rootSessions

section

variable {isPassive : R → Bool} {s t : Scoop R} {a : ScoopAgent R} {p q : ScoopPhase R} {x y : Nat}
  {action : ScoopAction R} {es : List ScoopEvent}

/-- The phases that say nothing about the stage of a session. -/
def Quiet (x : Nat) (p : ScoopPhase R) : Prop := p ≠ .adding x ∧ p ≠ .decrement x

/-- The phases of the threads say the same about a session. -/
def SamePhases (x : Nat) (f g : ScoopAgent R → ScoopPhase R) : Prop :=
  ∀ b, (g b = .adding x ↔ f b = .adding x) ∧ (g b = .decrement x ↔ f b = .decrement x)

theorem samePhases_update {f : ScoopAgent R → ScoopPhase R} (hold : Quiet x (f a))
    (hnew : Quiet x p) : SamePhases x f (update f a p) := by
  intro b
  by_cases hba : b = a
  · rw [hba, update_self]
    exact ⟨iff_of_false hnew.1 hold.1, iff_of_false hnew.2 hold.2⟩
  · rw [update_of_ne hba]
    exact ⟨Iff.rfl, Iff.rfl⟩

/-- The sessions are the same for `x`. -/
def SameSession (x : Nat) (m m' : ScoopSessions R) : Prop :=
  m'.caller x = m.caller x ∧ m'.callee x = m.callee x ∧ m'.isSubmitted x = m.isSubmitted x ∧
    m'.isFreed x = m.isFreed x

theorem stage_congr (hsame : SameSession x s.toScoopSessions t.toScoopSessions)
    (hphases : SamePhases x s.phase t.phase) : t.stage x = s.stage x := by
  obtain ⟨hcaller, hcallee, hsubmitted, hfreed⟩ := hsame
  rw [stage, stage, hcaller, hcallee, hsubmitted, hfreed]
  simp only [(hphases _).1, (hphases _).2]

theorem advances_quiet (hlog : t.log = s.log ++ es) (hes : es.filter (isLife x) = [])
    (hsame : SameSession x s.toScoopSessions t.toScoopSessions)
    (hphases : SamePhases x s.phase t.phase) : Advances x s t :=
  ⟨es, hlog, by rw [hes, append_nil, stage_congr hsame hphases]⟩

theorem advances_of {m n : Nat} (hlog : t.log = s.log ++ es) (hold : s.stage x = m)
    (hnew : t.stage x = n) (hes : (life x).take m ++ es.filter (isLife x) = (life x).take n) :
    Advances x s t :=
  ⟨es, hlog, by rw [hold, hnew, hes]⟩

/-- A step that changes the phase of a thread, and no session. -/
theorem advances_goto (hlog : t.log = s.log ++ es) (hes : es.filter (isLife x) = [])
    (hsame : SameSession x s.toScoopSessions t.toScoopSessions) (hphase : s.phase a = p)
    (hupdate : t.phase = update s.phase a q) (hold : Quiet x p) (hnew : Quiet x q) :
    Advances x s t :=
  advances_quiet hlog hes hsame (hupdate ▸ samePhases_update (hphase ▸ hold) hnew)

omit [DecidableEq R] in
theorem sameSession_refl (x : Nat) (m : ScoopSessions R) : SameSession x m m :=
  ⟨rfl, rfl, rfl, rfl⟩

omit [DecidableEq R] in
theorem sameSession_of_eq {m m' : ScoopSessions R} (hcaller : m'.caller = m.caller)
    (hcallee : m'.callee = m.callee) (hsubmitted : m'.isSubmitted = m.isSubmitted)
    (hfreed : m'.isFreed = m.isFreed) : SameSession x m m' :=
  ⟨congrFun hcaller x, congrFun hcallee x, congrFun hsubmitted x, congrFun hfreed x⟩

omit [DecidableEq R] in
theorem AfterCall.quiet (h : AfterCall isPassive s y p) (x : Nat) : Quiet x p := by
  cases h <;> simp [Quiet]

omit [DecidableEq R] in
theorem AfterClose.quiet (h : AfterClose isPassive s y p) (x : Nat) : Quiet x p := by
  cases h <;> simp [Quiet]

omit [DecidableEq R] in
theorem quiet_next (b : Bool) (r : R) (x : Nat) :
    Quiet x (if b then .wakeup r else .idle : ScoopPhase R) := by
  split <;> simp [Quiet]

theorem Sound.adds (hs : s.Sound isPassive) (ha : s.phase a = .adding x) : s.Submits a x := by
  have hphase := hs.phases a
  rw [ha] at hphase
  exact hphase.1

theorem Sound.not_adding (hs : s.Sound isPassive) (hx : s.isSubmitted x = true)
    (a : ScoopAgent R) : s.phase a ≠ .adding x :=
  fun ha => absurd ((hs.adds ha).unsubmitted.symm.trans hx) (by simp)

theorem stage_adding (h : s.phase (.caller (s.caller x)) = .adding x) : s.stage x = 1 := if_pos h

theorem stage_unsubmitted (h : s.phase (.caller (s.caller x)) ≠ .adding x)
    (hx : s.isSubmitted x = false) : s.stage x = 0 := by
  rw [stage, if_neg h, if_pos hx]

theorem Sound.stage_submitted (hs : s.Sound isPassive) (hx : s.isSubmitted x = true) :
    s.stage x = if s.isFreed x = false then 2
      else if s.phase (.processor (s.callee x)) = .decrement x then 3 else 4 := by
  rw [stage, if_neg (hs.not_adding hx _), if_neg (by rw [hx]; simp)]

theorem ClientStep.advances (h : ClientStep isPassive s action t) (hs : s.Sound isPassive)
    (x : Nat) : Advances x s t := by
  have hquiet : Quiet x (.idle : ScoopPhase R) := by simp [Quiet]
  have hsame : SamePhases x s.phase s.phase := fun b => ⟨Iff.rfl, Iff.rfl⟩
  have hnil : s.log = s.log ++ [] := (append_nil _).symm
  have hrefl := sameSession_refl x s.toScoopSessions
  cases h with
  | nothing => exact advances_quiet hnil rfl hrefl hsame
  | rooted => exact advances_quiet hnil rfl hrefl hsame
  | locked hidle hopen => exact advances_quiet hnil rfl hrefl hsame
  | unlocked hidle hopen => exact advances_quiet hnil rfl hrefl hsame
  | added hidle hopen hafter =>
      exact advances_goto rfl rfl hrefl hidle rfl hquiet (hafter.quiet x)
  | pushed hidle hopen hwaiting hafter =>
      exact advances_goto rfl rfl hrefl hidle rfl hquiet (hafter.quiet x)
  | closed hidle hopen hold hafter =>
      exact advances_goto rfl rfl hrefl hidle rfl hquiet (hafter.quiet x)
  | @opened k r sibling hidle hne hlocked hsibling =>
      by_cases hx : x = s.created
      · -- Nothing has happened to a new session, and nothing happens to it now.
        have hphase : ∀ b, s.phase b ≠ .adding x :=
          fun b hb => absurd (hs.adds hb).created (by omega)
        have hnew : s.isSubmitted x = false :=
          Bool.eq_false_iff.mpr fun hsubmitted => absurd (hs.typed.created hsubmitted) (by omega)
        have hnew' : (s.addSession k r sibling).isSubmitted x = false :=
          hx ▸ update_self _ _ _
        exact advances_of hnil (stage_unsubmitted (hphase _) hnew)
          (stage_unsubmitted (hphase _) hnew') rfl
      · have hkeep : ∀ {B : Type} (f : Nat → B) (b : B), update f s.created b x = f x :=
          fun f b => update_of_ne hx _ _
        exact advances_quiet hnil rfl ⟨hkeep _ _, hkeep _ _, hkeep _ _, hkeep _ _⟩ hsame
  | @freed y hidle hopen hnew =>
      by_cases hxy : x = y
      · subst hxy
        have hphase : s.phase (.caller (s.caller x)) ≠ .adding x := by simp [hidle]
        exact advances_of rfl (stage_unsubmitted hphase hnew) (stage_unsubmitted hphase hnew) rfl
      · exact advances_quiet rfl rfl ⟨rfl, rfl, rfl, update_of_ne hxy _ _⟩ hsame

theorem filter_flatMap_life {xs : List Nat} (h : xs.Nodup) (x : Nat) :
    (xs.flatMap fun y => [ScoopEvent.counted y, .submitted y]).filter (isLife x) =
      if x ∈ xs then [.counted x, .submitted x] else [] := by
  induction xs with
  | nil => rfl
  | cons y xs ih =>
      obtain ⟨hy, hxs⟩ := nodup_cons.mp h
      rw [flatMap_cons, filter_append, ih hxs]
      by_cases hxy : x = y
      · subst hxy
        simp [isLife, life, hy]
      · simp [isLife, life, hxy, Ne.symm hxy]

theorem ThreadStep.advances (ha : s.ActiveSound isPassive)
    (hactive : ∀ r, isPassive r = false) (hc : s.Accounted) (hphase : s.phase a = p)
    (h : ThreadStep isPassive s a p t) (x : Nat) : Advances x s t := by
  have hs := ha.reserved.sound
  have ht : t.Sound isPassive := h.sound hs hphase
  have hsame : SamePhases x s.phase s.phase := fun b => ⟨Iff.rfl, Iff.rfl⟩
  have hnil : s.log = s.log ++ [] := (append_nil _).symm
  have hrefl := sameSession_refl x s.toScoopSessions
  cases h with
  | @counted y hsingle =>
      have hsubmits := hs.submits hphase
      by_cases hxy : x = y
      · subst hxy
        have hidle : s.phase (.caller (s.caller x)) ≠ .adding x := by
          rw [← hsubmits.agent, hphase]
          exact nofun
        have hadding : (s.countSession a x).phase (.caller (s.caller x)) = .adding x := by
          rw [← hsubmits.agent]
          exact update_self _ _ _
        refine advances_of rfl (stage_unsubmitted hidle hsubmits.unsubmitted)
          (stage_adding hadding) ?_
        simp [life, isLife]
      · refine advances_goto rfl ?_ hrefl hphase rfl ?_ ?_
        · simp [isLife, life, Ne.symm hxy]
        · simp [Quiet]
        · simp [Quiet, Ne.symm hxy]
  | @submittedAll y hmulti hfree =>
      have hsubmits := hs.submits hphase
      have hgroup := hs.grouped y hsubmits.created
      have hall := hs.typed.submitAll hgroup.created
      have hfilter := filter_flatMap_life hgroup.nodup x
      by_cases hx : x ∈ y :: s.siblings y
      · rw [if_pos hx] at hfilter
        obtain ⟨-, hnew, hkept⟩ := hs.fresh hsubmits x hx
        have hidle : s.phase (.caller (s.caller x)) ≠ .adding x := by
          rw [hgroup.caller x hx, ← hsubmits.agent, hphase]
          exact nofun
        refine advances_of rfl (stage_unsubmitted hidle hnew) (ht.stage_submitted ?_) ?_
        · rw [hall.isSubmitted, decide_eq_true hx, Bool.true_or]
        · rw [hfilter, if_pos (by rw [hall.isFreed]; exact hkept)]
          rfl
      · rw [if_neg hx] at hfilter
        refine advances_goto rfl hfilter ⟨?_, ?_, ?_, ?_⟩ hphase rfl ?_ ?_
        · rw [hall.caller]
        · rw [hall.callee]
        · rw [hall.isSubmitted, decide_eq_false hx, Bool.false_or]
        · rw [hall.isFreed]
        · simp [Quiet]
        · simp [Quiet]
  | @submitted y hfree =>
      have hsubmits := hs.adds hphase
      by_cases hxy : x = y
      · subst hxy
        obtain ⟨-, -, hkept⟩ := hs.fresh hsubmits x mem_cons_self
        refine advances_of rfl (stage_adding (hsubmits.agent ▸ hphase)) (ht.stage_submitted ?_) ?_
        · rw [ScoopSessions.submit_eq]
          exact update_self _ _ _
        · rw [if_pos (by rw [ScoopSessions.submit_eq]; exact hkept)]
          simp [life, isLife]
      · refine advances_goto rfl ?_ ?_ hphase rfl ?_ (quiet_next _ _ x)
        · simp [isLife, life, Ne.symm hxy]
        · rw [ScoopSessions.submit_eq]
          exact ⟨rfl, rfl, update_of_ne hxy _ _, rfl⟩
        · simp [Quiet, Ne.symm hxy]
  | rested hp hfree hwait =>
      refine advances_goto hnil rfl hrefl hphase rfl ?_ ?_
      · rcases hp with rfl | rfl <;> simp [Quiet]
      · simp [Quiet]
  | ran hp hfree hfirst hready =>
      refine advances_goto hnil rfl hrefl hphase rfl ?_ ?_
      · rcases hp with rfl | rfl <;> simp [Quiet]
      · simp [Quiet]
  | @promoted r y m hready hpromote =>
      have hphases := hs.phases a
      rw [hphase] at hphases
      have hp := hs.typed.promote (hphases.1.2 y rfl).2 hpromote
      exact advances_goto hnil rfl (sameSession_of_eq hp.caller hp.callee hp.isSubmitted hp.isFreed)
        hphase rfl (by simp [Quiet]) (by simp [Quiet])
  | @promotedAll r y m hwait hfree hready hpromote =>
      rw [← promotes_of_wait hwait hready] at hpromote
      have hp := hs.typed.promoteAll (hs.promotes hphase).1 hpromote
      exact advances_goto hnil rfl (sameSession_of_eq hp.caller hp.callee hp.isSubmitted hp.isFreed)
        hphase rfl (by simp [Quiet]) (by simp [Quiet])
  | stayed => exact advances_quiet hnil rfl hrefl hsame
  | waited | locked | gaveUp | passed | popped | ended | left | foundClosed | foundOpen =>
      exact advances_goto hnil rfl hrefl hphase rfl (by simp [Quiet]) (by simp [Quiet])
  | performed => exact advances_goto rfl rfl hrefl hphase rfl (by simp [Quiet]) (by simp [Quiet])
  | @removed y hfree =>
      have hcreated := hs.created_of_session (congrArg session hphase)
      by_cases hxy : x = y
      · subst hxy
        have hkept := (ha.runs (congrArg runningSession hphase) (hactive _)).2
        have hprocessor := hs.eq_processor (congrArg session hphase) (hactive _)
        refine advances_of rfl (hs.stage_submitted hcreated.1) (ht.stage_submitted ?_) ?_
        · rw [ScoopSessions.remove_eq]
          exact hcreated.1
        · rw [if_pos hkept, ScoopSessions.remove_eq]
          simp [life, isLife, ← hprocessor]
      · refine advances_goto rfl ?_ ?_ hphase rfl ?_ ?_
        · simp [isLife, life, Ne.symm hxy]
        · rw [ScoopSessions.remove_eq]
          exact ⟨rfl, rfl, rfl, update_of_ne hxy _ _⟩
        · simp [Quiet]
        · simp [Quiet, Ne.symm hxy]
  | @uncounted y =>
      have hcreated := hs.created_of_session (congrArg session hphase)
      by_cases hxy : x = y
      · subst hxy
        have hprocessor := hs.eq_processor (congrArg session hphase) (hactive _)
        have hfreed : s.isFreed x = true := hc.freed hphase
        refine advances_of rfl (hs.stage_submitted hcreated.1) (ht.stage_submitted hcreated.1) ?_
        have hleft := (quiet_next (isPassive (s.callee x)) (s.callee x) x).2
        simp [life, isLife, uncountSession, hfreed, ← hprocessor, hphase, hleft]
      · refine advances_goto rfl ?_ hrefl hphase rfl ?_ (quiet_next _ _ x)
        · simp [isLife, life, Ne.symm hxy]
        · simp [Quiet, Ne.symm hxy]

theorem filterMap_counted (xs : List Nat) : (xs.flatMap fun y =>
    [ScoopEvent.counted y, .submitted y]).filterMap countedSession = xs := by
  induction xs with
  | nil => rfl
  | cons y xs ih => exact congrArg (y :: ·) ih

theorem filterMap_uncounted (xs : List Nat) : (xs.flatMap fun y =>
    [ScoopEvent.counted y, .submitted y]).filterMap uncountedSession = [] := by
  induction xs with
  | nil => rfl
  | cons y xs ih => exact ih

theorem Accounted.advances (h : s.Accounted) (ha : s.ActiveSound isPassive)
    (hactive : ∀ r, isPassive r = false) (hstep : step isPassive s action = some t) (x : Nat) :
    Advances x s t := by
  cases step_cases hstep with
  | client hclient => exact hclient.advances ha.reserved.sound x
  | started hidle hserves =>
      refine advances_goto (append_nil _).symm rfl (sameSession_refl x _) hidle rfl ?_ ?_
      · simp [Quiet]
      · simp [Quiet]
  | proceeded hthread => exact hthread.advances ha hactive h rfl x

theorem Accounted.life_step (h : s.Accounted) (hadvances : Advances x s t) :
    t.log.filter (isLife x) = (Scoop.life x).take (t.stage x) := by
  obtain ⟨es, hlog, hes⟩ := hadvances
  rw [hlog, filter_append, h.life, hes]

theorem Accounted.freed_step (h : s.Accounted) (hs : s.Sound isPassive)
    (hstep : step isPassive s action = some t) (ha : t.phase a = .decrement x) :
    t.isFreed x = true := by
  have hlater := (session_cases hs hstep).later hs
  have hentered := enters hs hstep a
  generalize t.phase a = p at ha hentered
  cases hentered with
  | kept => exact hlater.freed (hs.created_of_session (congrArg session ha)).1 (h.freed ha)
  | elsewhere hp => exact nomatch hp.symm.trans (congrArg session ha)
  | @removed b y hb =>
      obtain rfl := Option.some.inj (congrArg session ha)
      have hthread : ThreadStep isPassive s a (s.phase a) t := proceed_cases hstep
      rw [hb] at hthread
      cases hthread with
      | removed hfree =>
          rw [ScoopSessions.remove_eq]
          exact update_self _ _ _
      | rested hp => exact absurd hp (by simp)
      | ran hp => exact absurd hp (by simp)
  | _ => exact nomatch ha

theorem Accounted.mem_log (h : s.Accounted) (x : Nat) {e : ScoopEvent} (he : e ∈ Scoop.life x) :
    e ∈ s.log ↔ e ∈ (Scoop.life x).take (s.stage x) := by
  rw [← h.life, mem_filter, isLife, decide_eq_true he]
  exact (and_iff_left rfl).symm

theorem countedSession_eq_some (e : ScoopEvent) (x : Nat) :
    countedSession e = some x ↔ e = .counted x := by
  cases e <;> simp [countedSession]

theorem uncountedSession_eq_some (e : ScoopEvent) (x : Nat) :
    uncountedSession e = some x ↔ e = .uncounted x := by
  cases e <;> simp [uncountedSession]

/-- Nothing happens twice to a session. -/
theorem Accounted.nodup (h : s.Accounted) {f : ScoopEvent → Option Nat} {g : Nat → ScoopEvent}
    (hf : ∀ e x, f e = some x ↔ e = g x) (hg : ∀ x, g x ∈ Scoop.life x) :
    (s.log.filterMap f).Nodup := by
  refine nodup_iff_count_le_one.mpr fun x => ?_
  have hcount : (s.log.filterMap f).count x = s.log.count (g x) := by
    rw [count_filterMap, count]
    exact countP_congr fun e _ => by simp [hf]
  have hlife : (s.log.filter (isLife x)).count (g x) = s.log.count (g x) :=
    count_filter (decide_eq_true (hg x))
  have honce : (Scoop.life x).Nodup := by simp [Scoop.life]
  rw [hcount, ← hlife, h.life]
  exact nodup_iff_count_le_one.mp (honce.sublist (take_sublist _ _)) _

theorem Accounted.counted_of_uncounted (h : s.Accounted) (hx : .uncounted x ∈ s.log) :
    .counted x ∈ s.log := by
  have hstage := (h.mem_log x (by simp [Scoop.life])).mp hx
  refine (h.mem_log x (by simp [Scoop.life])).mpr ?_
  generalize s.stage x = n at hstage ⊢
  cases n with
  | zero => exact nomatch hstage
  | succ n => simp [Scoop.life]

theorem Accounted.mem_counted (h : s.Accounted) : .counted x ∈ s.log ↔ 0 < s.stage x := by
  rw [h.mem_log x (by simp [Scoop.life])]
  cases s.stage x with
  | zero => exact iff_of_false not_mem_nil (Nat.lt_irrefl 0)
  | succ n => simp [Scoop.life]

theorem Sound.created_of_stage (hs : s.Sound isPassive) (hx : 0 < s.stage x) : x < s.created := by
  by_cases hadding : s.phase (.caller (s.caller x)) = .adding x
  · exact (hs.adds hadding).created
  · refine hs.typed.created (Bool.not_eq_false _ ▸ fun hnew => ?_)
    exact absurd (stage_unsubmitted hadding hnew) (Nat.ne_of_gt hx)

/-- The sessions that were counted are those that are counted no more and those that still are. -/
theorem Accounted.counted_perm (h : s.Accounted) (hs : s.Sound isPassive) :
    (s.log.filterMap countedSession).Perm (s.log.filterMap uncountedSession ++
      (range s.created).filter fun x => .counted x ∈ s.log ∧ .uncounted x ∉ s.log) := by
  have hnodup := h.nodup countedSession_eq_some fun x => by simp [Scoop.life]
  have hnodup' := h.nodup uncountedSession_eq_some fun x => by simp [Scoop.life]
  refine (perm_ext_iff_of_nodup hnodup ?_).mpr fun x => ?_
  · refine hnodup'.append (nodup_range.filter _) fun x hx hrest => ?_
    simp only [mem_filterMap, uncountedSession_eq_some, exists_eq_right] at hx
    simp only [mem_filter, decide_eq_true_eq] at hrest
    exact hrest.2.2 hx
  · simp only [mem_append, mem_filterMap, mem_filter, mem_range,
      countedSession_eq_some, uncountedSession_eq_some, exists_eq_right, decide_eq_true_eq]
    refine ⟨fun hx => ?_, fun hx => hx.elim h.counted_of_uncounted fun hrest => hrest.2.1⟩
    by_cases hgone : .uncounted x ∈ s.log
    · exact Or.inl hgone
    · exact Or.inr ⟨hs.created_of_stage (h.mem_counted.mp hx), hx, hgone⟩

theorem Accounted.sessionsCount_eq (h : s.Accounted) (hcount : s.Counts)
    (hs : s.Sound isPassive) :
    s.sessionsCount = ((range s.created).filter fun x =>
      .counted x ∈ s.log ∧ .uncounted x ∉ s.log).length + s.rootSessions := by
  have hlength := (h.counted_perm hs).length_eq
  rw [Counts] at hcount
  rw [length_append] at hlength
  omega

/-- A session that is about to be counted no more is still counted. -/
theorem Accounted.count_pos (h : s.Accounted) (hcount : s.Counts) (hs : s.Sound isPassive)
    (hactive : ∀ r, isPassive r = false) (ha : s.phase a = .decrement x) :
    0 < s.sessionsCount := by
  have hprocessor := hs.eq_processor (congrArg session ha) (hactive _)
  have hcreated := hs.created_of_session (congrArg session ha)
  have hstage : s.stage x = 3 := by
    rw [hs.stage_submitted hcreated.1, h.freed ha, ← hprocessor, if_neg (by simp), if_pos ha]
  have hgone : .uncounted x ∉ s.log := by
    rw [h.mem_log x (by simp [Scoop.life]), hstage]
    simp [Scoop.life]
  have hcounted : .counted x ∈ s.log := h.mem_counted.mpr (hstage ▸ Nat.succ_pos 2)
  rw [h.sessionsCount_eq hcount hs]
  exact Nat.add_pos_left (length_pos_of_mem (mem_filter.mpr
    ⟨mem_range.mpr hcreated.2, decide_eq_true ⟨hcounted, hgone⟩⟩)) _

theorem Counts.step (hcounts : s.Counts) (h : s.Accounted) (hs : s.Sound isPassive)
    (hactive : ∀ r, isPassive r = false) (hok : s.CountFits action)
    (hstep : step isPassive s action = some t) : t.Counts := by
  have hgrow : ∀ {es : List ScoopEvent}, t.log = s.log ++ es →
      t.sessionsCount + (es.filterMap uncountedSession).length + s.rootSessions =
        s.sessionsCount + (es.filterMap countedSession).length + t.rootSessions →
      t.Counts := by
    intro es hlog hcount
    rw [Counts] at hcounts ⊢
    rw [hlog, filterMap_append, filterMap_append, length_append, length_append]
    omega
  have hnil : s.log = s.log ++ [] := (append_nil _).symm
  cases step_cases hstep with
  | client hclient =>
      cases hclient with
      | nothing | opened | locked | unlocked => exact hgrow hnil rfl
      | added | pushed | freed | closed => exact hgrow rfl rfl
      | rooted hidle hroot =>
          have hone : s.rootSessions = 1 := if_neg (Bool.eq_false_iff.mp hroot)
          have hpos : 0 < s.sessionsCount := by
            rw [h.sessionsCount_eq hcounts hs, hone]
            exact Nat.succ_pos _
          refine hgrow hnil ?_
          rw [hone]
          exact Nat.succ_pred_eq_of_pos hpos
  | started => exact hgrow hnil rfl
  | @proceeded a _ hthread =>
      generalize hphase : s.phase a = p at hthread
      cases hthread with
      | @counted x hsingle =>
          have hfits := hok x hphase
          rw [length_cons] at hfits
          have hcount : ScoopLocks.increment s.sessionsCount = s.sessionsCount + 1 :=
            ScoopLocks.increment_eq (by omega)
          exact hgrow rfl (congrArg (· + s.rootSessions) hcount)
      | @submittedAll x hmulti hfree =>
          refine hgrow rfl ?_
          rw [filterMap_uncounted, filterMap_counted]
          exact congrArg (· + s.rootSessions) (Nat.mod_eq_of_lt (hok x hphase))
      | @uncounted x =>
          have hpos := h.count_pos hcounts hs hactive hphase
          exact hgrow rfl (congrArg (· + s.rootSessions) (Nat.succ_pred_eq_of_pos hpos))
      | submitted | performed | removed => exact hgrow rfl rfl
      | _ => exact hgrow hnil rfl

theorem Accounted.step (h : s.Accounted) (ha : s.ActiveSound isPassive)
    (hactive : ∀ r, isPassive r = false) (hstep : step isPassive s action = some t) :
    t.Accounted where
  life := fun x => h.life_step (h.advances ha hactive hstep x)
  freed := h.freed_step ha.reserved.sound hstep

theorem accounted_init (r : R) : (init r).Accounted := ⟨fun _ => rfl, nofun⟩

theorem accounted_run {r : R} {cs : List (ScoopAction R)} (hactive : ∀ q, isPassive q = false)
    (h : runAll (Scoop.step isPassive) (init r) cs = some t) :
    t.ActiveSound isPassive ∧ t.Accounted :=
  run_preserves (fun s => s.ActiveSound isPassive ∧ s.Accounted)
    (fun _ _ _ hs _ hstep => ⟨hs.1.step hstep, hs.2.step hs.1 hactive hstep⟩)
    ⟨activeSound_init isPassive r, accounted_init r⟩
    (permitted_of_forall (fun _ _ => trivial) (init r) cs) h

theorem counts_run {r : R} {cs : List (ScoopAction R)} (hactive : ∀ q, isPassive q = false)
    (hcs : Permitted (Scoop.step isPassive) CountFits (init r) cs)
    (h : runAll (Scoop.step isPassive) (init r) cs = some t) : t.Counts := by
  refine (run_preserves (fun s => (s.ActiveSound isPassive ∧ s.Accounted) ∧ s.Counts)
    (fun s action u hs hok hstep => ⟨⟨hs.1.1.step hstep, hs.1.2.step hs.1.1 hactive hstep⟩, ?_⟩)
    ⟨⟨activeSound_init isPassive r, accounted_init r⟩, rfl⟩ hcs h).2
  exact hs.2.step hs.1.2 hs.1.1.reserved.sound hactive hok hstep

end

/-- In any run with active regions every session is counted, submitted, removed and counted
no more, each of these at most once and in this order.  As long as the count does not wrap,
it is the number of sessions between the first of these and the last, and one more until the
root object is created; and if it is zero then no submitted session is left. -/
theorem sessions_accounted (isPassive : R → Bool) (hactive : ∀ q, isPassive q = false) (r : R)
    {cs : List (ScoopAction R)} {t : Scoop R}
    (h : runAll (step isPassive) (init r) cs = some t) :
    (∀ x, t.log.filter (isLife x) <+: life x) ∧
      (Permitted (step isPassive) CountFits (init r) cs →
        t.sessionsCount = ((range t.created).filter fun x =>
          .counted x ∈ t.log ∧ .uncounted x ∉ t.log).length + t.rootSessions ∧
        (t.sessionsCount = 0 → t.isRootCreated = true ∧
          ∀ x, t.isSubmitted x = true → .uncounted x ∈ t.log)) := by
  obtain ⟨ht, haccounted⟩ := accounted_run hactive h
  have hs := ht.reserved.sound
  refine ⟨fun x => haccounted.life x ▸ take_prefix _ _, fun hcs => ?_⟩
  have hsessions := haccounted.sessionsCount_eq (counts_run hactive hcs h) hs
  refine ⟨hsessions, fun hzero => ?_⟩
  rw [hzero] at hsessions
  obtain ⟨hnone, hroot⟩ := Nat.add_eq_zero_iff.mp hsessions.symm
  refine ⟨by_contra fun hnot => Nat.one_ne_zero ((if_neg hnot).symm.trans hroot), fun x hx => ?_⟩
  have hstage : 0 < t.stage x := by
    rw [hs.stage_submitted hx]
    split
    case isTrue => exact Nat.two_pos
    case isFalse => split <;> omega
  have hgone := filter_eq_nil_iff.mp (eq_nil_of_length_eq_zero hnone) x
    (mem_range.mpr (hs.created_of_stage hstage))
  by_contra hcounted
  exact hgone (decide_eq_true ⟨haccounted.mem_counted.mpr hstage, hcounted⟩)

/-- The sessions that are not removed, and the one of `main`. -/
theorem sessions_accounted_multisession :
    ∃ t, runAll (step fun _ => false) (init 1) multisessionRun = some t ∧
      t.log.filter (isLife 0) = life 0 ∧ t.sessionsCount = 4 ∧ t.rootSessions = 1 ∧
      ((range t.created).filter fun x =>
        .counted x ∈ t.log ∧ .uncounted x ∉ t.log).length = 3 := by
  have hfits : ∀ {s : Scoop Nat} {a : ScoopAgent Nat} {x : Nat}, s.phase a = .submitting x →
      s.sessionsCount + (x :: s.siblings x).length < 2 ^ 32 → s.CountFits (.proceed a) := by
    intro s a x ha hlt y hy
    obtain rfl := ScoopPhase.submitting.inj (ha.symm.trans hy)
    exact hlt
  have hcs : Permitted (step fun _ => false) CountFits (init 1) multisessionRun :=
    ⟨trivial, trivial, trivial, hfits rfl (show 1 + 2 < 2 ^ 32 by decide), trivial, trivial,
      trivial, trivial, trivial, trivial, trivial, trivial,
      hfits rfl (show 3 + 1 < 2 ^ 32 by decide), nofun, trivial, trivial,
      hfits rfl (show 4 + 1 < 2 ^ 32 by decide), nofun, trivial, nofun, nofun, nofun, nofun, nofun,
      nofun, nofun, nofun, nofun, nofun, nofun, trivial⟩
  obtain ⟨t, ht⟩ : ∃ t, runAll (step fun _ => false) (init 1) multisessionRun = some t := ⟨_, rfl⟩
  have hcount := ((sessions_accounted (fun _ => false) (fun _ => rfl) 1 ht).2 hcs).1
  have hthree : t.log.filter (isLife 0) = life 0 ∧ t.sessionsCount = 4 ∧ t.rootSessions = 1 := by
    obtain rfl := Option.some.inj ht
    exact ⟨rfl, rfl, rfl⟩
  exact ⟨t, ht, hthree.1, hthree.2.1, hthree.2.2, by omega⟩

end Scoop

end Gobo
