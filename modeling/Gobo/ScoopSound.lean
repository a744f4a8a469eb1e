/-
What every section of the SCOOP runtime preserves, in whatever order they are executed.
-/
import Gobo.ScoopGroups
import Gobo.ScoopTransitions

namespace Gobo

open List Function

namespace Scoop

variable {R : Type} [DecidableEq R]

/-- The caller of a session is about to submit it. -/
structure Submits (s : Scoop R) (a : ScoopAgent R) (x : Nat) : Prop where
  agent : a = .caller (s.caller x)
  created : x < s.created
  unsubmitted : s.isSubmitted x = false
  isLocked : ∀ y ∈ x :: s.siblings x, s.isLocked y = true

/-- A thread runs a session. -/
structure Runs (isPassive : R → Bool) (s : Scoop R) (a : ScoopAgent R) (x : Nat) : Prop where
  serves : serves isPassive (s.callee x) a = true
  submitted : s.isSubmitted x = true

/-- The sessions that are promoted together with a candidate, if it is ready. -/
def promotes (s : Scoop R) (x : Nat) : List Nat :=
  if s.mustWait x then
    if s.areReady (s.siblings x) = some true then x :: s.siblings x else []
  else [x]

/-- What a thread relies on in a phase. -/
def PhaseSound (isPassive : R → Bool) (s : Scoop R) (a : ScoopAgent R) : ScoopPhase R → Prop
  | .idle => True
  | .submitting x => s.Submits a x
  | .adding x => s.Submits a x ∧ s.isMultisession x = false
  | .wakeup r => serves isPassive r a = true
  | .promote r => serves isPassive r a = true
  | .promoted r => serves isPassive r a = true
  | .promoting r c =>
      (serves isPassive r a = true ∧ ∀ x, c = some x → s.callee x = r ∧ s.isSubmitted x = true) ∧
        s.multisessionsMutex = some a ∧ s.mutex r = some a
  | .execute x => s.Runs isPassive a x
  | .call x _ => s.Runs isPassive a x
  | .executed x => s.Runs isPassive a x ∧ isPassive (s.callee x) = true
  | .remove x => s.Runs isPassive a x
  | .decrement x => s.Runs isPassive a x

structure Sound (isPassive : R → Bool) (s : Scoop R) : Prop where
  typed : s.Typed
  grouped : s.Grouped
  phases : ∀ a, s.PhaseSound isPassive a (s.phase a)
  lockedCreated : ∀ {x : Nat}, s.isLocked x = true → x < s.created
  openLocked : ∀ {x : Nat}, 0 < s.isOpen x → s.isLocked x = true
  freedUnlocked : ∀ {x : Nat}, s.isSubmitted x = false → s.isFreed x = true →
    s.isLocked x = false

/-- What a step of one thread is to the others. -/
structure Framed (s t : Scoop R) (a : ScoopAgent R) : Prop where
  created : s.created ≤ t.created
  caller : ∀ x < s.created, t.caller x = s.caller x
  callee : ∀ x < s.created, t.callee x = s.callee x
  submitted : ∀ x, s.isSubmitted x = true → t.isSubmitted x = true
  phases : ∀ b, b ≠ a → t.phase b = s.phase b
  /-- Sessions that are not submitted are a matter of their caller. -/
  unsubmitted : ∀ x < s.created, a ≠ .caller (s.caller x) → s.isSubmitted x = false →
    t.isSubmitted x = false ∧ t.siblings x = s.siblings x ∧
      t.isMultisession x = s.isMultisession x
  isLocked : ∀ x < s.created, a ≠ .caller (s.caller x) → t.isLocked x = s.isLocked x
  locked : ∀ b r, b ≠ a → s.multisessionsMutex = some b ∧ s.mutex r = some b →
    t.multisessionsMutex = some b ∧ t.mutex r = some b

section

variable {isPassive : R → Bool} {s t : Scoop R} {a b : ScoopAgent R} {x : Nat} {r : R}
  {p : ScoopPhase R}

/-- The only thread that serves an active region is its processor. -/
theorem eq_processor (hserves : serves isPassive r a = true) (hactive : isPassive r = false) :
    a = .processor r := by
  cases a with
  | caller q => exact absurd (hserves.symm.trans hactive) (by simp)
  | processor q => rw [(of_decide_eq_true hserves).1]
  | helper n => exact absurd (hserves.symm.trans hactive) (by simp)

theorem Sound.submits (h : s.Sound isPassive) (ha : s.phase a = .submitting x) :
    s.Submits a x := by
  have hphase := h.phases a
  rwa [ha] at hphase

theorem Framed.submits (h : Framed s t a) (hs : s.Sound isPassive) (hba : b ≠ a)
    (hsubmits : s.Submits b x) : t.Submits b x := by
  have hne : a ≠ .caller (s.caller x) := fun heq => hba (hsubmits.agent.trans heq.symm)
  obtain ⟨hnew, hsiblings, -⟩ := h.unsubmitted x hsubmits.created hne hsubmits.unsubmitted
  have hgroup := hs.grouped x hsubmits.created
  refine ⟨?_, Nat.lt_of_lt_of_le hsubmits.created h.created, hnew, fun y hy => ?_⟩
  · rw [h.caller x hsubmits.created]
    exact hsubmits.agent
  · rw [hsiblings] at hy
    rw [h.isLocked y (hgroup.created y hy) (by rw [hgroup.caller y hy]; exact hne)]
    exact hsubmits.isLocked y hy

theorem Framed.runs (h : Framed s t a) (hs : s.Sound isPassive) (hruns : s.Runs isPassive b x) :
    t.Runs isPassive b x := by
  refine ⟨?_, h.submitted x hruns.submitted⟩
  rw [h.callee x (hs.typed.created hruns.submitted)]
  exact hruns.serves

/-- Other threads can go on as before. -/
theorem Framed.phaseSound (h : Framed s t a) (hs : s.Sound isPassive) (hba : b ≠ a)
    (hp : s.PhaseSound isPassive b p) : t.PhaseSound isPassive b p := by
  cases p with
  | idle => trivial
  | submitting x => exact h.submits hs hba hp
  | adding x =>
      have hne : a ≠ .caller (s.caller x) := fun heq => hba (hp.1.agent.trans heq.symm)
      obtain ⟨-, -, hsame⟩ := h.unsubmitted x hp.1.created hne hp.1.unsubmitted
      exact ⟨h.submits hs hba hp.1, hsame.trans hp.2⟩
  | wakeup r => exact hp
  | promote r => exact hp
  | promoted r => exact hp
  | promoting r c =>
      refine ⟨⟨hp.1.1, fun x hx => ?_⟩, h.locked b r hba hp.2⟩
      obtain ⟨hr, hx⟩ := hp.1.2 x hx
      rw [h.callee x (hs.typed.created hx)]
      exact ⟨hr, h.submitted x hx⟩
  | execute x => exact h.runs hs hp
  | call x c => exact h.runs hs hp
  | executed x =>
      refine ⟨h.runs hs hp.1, ?_⟩
      rw [h.callee x (hs.typed.created hp.1.submitted)]
      exact hp.2
  | remove x => exact h.runs hs hp
  | decrement x => exact h.runs hs hp

/-- A step is sound if it is for the thread that takes it. -/
theorem Framed.sound (h : Framed s t a) (hs : s.Sound isPassive) (htyped : t.Typed)
    (hgrouped : t.Grouped) (hphase : t.PhaseSound isPassive a (t.phase a))
    (hlocked : ∀ {x : Nat}, t.isLocked x = true → x < t.created)
    (hopen : ∀ {x : Nat}, 0 < t.isOpen x → t.isLocked x = true)
    (hfreed : ∀ {x : Nat}, t.isSubmitted x = false → t.isFreed x = true →
      t.isLocked x = false) : t.Sound isPassive := by
  refine ⟨htyped, hgrouped, fun b => ?_, hlocked, hopen, hfreed⟩
  by_cases hba : b = a
  · exact hba ▸ hphase
  · rw [h.phases b hba]
    exact h.phaseSound hs hba (hs.phases b)

omit [DecidableEq R] in
theorem framed_of_keeps (h : ScoopSessions.Keeps s.toScoopSessions t.toScoopSessions)
    (hkept : ∀ x < s.created, a ≠ .caller (s.caller x) → t.isLocked x = s.isLocked x)
    (hphases : ∀ b, b ≠ a → t.phase b = s.phase b)
    (hlocked : ∀ b r, b ≠ a → s.multisessionsMutex = some b ∧ s.mutex r = some b →
      t.multisessionsMutex = some b ∧ t.mutex r = some b) : Framed s t a where
  created := Nat.le_of_eq h.created.symm
  caller := fun _ _ => by rw [h.caller]
  callee := fun _ _ => by rw [h.callee]
  submitted := fun _ hx => by rw [h.isSubmitted, hx]
  phases := hphases
  unsubmitted := fun x _ _ hx => ⟨by rw [h.isSubmitted, hx], h.siblings x, h.isMultisession x⟩
  isLocked := hkept
  locked := hlocked

theorem Runs.of_keeps (h : ScoopSessions.Keeps s.toScoopSessions t.toScoopSessions)
    (hruns : s.Runs isPassive a x) : t.Runs isPassive a x := by
  refine ⟨?_, ?_⟩
  · rw [h.callee]
    exact hruns.serves
  · rw [h.isSubmitted]
    exact hruns.submitted

section

variable (hs : s.Sound isPassive)

include hs

/-- A step that changes lists and flags of submitted sessions. -/
theorem Sound.keeps
    (hkeeps : ScoopSessions.Keeps s.toScoopSessions t.toScoopSessions) (htyped : t.Typed)
    (hgrouped : t.Grouped) (hfreed : ∀ y, s.isSubmitted y = false → t.isFreed y = s.isFreed y)
    (hkept : t.isLocked = s.isLocked) (hopen : t.isOpen = s.isOpen)
    (hlocked : ∀ b r, b ≠ a → s.multisessionsMutex = some b ∧ s.mutex r = some b →
      t.multisessionsMutex = some b ∧ t.mutex r = some b)
    (hphase : t.phase = update s.phase a p) (hp : t.PhaseSound isPassive a p) :
    t.Sound isPassive := by
  have hframed : Framed s t a := by
    refine framed_of_keeps hkeeps (fun _ _ _ => by rw [hkept]) (fun b hba => ?_) hlocked
    rw [hphase, update_of_ne hba]
  refine hframed.sound hs htyped hgrouped ?_ (fun {x} hx => ?_) (fun {x} hx => ?_)
    fun {x} hnew hx => ?_
  · rw [hphase, update_self]
    exact hp
  · rw [hkept] at hx
    rw [hkeeps.created]
    exact hs.lockedCreated hx
  · rw [hopen] at hx
    rw [hkept]
    exact hs.openLocked hx
  · rw [hkeeps.isSubmitted] at hnew
    rw [hfreed x hnew] at hx
    rw [hkept]
    exact hs.freedUnlocked hnew hx

/-- A step that is only of concern to its thread. -/
theorem Sound.local (hsessions : t.toScoopSessions = s.toScoopSessions)
    (hkept : t.isLocked = s.isLocked) (hopen : t.isOpen = s.isOpen)
    (hmulti : t.multisessionsMutex = s.multisessionsMutex) (hmutex : t.mutex = s.mutex)
    (hphase : t.phase = update s.phase a p) (hp : t.PhaseSound isPassive a p) : t.Sound isPassive :=
  hs.keeps (hsessions ▸ ScoopSessions.Keeps.refl _) (hsessions ▸ hs.typed)
    (hsessions ▸ hs.grouped) (fun _ _ => by rw [hsessions]) hkept hopen
    (fun _ _ _ hlocked => by rwa [hmulti, hmutex]) hphase hp

/-- A client opens or closes one of its sessions. -/
theorem Sound.opening {n : Nat}
    (hidle : s.phase (.caller (s.caller x)) = .idle) {b : Bool}
    (hkeeps : ScoopSessions.Keeps s.toScoopSessions t.toScoopSessions) (htyped : t.Typed)
    (hgrouped : t.Grouped) (hopen : t.isOpen = update s.isOpen x n)
    (hlocked : t.isLocked = update s.isLocked x b) (hx : b = true → s.isLocked x = true)
    (hn : 0 < n → b = true) (hmulti : t.multisessionsMutex = s.multisessionsMutex)
    (hmutex : t.mutex = s.mutex) (hphase : t.phase = s.phase)
    (hfreed : ∀ y, y ≠ x → t.isFreed y = s.isFreed y)
    (hself : t.isFreed x = s.isFreed x ∨ b = false) : t.Sound isPassive := by
  have hother : ∀ y, y ≠ x → t.isLocked y = s.isLocked y := by
    intro y hyx
    rw [hlocked, update_of_ne hyx]
  have hb : t.isLocked x = b := by rw [hlocked, update_self]
  have hframed : Framed s t (.caller (s.caller x)) := by
    refine framed_of_keeps hkeeps (fun y _ hne => ?_) (fun _ _ => by rw [hphase])
      fun b r _ hlocked => by rwa [hmulti, hmutex]
    exact hother y fun heq => hne (by rw [heq])
  refine hframed.sound hs htyped hgrouped ?_ (fun {y} hy => ?_) (fun {y} hy => ?_)
    fun {y} hnew hyfreed => ?_
  · rw [hphase, hidle]
    trivial
  · rw [hkeeps.created]
    by_cases hyx : y = x
    · subst hyx
      exact hs.lockedCreated (hx (hb.symm.trans hy))
    · rw [hother y hyx] at hy
      exact hs.lockedCreated hy
  · rw [hopen] at hy
    by_cases hyx : y = x
    · subst hyx
      rw [update_self] at hy
      exact hb.trans (hn hy)
    · rw [update_of_ne hyx] at hy
      rw [hother y hyx]
      exact hs.openLocked hy
  · rw [hkeeps.isSubmitted] at hnew
    by_cases hyx : y = x
    · subst hyx
      rcases hself with hsame | hunlocked
      · rw [hsame] at hyfreed
        have hold := hs.freedUnlocked hnew hyfreed
        rw [hb, Bool.eq_false_iff]
        exact fun hlocked => absurd ((hx hlocked).symm.trans hold) (by simp)
      · exact hb.trans hunlocked
    · rw [hother y hyx]
      exact hs.freedUnlocked hnew ((hfreed y hyx).symm.trans hyfreed)

theorem Sound.setOpen (hidle : s.phase (.caller (s.caller x)) = .idle)
    (hx : s.isLocked x = true) (n : Nat) : (s.setOpen x n).Sound isPassive :=
  hs.opening hidle (ScoopSessions.Keeps.refl _) hs.typed hs.grouped rfl
    (hx ▸ (update_eq_self x s.isLocked).symm) (fun _ => hx) (fun _ => rfl) rfl rfl rfl
    (fun _ _ => rfl) (Or.inl rfl)

theorem Sound.unlink (hidle : s.phase (.caller (s.caller x)) = .idle) :
    ((s.setOpen x 0).unlink x).Sound isPassive :=
  hs.opening hidle (ScoopSessions.Keeps.refl _) hs.typed hs.grouped rfl rfl nofun nofun rfl rfl
    rfl (fun _ _ => rfl) (Or.inl rfl)

theorem Sound.addCall (c : ScoopCall) (q : CallQueue)
    (hlocked : s.isLocked x = true) (hafter : AfterCall isPassive s x p) :
    ((s.addCall x c q).goto (.caller (s.caller x)) p).Sound isPassive := by
  refine hs.local rfl rfl rfl rfl rfl rfl ?_
  cases hafter with
  | submitting hnew hall => exact ⟨rfl, hs.lockedCreated hlocked, hnew, hall⟩
  | wakeup hold hpassive => exact hpassive
  | idle hold hactive => trivial

theorem Sound.joinable {k : R} {y : Nat}
    (hlocked : s.lockedSession k r = none) (hjoin : s.isJoinable k y = true) :
    s.Joinable k r y := by
  have hall : ∀ z ∈ y :: s.siblings y,
      s.caller z = k ∧ s.isLocked z = true ∧ s.isSubmitted z = false :=
    fun z hz => of_decide_eq_true (all_eq_true.mp hjoin z hz)
  obtain ⟨hcaller, hopen, hnew⟩ := hall y mem_cons_self
  refine ⟨hs.lockedCreated hopen, hcaller, hnew, fun z hz hr => ?_⟩
  obtain ⟨hcaller, hopen, -⟩ := hall z hz
  have hnone := find?_eq_none.mp hlocked z (mem_range.mpr (hs.lockedCreated hopen))
  exact hnone (decide_eq_true ⟨hcaller, hr, hopen⟩)

theorem Sound.addSession {k : R} {sibling : Option Nat}
    (hidle : s.phase (.caller k) = .idle)
    (hsibling : ∀ y, sibling = some y → s.Joinable k r y) :
    (s.addSession k r sibling).Sound isPassive := by
  have holder : ∀ {B : Type} (f : Nat → B) (b : B), ∀ y < s.created,
      update f s.created b y = f y :=
    fun f b y hy => update_of_ne (Nat.ne_of_lt hy) _ _
  have hframed : Framed s (s.addSession k r sibling) (.caller k) := by
    refine ⟨Nat.le_succ _, holder _ _, holder _ _, fun y hy => ?_, fun _ _ => rfl,
      fun y hy hne hnew => ?_, fun y hy _ => holder _ _ y hy, fun _ _ _ hlocked => hlocked⟩
    · exact (holder _ _ y (hs.typed.created hy)).trans hy
    · have hgroup := hs.grouped y hy
      have hother : ∀ z, sibling = some z → z ∉ y :: s.siblings y := by
        intro z hz hmem
        exact hne (by rw [← hgroup.caller z hmem, (hsibling z hz).caller])
      refine ⟨(holder _ _ y hy).trans hnew, (hgroup.newSession hother).siblings_eq, ?_⟩
      have hnext : (s.addSession k r sibling).nextSibling y = s.nextSibling y := by
        cases sibling with
        | none => exact holder _ _ y hy
        | some z =>
            have hyz : y ≠ z := fun heq => hother z rfl (heq ▸ mem_cons_self)
            exact (update_of_ne hyz _ _).trans (holder _ _ y hy)
      rw [ScoopSessions.isMultisession, ScoopSessions.isMultisession, hnext]
  refine hframed.sound hs (hs.typed.newSession k r sibling)
    (hs.grouped.newSession hs.typed hsibling)
    ?_ (fun {y} hy => ?_) (fun {y} hy => ?_) fun {y} hnew hfreed => ?_
  · have hphase : (s.addSession k r sibling).phase (.caller k) = .idle := hidle
    rw [hphase]
    trivial
  · by_cases hynew : y = s.created
    · subst hynew
      exact Nat.lt_succ_self _
    · have hlocked : (s.addSession k r sibling).isLocked y = s.isLocked y :=
        update_of_ne hynew _ _
      rw [hlocked] at hy
      exact Nat.lt_succ_of_lt (hs.lockedCreated hy)
  · by_cases hynew : y = s.created
    · subst hynew
      exact update_self _ _ _
    · have hopen : (s.addSession k r sibling).isOpen y = s.isOpen y :=
        update_of_ne hynew _ _
      rw [hopen] at hy
      exact (update_of_ne hynew _ _).trans (hs.openLocked hy)
  · have hyne : y ≠ s.created := by
      rintro rfl
      exact absurd ((update_self _ _ _).symm.trans hfreed) (by simp)
    refine (update_of_ne hyne _ _).trans (hs.freedUnlocked ?_ ?_)
    · exact (update_of_ne hyne _ _).symm.trans hnew
    · exact (update_of_ne hyne _ _).symm.trans hfreed

end

theorem ClientStep.sound {action : ScoopAction R} (hs : s.Sound isPassive)
    (h : ClientStep isPassive s action t) : t.Sound isPassive := by
  cases h with
  | nothing => exact hs
  | rooted hidle hroot =>
      have hphase := (update_eq_self (.caller s.mainRegion) s.phase).symm
      rw [hidle] at hphase
      exact hs.local rfl rfl rfl rfl rfl hphase trivial
  | opened hidle hne hlocked hsibling =>
      exact hs.addSession hidle fun y hy => hs.joinable hlocked (hsibling y hy)
  | locked hidle hlocked hincrements => exact hs.setOpen hidle hlocked _
  | added hidle hlocked hafter => exact hs.addCall _ _ hlocked hafter
  | pushed hidle hlocked hwaiting hafter => exact hs.addCall _ _ hlocked hafter
  | unlocked hidle hopen => exact hs.setOpen hidle (hs.openLocked (by omega)) _
  | @freed x hidle hopen hnew =>
      have hother : ∀ y, y ≠ x → update s.isFreed x true y = s.isFreed y :=
        fun y hyx => update_of_ne hyx _ _
      refine hs.opening hidle ⟨rfl, rfl, rfl, rfl, rfl⟩ ?_ ?_ rfl rfl nofun nofun rfl rfl rfl
        hother (Or.inr rfl)
      · exact ⟨hs.typed.first, hs.typed.last, hs.typed.next, hs.typed.previous, hs.typed.created,
          hs.typed.unsubmitted⟩
      · exact hs.grouped.congr rfl rfl rfl rfl (fun _ hz _ hy => hs.grouped.submitted_eq hz hy)
          fun _ hz _ hy => hs.grouped.running_eq hz hy
  | @closed x p hidle hopen hold hafter =>
      refine (hs.unlink hidle).local rfl rfl rfl rfl rfl rfl ?_
      cases hafter with
      | remove hpassive hempty => exact ⟨hpassive, hold⟩
      | wakeup hpassive => exact hpassive
      | idle hactive => trivial

omit [DecidableEq R] in
theorem mustWait_eq_false (h : s.mustWait x = false) :
    s.isRunning x = true ∨ s.isMultisession x = false := by
  rw [mustWait] at h
  rcases Bool.eq_false_or_eq_true (s.isRunning x) with hrunning | hrunning
  · exact Or.inl hrunning
  · rw [hrunning] at h
    exact Or.inr h

/-- A caller submits sessions. -/
theorem Sound.submitAll (hs : s.Sound isPassive) {xs : List Nat}
    (hxs : ∀ y ∈ xs, y < s.created ∧ a = .caller (s.caller y))
    (hclosed : ScoopSessions.Grouped.Closed s.toScoopSessions xs)
    (hsessions : t.toScoopSessions = s.submitAll xs) (hkept : t.isLocked = s.isLocked)
    (hopen : t.isOpen = s.isOpen) (hmulti : t.multisessionsMutex = s.multisessionsMutex)
    (hmutex : t.mutex = s.mutex)
    (hphase : t.phase = update s.phase a p) (hp : t.PhaseSound isPassive a p) :
    t.Sound isPassive := by
  have hall := hs.typed.submitAll fun y hy => (hxs y hy).1
  have hframed : Framed s t a := by
    refine ⟨?_, fun y _ => ?_, fun y _ => ?_, fun y hy => ?_, fun b hba => ?_,
      fun y hy hne hnew => ⟨?_, ?_, ?_⟩, fun y _ _ => ?_, fun b r _ hlocked => ?_⟩
    · exact Nat.le_of_eq (by rw [hsessions, hall.created])
    · rw [hsessions, hall.caller]
    · rw [hsessions, hall.callee]
    · rw [hsessions, hall.isSubmitted, hy, Bool.or_true]
    · rw [hphase, update_of_ne hba]
    · have hnot : y ∉ xs := fun hmem => hne (hxs y hmem).2
      rw [hsessions, hall.isSubmitted, hnew, decide_eq_false hnot]
      rfl
    · rw [hsessions, ScoopSessions.siblings, ScoopSessions.siblings, hall.nextSibling, hall.created]
    · rw [hsessions, ScoopSessions.isMultisession, ScoopSessions.isMultisession, hall.nextSibling]
    · rw [hkept]
    · rw [hmulti, hmutex]
      exact hlocked
  refine hframed.sound hs ?_ ?_ ?_ (fun {y} hy => ?_) (fun {y} hy => ?_) fun {y} hnew hfreed => ?_
  · rw [hsessions]
    exact hall.typed
  · rw [hsessions]
    exact hs.grouped.submitAll hs.typed (fun y hy => (hxs y hy).1) hclosed
  · rw [hphase, update_self]
    exact hp
  · rw [hkept] at hy
    rw [hsessions, hall.created]
    exact hs.lockedCreated hy
  · rw [hopen] at hy
    rw [hkept]
    exact hs.openLocked hy
  · rw [hsessions, hall.isSubmitted, Bool.or_eq_false_iff] at hnew
    rw [hsessions, hall.isFreed] at hfreed
    rw [hkept]
    exact hs.freedUnlocked hnew.2 hfreed

/-- A thread unlocks the mutexes. -/
theorem Sound.unlock (hs : s.Sound isPassive) {c : Option Nat} {m : ScoopSessions R}
    (ha : s.PhaseSound isPassive a (.promoting r c))
    (hkeeps : ScoopSessions.Keeps s.toScoopSessions m) (hfreed : m.isFreed = s.isFreed)
    (htyped : m.Typed) (hgrouped : m.Grouped) : (s.unlock a r m).Sound isPassive := by
  refine hs.keeps hkeeps htyped hgrouped (fun y _ => congrFun hfreed y) rfl rfl ?_ rfl ha.1.1
  intro b q hba hlocked
  have hmulti := hlocked.1.symm.trans ha.2.1
  exact absurd (Option.some.inj hmulti) hba

theorem ThreadStep.sound (hs : s.Sound isPassive) (hphase : s.phase a = p)
    (h : ThreadStep isPassive s a p t) : t.Sound isPassive := by
  have ha := hs.phases a
  rw [hphase] at ha
  cases h with
  | counted hsingle =>
      refine hs.local rfl rfl rfl rfl rfl rfl ⟨?_, hsingle⟩
      exact ⟨ha.agent, ha.created, ha.unsubmitted, ha.isLocked⟩
  | @submittedAll x hmulti hfree =>
      have hgroup := hs.grouped x ha.created
      refine hs.submitAll (fun y hy => ⟨hgroup.created y hy, ?_⟩)
        (hs.grouped.closed_group ha.created) rfl rfl rfl rfl rfl rfl trivial
      rw [hgroup.caller y hy]
      exact ha.agent
  | @submitted x hfree =>
      obtain ⟨hsubmits, hsingle⟩ := ha
      have hclosed := hs.grouped.closed_single hsubmits.created hsingle
      refine hs.submitAll (fun y hy => ?_) hclosed rfl rfl rfl rfl rfl rfl ?_
      · rw [mem_singleton.mp hy]
        exact ⟨hsubmits.created, hsubmits.agent⟩
      · rw [hsubmits.agent]
        split
        case isTrue hpassive => exact hpassive
        case isFalse => trivial
  | rested hp hfree hwait => exact hs.local rfl rfl rfl rfl rfl rfl trivial
  | waited hfree hfirst hwait => exact hs.local rfl rfl rfl rfl rfl rfl ha
  | @ran r x _ hp hfree hfirst hready =>
      have hserves : serves isPassive r a = true := by
        rcases hp with rfl | rfl <;> exact ha
      obtain ⟨hr, hsubmitted⟩ := hs.typed.first hfirst
      refine hs.keeps (ScoopSessions.Keeps.run _ x) (hs.typed.run hsubmitted)
        (hs.grouped.run (hs.typed.created hsubmitted) (mustWait_eq_false hready))
        (fun _ _ => rfl) rfl rfl (fun _ _ _ hlocked => hlocked) rfl ⟨?_, hsubmitted⟩
      exact hr ▸ hserves
  | @locked r hmulti hfree =>
      refine hs.keeps (ScoopSessions.Keeps.refl _) hs.typed hs.grouped (fun _ _ => rfl)
        rfl rfl ?_ rfl
        ⟨⟨ha, fun x hx => hs.typed.first hx⟩, rfl, update_self _ _ _⟩
      intro b q _ hlocked
      exact absurd (hmulti.symm.trans hlocked.1) (by simp)
  | gaveUp => exact hs.unlock ha (ScoopSessions.Keeps.refl _) rfl hs.typed hs.grouped
  | @promoted r x m hready hpromote =>
      have hsubmitted := (ha.1.2 x rfl).2
      have hp := hs.typed.promote hsubmitted hpromote
      exact hs.unlock ha (ScoopSessions.Keeps.promote hs.typed hsubmitted hpromote) hp.isFreed
        hp.typed (hs.grouped.promote hs.typed hsubmitted (mustWait_eq_false hready) hpromote)
  | @promotedAll r x m hwait hfree hready hpromote =>
      have hsubmitted := (ha.1.2 x rfl).2
      have hcreated := hs.typed.created hsubmitted
      have hall : ∀ y ∈ x :: s.siblings x, s.isSubmitted y = true :=
        fun y hy => ((hs.grouped x hcreated).submitted y hy).trans hsubmitted
      have hp := hs.typed.promoteAll hall hpromote
      exact hs.unlock ha (ScoopSessions.Keeps.promoteAll hs.typed hall hpromote) hp.isFreed
        hp.typed (hs.grouped.promoteAll hs.typed hall (hs.grouped.closed_group hcreated) hpromote)
  | @passed r x hwait hbusy =>
      refine hs.local rfl rfl rfl rfl rfl rfl ⟨⟨ha.1.1, fun y hy => ?_⟩, ha.2⟩
      obtain ⟨hcallee, hsubmitted⟩ := hs.typed.next hy
      exact ⟨hcallee.trans (ha.1.2 x rfl).1, hsubmitted⟩
  | popped hfirst => exact hs.local rfl rfl rfl rfl rfl rfl ⟨ha.serves, ha.submitted⟩
  | stayed => exact hs
  | ended hempty hclosed hactive => exact hs.local rfl rfl rfl rfl rfl rfl ⟨ha.serves, ha.submitted⟩
  | left hempty hpassive =>
      exact hs.local rfl rfl rfl rfl rfl rfl ⟨⟨ha.serves, ha.submitted⟩, hpassive⟩
  | performed => exact hs.local rfl rfl rfl rfl rfl rfl ⟨ha.serves, ha.submitted⟩
  | foundClosed hclosed => exact hs.local rfl rfl rfl rfl rfl rfl ⟨ha.1.serves, ha.1.submitted⟩
  | foundOpen hopen => exact hs.local rfl rfl rfl rfl rfl rfl trivial
  | @removed x hfree =>
      refine hs.keeps (ScoopSessions.Keeps.remove _ x) (hs.typed.remove x) (hs.grouped.remove x)
        (fun y hnew => ?_) rfl rfl (fun _ _ _ hlocked => hlocked) rfl ?_
      · have hyx : y ≠ x := by
          rintro rfl
          exact absurd (ha.submitted.symm.trans hnew) (by simp)
        rw [ScoopSessions.remove_eq]
        exact update_of_ne hyx _ _
      · exact ha.of_keeps (ScoopSessions.Keeps.remove _ x)
  | @uncounted x =>
      refine hs.local rfl rfl rfl rfl rfl rfl ?_
      split
      case isTrue hpassive => exact ha.serves
      case isFalse => trivial

/-- Every step keeps it. -/
theorem Transition.sound {action : ScoopAction R} (hs : s.Sound isPassive)
    (h : Transition isPassive s action t) : t.Sound isPassive := by
  cases h with
  | client h => exact h.sound hs
  | started hidle hserves => exact hs.local rfl rfl rfl rfl rfl rfl hserves
  | proceeded h => exact h.sound hs rfl

theorem sound_init (isPassive : R → Bool) (r : R) : (init r).Sound isPassive := by
  refine ⟨⟨?_, ?_, ?_, ?_, ?_, ?_⟩, ?_, fun _ => trivial, ?_, ?_, ?_⟩
  · exact fun h => nomatch h
  · exact fun h => nomatch h
  · exact fun h => nomatch h
  · exact fun h => nomatch h
  · exact fun h => nomatch h
  · exact fun _ => ⟨rfl, rfl, rfl⟩
  · exact fun x hx => absurd hx (Nat.not_lt_zero x)
  · exact fun h => nomatch h
  · exact fun h => absurd h (Nat.lt_irrefl 0)
  · exact fun _ h => nomatch h

theorem Sound.fresh (hs : s.Sound isPassive) {x : Nat} (hsubmits : s.Submits a x) :
    ∀ y ∈ x :: s.siblings x,
      y < s.created ∧ s.isSubmitted y = false ∧ s.isFreed y = false := by
  intro y hy
  have hgroup := hs.grouped x hsubmits.created
  have hnew := (hgroup.submitted y hy).trans hsubmits.unsubmitted
  refine ⟨hgroup.created y hy, hnew, ?_⟩
  by_contra hfreed
  have hunlocked := hs.freedUnlocked hnew (Bool.not_eq_false _ ▸ hfreed)
  exact absurd ((hsubmits.isLocked y hy).symm.trans hunlocked) (by simp)

/-- What a step can do to the sessions. -/
inductive SessionStep (s : Scoop R) : ScoopAction R → ScoopSessions R → Prop where
  | same {action : ScoopAction R} : SessionStep s action s.toScoopSessions
  | opened {k r : R} {sibling : Option Nat}
      (hsibling : ∀ y, sibling = some y → s.Joinable k r y) :
      SessionStep s (.sessionOpen k r sibling) (s.newSession k r sibling)
  | freed {x : Nat} (hnew : s.isSubmitted x = false) : SessionStep s (.sessionClose x)
        { s.toScoopSessions with isFreed := update s.isFreed x true }
  | submitted {a : ScoopAgent R} {xs : List Nat} (hnodup : xs.Nodup)
      (hfresh : ∀ y ∈ xs, y < s.created ∧ s.isSubmitted y = false ∧ s.isFreed y = false) :
      SessionStep s (.proceed a) (s.submitAll xs)
  | ran {a : ScoopAgent R} {x : Nat} (hfirst : s.firstSession (s.callee x) = some x) :
      SessionStep s (.proceed a) (s.run x)
  | promoted {a : ScoopAgent R} {r : R} {x : Nat} {m : ScoopSessions R}
      (ha : s.phase a = .promoting r (some x)) (hpromote : s.promoteAll (s.promotes x) = some m) :
      SessionStep s (.proceed a) m
  | removed {a : ScoopAgent R} {x : Nat} (ha : s.phase a = .remove x)
      (hsubmitted : s.isSubmitted x = true) : SessionStep s (.proceed a) (s.remove x)

omit [DecidableEq R] in
theorem promotes_of_ready (h : s.mustWait x = false) : s.promotes x = [x] := by
  simp [promotes, h]

omit [DecidableEq R] in
theorem promotes_of_wait (h : s.mustWait x = true)
    (hready : s.areReady (s.siblings x) = some true) : s.promotes x = x :: s.siblings x := by
  simp [promotes, h, hready]

theorem ThreadStep.sessions (hs : s.Sound isPassive) (hphase : s.phase a = p)
    (h : ThreadStep isPassive s a p t) : SessionStep s (.proceed a) t.toScoopSessions := by
  have ha := hs.phases a
  rw [hphase] at ha
  cases h with
  | @submittedAll x hmulti hfree =>
      exact .submitted (hs.grouped x ha.created).nodup (hs.fresh ha)
  | @submitted x hfree =>
      have hfresh : ∀ y ∈ [x], y < s.created ∧ s.isSubmitted y = false ∧ s.isFreed y = false :=
        fun y hy => hs.fresh ha.1 y (mem_cons.mpr (Or.inl (mem_singleton.mp hy)))
      exact .submitted (nodup_singleton x) hfresh
  | @ran r x _ hp hfree hfirst hready => exact .ran ((hs.typed.first hfirst).1 ▸ hfirst)
  | @promoted r x m hready hpromote =>
      refine .promoted hphase ?_
      rw [promotes_of_ready hready, ScoopSessions.promoteAll_singleton]
      exact hpromote
  | @promotedAll r x m hwait hfree hready hpromote =>
      refine .promoted hphase ?_
      rw [promotes_of_wait hwait hready]
      exact hpromote
  | @removed x hfree => exact .removed hphase ha.submitted
  | counted => exact .same
  | rested => exact .same
  | waited => exact .same
  | locked => exact .same
  | gaveUp => exact .same
  | passed => exact .same
  | popped => exact .same
  | stayed => exact .same
  | ended => exact .same
  | left => exact .same
  | performed => exact .same
  | foundClosed => exact .same
  | foundOpen => exact .same
  | uncounted => exact .same

theorem session_cases {action : ScoopAction R} (hs : s.Sound isPassive)
    (h : step isPassive s action = some t) : SessionStep s action t.toScoopSessions := by
  cases step_cases h with
  | client h =>
      cases h with
      | nothing => exact .same
      | rooted => exact .same
      | opened hidle hne hlocked hsibling =>
          exact .opened fun y hy => hs.joinable hlocked (hsibling y hy)
      | locked => exact .same
      | added => exact .same
      | pushed => exact .same
      | unlocked => exact .same
      | freed hidle hopen hnew => exact .freed hnew
      | closed => exact .same
  | started => exact .same
  | proceeded h => exact h.sessions hs rfl

end

end Scoop

end Gobo
