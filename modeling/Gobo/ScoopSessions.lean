/-
The sessions of SCOOP regions and the pointers that keep them together
(`GE_scoop_session`, `GE_scoop_region`).
-/
import Gobo.DoublyLinked
import Gobo.Ring

namespace Gobo

open Option List Function

/-- Regions with their lists of submitted sessions, and all sessions created so far.
A freed session keeps what it held. -/
structure ScoopSessions (R : Type) where
  firstSession : R → Option Nat
  lastSession : R → Option Nat
  created : Nat
  /-- The region that opened the session. -/
  caller : Nat → R
  callee : Nat → R
  isSubmitted : Nat → Bool
  isRunning : Nat → Bool
  isFreed : Nat → Bool
  nextSibling : Nat → Nat
  previous : Nat → Option Nat
  next : Nat → Option Nat

namespace ScoopSessions

variable {R : Type}

/-- No session yet. -/
def init (r : R) : ScoopSessions R where
  firstSession := fun _ => none
  lastSession := fun _ => none
  created := 0
  caller := fun _ => r
  callee := fun _ => r
  isSubmitted := fun _ => false
  isRunning := fun _ => false
  isFreed := fun _ => false
  nextSibling := id
  previous := fun _ => none
  next := fun _ => none

section

variable [DecidableEq R] (m : ScoopSessions R)

/-- `GE_new_scoop_session` and its place in the cycle of its siblings. -/
def newSession (caller callee : R) (sibling : Option Nat) : ScoopSessions R :=
  let x := m.created
  { m with
    created := x + 1
    caller := update m.caller x caller
    callee := update m.callee x callee
    isSubmitted := update m.isSubmitted x false
    isRunning := update m.isRunning x false
    isFreed := update m.isFreed x false
    previous := update m.previous x none
    next := update m.next x none
    nextSibling := match sibling with
      | some a => update (update m.nextSibling x (m.nextSibling a)) a x
      | none => update m.nextSibling x x }

/-- The sessions that are part of the same multisession, from the next one on. -/
def siblings (x : Nat) : List Nat :=
  Ring.walk m.nextSibling x m.created (m.nextSibling x)

def isMultisession (x : Nat) : Bool := decide (m.nextSibling x ≠ x)

/-- `GE_unprotected_add_scoop_session`. -/
def unprotectedAdd (x : Nat) : ScoopSessions R :=
  let r := m.callee x
  match m.lastSession r with
  | some y =>
      { m with
        next := update m.next y (some x)
        previous := update m.previous x (some y)
        lastSession := update m.lastSession r (some x) }
  | none =>
      { m with
        firstSession := update m.firstSession r (some x)
        lastSession := update m.lastSession r (some x) }

/-- Added to the list of its callee, and submitted. -/
def submit (x : Nat) : ScoopSessions R :=
  let m := m.unprotectedAdd x
  { m with isSubmitted := update m.isSubmitted x true }

/-- `GE_remove_scoop_session`, but for the sessions count. -/
def remove (x : Nat) : ScoopSessions R :=
  let r := m.callee x
  let m := match m.previous x with
    | some y => { m with next := update m.next y (m.next x) }
    | none => { m with firstSession := update m.firstSession r (m.next x) }
  let m := match m.next x with
    | some y => { m with previous := update m.previous y (m.previous x) }
    | none => { m with lastSession := update m.lastSession r (m.previous x) }
  { m with isFreed := update m.isFreed x true }

/-- `GE_unprotected_move_scoop_session_to_first`. -/
def moveToFirst (x : Nat) : Option (ScoopSessions R) :=
  let r := m.callee x
  if m.firstSession r = some x then some m
  else if m.lastSession r = some x then do
    let y ← m.previous x
    return { m with
      lastSession := update m.lastSession r (some y)
      next := update (update m.next y none) x (m.firstSession r)
      previous := update m.previous x none
      firstSession := update m.firstSession r (some x) }
  else do
    let y ← m.previous x
    let z ← m.next x
    return { m with
      next := update (update m.next y (some z)) x (m.firstSession r)
      previous := update (update m.previous z (some y)) x none
      firstSession := update m.firstSession r (some x) }

/-- Mark a session as the one that its callee executes. -/
def run (x : Nat) : ScoopSessions R :=
  { m with isRunning := update m.isRunning x true }

/-- Move a session to the first position, to be executed. -/
def promote (x : Nat) : Option (ScoopSessions R) :=
  (m.moveToFirst x).map fun m => m.run x

def promoteAll : ScoopSessions R → List Nat → Option (ScoopSessions R)
  | m, [] => some m
  | m, x :: xs => (m.promote x).bind fun m => m.promoteAll xs

end

/-- Does the callee of a session execute another one?  A callee without any session
is not expected. -/
def isBusy (m : ScoopSessions R) (x : Nat) : Option Bool :=
  let first := m.firstSession (m.callee x)
  if first = some x then some false
  else first.map m.isRunning

/-- Are all these sessions ready for execution? -/
def areReady (m : ScoopSessions R) : List Nat → Option Bool
  | [] => some true
  | x :: xs => (m.isBusy x).bind fun busy => if busy then some false else m.areReady xs

def links (m : ScoopSessions R) (r : R) : ListLinks Nat :=
  ⟨m.firstSession r, m.lastSession r, m.next, m.previous⟩

/-- The first session of a region is running. -/
def FirstRuns (m : ScoopSessions R) (r : R) : Prop :=
  ∃ x, m.firstSession r = some x ∧ m.isRunning x = true

/-- The pointers lead to submitted sessions of the same region. -/
structure Typed (m : ScoopSessions R) : Prop where
  first : ∀ {r : R} {x : Nat}, m.firstSession r = some x → m.callee x = r ∧ m.isSubmitted x = true
  last : ∀ {r : R} {x : Nat}, m.lastSession r = some x → m.callee x = r ∧ m.isSubmitted x = true
  next : ∀ {x y : Nat}, m.next x = some y → m.callee y = m.callee x ∧ m.isSubmitted y = true
  previous : ∀ {x y : Nat}, m.previous x = some y →
    m.callee y = m.callee x ∧ m.isSubmitted y = true
  created : ∀ {x : Nat}, m.isSubmitted x = true → x < m.created
  unsubmitted : ∀ {x : Nat}, m.isSubmitted x = false →
    m.next x = none ∧ m.previous x = none ∧ m.isRunning x = false

/-- The sessions of a region, in their order: those submitted and not yet removed,
none but the first running. -/
structure Queued (m : ScoopSessions R) (r : R) (stale : Prop) (xs : List Nat) : Prop where
  linked : Linked (m.links r) stale xs
  mem_iff : ∀ x, x ∈ xs ↔ m.callee x = r ∧ m.isSubmitted x = true ∧ m.isFreed x = false
  running : ∀ x ∈ xs, m.isRunning x = true → xs.head? = some x

/-- Nothing changes for a region. -/
structure SameAt (m m' : ScoopSessions R) (r : R) : Prop where
  callee : m'.callee = m.callee
  first : m'.firstSession r = m.firstSession r
  last : m'.lastSession r = m.lastSession r
  next : ∀ x, m.callee x = r → m'.next x = m.next x
  previous : ∀ x, m.callee x = r → m'.previous x = m.previous x
  submitted : ∀ x, m.callee x = r → m'.isSubmitted x = m.isSubmitted x
  running : ∀ x, m.callee x = r → m'.isRunning x = m.isRunning x
  freed : ∀ x, m.callee x = r → m'.isFreed x = m.isFreed x

section

variable {m m' : ScoopSessions R} {r : R} {stale : Prop} {xs : List Nat} {x : Nat}

theorem update_eq_some {A B : Type} [DecidableEq A] {f : A → Option B} {a b : A} {v : Option B}
    {y : B} (h : update f a v b = some y) : b = a ∧ v = some y ∨ b ≠ a ∧ f b = some y := by
  by_cases hb : b = a
  · subst hb
    rw [update_self] at h
    exact Or.inl ⟨rfl, h⟩
  · exact Or.inr ⟨hb, (update_of_ne hb _ _).symm.trans h⟩

theorem SameAt.refl (m : ScoopSessions R) (r : R) : SameAt m m r :=
  ⟨rfl, rfl, rfl, fun _ _ => rfl, fun _ _ => rfl, fun _ _ => rfl, fun _ _ => rfl, fun _ _ => rfl⟩

theorem SameAt.trans {m'' : ScoopSessions R} (h : SameAt m m' r) (h' : SameAt m' m'' r) :
    SameAt m m'' r := by
  have hcallee : ∀ x, m.callee x = r → m'.callee x = r := fun x hx => by rw [h.callee, hx]
  exact ⟨h'.callee.trans h.callee, h'.first.trans h.first, h'.last.trans h.last,
    fun x hx => (h'.next x (hcallee x hx)).trans (h.next x hx),
    fun x hx => (h'.previous x (hcallee x hx)).trans (h.previous x hx),
    fun x hx => (h'.submitted x (hcallee x hx)).trans (h.submitted x hx),
    fun x hx => (h'.running x (hcallee x hx)).trans (h.running x hx),
    fun x hx => (h'.freed x (hcallee x hx)).trans (h.freed x hx)⟩

theorem SameAt.queued (h : SameAt m m' r) (hq : Queued m r stale xs) : Queued m' r stale xs := by
  have hcallee : ∀ x ∈ xs, m.callee x = r := fun x hx => ((hq.mem_iff x).mp hx).1
  refine ⟨?_, fun x => ?_, fun x hx hrun => ?_⟩
  · exact hq.linked.congr h.first h.last (fun x hx => h.next x (hcallee x hx))
      fun x hx => h.previous x (hcallee x hx)
  · rw [hq.mem_iff x, h.callee]
    constructor
    · rintro ⟨hx, hsubmitted, hfreed⟩
      exact ⟨hx, (h.submitted x hx).trans hsubmitted, (h.freed x hx).trans hfreed⟩
    · rintro ⟨hx, hsubmitted, hfreed⟩
      exact ⟨hx, (h.submitted x hx).symm.trans hsubmitted, (h.freed x hx).symm.trans hfreed⟩
  · exact hq.running x hx ((h.running x (hcallee x hx)).symm.trans hrun)

theorem SameAt.firstRuns (h : SameAt m m' r) (ht : m.Typed) : m'.FirstRuns r ↔ m.FirstRuns r := by
  constructor
  · rintro ⟨x, hx, hrun⟩
    rw [h.first] at hx
    exact ⟨x, hx, (h.running x (ht.first hx).1).symm.trans hrun⟩
  · rintro ⟨x, hx, hrun⟩
    exact ⟨x, h.first.trans hx, (h.running x (ht.first hx).1).trans hrun⟩

theorem Queued.mono {stale' : Prop} (h : Queued m r stale xs) (himp : stale → stale') :
    Queued m r stale' xs :=
  ⟨h.linked.mono himp, h.mem_iff, h.running⟩

theorem Queued.first_eq (h : Queued m r stale xs) : m.firstSession r = xs.head? :=
  h.linked.first_eq

/-- If the first session is not running, then none is. -/
theorem Queued.not_running (h : Queued m r stale xs) (hnot : ¬m.FirstRuns r) (hx : x ∈ xs) :
    m.isRunning x = false := by
  rcases Bool.eq_false_or_eq_true (m.isRunning x) with hrun | hrun
  · exact absurd ⟨x, h.first_eq.trans (h.running x hx hrun), hrun⟩ hnot
  · exact hrun

theorem Typed.run (ht : m.Typed) (hx : m.isSubmitted x = true) : (m.run x).Typed := by
  refine ⟨ht.first, ht.last, ht.next, ht.previous, ht.created, fun {y} hy => ?_⟩
  obtain ⟨hnext, hprevious, hrun⟩ := ht.unsubmitted hy
  have hyx : y ≠ x := by
    rintro rfl
    exact absurd (hx.symm.trans hy) (by simp)
  exact ⟨hnext, hprevious, (update_of_ne hyx _ _).trans hrun⟩

/-- The first session of a list may be run. -/
theorem Queued.run {q : R} (h : Queued m q stale xs)
    (hfirst : m.firstSession (m.callee x) = some x) : Queued (m.run x) q stale xs := by
  refine ⟨h.linked, h.mem_iff, fun y hy hrunning => ?_⟩
  by_cases hyx : y = x
  · subst hyx
    have hcallee := ((h.mem_iff y).mp hy).1
    rw [← h.first_eq, ← hcallee, hfirst]
  · exact h.running y hy ((update_of_ne hyx _ _).symm.trans hrunning)

/-- A session that was never submitted is freed. -/
theorem Queued.free (h : Queued m r stale xs) (hx : m.isSubmitted x = false) :
    Queued { m with isFreed := update m.isFreed x true } r stale xs := by
  refine ⟨h.linked, fun y => ?_, h.running⟩
  rw [h.mem_iff]
  by_cases hyx : y = x
  · subst hyx
    simp [hx]
  · simp only [update_of_ne hyx]

theorem sameAt_run (m : ScoopSessions R) (x : Nat) (hr : m.callee x ≠ r) :
    SameAt m (m.run x) r := by
  refine ⟨rfl, rfl, rfl, fun _ _ => rfl, fun _ _ => rfl, fun _ _ => rfl, fun y hy => ?_,
    fun _ _ => rfl⟩
  have hyx : y ≠ x := by
    rintro rfl
    exact hr hy
  exact update_of_ne hyx _ _

variable [DecidableEq R]

theorem submit_eq (m : ScoopSessions R) (x : Nat) : m.submit x =
    { m with
      firstSession := update m.firstSession (m.callee x)
        ((m.links (m.callee x)).append x).first
      lastSession := update m.lastSession (m.callee x) (some x)
      next := ((m.links (m.callee x)).append x).next
      previous := ((m.links (m.callee x)).append x).previous
      isSubmitted := update m.isSubmitted x true } := by
  cases hlast : m.lastSession (m.callee x) with
  | none =>
      have hnone : (m.links (m.callee x)).last = none := hlast
      rw [submit, unprotectedAdd, hlast, ListLinks.append_of_none hnone]
      rfl
  | some y =>
      have hsome : (m.links (m.callee x)).last = some y := hlast
      rw [submit, unprotectedAdd, hlast, ListLinks.append_of_some hsome]
      simp only [links, update_eq_self]

/-- Submitting a session is of no concern to other regions. -/
theorem Typed.sameAt_submit (ht : m.Typed) (x : Nat) (hr : m.callee x ≠ r) :
    SameAt m (m.submit x) r := by
  have hne : ∀ y, m.callee y = r → y ≠ x := by
    rintro y hy rfl
    exact hr hy
  rw [submit_eq]
  refine ⟨rfl, update_of_ne (Ne.symm hr) _ _, update_of_ne (Ne.symm hr) _ _,
    fun y hy => ?_, fun y hy => ?_, fun y hy => update_of_ne (hne y hy) _ _,
    fun _ _ => rfl, fun _ _ => rfl⟩
  · cases hlast : (m.links (m.callee x)).last with
    | none =>
        simp only [ListLinks.append_of_none hlast]
        rfl
    | some z =>
        have hyz : y ≠ z := by
          rintro rfl
          exact hr ((ht.last hlast).1.symm.trans hy)
        simp only [ListLinks.append_of_some hlast]
        exact update_of_ne hyz _ _
  · cases hlast : (m.links (m.callee x)).last with
    | none =>
        simp only [ListLinks.append_of_none hlast]
        rfl
    | some z =>
        simp only [ListLinks.append_of_some hlast]
        exact update_of_ne (hne y hy) _ _

theorem Typed.submit (ht : m.Typed) (hx : x < m.created) : (m.submit x).Typed := by
  have hsubmitted : ∀ {y : Nat}, m.isSubmitted y = true →
      update m.isSubmitted x true y = true := by
    intro y hy
    by_cases hyx : y = x
    · rw [hyx, update_self]
    · rw [update_of_ne hyx, hy]
  have hself : update m.isSubmitted x true x = true := update_self _ _ _
  have hold : ∀ {y : Nat}, update m.isSubmitted x true y = false →
      y ≠ x ∧ m.isSubmitted y = false := by
    intro y hy
    have hyx : y ≠ x := by
      rintro rfl
      exact absurd (hself.symm.trans hy) (by simp)
    exact ⟨hyx, (update_of_ne hyx _ _).symm.trans hy⟩
  have hcreated : ∀ {y : Nat}, update m.isSubmitted x true y = true → y < m.created := by
    intro y hy
    by_cases hyx : y = x
    · exact hyx ▸ hx
    · exact ht.created ((update_of_ne hyx _ _).symm.trans hy)
  have hlastSession : ∀ {r : R} {y : Nat},
      update m.lastSession (m.callee x) (some x) r = some y →
      m.callee y = r ∧ update m.isSubmitted x true y = true := by
    intro r y hy
    rcases update_eq_some hy with ⟨rfl, hv⟩ | ⟨-, hy⟩
    · obtain rfl := some.inj hv
      exact ⟨rfl, hself⟩
    · exact ⟨(ht.last hy).1, hsubmitted (ht.last hy).2⟩
  rw [submit_eq]
  cases hlast : (m.links (m.callee x)).last with
  | none =>
      simp only [ListLinks.append_of_none hlast]
      refine ⟨?_, hlastSession, fun hy => ⟨(ht.next hy).1, hsubmitted (ht.next hy).2⟩,
        fun hy => ⟨(ht.previous hy).1, hsubmitted (ht.previous hy).2⟩, hcreated,
        fun hy => ht.unsubmitted (hold hy).2⟩
      intro r y hy
      rcases update_eq_some hy with ⟨rfl, hv⟩ | ⟨-, hy⟩
      · obtain rfl := some.inj hv
        exact ⟨rfl, hself⟩
      · exact ⟨(ht.first hy).1, hsubmitted (ht.first hy).2⟩
  | some z =>
      obtain ⟨hz, hzsubmitted⟩ := ht.last hlast
      simp only [ListLinks.append_of_some hlast]
      refine ⟨?_, hlastSession, ?_, ?_, hcreated, ?_⟩
      · intro r y hy
        rcases update_eq_some hy with ⟨rfl, hv⟩ | ⟨-, hy⟩
        · exact ⟨(ht.first hv).1, hsubmitted (ht.first hv).2⟩
        · exact ⟨(ht.first hy).1, hsubmitted (ht.first hy).2⟩
      · intro w y hy
        rcases update_eq_some hy with ⟨rfl, hv⟩ | ⟨-, hy⟩
        · obtain rfl := some.inj hv
          exact ⟨hz.symm, hself⟩
        · exact ⟨(ht.next hy).1, hsubmitted (ht.next hy).2⟩
      · intro w y hy
        rcases update_eq_some hy with ⟨rfl, hv⟩ | ⟨-, hy⟩
        · obtain rfl := some.inj hv
          exact ⟨hz, hsubmitted hzsubmitted⟩
        · exact ⟨(ht.previous hy).1, hsubmitted (ht.previous hy).2⟩
      · intro y hy
        obtain ⟨hyx, hyold⟩ := hold hy
        obtain ⟨hnext, hprevious, hrun⟩ := ht.unsubmitted hyold
        have hyz : y ≠ z := by
          rintro rfl
          exact absurd (hyold.symm.trans hzsubmitted) (by simp)
        exact ⟨(update_of_ne hyz _ _).trans hnext,
          (update_of_ne hyx _ _).trans hprevious, hrun⟩

/-- A submitted session is the last one of its callee. -/
theorem Queued.submit (h : Queued m (m.callee x) stale xs) (ht : m.Typed)
    (hx : m.isSubmitted x = false) (hfreed : m.isFreed x = false) :
    Queued (m.submit x) (m.callee x) stale (xs ++ [x]) := by
  have hnot : x ∉ xs := fun hmem => by
    have hsubmitted := ((h.mem_iff x).mp hmem).2.1
    exact absurd (hx.symm.trans hsubmitted) (by simp)
  obtain ⟨hnext, hprevious, hrun⟩ := ht.unsubmitted hx
  have hlinked := h.linked.append hnot hnext hprevious
  rw [submit_eq]
  refine ⟨?_, fun y => ?_, fun y hy hyrun => ?_⟩
  · refine hlinked.congr (update_self _ _ _) ?_ (fun _ _ => rfl) fun _ _ => rfl
    rw [hlinked.last_eq, getLast?_concat]
    exact update_self _ _ _
  · rw [mem_append, mem_singleton, h.mem_iff]
    by_cases hyx : y = x
    · subst hyx
      simp [hfreed]
    · simp [hyx]
  · rw [mem_append, mem_singleton] at hy
    rcases hy with hy | rfl
    · have hhead := h.running y hy hyrun
      rw [head?_append, hhead]
      rfl
    · exact absurd (hrun.symm.trans hyrun) (by simp)

theorem remove_eq (m : ScoopSessions R) (x : Nat) : m.remove x =
    { m with
      firstSession := update m.firstSession (m.callee x)
        ((m.links (m.callee x)).unlink x).first
      lastSession := update m.lastSession (m.callee x)
        ((m.links (m.callee x)).unlink x).last
      next := ((m.links (m.callee x)).unlink x).next
      previous := ((m.links (m.callee x)).unlink x).previous
      isFreed := update m.isFreed x true } := by
  have hpreviousLink : (m.links (m.callee x)).previous x = m.previous x := rfl
  have hnextLink : (m.links (m.callee x)).next x = m.next x := rfl
  rw [remove, ListLinks.unlink, hpreviousLink, hnextLink]
  cases hprevious : m.previous x with
  | none =>
      cases hnext : m.next x with
      | none => simp [links, hprevious]
      | some z => simp [links, hprevious, update_eq_self]
  | some y =>
      have hsame : update m.next y (m.next x) x = m.next x := by
        by_cases hxy : x = y
        · rw [← hxy, update_self]
        · exact update_of_ne hxy _ _
      cases hnext : m.next x with
      | none =>
          rw [hnext] at hsame
          simp [links, hprevious, hsame, update_eq_self]
      | some z =>
          rw [hnext] at hsame
          simp [links, hprevious, hsame, update_eq_self]

/-- The pointers that removing a session changes. -/
theorem elim_update_eq_some {f : Nat → Option Nat} {p v : Option Nat} {w y : Nat}
    (h : (p.elim f fun z => update f z v) w = some y) :
    p = some w ∧ v = some y ∨ f w = some y := by
  cases p with
  | none => exact Or.inr h
  | some z =>
      rcases update_eq_some h with ⟨rfl, hv⟩ | ⟨-, hf⟩
      · exact Or.inl ⟨rfl, hv⟩
      · exact Or.inr hf

theorem elim_update_of_ne {f : Nat → Option Nat} {p v : Option Nat} {w : Nat}
    (h : p ≠ some w) : (p.elim f fun z => update f z v) w = f w := by
  cases p with
  | none => rfl
  | some z =>
      have hwz : w ≠ z := by
        rintro rfl
        exact h rfl
      exact update_of_ne hwz _ _

theorem Typed.remove (ht : m.Typed) (x : Nat) : (m.remove x).Typed := by
  rw [remove_eq]
  refine ⟨?_, ?_, ?_, ?_, ht.created, ?_⟩
  · intro r y hy
    rcases update_eq_some hy with ⟨rfl, hv⟩ | ⟨-, hy⟩
    · simp only [ListLinks.unlink] at hv
      split at hv
      · exact ht.next hv
      · exact ht.first hv
    · exact ht.first hy
  · intro r y hy
    rcases update_eq_some hy with ⟨rfl, hv⟩ | ⟨-, hy⟩
    · simp only [ListLinks.unlink] at hv
      split at hv
      · exact ht.previous hv
      · exact ht.last hv
    · exact ht.last hy
  · intro w y hy
    rcases elim_update_eq_some hy with ⟨hw, hv⟩ | hy
    · have hcallee := (ht.previous hw).1
      exact ⟨(ht.next hv).1.trans hcallee.symm, (ht.next hv).2⟩
    · exact ht.next hy
  · intro w y hy
    rcases elim_update_eq_some hy with ⟨hw, hv⟩ | hy
    · have hcallee := (ht.next hw).1
      exact ⟨(ht.previous hv).1.trans hcallee.symm, (ht.previous hv).2⟩
    · exact ht.previous hy
  · intro y hy
    obtain ⟨hnext, hprevious, hrun⟩ := ht.unsubmitted hy
    refine ⟨(elim_update_of_ne ?_).trans hnext, (elim_update_of_ne ?_).trans hprevious, hrun⟩
    · intro hpointer
      exact absurd (hy.symm.trans (ht.previous hpointer).2) (by simp)
    · intro hpointer
      exact absurd (hy.symm.trans (ht.next hpointer).2) (by simp)

theorem Typed.sameAt_remove (ht : m.Typed) (x : Nat) (hr : m.callee x ≠ r) :
    SameAt m (m.remove x) r := by
  rw [remove_eq]
  refine ⟨rfl, update_of_ne (Ne.symm hr) _ _, update_of_ne (Ne.symm hr) _ _,
    fun y hy => elim_update_of_ne ?_, fun y hy => elim_update_of_ne ?_, fun _ _ => rfl,
    fun _ _ => rfl, fun y hy => update_of_ne ?_ _ _⟩
  · intro hpointer
    exact hr ((ht.previous hpointer).1.symm.trans hy)
  · intro hpointer
    exact hr ((ht.next hpointer).1.symm.trans hy)
  · rintro rfl
    exact hr hy

theorem remove_mem_iff {ys : List Nat} (h : Queued m r stale xs)
    (hys : ∀ y, y ∈ ys ↔ y ≠ x ∧ y ∈ xs)
    (y : Nat) : y ∈ ys ↔ (m.remove x).callee y = r ∧ (m.remove x).isSubmitted y = true ∧
      (m.remove x).isFreed y = false := by
  rw [hys, h.mem_iff, remove_eq]
  by_cases hyx : y = x
  · subst hyx
    simp
  · simp [hyx]

/-- A session is removed that knows the one before it, if there is one. -/
theorem Queued.remove (h : Queued m (m.callee x) stale xs) (hx : x ∈ xs)
    (hprevious : m.previous x = none → m.firstSession (m.callee x) = some x) :
    Queued (m.remove x) (m.callee x) (stale ∧ m.firstSession (m.callee x) ≠ some x)
      (xs.erase x) := by
  have hnodup := h.linked.nodup
  refine ⟨?_, remove_mem_iff h (fun y => hnodup.mem_erase_iff), fun y hy hrun => ?_⟩
  · obtain ⟨front, back, rfl⟩ := append_of_mem hx
    have hnot : x ∉ front := by
      intro hmem
      exact (nodup_append.mp hnodup).2.2 x hmem x mem_cons_self rfl
    have hfront : m.firstSession (m.callee x) = some x ↔ front = [] := by
      rw [h.first_eq]
      cases front with
      | nil => simp
      | cons w front =>
          have hwx : w ≠ x := fun heq => hnot (heq ▸ mem_cons_self)
          simp [hwx]
    have hlinked := h.linked.unlink_of_previous fun hnone => hfront.mp (hprevious hnone)
    rw [ne_eq, ← hfront] at hlinked
    rw [erase_append_right _ hnot, erase_cons_head, remove_eq]
    exact hlinked.congr (update_self _ _ _) (update_self _ _ _)
      (fun _ _ => rfl) fun _ _ => rfl
  · obtain ⟨hyx, hy⟩ := hnodup.mem_erase_iff.mp hy
    have hrun' : m.isRunning y = true := by
      rw [remove_eq] at hrun
      exact hrun
    have hhead := h.running y hy hrun'
    cases xs with
    | nil => exact absurd hy not_mem_nil
    | cons z zs =>
        obtain rfl : z = y := some.inj hhead
        have hne : (z == x) = false := by simpa using hyx
        rw [erase_cons_tail (by simp [hne])]
        rfl

omit [DecidableEq R] in
/-- In a list whose pointers are all right, only the first session has none before it. -/
theorem Queued.first_of_previous (h : Queued m (m.callee x) False xs) (hx : x ∈ xs)
    (hnone : m.previous x = none) : m.firstSession (m.callee x) = some x := by
  obtain ⟨front, back, rfl⟩ := append_of_mem hx
  have hprevious := h.linked.previous_eq.symm.trans hnone
  rw [h.first_eq, getLast?_eq_none_iff.mp hprevious]
  rfl

/-- The ways to move a session to the first position. -/
theorem moveToFirst_cases (h : m.moveToFirst x = some m') :
    m.firstSession (m.callee x) = some x ∧ m' = m ∨
    (∃ y, m.firstSession (m.callee x) ≠ some x ∧ m.lastSession (m.callee x) = some x ∧
      m.previous x = some y ∧ m' = { m with
        lastSession := update m.lastSession (m.callee x) (some y)
        next := update (update m.next y none) x (m.firstSession (m.callee x))
        previous := update m.previous x none
        firstSession := update m.firstSession (m.callee x) (some x) }) ∨
    ∃ y z, m.firstSession (m.callee x) ≠ some x ∧ m.lastSession (m.callee x) ≠ some x ∧
      m.previous x = some y ∧ m.next x = some z ∧ m' = { m with
        next := update (update m.next y (some z)) x (m.firstSession (m.callee x))
        previous := update (update m.previous z (some y)) x none
        firstSession := update m.firstSession (m.callee x) (some x) } := by
  rw [moveToFirst] at h
  by_cases hfirst : m.firstSession (m.callee x) = some x
  · exact Or.inl ⟨hfirst, (some.inj ((if_pos hfirst).symm.trans h)).symm⟩
  · rw [if_neg hfirst] at h
    by_cases hlast : m.lastSession (m.callee x) = some x
    · rw [if_pos hlast] at h
      obtain ⟨y, hy, hm'⟩ := bind_eq_some_iff.mp h
      exact Or.inr (Or.inl ⟨y, hfirst, hlast, hy, (some.inj hm').symm⟩)
    · rw [if_neg hlast] at h
      obtain ⟨y, hy, h⟩ := bind_eq_some_iff.mp h
      obtain ⟨z, hz, hm'⟩ := bind_eq_some_iff.mp h
      exact Or.inr (Or.inr ⟨y, z, hfirst, hlast, hy, hz, (some.inj hm').symm⟩)

/-- What promoting a session leaves as it is. -/
structure Promoted (m m' : ScoopSessions R) (x : Nat) : Prop where
  created : m'.created = m.created
  caller : m'.caller = m.caller
  callee : m'.callee = m.callee
  isSubmitted : m'.isSubmitted = m.isSubmitted
  isFreed : m'.isFreed = m.isFreed
  nextSibling : m'.nextSibling = m.nextSibling
  isRunning : m'.isRunning = update m.isRunning x true
  sameAt : ∀ r, m.callee x ≠ r → SameAt m m' r
  typed : m'.Typed

theorem Typed.moveToFirst (ht : m.Typed) (hx : m.isSubmitted x = true)
    (h : m.moveToFirst x = some m') : m'.Typed ∧ ∀ r, m.callee x ≠ r → SameAt m m' r := by
  have hfirst : ∀ {r : R} {y : Nat},
      update m.firstSession (m.callee x) (some x) r = some y →
      m.callee y = r ∧ m.isSubmitted y = true := by
    intro r y hy
    rcases update_eq_some hy with ⟨rfl, hv⟩ | ⟨-, hy⟩
    · obtain rfl := some.inj hv
      exact ⟨rfl, hx⟩
    · exact ht.first hy
  have hne : ∀ {y z : Nat}, m.isSubmitted y = true → m.isSubmitted z = false → z ≠ y := by
    rintro y z hy hz rfl
    exact absurd (hz.symm.trans hy) (by simp)
  rcases moveToFirst_cases h with ⟨-, rfl⟩ | ⟨y, -, hlast, hy, rfl⟩ | ⟨y, z, -, -, hy, hz, rfl⟩
  · exact ⟨ht, fun r _ => SameAt.refl m' r⟩
  · obtain ⟨hycallee, hysubmitted⟩ := ht.previous hy
    refine ⟨⟨hfirst, ?_, ?_, ?_, ht.created, ?_⟩, fun r hr => ?_⟩
    · intro r w hw
      rcases update_eq_some hw with ⟨rfl, hv⟩ | ⟨-, hw⟩
      · obtain rfl := some.inj hv
        exact ⟨hycallee, hysubmitted⟩
      · exact ht.last hw
    · intro w v hv
      rcases update_eq_some hv with ⟨rfl, hv⟩ | ⟨-, hv⟩
      · exact ht.first hv
      · rcases update_eq_some hv with ⟨-, hv⟩ | ⟨-, hv⟩
        · exact nomatch hv
        · exact ht.next hv
    · intro w v hv
      rcases update_eq_some hv with ⟨-, hv⟩ | ⟨-, hv⟩
      · exact nomatch hv
      · exact ht.previous hv
    · intro w hw
      obtain ⟨hnext, hprevious, hrun⟩ := ht.unsubmitted hw
      have hwx := hne hx hw
      have hwy := hne hysubmitted hw
      refine ⟨?_, (update_of_ne hwx _ _).trans hprevious, hrun⟩
      exact (update_of_ne hwx _ _).trans ((update_of_ne hwy _ _).trans hnext)
    · have hwx : ∀ w, m.callee w = r → w ≠ x := by
        rintro w hw rfl
        exact hr hw
      have hwy : ∀ w, m.callee w = r → w ≠ y := by
        rintro w hw rfl
        exact hr (hycallee.symm.trans hw)
      refine ⟨rfl, update_of_ne (Ne.symm hr) _ _, update_of_ne (Ne.symm hr) _ _,
        fun w hw => ?_, fun w hw => update_of_ne (hwx w hw) _ _, fun _ _ => rfl,
        fun _ _ => rfl, fun _ _ => rfl⟩
      exact (update_of_ne (hwx w hw) _ _).trans (update_of_ne (hwy w hw) _ _)
  · obtain ⟨hycallee, hysubmitted⟩ := ht.previous hy
    obtain ⟨hzcallee, hzsubmitted⟩ := ht.next hz
    refine ⟨⟨hfirst, ht.last, ?_, ?_, ht.created, ?_⟩, fun r hr => ?_⟩
    · intro w v hv
      rcases update_eq_some hv with ⟨rfl, hv⟩ | ⟨-, hv⟩
      · exact ht.first hv
      · rcases update_eq_some hv with ⟨rfl, hv'⟩ | ⟨-, hv⟩
        · obtain rfl := some.inj hv'
          exact ⟨hzcallee.trans hycallee.symm, hzsubmitted⟩
        · exact ht.next hv
    · intro w v hv
      rcases update_eq_some hv with ⟨-, hv⟩ | ⟨-, hv⟩
      · exact nomatch hv
      · rcases update_eq_some hv with ⟨rfl, hv'⟩ | ⟨-, hv⟩
        · obtain rfl := some.inj hv'
          exact ⟨hycallee.trans hzcallee.symm, hysubmitted⟩
        · exact ht.previous hv
    · intro w hw
      obtain ⟨hnext, hprevious, hrun⟩ := ht.unsubmitted hw
      have hwx := hne hx hw
      have hwy := hne hysubmitted hw
      have hwz := hne hzsubmitted hw
      refine ⟨?_, ?_, hrun⟩
      · exact (update_of_ne hwx _ _).trans ((update_of_ne hwy _ _).trans hnext)
      · exact (update_of_ne hwx _ _).trans ((update_of_ne hwz _ _).trans hprevious)
    · have hwne : ∀ {v w : Nat}, m.callee v = m.callee x → m.callee w = r → w ≠ v := by
        rintro v w hv hw rfl
        exact hr (hv.symm.trans hw)
      refine ⟨rfl, update_of_ne (Ne.symm hr) _ _, rfl, fun w hw => ?_, fun w hw => ?_,
        fun _ _ => rfl, fun _ _ => rfl, fun _ _ => rfl⟩
      · exact (update_of_ne (hwne rfl hw) _ _).trans
          (update_of_ne (hwne hycallee hw) _ _)
      · exact (update_of_ne (hwne rfl hw) _ _).trans
          (update_of_ne (hwne hzcallee hw) _ _)

theorem Typed.promote (ht : m.Typed) (hx : m.isSubmitted x = true)
    (h : m.promote x = some m') : Promoted m m' x := by
  obtain ⟨n, hmove, rfl⟩ := map_eq_some_iff.mp h
  obtain ⟨hn, hsame⟩ := ht.moveToFirst hx hmove
  have hframe : n.created = m.created ∧ n.caller = m.caller ∧ n.callee = m.callee ∧
      n.isSubmitted = m.isSubmitted ∧ n.isFreed = m.isFreed ∧ n.nextSibling = m.nextSibling ∧
      n.isRunning = m.isRunning := by
    rcases moveToFirst_cases hmove with ⟨-, rfl⟩ | ⟨y, -, -, -, rfl⟩ | ⟨y, z, -, -, -, -, rfl⟩ <;>
      exact ⟨rfl, rfl, rfl, rfl, rfl, rfl, rfl⟩
  obtain ⟨hcreated, hcaller, hcallee, hsubmitted, hfreed, hsibling, hrunning⟩ := hframe
  refine ⟨hcreated, hcaller, hcallee, hsubmitted, hfreed, hsibling, ?_, fun r hr => ?_, ?_⟩
  · exact congrArg (fun f => update f x true) hrunning
  · exact (hsame r hr).trans (sameAt_run n x (hcallee ▸ hr))
  · exact hn.run (hsubmitted ▸ hx)

/-- A session that is not the first one is taken out of its list and put first. -/
theorem Queued.exists_moveToFirst (h : Queued m (m.callee x) False xs) (hx : x ∈ xs)
    (hfirst : m.firstSession (m.callee x) ≠ some x) :
    ∃ m', m.moveToFirst x = some m' ∧
      m'.links (m.callee x) = ((m.links (m.callee x)).unlink x).jump x ∧
      Linked (m'.links (m.callee x)) True (x :: xs.erase x) := by
  obtain ⟨front, back, rfl⟩ := append_of_mem hx
  have hnodup := h.linked.nodup
  have hnot : x ∉ front ∧ x ∉ back := by
    obtain ⟨-, hcons, hdisjoint⟩ := nodup_append.mp hnodup
    refine ⟨fun hmem => ?_, (nodup_cons.mp hcons).1⟩
    exact hdisjoint x hmem x mem_cons_self rfl
  have herase : (front ++ x :: back).erase x = front ++ back := by
    rw [erase_append_right _ hnot.1, erase_cons_head]
  obtain ⟨y, hy⟩ : ∃ y, front.getLast? = some y := by
    rcases eq_nil_or_concat front with rfl | ⟨ws, y, rfl⟩
    · exact absurd h.first_eq hfirst
    · exact ⟨y, by rw [concat_eq_append, getLast?_concat]⟩
  have hprevious : m.previous x = some y := h.linked.previous_eq.trans hy
  have hnext : m.next x = back.head? := h.linked.next_eq
  have hlinked : Linked (((m.links (m.callee x)).unlink x).jump x) True (x :: (front ++ back)) := by
    apply h.linked.unlink.jump
    · rw [mem_append, not_or]
      exact hnot
    · intro hnil
      rw [(append_eq_nil_iff.mp hnil).1] at hy
      exact nomatch hy
  rw [herase]
  suffices hmove : ∃ m', m.moveToFirst x = some m' ∧
      m'.links (m.callee x) = ((m.links (m.callee x)).unlink x).jump x by
    obtain ⟨m', hmove, hlinks⟩ := hmove
    exact ⟨m', hmove, hlinks, hlinks ▸ hlinked⟩
  have hlast : m.lastSession (m.callee x) = (front ++ x :: back).getLast? := h.linked.last_eq
  cases back with
  | nil =>
      have hnone : m.next x = none := hnext
      have hlast' : m.lastSession (m.callee x) = some x := by
        rw [hlast, getLast?_concat]
      refine ⟨_, by rw [moveToFirst, if_neg hfirst, if_pos hlast', hprevious]; rfl, ?_⟩
      simp [links, ListLinks.unlink, ListLinks.jump, hprevious, hnone]
  | cons z zs =>
      have hsome : m.next x = some z := hnext
      have hlast' : m.lastSession (m.callee x) ≠ some x := by
        intro heq
        have hback : (front ++ x :: z :: zs).getLast? = (z :: zs).getLast? := by
          rw [append_cons, getLast?_append_of_ne_nil _ (cons_ne_nil z zs)]
        rw [heq, hback] at hlast
        exact hnot.2 (mem_of_getLast? hlast.symm)
      refine ⟨_, by rw [moveToFirst, if_neg hfirst, if_neg hlast', hprevious, hsome]; rfl, ?_⟩
      simp [links, ListLinks.unlink, ListLinks.jump, hprevious, hsome]

/-- A session of a list is promoted: no other one may be running. -/
theorem Queued.exists_promote (h : Queued m (m.callee x) (m.FirstRuns (m.callee x)) xs)
    (ht : m.Typed) (hx : x ∈ xs)
    (hready : m.firstSession (m.callee x) = some x ∨ ¬m.FirstRuns (m.callee x)) :
    ∃ m', m.promote x = some m' ∧
      Queued m' (m.callee x) (m'.FirstRuns (m.callee x)) (x :: xs.erase x) := by
  have hsubmitted := ((h.mem_iff x).mp hx).2.1
  -- The pointers afterwards are all that matters.
  suffices hlinked : ∃ m', m.moveToFirst x = some m' ∧
      Linked (m'.links (m.callee x)) True (x :: xs.erase x) by
    obtain ⟨m', hmove, hlinked⟩ := hlinked
    have hpromote : m.promote x = some (m'.run x) := by rw [ScoopSessions.promote, hmove]; rfl
    have hp := ht.promote hsubmitted hpromote
    have hfirst : (m'.run x).firstSession (m.callee x) = some x := hlinked.first_eq
    have hruns : (m'.run x).FirstRuns (m.callee x) := by
      refine ⟨x, hfirst, ?_⟩
      rw [hp.isRunning, update_self]
    refine ⟨m'.run x, hpromote, hlinked.mono fun _ => hruns, fun y => ?_, fun y hy hrun => ?_⟩
    · rw [hp.callee, hp.isSubmitted, hp.isFreed, ← h.mem_iff]
      exact (perm_cons_erase hx).mem_iff.symm
    · by_cases hyx : y = x
      · rw [hyx]
        rfl
      · rw [hp.isRunning, update_of_ne hyx] at hrun
        have hmem := (perm_cons_erase hx).mem_iff.mpr hy
        rcases hready with hready | hready
        · have hhead := h.running y hmem hrun
          rw [← h.first_eq, hready] at hhead
          exact absurd (some.inj hhead).symm hyx
        · exact absurd (hrun.symm.trans (h.not_running hready hmem)) (by simp)
  by_cases hfirst : m.firstSession (m.callee x) = some x
  · refine ⟨m, if_pos hfirst, ?_⟩
    obtain ⟨ys, rfl⟩ : ∃ ys, xs = x :: ys := head?_eq_some_iff.mp (h.first_eq.symm.trans hfirst)
    rw [erase_cons_head]
    exact h.linked.mono fun _ => trivial
  · have hnot := hready.resolve_left hfirst
    obtain ⟨m', hmove, -, hlinked⟩ := (h.mono fun hruns => hnot hruns).exists_moveToFirst hx hfirst
    exact ⟨m', hmove, hlinked⟩

theorem promoteAll_singleton (m : ScoopSessions R) (x : Nat) : m.promoteAll [x] = m.promote x := by
  cases hpromote : m.promote x <;> simp [ScoopSessions.promoteAll, hpromote]

/-- What promoting several sessions leaves as it is. -/
structure PromotedAll (m m' : ScoopSessions R) (xs : List Nat) : Prop where
  created : m'.created = m.created
  caller : m'.caller = m.caller
  callee : m'.callee = m.callee
  isSubmitted : m'.isSubmitted = m.isSubmitted
  isFreed : m'.isFreed = m.isFreed
  nextSibling : m'.nextSibling = m.nextSibling
  isRunning : ∀ y, m'.isRunning y = (decide (y ∈ xs) || m.isRunning y)
  sameAt : ∀ r, (∀ y ∈ xs, m.callee y ≠ r) → SameAt m m' r
  typed : m'.Typed

theorem Typed.promoteAll (ht : m.Typed) (hxs : ∀ y ∈ xs, m.isSubmitted y = true)
    (h : m.promoteAll xs = some m') : PromotedAll m m' xs := by
  induction xs generalizing m with
  | nil =>
      obtain rfl := some.inj h
      exact ⟨rfl, rfl, rfl, rfl, rfl, rfl, fun y => by simp, fun r _ => SameAt.refl m r, ht⟩
  | cons x xs ih =>
      obtain ⟨n, hn, h⟩ := bind_eq_some_iff.mp h
      obtain ⟨hx, hxs⟩ := forall_mem_cons.mp hxs
      have hp := ht.promote hx hn
      have hall := ih hp.typed (fun y hy => by rw [hp.isSubmitted]; exact hxs y hy) h
      refine ⟨hall.created.trans hp.created, hall.caller.trans hp.caller,
        hall.callee.trans hp.callee, hall.isSubmitted.trans hp.isSubmitted,
        hall.isFreed.trans hp.isFreed, hall.nextSibling.trans hp.nextSibling, fun y => ?_,
        fun r hr => ?_, hall.typed⟩
      · rw [hall.isRunning, hp.isRunning]
        by_cases hyx : y = x
        · subst hyx
          simp
        · simp [hyx]
      · obtain ⟨hrx, hr⟩ := forall_mem_cons.mp hr
        refine (hp.sameAt r hrx).trans (hall.sameAt r fun y hy => ?_)
        rw [hp.callee]
        exact hr y hy

/-- The list of a region when several sessions of different regions are promoted. -/
theorem Queued.promoteAll {ys : List Nat} (h : Queued m r (m.FirstRuns r) xs) (ht : m.Typed)
    (hys : ∀ y ∈ ys, m.isSubmitted y = true) (hdistinct : (ys.map m.callee).Nodup)
    (hready : ∀ y ∈ ys, m.callee y = r → y ∈ xs ∧ (m.firstSession r = some y ∨ ¬m.FirstRuns r))
    (hrun : m.promoteAll ys = some m') :
    (∀ y ∈ ys, m.callee y ≠ r) ∧ Queued m' r (m'.FirstRuns r) xs ∨
      ∃ y ∈ ys, m.callee y = r ∧ Queued m' r (m'.FirstRuns r) (y :: xs.erase y) := by
  have hsame : ∀ {m m' : ScoopSessions R} {zs : List Nat}, m.Typed → SameAt m m' r →
      Queued m r (m.FirstRuns r) zs → Queued m' r (m'.FirstRuns r) zs := by
    intro m m' zs ht hsame hq
    exact (hsame.queued hq).mono (hsame.firstRuns ht).mpr
  induction ys generalizing m with
  | nil =>
      obtain rfl := some.inj hrun
      exact Or.inl ⟨by simp, h⟩
  | cons y ys ih =>
      obtain ⟨n, hn, hrun⟩ := bind_eq_some_iff.mp hrun
      obtain ⟨hy, hys⟩ := forall_mem_cons.mp hys
      obtain ⟨hready, hready'⟩ := forall_mem_cons.mp hready
      rw [map_cons, nodup_cons] at hdistinct
      have hp := ht.promote hy hn
      have hnsubmitted : ∀ z ∈ ys, n.isSubmitted z = true := by
        rw [hp.isSubmitted]
        exact hys
      by_cases hr : m.callee y = r
      · subst hr
        obtain ⟨hmem, hfree⟩ := hready rfl
        obtain ⟨n', hn', hq⟩ := h.exists_promote ht hmem hfree
        obtain rfl := some.inj (hn.symm.trans hn')
        refine Or.inr ⟨y, mem_cons_self, rfl, ?_⟩
        refine hsame hp.typed ((hp.typed.promoteAll hnsubmitted hrun).sameAt _ ?_) hq
        intro z hz heq
        rw [hp.callee] at heq
        exact hdistinct.1 (heq ▸ mem_map_of_mem hz)
      · have hsameAt := hp.sameAt r hr
        have hfirst := hsameAt.first
        have hruns := hsameAt.firstRuns ht
        have hih := ih (hsame ht hsameAt h)
            hp.typed hnsubmitted (by rw [hp.callee]; exact hdistinct.2)
          (by rw [hp.callee, hfirst, hruns]; exact hready') hrun
        rw [hp.callee] at hih
        rcases hih with ⟨hnone, hq⟩ | ⟨z, hz, hzr, hq⟩
        · exact Or.inl ⟨forall_mem_cons.mpr ⟨hr, hnone⟩, hq⟩
        · exact Or.inr ⟨z, mem_cons_of_mem y hz, hzr, hq⟩

/-- Submit several sessions, in their order. -/
def submitAll (m : ScoopSessions R) (xs : List Nat) : ScoopSessions R :=
  xs.foldl submit m

theorem submitAll_cons (m : ScoopSessions R) (x : Nat) (xs : List Nat) :
    m.submitAll (x :: xs) = (m.submit x).submitAll xs := rfl

structure SubmittedAll (m m' : ScoopSessions R) (xs : List Nat) : Prop where
  created : m'.created = m.created
  caller : m'.caller = m.caller
  callee : m'.callee = m.callee
  isRunning : m'.isRunning = m.isRunning
  isFreed : m'.isFreed = m.isFreed
  nextSibling : m'.nextSibling = m.nextSibling
  isSubmitted : ∀ y, m'.isSubmitted y = (decide (y ∈ xs) || m.isSubmitted y)
  typed : m'.Typed

theorem Typed.submitAll (ht : m.Typed) (hxs : ∀ y ∈ xs, y < m.created) :
    SubmittedAll m (m.submitAll xs) xs := by
  induction xs generalizing m with
  | nil => exact ⟨rfl, rfl, rfl, rfl, rfl, rfl, fun y => by simp [ScoopSessions.submitAll], ht⟩
  | cons x xs ih =>
      obtain ⟨hx, hxs⟩ := forall_mem_cons.mp hxs
      have hcreated : (m.submit x).created = m.created := by rw [submit_eq]
      have hsubmitted : (m.submit x).isSubmitted = update m.isSubmitted x true := by
        rw [submit_eq]
      have hall := ih (ht.submit hx) fun y hy => hcreated ▸ hxs y hy
      rw [submitAll_cons]
      refine ⟨hall.created.trans hcreated, hall.caller.trans (by rw [submit_eq]),
        hall.callee.trans (by rw [submit_eq]), hall.isRunning.trans (by rw [submit_eq]),
        hall.isFreed.trans (by rw [submit_eq]), hall.nextSibling.trans (by rw [submit_eq]),
        fun y => ?_, hall.typed⟩
      rw [hall.isSubmitted, hsubmitted]
      by_cases hyx : y = x
      · subst hyx
        simp
      · simp [hyx]

/-- The list of a region when several sessions are submitted. -/
theorem Queued.submitAll {ys : List Nat} (h : Queued m r stale xs) (ht : m.Typed)
    (hnodup : ys.Nodup) (hys : ∀ y ∈ ys, y < m.created ∧ m.isSubmitted y = false ∧
      m.isFreed y = false) :
    Queued (m.submitAll ys) r stale (xs ++ ys.filter fun y => m.callee y = r) := by
  induction ys generalizing m xs with
  | nil =>
      rw [filter_nil, append_nil]
      exact h
  | cons y ys ih =>
      obtain ⟨⟨hy, hyunsubmitted, hyfreed⟩, hys⟩ := forall_mem_cons.mp hys
      obtain ⟨hnot, hnodup⟩ := nodup_cons.mp hnodup
      have hcallee : (m.submit y).callee = m.callee := by rw [submit_eq]
      have hkeep : ∀ z ∈ ys, z < (m.submit y).created ∧ (m.submit y).isSubmitted z = false ∧
          (m.submit y).isFreed z = false := by
        intro z hz
        have hzy : z ≠ y := by
          rintro rfl
          exact hnot hz
        rw [submit_eq]
        exact ⟨(hys z hz).1, (update_of_ne hzy _ _).trans (hys z hz).2.1, (hys z hz).2.2⟩
      rw [submitAll_cons]
      by_cases hr : m.callee y = r
      · subst hr
        have hih := ih (h.submit ht hyunsubmitted hyfreed) (ht.submit hy) hnodup hkeep
        rw [hcallee, append_assoc] at hih
        rw [filter_cons_of_pos (by simp)]
        exact hih
      · have hih := ih ((ht.sameAt_submit y hr).queued h) (ht.submit hy) hnodup hkeep
        rw [hcallee] at hih
        rw [filter_cons_of_neg (by simpa using hr)]
        exact hih

end

end ScoopSessions

end Gobo
