/-
Multisessions: the sessions that one caller opened together form a ring.
-/
import Gobo.ScoopSessions

namespace Gobo

open List Function

namespace ScoopSessions

variable {R : Type}

/-- `x` and `ys` are the sessions of a multisession: of one caller, with a callee each,
all of them submitted or none, and all running or none. -/
structure IsGroup (m : ScoopSessions R) (x : Nat) (ys : List Nat) : Prop where
  ring : Ring m.nextSibling x ys
  created : ∀ y ∈ x :: ys, y < m.created
  callees : ((x :: ys).map m.callee).Nodup
  caller : ∀ y ∈ x :: ys, m.caller y = m.caller x
  submitted : ∀ y ∈ x :: ys, m.isSubmitted y = m.isSubmitted x
  running : ∀ y ∈ x :: ys, m.isRunning y = m.isRunning x

/-- Nothing changes but lists and the flags of submitted sessions. -/
structure Keeps (m m' : ScoopSessions R) : Prop where
  created : m'.created = m.created
  caller : m'.caller = m.caller
  callee : m'.callee = m.callee
  isSubmitted : m'.isSubmitted = m.isSubmitted
  nextSibling : m'.nextSibling = m.nextSibling

namespace Keeps

variable {m m' : ScoopSessions R} {x : Nat} {xs : List Nat}

theorem refl (m : ScoopSessions R) : Keeps m m := ⟨rfl, rfl, rfl, rfl, rfl⟩

theorem siblings (h : Keeps m m') (x : Nat) : m'.siblings x = m.siblings x := by
  rw [ScoopSessions.siblings, ScoopSessions.siblings, h.nextSibling, h.created]

theorem isMultisession (h : Keeps m m') (x : Nat) : m'.isMultisession x = m.isMultisession x := by
  rw [ScoopSessions.isMultisession, ScoopSessions.isMultisession, h.nextSibling]

theorem run (m : ScoopSessions R) (x : Nat) : Keeps m (m.run x) := ⟨rfl, rfl, rfl, rfl, rfl⟩

variable [DecidableEq R]

theorem promote (ht : m.Typed) (hx : m.isSubmitted x = true) (h : m.promote x = some m') :
    Keeps m m' :=
  have hp := ht.promote hx h
  ⟨hp.created, hp.caller, hp.callee, hp.isSubmitted, hp.nextSibling⟩

theorem promoteAll (ht : m.Typed) (hxs : ∀ y ∈ xs, m.isSubmitted y = true)
    (h : m.promoteAll xs = some m') : Keeps m m' :=
  have hp := ht.promoteAll hxs h
  ⟨hp.created, hp.caller, hp.callee, hp.isSubmitted, hp.nextSibling⟩

theorem remove (m : ScoopSessions R) (x : Nat) : Keeps m (m.remove x) := by
  rw [remove_eq]
  exact ⟨rfl, rfl, rfl, rfl, rfl⟩

end Keeps

/-- Every session has its siblings. -/
def Grouped (m : ScoopSessions R) : Prop :=
  ∀ x < m.created, IsGroup m x (m.siblings x)

namespace IsGroup

variable {m m' : ScoopSessions R} {x y : Nat} {xs ys : List Nat}

theorem nodup (h : IsGroup m x ys) : (x :: ys).Nodup := List.Nodup.of_map _ h.callees

theorem notMem (h : IsGroup m x ys) : x ∉ ys := (nodup_cons.mp h.nodup).1

theorem siblings_eq (h : IsGroup m x ys) : m.siblings x = ys := by
  have hsub : x :: ys ⊆ range m.created := fun y hy => mem_range.mpr (h.created y hy)
  have hlength := (subperm_of_subset h.nodup hsub).length_le
  rw [length_range, length_cons] at hlength
  exact Ring.walk_eq h.ring h.notMem hlength

theorem isMultisession_iff (h : IsGroup m x ys) : m.isMultisession x = true ↔ ys ≠ [] := by
  rw [isMultisession, decide_eq_true_iff, ne_eq, h.ring.next_eq_self_iff h.notMem]

/-- The group of a session is the group of each of its siblings. -/
theorem of_mem (h : IsGroup m x ys) (hy : y ∈ x :: ys) :
    ∃ zs, IsGroup m y zs ∧ (y :: zs).Perm (x :: ys) := by
  obtain ⟨zs, hring, hperm⟩ := h.ring.exists_of_mem hy
  have hmem : ∀ z ∈ y :: zs, z ∈ x :: ys := fun z hz => hperm.mem_iff.mp hz
  refine ⟨zs, ⟨hring, fun z hz => h.created z (hmem z hz), ?_, fun z hz => ?_, fun z hz => ?_,
    fun z hz => ?_⟩, hperm⟩
  · exact (hperm.map m.callee).nodup_iff.mpr h.callees
  · exact (h.caller z (hmem z hz)).trans (h.caller y hy).symm
  · exact (h.submitted z (hmem z hz)).trans (h.submitted y hy).symm
  · exact (h.running z (hmem z hz)).trans (h.running y hy).symm

/-- A session leads to its group and to no other. -/
theorem mem_iff (hx : IsGroup m x xs) (hy : IsGroup m y ys) {z : Nat} (hz : z ∈ y :: ys) :
    z ∈ x :: xs ↔ y ∈ x :: xs := by
  obtain ⟨zs, hzgroup, hzperm⟩ := hy.of_mem hz
  constructor
  · intro hmem
    obtain ⟨zs', hzgroup', hzperm'⟩ := hx.of_mem hmem
    obtain rfl : zs = zs' := hzgroup.siblings_eq.symm.trans hzgroup'.siblings_eq
    exact hzperm'.mem_iff.mp (hzperm.mem_iff.mpr mem_cons_self)
  · intro hmem
    obtain ⟨ys', hygroup', hyperm'⟩ := hx.of_mem hmem
    obtain rfl : ys = ys' := hy.siblings_eq.symm.trans hygroup'.siblings_eq
    exact hyperm'.mem_iff.mp hz

/-- The flags of a group change together. -/
theorem congr (h : IsGroup m x ys) (hcreated : m'.created = m.created)
    (hnext : m'.nextSibling = m.nextSibling) (hcaller : m'.caller = m.caller)
    (hcallee : m'.callee = m.callee)
    (hsubmitted : ∀ y ∈ x :: ys, m'.isSubmitted y = m'.isSubmitted x)
    (hrunning : ∀ y ∈ x :: ys, m'.isRunning y = m'.isRunning x) : IsGroup m' x ys :=
  ⟨hnext ▸ h.ring, hcreated ▸ h.created, hcallee ▸ h.callees, hcaller ▸ h.caller, hsubmitted,
    hrunning⟩

end IsGroup

namespace Grouped

variable {m m' : ScoopSessions R} {x y : Nat} {xs : List Nat}

/-- The sessions `S` are full groups. -/
def Closed (m : ScoopSessions R) (xs : List Nat) : Prop :=
  ∀ x < m.created, ∀ y ∈ m.siblings x, y ∈ xs ↔ x ∈ xs

theorem closed_group (h : Grouped m) (hx : x < m.created) : Closed m (x :: m.siblings x) :=
  fun y hy _ hz => (h x hx).mem_iff (h y hy) (mem_cons_of_mem y hz)

theorem siblings_eq_nil (h : Grouped m) (hx : x < m.created)
    (hsingle : m.isMultisession x = false) :
    m.siblings x = [] := by
  by_contra hne
  rw [(h x hx).isMultisession_iff.mpr hne] at hsingle
  exact nomatch hsingle

theorem mem_siblings_self (h : Grouped m) (hx : x < m.created) (hy : y ∈ x :: m.siblings x) :
    x ∈ y :: m.siblings y := by
  obtain ⟨zs, hgroup, hperm⟩ := (h x hx).of_mem hy
  rw [hgroup.siblings_eq]
  exact hperm.mem_iff.mpr mem_cons_self

/-- Nothing changes but flags, and those of full groups. -/
theorem congr (h : Grouped m) (hcreated : m'.created = m.created)
    (hnext : m'.nextSibling = m.nextSibling) (hcaller : m'.caller = m.caller)
    (hcallee : m'.callee = m.callee)
    (hsubmitted : ∀ x < m.created, ∀ y ∈ m.siblings x, m'.isSubmitted y = m'.isSubmitted x)
    (hrunning : ∀ x < m.created, ∀ y ∈ m.siblings x, m'.isRunning y = m'.isRunning x) :
    Grouped m' := by
  intro x hx
  rw [hcreated] at hx
  have hgroup : IsGroup m' x (m.siblings x) :=
    (h x hx).congr hcreated hnext hcaller hcallee
      (forall_mem_cons.mpr ⟨rfl, hsubmitted x hx⟩)
      (forall_mem_cons.mpr ⟨rfl, hrunning x hx⟩)
  rw [hgroup.siblings_eq]
  exact hgroup

section

variable (h : Grouped m) (hx : x < m.created)

include h hx

theorem submitted_eq (hy : y ∈ m.siblings x) : m.isSubmitted y = m.isSubmitted x :=
  (h x hx).submitted y (mem_cons_of_mem x hy)

theorem running_eq (hy : y ∈ m.siblings x) : m.isRunning y = m.isRunning x :=
  (h x hx).running y (mem_cons_of_mem x hy)

theorem closed_single (hsingle : m.isMultisession x = false) : Closed m [x] := by
  have hclosed := h.closed_group hx
  rwa [h.siblings_eq_nil hx hsingle] at hclosed

/-- Nothing is new if a running session is run, and a single one is a group. -/
theorem isRunning_eq
    (hready : m.isRunning x = true ∨ m.isMultisession x = false) {z : Nat} (hz : z < m.created)
    (hy : y ∈ m.siblings z) :
    update m.isRunning x true y = update m.isRunning x true z := by
  rcases hready with hrunning | hsingle
  · have hsame : update m.isRunning x true = m.isRunning := by
      rw [← hrunning, update_eq_self]
    rw [hsame, h.running_eq hz hy]
  · have hgroup := h x hx
    rw [h.siblings_eq_nil hx hsingle] at hgroup
    have hiff := hgroup.mem_iff (h z hz) (mem_cons_of_mem z hy)
    rw [mem_singleton, mem_singleton] at hiff
    by_cases hzx : z = x
    · rw [hzx, hiff.mpr hzx]
    · rw [update_of_ne hzx, update_of_ne (fun hyx => hzx (hiff.mp hyx)),
        h.running_eq hz hy]

end

theorem run (h : Grouped m) (hx : x < m.created)
    (hready : m.isRunning x = true ∨ m.isMultisession x = false) : Grouped (m.run x) :=
  h.congr rfl rfl rfl rfl (fun _ hz _ hy => h.submitted_eq hz hy)
    fun _ hz _ hy => h.isRunning_eq hx hready hz hy

variable [DecidableEq R]

theorem submitAll (h : Grouped m) (ht : m.Typed) (hxs : ∀ y ∈ xs, y < m.created)
    (hclosed : Closed m xs) : Grouped (m.submitAll xs) := by
  have hall := ht.submitAll hxs
  refine h.congr hall.created hall.nextSibling hall.caller hall.callee (fun x hx y hy => ?_)
    fun x hx y hy => ?_
  · rw [hall.isSubmitted, hall.isSubmitted, h.submitted_eq hx hy,
      decide_eq_decide.mpr (hclosed x hx y hy)]
  · rw [hall.isRunning, h.running_eq hx hy]

theorem promoteAll (h : Grouped m) (ht : m.Typed) (hxs : ∀ y ∈ xs, m.isSubmitted y = true)
    (hclosed : Closed m xs) (hrun : m.promoteAll xs = some m') : Grouped m' := by
  have hall := ht.promoteAll hxs hrun
  refine h.congr hall.created hall.nextSibling hall.caller hall.callee (fun x hx y hy => ?_)
    fun x hx y hy => ?_
  · rw [hall.isSubmitted, h.submitted_eq hx hy]
  · rw [hall.isRunning, hall.isRunning, h.running_eq hx hy,
      decide_eq_decide.mpr (hclosed x hx y hy)]

theorem promote (h : Grouped m) (ht : m.Typed) (hx : m.isSubmitted x = true)
    (hready : m.isRunning x = true ∨ m.isMultisession x = false)
    (hrun : m.promote x = some m') : Grouped m' := by
  have hp := ht.promote hx hrun
  refine h.congr hp.created hp.nextSibling hp.caller hp.callee (fun z hz y hy => ?_)
    fun z hz y hy => ?_
  · rw [hp.isSubmitted, h.submitted_eq hz hy]
  · rw [hp.isRunning]
    exact h.isRunning_eq (ht.created hx) hready hz hy

theorem remove (h : Grouped m) (x : Nat) : Grouped (m.remove x) := by
  rw [remove_eq]
  exact h.congr rfl rfl rfl rfl (fun _ hz _ hy => h.submitted_eq hz hy)
    fun _ hz _ hy => h.running_eq hz hy

end Grouped

section

variable {m : ScoopSessions R} {k r : R} {sibling : Option Nat} {x : Nat} {xs : List Nat}

/-- What a new session may be a sibling of. -/
structure Joinable (m : ScoopSessions R) (k r : R) (a : Nat) : Prop where
  created : a < m.created
  caller : m.caller a = k
  unsubmitted : m.isSubmitted a = false
  callees : ∀ y ∈ a :: m.siblings a, m.callee y ≠ r

theorem Typed.notSubmitted_of_created (ht : m.Typed) (hx : m.created ≤ x) : m.isSubmitted x =
    false := by
  by_contra hne
  exact absurd (ht.created (Bool.not_eq_false _ ▸ hne)) (Nat.not_lt.mpr hx)

/-- Other sessions keep what they have. -/
theorem Typed.newSession (ht : m.Typed) (k r : R) (sibling : Option Nat) :
    (m.newSession k r sibling).Typed := by
  have hnew := ht.notSubmitted_of_created (Nat.le_refl m.created)
  have hne : ∀ {y : Nat}, m.isSubmitted y = true → y ≠ m.created := by
    rintro y hy rfl
    exact absurd (hy.symm.trans hnew) (by simp)
  have hsubmitted : ∀ {y : Nat}, m.isSubmitted y = true →
      update m.isSubmitted m.created false y = true :=
    fun hy => (update_of_ne (hne hy) _ _).trans hy
  have hcallee : ∀ {y : Nat}, m.isSubmitted y = true →
      update m.callee m.created r y = m.callee y :=
    fun hy => update_of_ne (hne hy) _ _
  have holder : ∀ {y : Nat} {A : Type} {f : Nat → Option A} {z : A},
      update f m.created none y = some z → y ≠ m.created ∧ f y = some z := by
    intro y A f z hz
    rcases update_eq_some hz with ⟨-, hz⟩ | ⟨hy, hz⟩
    · exact nomatch hz
    · exact ⟨hy, hz⟩
  refine ⟨fun {r' y} hy => ?_, fun {r' y} hy => ?_, fun {y z} hy => ?_, fun {y z} hy => ?_,
    fun {y} hy => ?_, fun {y} hy => ?_⟩
  · obtain ⟨hr, hy⟩ := ht.first hy
    exact ⟨(hcallee hy).trans hr, hsubmitted hy⟩
  · obtain ⟨hr, hy⟩ := ht.last hy
    exact ⟨(hcallee hy).trans hr, hsubmitted hy⟩
  · obtain ⟨hyne, hy⟩ := holder hy
    obtain ⟨hcallee', hz⟩ := ht.next hy
    refine ⟨?_, hsubmitted hz⟩
    exact (hcallee hz).trans (hcallee'.trans (update_of_ne hyne _ _).symm)
  · obtain ⟨hyne, hy⟩ := holder hy
    obtain ⟨hcallee', hz⟩ := ht.previous hy
    refine ⟨?_, hsubmitted hz⟩
    exact (hcallee hz).trans (hcallee'.trans (update_of_ne hyne _ _).symm)
  · have hyne : y ≠ m.created := by
      rintro rfl
      exact absurd ((update_self _ _ _).symm.trans hy) (by simp)
    exact Nat.lt_succ_of_lt (ht.created ((update_of_ne hyne _ _).symm.trans hy))
  · by_cases hyne : y = m.created
    · subst hyne
      exact ⟨update_self _ _ _, update_self _ _ _, update_self _ _ _⟩
    · obtain ⟨hnext, hprevious, hrunning⟩ :=
        ht.unsubmitted ((update_of_ne hyne _ _).symm.trans hy)
      exact ⟨(update_of_ne hyne _ _).trans hnext,
        (update_of_ne hyne _ _).trans hprevious,
        (update_of_ne hyne _ _).trans hrunning⟩

theorem Queued.newSession {stale : Prop} {q : R} (h : Queued m q stale xs) (ht : m.Typed)
    (k r : R) (sibling : Option Nat) : Queued (m.newSession k r sibling) q stale xs := by
  have hne : ∀ y ∈ xs, y ≠ m.created := fun y hy =>
    Nat.ne_of_lt (ht.created ((h.mem_iff y).mp hy).2.1)
  refine ⟨h.linked.congr rfl rfl (fun y hy => update_of_ne (hne y hy) _ _)
    fun y hy => update_of_ne (hne y hy) _ _, fun y => ?_, fun y hy hrunning => ?_⟩
  · constructor
    · intro hy
      have hyne := hne y hy
      obtain ⟨hcallee, hsubmitted, hfreed⟩ := (h.mem_iff y).mp hy
      exact ⟨(update_of_ne hyne _ _).trans hcallee,
        (update_of_ne hyne _ _).trans hsubmitted,
        (update_of_ne hyne _ _).trans hfreed⟩
    · rintro ⟨hcallee, hsubmitted, hfreed⟩
      have hyne : y ≠ m.created := by
        rintro rfl
        exact absurd ((update_self _ _ _).symm.trans hsubmitted) (by simp)
      exact (h.mem_iff y).mpr ⟨(update_of_ne hyne _ _).symm.trans hcallee,
        (update_of_ne hyne _ _).symm.trans hsubmitted,
        (update_of_ne hyne _ _).symm.trans hfreed⟩
  · exact h.running y hy ((update_of_ne (hne y hy) _ _).symm.trans hrunning)

/-- A group without the session that gets a new sibling. -/
theorem IsGroup.newSession (h : IsGroup m x xs)
    (hsibling : ∀ a, sibling = some a → a ∉ x :: xs) : IsGroup (m.newSession k r sibling) x xs := by
  have hne : ∀ y ∈ x :: xs, y ≠ m.created := fun y hy => Nat.ne_of_lt (h.created y hy)
  have hkeep : ∀ {B : Type} (f : Nat → B) (b : B), ∀ y ∈ x :: xs,
      update f m.created b y = f y := fun f b y hy => update_of_ne (hne y hy) _ _
  refine ⟨?_, fun y hy => Nat.lt_succ_of_lt (h.created y hy), ?_, fun y hy => ?_, fun y hy => ?_,
    fun y hy => ?_⟩
  · refine h.ring.congr fun y hy => ?_
    cases sibling with
    | none => exact hkeep _ _ y hy
    | some a =>
        have hya : y ≠ a := fun heq => hsibling a rfl (heq ▸ hy)
        exact (update_of_ne hya _ _).trans (hkeep _ _ y hy)
  · have hmap : (x :: xs).map (m.newSession k r sibling).callee = (x :: xs).map m.callee :=
      map_congr_left fun y hy => hkeep _ _ y hy
    rw [hmap]
    exact h.callees
  · exact (hkeep _ _ y hy).trans ((h.caller y hy).trans (hkeep _ _ x mem_cons_self).symm)
  · exact (hkeep _ _ y hy).trans ((h.submitted y hy).trans (hkeep _ _ x mem_cons_self).symm)
  · exact (hkeep _ _ y hy).trans ((h.running y hy).trans (hkeep _ _ x mem_cons_self).symm)

/-- The new session and those it joins. -/
theorem IsGroup.join {a : Nat} (h : IsGroup m a xs) (ht : m.Typed) (hcaller : m.caller a = k)
    (hnew : m.isSubmitted a = false) (hcallee : ∀ y ∈ a :: xs, m.callee y ≠ r) :
    IsGroup (m.newSession k r (some a)) a (m.created :: xs) := by
  have hne : ∀ y ∈ a :: xs, y ≠ m.created := fun y hy => Nat.ne_of_lt (h.created y hy)
  have hkeep : ∀ {B : Type} (f : Nat → B) (b : B), ∀ y ∈ a :: xs,
      update f m.created b y = f y := fun f b y hy => update_of_ne (hne y hy) _ _
  have hmem : ∀ {p : Nat → Prop}, p m.created → (∀ y ∈ a :: xs, p y) →
      ∀ y ∈ a :: m.created :: xs, p y := by
    intro p hp hold
    obtain ⟨ha, hxs⟩ := forall_mem_cons.mp hold
    exact forall_mem_cons.mpr ⟨ha, forall_mem_cons.mpr ⟨hp, hxs⟩⟩
  have hself : a ∈ a :: xs := mem_cons_self
  refine ⟨?_, ?_, ?_, ?_, ?_, ?_⟩
  · exact h.ring.insert h.notMem fun hmem => hne _ hmem rfl
  · exact hmem (Nat.lt_succ_self _) fun y hy => Nat.lt_succ_of_lt (h.created y hy)
  · have hperm : (a :: m.created :: xs).Perm (m.created :: a :: xs) := List.Perm.swap _ _ _
    refine (hperm.map _).nodup_iff.mpr ?_
    have hmap : (a :: xs).map (m.newSession k r (some a)).callee = (a :: xs).map m.callee :=
      map_congr_left fun y hy => hkeep _ _ y hy
    rw [map_cons, hmap]
    refine nodup_cons.mpr ⟨fun hmem => ?_, h.callees⟩
    obtain ⟨y, hy, heq⟩ := mem_map.mp hmem
    exact hcallee y hy (heq.trans (update_self _ _ _))
  · refine hmem ?_ fun y hy => ?_
    · exact (update_self _ _ _).trans (hcaller.symm.trans (hkeep _ _ a hself).symm)
    · exact (hkeep _ _ y hy).trans ((h.caller y hy).trans (hkeep _ _ a hself).symm)
  · refine hmem ?_ fun y hy => ?_
    · exact (update_self _ _ _).trans (hnew.symm.trans (hkeep _ _ a hself).symm)
    · exact (hkeep _ _ y hy).trans ((h.submitted y hy).trans (hkeep _ _ a hself).symm)
  · refine hmem ?_ fun y hy => ?_
    · have hrunning := (ht.unsubmitted hnew).2.2
      exact (update_self _ _ _).trans (hrunning.symm.trans (hkeep _ _ a hself).symm)
    · exact (hkeep _ _ y hy).trans ((h.running y hy).trans (hkeep _ _ a hself).symm)

theorem Grouped.newSession (h : Grouped m) (ht : m.Typed)
    (hsibling : ∀ a, sibling = some a → m.Joinable k r a) : Grouped (m.newSession k r sibling) := by
  -- It is enough to find the group of each session.
  suffices hexists : ∀ x < m.created + 1, ∃ ys, IsGroup (m.newSession k r sibling) x ys by
    intro x hx
    obtain ⟨ys, hys⟩ := hexists x hx
    rw [hys.siblings_eq]
    exact hys
  intro x hx
  cases sibling with
  | none =>
      by_cases hxnew : x = m.created
      · subst hxnew
        refine ⟨[], update_self _ _ _, ?_, ?_, ?_, ?_, ?_⟩ <;> simp [ScoopSessions.newSession]
      · exact ⟨_, (h x (by omega)).newSession fun a ha => nomatch ha⟩
  | some a =>
      have hjoin := hsibling a rfl
      have hgroup := (h a hjoin.created).join ht hjoin.caller hjoin.unsubmitted hjoin.callees
      by_cases hmem : x ∈ a :: m.created :: m.siblings a
      · obtain ⟨ys, hys, -⟩ := hgroup.of_mem hmem
        exact ⟨ys, hys⟩
      · have hxne : x ≠ m.created := fun heq =>
          hmem (heq ▸ mem_cons_of_mem a mem_cons_self)
        have hxlt : x < m.created := by omega
        refine ⟨_, (h x hxlt).newSession fun b hb hmem' => hmem ?_⟩
        obtain rfl := Option.some.inj hb
        have hx : x ∈ a :: m.siblings a := h.mem_siblings_self hxlt hmem'
        rcases mem_cons.mp hx with rfl | hx
        · exact mem_cons_self
        · exact mem_cons_of_mem a (mem_cons_of_mem _ hx)

end

end ScoopSessions

end Gobo
