/-
The sessions that a caller has locked: in a flag of each session, and in the list of the
caller.  What opens and closes a session does the same to both.
-/
import Gobo.ScoopTransitions

namespace Gobo

open List Function

namespace Scoop

variable {R : Type}

/-- The lists of `m` are the locked sessions of `s`. -/
structure Agrees (m : ScoopLocks R) (s : Scoop R) : Prop where
  created : s.created = m.created
  callee : ∀ x < m.created, s.callee x = m.callee x
  isOpen : ∀ x < m.created, s.isOpen x = m.isOpen x
  isSubmitted : ∀ x < m.created, s.isSubmitted x = m.isSubmitted x
  held : ∀ r, ∃ xs, m.Holds r xs ∧
    ∀ x, x ∈ xs ↔ x < m.created ∧ s.caller x = r ∧ s.isLocked x = true

section

variable [DecidableEq R] {isPassive : R → Bool} {m m' : ScoopLocks R} {s t : Scoop R} {k c : R}
  {x : Nat} {sibling : Option Nat}

omit [DecidableEq R] in
/-- Another count of a locked session, with the lists as they are. -/
theorem Agrees.setOpen (h : Agrees m s) {n : Nat} (hn : 0 < n) :
    Agrees (m.setOpen x n) (s.setOpen x n) where
  created := h.created
  callee := h.callee
  isOpen := fun y hy => by
    have hopen := h.isOpen y hy
    simp only [Scoop.setOpen, ScoopLocks.setOpen, update_apply, hopen]
  isSubmitted := h.isSubmitted
  held := fun r => by
    obtain ⟨xs, hxs, hmem⟩ := h.held r
    exact ⟨xs, hxs.setOpen hn, hmem⟩

theorem Agrees.lockedSession_eq_none (h : Agrees m s) {xs : List Nat}
    (hmem : ∀ x, x ∈ xs ↔ x < m.created ∧ s.caller x = k ∧ s.isLocked x = true)
    (hnone : s.lockedSession k c = none) : ∀ x ∈ xs, m.callee x ≠ c := by
  intro x hx hc
  obtain ⟨hcreated, hcaller, hlocked⟩ := (hmem x).mp hx
  have hnot := find?_eq_none.mp hnone x (mem_range.mpr (h.created.symm ▸ hcreated))
  exact hnot (decide_eq_true ⟨hcaller, (h.callee x hcreated).trans hc, hlocked⟩)

theorem Agrees.addSession (h : Agrees m s) (hnone : s.lockedSession k c = none)
    (sibling' : Option Nat) : Agrees (m.openNew k c sibling') (s.addSession k c sibling) := by
  have hsame : ∀ {B : Type} (f : Nat → B) (b : B), ∀ y < m.created,
      update f s.created b y = f y :=
    fun f b y hy => update_of_ne (Nat.ne_of_lt (h.created.symm ▸ hy)) _ _
  have hnew : ∀ {B : Type} (f : Nat → B) (b : B), update f s.created b m.created = b :=
    fun f b => h.created ▸ update_self _ _ _
  have hold := fun y (hy : y < m.created) => ScoopLocks.openNew_of_lt k c sibling' hy
  obtain ⟨hcallee, -, hopen⟩ := ScoopLocks.openNew_created m k c sibling'
  refine ⟨congrArg Nat.succ h.created, fun y hy => ?_, fun y hy => ?_, fun y hy => ?_,
    fun r => ?_⟩
  · rcases Nat.lt_succ_iff_lt_or_eq.mp hy with hy | rfl
    · exact (hsame _ _ y hy).trans ((h.callee y hy).trans (hold y hy).1.symm)
    · exact (hnew _ _).trans hcallee.symm
  · rcases Nat.lt_succ_iff_lt_or_eq.mp hy with hy | rfl
    · exact (hsame _ _ y hy).trans ((h.isOpen y hy).trans (hold y hy).2.2.1.symm)
    · exact (hnew _ _).trans hopen.symm
  · rcases Nat.lt_succ_iff_lt_or_eq.mp hy with hy | rfl
    · exact (hsame _ _ y hy).trans ((h.isSubmitted y hy).trans (hold y hy).2.2.2.1.symm)
    · refine (hnew _ _).trans ?_
      simp only [ScoopLocks.openNew, ScoopLocks.newSession, ScoopLocks.setOpen, ScoopLocks.link,
        update_self]
  · obtain ⟨xs, hxs, hmem⟩ := h.held r
    by_cases hr : r = k
    · subst hr
      refine ⟨m.created :: xs, hxs.openNew (h.lockedSession_eq_none hmem hnone), fun y => ?_⟩
      rw [mem_cons, hmem]
      by_cases hy : y = m.created
      · subst hy
        exact iff_of_true (Or.inl rfl) ⟨Nat.lt_succ_self _, hnew _ _, hnew _ _⟩
      · have hys : y ≠ s.created := fun heq => hy (heq.trans h.created)
        have hcaller : (s.addSession r c sibling).caller y = s.caller y :=
          update_of_ne hys _ _
        have hlocked : (s.addSession r c sibling).isLocked y = s.isLocked y :=
          update_of_ne hys _ _
        rw [hcaller, hlocked, or_iff_right hy]
        exact and_congr_left' (Nat.lt_succ_iff_lt_or_eq.trans (or_iff_left hy)).symm
    · refine ⟨xs, hxs.congr (update_of_ne hr _ _)
        (fun y hy => (hold y (hxs.created y hy)).2.2.2.2.2)
        (fun y hy => (hold y (hxs.created y hy)).1) (fun y hy => ?_) (Nat.le_succ _), fun y => ?_⟩
      · rw [(hold y (hxs.created y hy)).2.2.1]
        exact hxs.isOpen y hy
      · rw [hmem]
        by_cases hy : y = m.created
        · subst hy
          refine iff_of_false (fun hold => Nat.lt_irrefl _ hold.1) fun hboth => hr ?_
          exact hboth.2.1.symm.trans (hnew _ _)
        · have hys : y ≠ s.created := fun heq => hy (heq.trans h.created)
          have hcaller : (s.addSession k c sibling).caller y = s.caller y :=
            update_of_ne hys _ _
          have hlocked : (s.addSession k c sibling).isLocked y = s.isLocked y :=
            update_of_ne hys _ _
          rw [hcaller, hlocked]
          exact and_congr_left' (Nat.lt_succ_iff_lt_or_eq.trans (or_iff_left hy)).symm

/-- `GE_scoop_session_open` does the same to both. -/
theorem Agrees.sessionOpen (h : Agrees m s) (hok : s.OpensFit (.sessionOpen k c sibling))
    (hopen : s.sessionOpen k c sibling = some t) :
    ∃ found m', m.sessionOpen k c sibling = some (found, m') ∧ Agrees m' t := by
  rw [Scoop.sessionOpen] at hopen
  split at hopen
  case isTrue hself =>
      obtain rfl := Option.some.inj hopen
      exact ⟨none, m, hself ▸ ScoopLocks.sessionOpen_self, h⟩
  case isFalse hne =>
      obtain ⟨xs, hxs, hmem⟩ := h.held k
      split at hopen
      case h_1 x hlocked =>
          obtain rfl := Option.some.inj hopen
          have hfits := hok x hlocked
          rw [lockedSession] at hlocked
          have hx := mem_range.mp (mem_of_find?_eq_some hlocked)
          rw [h.created] at hx
          have hfound := find?_some hlocked
          obtain ⟨hcaller, hcallee, hlocks⟩ := of_decide_eq_true hfound
          have hc : m.callee x = c := (h.callee x hx).symm.trans hcallee
          subst hc
          refine ⟨_, _, ScoopLocks.sessionOpen_of_mem sibling hxs hne
            ((hmem x).mpr ⟨hx, hcaller, hlocks⟩), ?_⟩
          rw [h.isOpen x hx] at hfits ⊢
          exact h.setOpen (ScoopLocks.increment_eq hfits ▸ Nat.succ_pos _)
      case h_2 hnone =>
          split at hopen
          case isTrue =>
              obtain rfl := Option.some.inj hopen
              refine ⟨_, _, ScoopLocks.sessionOpen_of_forall sibling hxs hne
                (h.lockedSession_eq_none hmem hnone), h.addSession hnone sibling⟩
          case isFalse => exact absurd hopen.symm (Option.some_ne_none _)

/-- A session is closed for good. -/
theorem Agrees.unlink (h : Agrees m s) (hcloses : ScoopLocks.Closes isPassive m (s.caller x) x m')
    {front back : List Nat} (hxs : m.Holds (s.caller x) (front ++ x :: back))
    (hmem : ∀ y, y ∈ front ++ x :: back ↔
      y < m.created ∧ s.caller y = s.caller x ∧ s.isLocked y = true)
    (hheld : m'.Holds (s.caller x) (front ++ back))
    (hnext : ∀ y ∉ front ++ x :: back, m'.nextLockedSession y = m.nextLockedSession y)
    (hsessions : t.created = s.created ∧ t.caller = s.caller ∧ t.callee = s.callee ∧
      t.isSubmitted = s.isSubmitted)
    (hopen : t.isOpen = update s.isOpen x 0)
    (hlocked : t.isLocked = update s.isLocked x false) : Agrees m' t := by
  obtain ⟨hcreated, hcaller, hcallee, hsubmitted⟩ := hsessions
  refine ⟨?_, fun y hy => ?_, fun y hy => ?_, fun y hy => ?_, fun r => ?_⟩
  · rw [hcreated, h.created, hcloses.created]
  · rw [hcloses.created] at hy
    rw [hcallee, hcloses.callee, h.callee y hy]
  · rw [hcloses.created] at hy
    rw [hopen, hcloses.isOpen, update_apply, update_apply, h.isOpen y hy]
  · rw [hcloses.created] at hy
    rw [hsubmitted, hcloses.isSubmitted, h.isSubmitted y hy]
  · rw [hcloses.created, hcaller, hlocked]
    have hother : ∀ y, y ≠ x → update s.isLocked x false y = s.isLocked y :=
      fun y hyx => update_of_ne hyx _ _
    by_cases hr : r = s.caller x
    · subst hr
      refine ⟨front ++ back, hheld, fun y => ?_⟩
      by_cases hyx : y = x
      · subst hyx
        have hnodup := hxs.nodup
        rw [nodup_middle] at hnodup
        refine iff_of_false (nodup_cons.mp hnodup).1 fun hall => ?_
        exact absurd ((update_self _ _ _).symm.trans hall.2.2) (by simp)
      · rw [hother y hyx, ← hmem y, mem_append, mem_append, mem_cons,
          or_iff_right hyx]
    · obtain ⟨ys, hys, hymem⟩ := h.held r
      have hne : ∀ y ∈ ys, y ∉ front ++ x :: back := by
        intro y hy hmem'
        exact hr (((hymem y).mp hy).2.1.symm.trans ((hmem y).mp hmem').2.1)
      have hyx : ∀ y ∈ ys, y ≠ x := by
        rintro y hy rfl
        exact hne y hy (by simp)
      refine ⟨ys, hys.congr (hcloses.firstLockedSession r hr) (fun y hy => hnext y (hne y hy))
        (fun y _ => by rw [hcloses.callee]) (fun y hy => ?_) (Nat.le_of_eq hcloses.created.symm),
        fun y => ?_⟩
      · rw [hcloses.isOpen, update_of_ne (hyx y hy)]
        exact hys.isOpen y hy
      · rw [hymem]
        by_cases hy : y = x
        · subst hy
          exact iff_of_false (fun hall => hr hall.2.1.symm) fun hall => hr hall.2.1.symm
        · rw [hother y hy]

/-- `GE_scoop_session_close` does the same to both. -/
theorem Agrees.sessionClose (h : Agrees m s) (hx : x < m.created) (hlocked : s.isLocked x = true)
    (isPassive : R → Bool) (flag : Bool) : ∃ m',
      m.sessionClose isPassive (s.caller x) x flag = some m' ∧
        Agrees m' (s.sessionClose isPassive x) := by
  obtain ⟨xs, hxs, hmem⟩ := h.held (s.caller x)
  have hxmem := (hmem x).mpr ⟨hx, rfl, hlocked⟩
  have hpos := hxs.isOpen x hxmem
  have hset : ∀ n, (s.setOpen x n).isOpen x = n := fun n => update_self _ _ _
  rw [Scoop.sessionClose, h.isOpen x hx, if_neg (Nat.ne_of_gt hpos)]
  simp only [hset]
  by_cases hmore : 1 < m.isOpen x
  · rw [if_pos (Nat.ne_of_gt (Nat.sub_pos_of_lt hmore))]
    exact ⟨_, ScoopLocks.sessionClose_of_lt hmore, h.setOpen (Nat.sub_pos_of_lt hmore)⟩
  · have hone : m.isOpen x = 1 := by omega
    obtain ⟨front, back, rfl⟩ := append_of_mem hxmem
    obtain ⟨m', hclose, hcloses, hheld, hnext⟩ := hxs.exists_sessionClose hone isPassive flag
    refine ⟨m', hclose, ?_⟩
    have hunlink : ∀ {t : Scoop R}, t.created = s.created ∧ t.caller = s.caller ∧
        t.callee = s.callee ∧ t.isSubmitted = s.isSubmitted →
        t.isOpen = update s.isOpen x 0 →
        t.isLocked = update s.isLocked x false → Agrees m' t :=
      h.unlink hcloses hxs hmem hheld hnext
    rw [hone, Nat.sub_self, if_neg fun h => h rfl]
    split
    · exact hunlink ⟨rfl, rfl, rfl, rfl⟩ rfl rfl
    · exact hunlink ⟨rfl, rfl, rfl, rfl⟩ rfl rfl

end

end Scoop

end Gobo
