/-
What a SCOOP region has done with its locked sessions since a state: what it opened it
has yet to close.
-/
import Gobo.ScoopLockPassing

namespace Gobo

open Function List

namespace ScoopLocks

variable {R : Type}

/-- `m` follows `m₀`, where `r` had locked `xs₀`: it has locked `xs` and has yet to close
`owed`. -/
structure Since (isPassive : R → Bool) (m₀ : ScoopLocks R) (r : R) (xs₀ : List Nat)
    (m : ScoopLocks R) (xs owed : List Nat) : Prop where
  base : Holds m₀ r xs₀
  holds : Holds m r xs
  created : m₀.created ≤ m.created
  kept : xs.filter (· < m₀.created) = xs₀
  mem : ∀ x ∈ owed, x ∈ xs
  callee : ∀ x < m₀.created, m.callee x = m₀.callee x
  isOpen : ∀ x ∈ xs, m.isOpen x = (if x < m₀.created then m₀.isOpen x else 0) + owed.count x
  isSynchronized : ∀ x ∈ xs₀, m.isSynchronized x = m₀.isSynchronized x
  closed : ∀ x < m.created, m₀.created ≤ x → x ∉ xs → m.isOpen x = 0
  freed : ∀ x, m.freed.count x = m₀.freed.count x +
    if m₀.created ≤ x ∧ x < m.created ∧ x ∉ xs ∧ m.isDisposable isPassive x = true then 1 else 0
  others : ∀ x < m₀.created, x ∉ xs₀ → m.isOpen x = m₀.isOpen x ∧
    m.isSynchronized x = m₀.isSynchronized x ∧ m.nextLockedSession x = m₀.nextLockedSession x ∧
    (m₀.isOpen x = 0 → m.isSubmitted x = m₀.isSubmitted x ∧ m.hasCall x = m₀.hasCall x)
  regions : ∀ q, q ≠ r → m.firstLockedSession q = m₀.firstLockedSession q

namespace Since

variable {m₀ m m' : ScoopLocks R} {r c : R} {x : Nat} {xs₀ xs owed owed' front back : List Nat}
  {isPassive : R → Bool}

theorem mem_iff (h : Since isPassive m₀ r xs₀ m xs owed) (hx : x < m₀.created) :
    x ∈ xs ↔ x ∈ xs₀ := by
  rw [← h.kept, mem_filter, decide_eq_true hx]
  exact (and_iff_left rfl).symm

theorem refl (h : Holds m r xs) : Since isPassive m r xs m xs [] where
  base := h
  holds := h
  created := Nat.le_refl _
  kept := filter_eq_self.mpr fun x hx => decide_eq_true (h.created x hx)
  mem := fun _ hx => absurd hx not_mem_nil
  callee := fun _ _ => rfl
  isOpen := fun x hx => by
    rw [if_pos (h.created x hx)]
    rfl
  isSynchronized := fun _ _ => rfl
  closed := fun _ hlt hle => absurd hlt (Nat.not_lt.mpr hle)
  freed := fun x => by
    rw [if_neg fun hx => Nat.not_lt.mpr hx.1 hx.2.1]
    rfl
  others := fun _ _ _ => ⟨rfl, rfl, rfl, fun _ => ⟨rfl, rfl⟩⟩
  regions := fun _ _ => rfl

theorem perm (h : Since isPassive m₀ r xs₀ m xs owed) (hperm : owed.Perm owed') :
    Since isPassive m₀ r xs₀ m xs owed' :=
  { h with
    mem := fun x hx => h.mem x (hperm.mem_iff.mpr hx)
    isOpen := fun x hx => hperm.count_eq x ▸ h.isOpen x hx }

/-- Nothing but the sessions of before is left when all are closed. -/
theorem eq_of_nil (h : Since isPassive m₀ r xs₀ m xs []) : xs = xs₀ := by
  rw [← h.kept]
  refine (filter_eq_self.mpr fun x hx => ?_).symm
  by_contra hle
  have hopen := h.isOpen x hx
  rw [if_neg (by simpa using hle)] at hopen
  exact absurd hopen (Nat.ne_of_gt (h.holds.isOpen x hx))

theorem isDisposable_congr (hcallee : m'.callee x = m.callee x)
    (hsubmitted : m'.isSubmitted x = m.isSubmitted x) (hcall : m'.hasCall x = m.hasCall x) :
    m'.isDisposable isPassive x = m.isDisposable isPassive x := by
  rw [isDisposable, isDisposable, hcallee, hsubmitted, hcall]

theorem ne_of_notMem (h : Since isPassive m₀ r xs₀ m xs owed) (hx : x ∈ xs) {y : Nat}
    (hy : y < m₀.created) (hnot : y ∉ xs₀) : y ≠ x := by
  rintro rfl
  exact hnot ((h.mem_iff hy).mp hx)

/-- The count of a locked session, and what is owed for it, change. -/
theorem setOpen (h : Since isPassive m₀ r xs₀ m xs owed) (hx : x ∈ xs) {n : Nat} (hn : 0 < n)
    (hcount : n = (if x < m₀.created then m₀.isOpen x else 0) + owed'.count x)
    (hother : ∀ y, y ≠ x → owed'.count y = owed.count y) (hmem : ∀ y ∈ owed', y ∈ xs) :
    Since isPassive m₀ r xs₀ (m.setOpen x n) xs owed' :=
  { h with
    holds := h.holds.setOpen hn
    mem := hmem
    isOpen := fun y hy => by
      by_cases hyx : y = x
      · rw [hyx, isOpen_setOpen, update_self, hcount]
      · rw [isOpen_setOpen, update_of_ne hyx, hother y hyx]
        exact h.isOpen y hy
    closed := fun y hlt hle hy => by
      have hyx : y ≠ x := by
        rintro rfl
        exact hy hx
      exact (update_of_ne hyx _ _).trans (h.closed y hlt hle hy)
    others := fun y hy hnot =>
      ⟨(update_of_ne (h.ne_of_notMem hx hy hnot) _ _).trans (h.others y hy hnot).1,
        (h.others y hy hnot).2⟩ }

theorem reopen (h : Since isPassive m₀ r xs₀ m xs owed) (hx : x ∈ xs) :
    Since isPassive m₀ r xs₀ (m.setOpen x (m.isOpen x + 1)) xs (x :: owed) := by
  refine h.setOpen hx (Nat.succ_pos _) ?_ (fun y hy => ?_) (fun y hy => ?_)
  · rw [h.isOpen x hx, count_cons_self, Nat.add_assoc]
  · exact count_cons_of_ne hy.symm
  · rcases mem_cons.mp hy with rfl | hy
    · exact hx
    · exact h.mem y hy

theorem reclose (h : Since isPassive m₀ r xs₀ m xs owed) (hperm : owed.Perm (x :: owed'))
    (hopen : 1 < m.isOpen x) :
    Since isPassive m₀ r xs₀ (m.setOpen x (m.isOpen x - 1)) xs owed' := by
  have hx : x ∈ xs := h.mem x (hperm.mem_iff.mpr mem_cons_self)
  refine h.setOpen hx (Nat.sub_pos_of_lt hopen) ?_ (fun y hy => ?_) (fun y hy => ?_)
  · rw [h.isOpen x hx, hperm.count_eq, count_cons_self, ← Nat.add_assoc,
      Nat.add_sub_cancel]
  · rw [hperm.count_eq]
    exact (count_cons_of_ne hy.symm).symm
  · exact h.mem y (hperm.mem_iff.mpr (mem_cons_of_mem x hy))

/-- Calls of open sessions do not matter. -/
theorem withCalls (h : Since isPassive m₀ r xs₀ m xs owed) (isSubmitted hasCall : Nat → Bool) :
    Since isPassive m₀ r xs₀ (m.withCalls isSubmitted hasCall) xs owed :=
  { h with
    holds := h.holds.withCalls _ _
    freed := fun x => by
      rw [show (m.withCalls isSubmitted hasCall).freed = m.freed from rfl, h.freed x]
      refine congrArg (m₀.freed.count x + ·) (if_congr (and_congr_right fun hle =>
        and_congr_right fun hlt => and_congr_right fun hx => ?_) rfl rfl)
      have hopen := h.closed x hlt hle hx
      have hsame : (m.withCalls isSubmitted hasCall).isDisposable isPassive x =
          m.isDisposable isPassive x := isDisposable_congr rfl (if_pos hopen) (if_pos hopen)
      rw [hsame]
    others := fun x hlt hx => by
      obtain ⟨hopen, hsync, hnext, hflags⟩ := h.others x hlt hx
      refine ⟨hopen, hsync, hnext, fun hzero => ?_⟩
      have hopened := hopen.trans hzero
      exact ⟨(if_pos hopened).trans (hflags hzero).1, (if_pos hopened).trans (hflags hzero).2⟩ }

/-- The last opening of a session is closed: it was opened since. -/
theorem close (h : Since isPassive m₀ r xs₀ m (front ++ x :: back) owed)
    (hperm : owed.Perm (x :: owed')) (hopen : m.isOpen x = 1) (hclose : Closes isPassive m r x m')
    (hholds : Holds m' r (front ++ back))
    (hnext : ∀ y ∉ front ++ x :: back, m'.nextLockedSession y = m.nextLockedSession y) :
    Since isPassive m₀ r xs₀ m' (front ++ back) owed' := by
  have hx : x ∈ front ++ x :: back := mem_append_right _ mem_cons_self
  have hnot : x ∉ front ++ back := by
    have hnodup := h.holds.nodup
    rw [nodup_middle] at hnodup
    exact (nodup_cons.mp hnodup).1
  have hcount := h.isOpen x hx
  rw [hopen, hperm.count_eq, count_cons_self] at hcount
  have hnew : ¬x < m₀.created := by
    intro hlt
    rw [if_pos hlt] at hcount
    have hpos := h.base.isOpen x ((h.mem_iff hlt).mp hx)
    omega
  rw [if_neg hnew] at hcount
  have hzero : owed'.count x = 0 := by omega
  have hcases : ∀ y, y ∈ front ++ x :: back ↔ y = x ∨ y ∈ front ++ back := by
    intro y
    simp only [mem_append, mem_cons]
    tauto
  have hother : ∀ y, y ≠ x → m'.isOpen y = m.isOpen y := fun y hy => by
    rw [hclose.isOpen, update_of_ne hy]
  have hkept := h.kept
  rw [filter_append, filter_cons_of_neg (by simpa using hnew), ← filter_append]
    at hkept
  have hold : ∀ y < m₀.created, y ∉ xs₀ → y ∉ front ++ x :: back := fun y hy hnot hmem =>
    hnot ((h.mem_iff hy).mp hmem)
  refine ⟨h.base, hholds, hclose.created ▸ h.created, hkept, fun y hy => ?_,
    fun y hy => (congrFun hclose.callee y).trans (h.callee y hy), fun y hy => ?_, fun y hy => ?_,
    fun y hlt hle hy => ?_, fun y => ?_, fun y hlt hy => ?_, fun q hq => ?_⟩
  · refine ((hcases y).mp (h.mem y (hperm.mem_iff.mpr (mem_cons_of_mem x hy)))).resolve_left ?_
    rintro rfl
    exact count_eq_zero.mp hzero hy
  · have hyx : y ≠ x := by
      rintro rfl
      exact hnot hy
    rw [hother y hyx, h.isOpen y ((hcases y).mpr (Or.inr hy)), hperm.count_eq,
      count_cons_of_ne hyx.symm]
  · exact (congrFun hclose.isSynchronized y).trans (h.isSynchronized y hy)
  · by_cases hyx : y = x
    · rw [hyx, hclose.isOpen, update_self]
    · rw [hother y hyx]
      refine h.closed y (hclose.created ▸ hlt) hle fun hmem => ?_
      exact hy (((hcases y).mp hmem).resolve_left hyx)
  · have hsame : m'.isDisposable isPassive y = m.isDisposable isPassive y :=
      isDisposable_congr (congrFun hclose.callee y) (congrFun hclose.isSubmitted y)
        (congrFun hclose.hasCall y)
    rw [hclose.count_freed, h.freed y, hsame, hclose.created, Nat.add_assoc]
    refine congrArg (m₀.freed.count y + ·) ?_
    by_cases hyx : y = x
    · subst hyx
      rw [if_neg fun hy => hy.2.2.1 hx, Nat.zero_add]
      refine if_congr ?_ rfl rfl
      simp only [true_and, Nat.not_lt.mp hnew, h.holds.created y hx, hnot, not_false_eq_true]
    · simp only [hcases y, hyx, false_or, false_and, if_false, Nat.add_zero]
  · obtain ⟨hopen, hsync, hnextLocked, hflags⟩ := h.others y hlt hy
    have hnot := hold y hlt hy
    have hyx : y ≠ x := by
      rintro rfl
      exact hnot hx
    refine ⟨(hother y hyx).trans hopen, (congrFun hclose.isSynchronized y).trans hsync,
      (hnext y hnot).trans hnextLocked, fun hzero => ?_⟩
    exact ⟨(congrFun hclose.isSubmitted y).trans (hflags hzero).1,
      (congrFun hclose.hasCall y).trans (hflags hzero).2⟩
  · exact (hclose.firstLockedSession q hq).trans (h.regions q hq)

theorem trans {ys : List Nat} (h : Since isPassive m₀ r xs₀ m xs owed)
    (h' : Since isPassive m r xs m' ys []) : Since isPassive m₀ r xs₀ m' xs owed := by
  obtain rfl := h'.eq_of_nil
  have hlt : ∀ x < m₀.created, x < m.created := fun x hx => Nat.lt_of_lt_of_le hx h.created
  refine ⟨h.base, h'.holds, Nat.le_trans h.created h'.created, h.kept, h.mem,
    fun x hx => (h'.callee x (hlt x hx)).trans (h.callee x hx), fun x hx => ?_, fun x hx => ?_,
    fun x hx hle hnot => ?_, fun x => ?_, fun x hx hnot => ?_,
    fun q hq => (h'.regions q hq).trans (h.regions q hq)⟩
  · rw [h'.isOpen x hx, if_pos (h.holds.created x hx), count_nil, Nat.add_zero]
    exact h.isOpen x hx
  · have hmem := (h.mem_iff (h.base.created x hx)).mpr hx
    exact (h'.isSynchronized x hmem).trans (h.isSynchronized x hx)
  · by_cases hold : x < m.created
    · exact (h'.others x hold hnot).1.trans (h.closed x hold hle hnot)
    · exact h'.closed x hx (Nat.not_lt.mp hold) hnot
  · rw [h'.freed x, h.freed x, Nat.add_assoc]
    refine congrArg (m₀.freed.count x + ·) ?_
    by_cases hold : x < m.created
    · have hnew : ¬(m.created ≤ x ∧ x < m'.created ∧ x ∉ ys ∧ m'.isDisposable isPassive x = true) :=
        fun hx => Nat.not_lt.mpr hx.1 hold
      rw [if_neg hnew, Nat.add_zero]
      refine if_congr (and_congr_right fun hle => ?_) rfl rfl
      rw [and_iff_right hold, and_iff_right (Nat.lt_of_lt_of_le hold h'.created)]
      refine and_congr_right fun hnot => ?_
      have hflags := (h'.others x hold hnot).2.2.2 (h.closed x hold hle hnot)
      have hsame : m'.isDisposable isPassive x = m.isDisposable isPassive x :=
        isDisposable_congr (h'.callee x hold) hflags.1 hflags.2
      rw [hsame]
    · rw [if_neg fun hx => hold hx.2.1, Nat.zero_add]
      have hle : m.created ≤ x := Nat.not_lt.mp hold
      refine if_congr ?_ rfl rfl
      rw [and_iff_right hle, and_iff_right (Nat.le_trans h.created hle)]
  · obtain ⟨hopen, hsync, hnext, hflags⟩ := h.others x hx hnot
    have hnot' : x ∉ ys := fun hmem => hnot ((h.mem_iff hx).mp hmem)
    obtain ⟨hopen', hsync', hnext', hflags'⟩ := h'.others x (hlt x hx) hnot'
    refine ⟨hopen'.trans hopen, hsync'.trans hsync, hnext'.trans hnext, fun hzero => ?_⟩
    obtain ⟨hsubmitted, hcall⟩ := hflags hzero
    obtain ⟨hsubmitted', hcall'⟩ := hflags' (hopen.trans hzero)
    exact ⟨hsubmitted'.trans hsubmitted, hcall'.trans hcall⟩

section

variable [DecidableEq R] {m₁ m₂ : ScoopLocks R} {ys : List Nat}

/-- A session is opened. -/
theorem openNew (h : Since isPassive m₀ r xs₀ m xs owed) (hnone : ∀ x ∈ xs, m.callee x ≠ c)
    (sibling : Option Nat) : Since isPassive m₀ r xs₀ (m.openNew r c sibling) (m.created :: xs)
      (m.created :: owed) := by
  have hold : ∀ x < m₀.created, x < m.created := fun x hx => Nat.lt_of_lt_of_le hx h.created
  have hnew := fun x (hx : x < m.created) => openNew_of_lt r c sibling hx
  have hnot : m.created ∉ xs := fun hmem => Nat.lt_irrefl _ (h.holds.created _ hmem)
  refine ⟨h.base, h.holds.openNew hnone, Nat.le_succ_of_le h.created, ?_, fun x hx => ?_,
    fun x hx => (hnew x (hold x hx)).1.trans (h.callee x hx), fun x hx => ?_, fun x hx => ?_,
    fun x hlt hle hx => ?_, fun x => ?_, fun x hlt hx => ?_, fun q hq => ?_⟩
  · rw [filter_cons_of_neg (by simpa using h.created)]
    exact h.kept
  · rcases mem_cons.mp hx with rfl | hx
    · exact mem_cons_self
    · exact mem_cons_of_mem _ (h.mem x hx)
  · by_cases hxn : x = m.created
    · rw [hxn, (openNew_created m r c sibling).2.2, if_neg (Nat.not_lt.mpr h.created),
        count_cons_self, count_eq_zero.mpr fun hmem => hnot (h.mem _ hmem)]
    · have hmem := mem_of_ne_of_mem hxn hx
      rw [(hnew x (h.holds.created x hmem)).2.2.1, h.isOpen x hmem,
        count_cons_of_ne (Ne.symm hxn)]
  · exact (hnew x (hold x (h.base.created x hx))).2.1.trans (h.isSynchronized x hx)
  · obtain ⟨hxn, hxs⟩ := not_or.mp (mt mem_cons.mpr hx)
    have hltm : x < m.created := Nat.lt_of_le_of_ne (Nat.le_of_lt_succ hlt) hxn
    exact (hnew x hltm).2.2.1.trans (h.closed x hltm hle hxs)
  · refine (h.freed x).trans (congrArg (m₀.freed.count x + ·) (if_congr ?_ rfl rfl))
    refine and_congr_right fun hle => ?_
    by_cases hltm : x < m.created
    · have hsame : (m.openNew r c sibling).isDisposable isPassive x =
          m.isDisposable isPassive x :=
        isDisposable_congr (hnew x hltm).1 (hnew x hltm).2.2.2.1 (hnew x hltm).2.2.2.2.1
      rw [hsame, mem_cons, or_iff_right (Nat.ne_of_lt hltm), and_iff_right hltm,
        and_iff_right (show x < (m.openNew r c sibling).created from Nat.lt_succ_of_lt hltm)]
    · refine ⟨fun hx => absurd hx.1 hltm, fun hx => absurd ?_ hx.2.1⟩
      rw [Nat.le_antisymm (Nat.le_of_lt_succ hx.1) (Nat.not_lt.mp hltm)]
      exact mem_cons_self
  · have hltm := hold x hlt
    obtain ⟨-, hsync, hopen, hsubmitted, hcall, hnext⟩ := hnew x hltm
    obtain ⟨hopen', hsync', hnext', hflags⟩ := h.others x hlt hx
    refine ⟨hopen.trans hopen', hsync.trans hsync', hnext.trans hnext', fun hzero => ?_⟩
    exact ⟨hsubmitted.trans (hflags hzero).1, hcall.trans (hflags hzero).2⟩
  · exact (update_of_ne hq _ _).trans (h.regions q hq)

/-- A synchronous call gives back what it was passed. -/
theorem of_call (h : Holds m r xs) (hfree : m.firstLockedSession c = none)
    (hpass : Passed m r c xs ys m₁) (hbody : Since isPassive m₁ c ys m₂ ys [])
    (hrelease : Released isPassive m₂ r c xs ys m') : Since isPassive m r xs m' xs [] := by
  have hle : m.created ≤ m₁.created := by
    rcases hpass.cells with ⟨-, hcreated⟩ | ⟨-, hcreated, -⟩ <;> omega
  have hsub : ∀ x ∈ xs, x ∈ ys := by
    intro x hx
    rcases hpass.cells with ⟨rfl, -⟩ | ⟨rfl, -, -⟩
    · exact hx
    · exact mem_cons_of_mem _ hx
  have hextra : ∀ x ∈ ys, x ∉ xs → x = m.created ∧ x < m₁.created := by
    intro x hx hnot
    refine ⟨?_, hpass.holds.created x hx⟩
    rcases hpass.cells with ⟨rfl, -⟩ | ⟨rfl, -, -⟩
    · exact absurd hx hnot
    · exact (mem_cons.mp hx).resolve_right hnot
  have hnew : ∀ x ∉ ys, (m.created ≤ x ↔ m₁.created ≤ x) := by
    intro x hx
    rcases hpass.cells with ⟨-, hcreated⟩ | ⟨rfl, hcreated, -⟩
    · rw [hcreated]
    · have hne : x ≠ m.created := fun heq => hx (heq ▸ mem_cons_self)
      omega
  have hlt : ∀ x < m.created, x < m₁.created := fun x hx => Nat.lt_of_lt_of_le hx hle
  have hnot : ∀ x < m.created, x ∉ xs → x ∉ ys := fun x hx hxs hys =>
    absurd (hextra x hys hxs).1 (Nat.ne_of_lt hx)
  obtain ⟨hcallee, hsubmitted, hcall⟩ := hrelease.same
  refine ⟨h, hrelease.holds, ?_, ?_, fun x hx => absurd hx not_mem_nil, fun x hx => ?_,
    fun x hx => ?_, fun x hx => ?_, fun x hx hle hxs => ?_, fun x => ?_, fun x hx hxs => ?_,
    fun q hq => ?_⟩
  · exact hrelease.created ▸ Nat.le_trans hle hbody.created
  · exact filter_eq_self.mpr fun x hx => decide_eq_true (h.created x hx)
  · rw [hcallee, hbody.callee x (hlt x hx), (hpass.same x hx).1]
  · rw [hrelease.isOpen x hx, hbody.isOpen x (hsub x hx), if_pos (hlt x (h.created x hx)),
      hpass.isOpen x hx, if_pos (h.created x hx)]
    rfl
  · rw [hrelease.isSynchronized x hx, hbody.isSynchronized x (hsub x hx)]
    exact hpass.isSynchronized x hx
  · by_cases hys : x ∈ ys
    · exact hrelease.closed x hys hxs
    · rw [(hrelease.others x hys).1]
      exact hbody.closed x (hrelease.created ▸ hx) ((hnew x hys).mp hle) hys
  · have hsame : m'.isDisposable isPassive x = m₂.isDisposable isPassive x :=
      isDisposable_congr (congrFun hcallee x) (congrFun hsubmitted x) (congrFun hcall x)
    rw [hrelease.freed x, hbody.freed x, hpass.freed, hrelease.created, hsame, Nat.add_assoc]
    refine congrArg (m.freed.count x + ·) ?_
    by_cases hys : x ∈ ys
    · rw [if_neg fun hx => hx.2.2.1 hys, Nat.zero_add]
      refine if_congr ?_ rfl rfl
      constructor
      · rintro ⟨-, hxs, hdispose⟩
        obtain ⟨rfl, hx⟩ := hextra x hys hxs
        exact ⟨Nat.le_refl _, Nat.lt_of_lt_of_le hx hbody.created, hxs, hdispose⟩
      · exact fun hx => ⟨hys, hx.2.2⟩
    · simp only [hys, false_and, if_false, Nat.add_zero]
      refine if_congr ?_ rfl rfl
      have hxs : x ∉ xs := fun hxs => hys (hsub x hxs)
      rw [← hnew x hys, and_iff_right not_false, and_iff_right hxs]
  · have hys := hnot x hx hxs
    obtain ⟨hopen, hsync, hnext⟩ := hrelease.others x hys
    obtain ⟨hopen₂, hsync₂, hnext₂, hflags⟩ := hbody.others x (hlt x hx) hys
    obtain ⟨hopen₁, hsync₁⟩ := hpass.others x hx hxs
    obtain ⟨-, hsubmitted₁, hcall₁, hnext₁⟩ := hpass.same x hx
    refine ⟨hopen.trans (hopen₂.trans hopen₁), hsync.trans (hsync₂.trans hsync₁),
      hnext.trans (hnext₂.trans hnext₁), fun hzero => ?_⟩
    obtain ⟨hsubmitted₂, hcall₂⟩ := hflags (hopen₁.trans hzero)
    exact ⟨(congrFun hsubmitted x).trans (hsubmitted₂.trans hsubmitted₁),
      (congrFun hcall x).trans (hcall₂.trans hcall₁)⟩
  · by_cases hqc : q = c
    · rw [hqc, hrelease.source, hfree]
    · exact (hrelease.regions q hq hqc).trans
        ((hbody.regions q hqc).trans (hpass.regions q hq hqc))

end

end Since

end ScoopLocks

end Gobo
