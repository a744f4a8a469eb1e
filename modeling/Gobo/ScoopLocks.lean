/-
The sessions that SCOOP regions have locked (`ge_scoop.c`): a caller opens and closes
them, and passes them on to the callee of a synchronous call.
-/
import Gobo.LinkChain
import Mathlib.Data.List.Count
import Mathlib.Algebra.Ring.Nat

namespace Gobo

open List Function

/-- The sessions, in the order of their creation, and the first one locked by every
region (`GE_scoop_session`, `GE_scoop_region`).  A freed session keeps what it held. -/
structure ScoopLocks (R : Type) where
  created : Nat
  callee : Nat → R
  isSynchronized : Nat → Nat
  isOpen : Nat → Nat
  isSubmitted : Nat → Bool
  noWaitConditionNotification : Nat → Bool
  nextLockedSession : Nat → Option Nat
  nextSiblingSession : Nat → Nat
  /-- There is a `first_call`. -/
  hasCall : Nat → Bool
  firstLockedSession : R → Option Nat
  /-- The sessions freed by those that closed them: read by no thread. -/
  freed : List Nat

namespace ScoopLocks

/-- `n++` of a `uint32_t`. -/
def increment (n : Nat) : Nat := (n + 1) % 2 ^ 32

theorem increment_eq {n : Nat} (h : n + 1 < 2 ^ 32) : increment n = n + 1 :=
  Nat.mod_eq_of_lt h

variable {R : Type}

section

variable (m : ScoopLocks R)

def setOpen (x n : Nat) : ScoopLocks R :=
  { m with isOpen := update m.isOpen x n }

@[simp]
theorem isOpen_setOpen (x n : Nat) : (m.setOpen x n).isOpen = update m.isOpen x n :=
  rfl

def setSynchronized (x n : Nat) : ScoopLocks R :=
  { m with isSynchronized := update m.isSynchronized x n }

/-- `GE_new_scoop_session`. -/
def newSession (callee : R) : ScoopLocks R :=
  let x := m.created
  { m with
    created := x + 1
    callee := update m.callee x callee
    isSynchronized := update m.isSynchronized x 0
    isOpen := update m.isOpen x 0
    isSubmitted := update m.isSubmitted x false
    noWaitConditionNotification := update m.noWaitConditionNotification x false
    nextLockedSession := update m.nextLockedSession x none
    hasCall := update m.hasCall x false }

/-- A session joins the cycle of its siblings. -/
def link (x : Nat) (sibling : Option Nat) : ScoopLocks R :=
  { m with
    nextSiblingSession := match sibling with
      | some a => update (update m.nextSiblingSession x (m.nextSiblingSession a)) a x
      | none => update m.nextSiblingSession x x }

/-- Nothing but its caller will use the session once it is closed: it was not submitted,
or it is a session of a passive region without calls. -/
def isDisposable (isPassive : R → Bool) (x : Nat) : Bool :=
  !m.isSubmitted x || (isPassive (m.callee x) && !m.hasCall x)

/-- `GE_free_scoop_session`, or `GE_remove_scoop_session` that ends with it.  The other
closed sessions are left to their callees. -/
def dispose (isPassive : R → Bool) (x : Nat) : ScoopLocks R :=
  { m with freed := if m.isDisposable isPassive x then m.freed ++ [x] else m.freed }

/-- Calls are registered for open sessions, and executed. -/
def withCalls (isSubmitted hasCall : Nat → Bool) : ScoopLocks R :=
  { m with
    isSubmitted := fun x => if m.isOpen x = 0 then m.isSubmitted x else isSubmitted x
    hasCall := fun x => if m.isOpen x = 0 then m.hasCall x else hasCall x }

end

section

variable [DecidableEq R] (m : ScoopLocks R)

/-- The session with `callee` from `x` on. -/
def findLocked (callee : R) : Nat → Option Nat → Option (Option Nat)
  | _, none => some none
  | 0, some _ => none
  | fuel + 1, some x =>
      if m.callee x = callee then some (some x)
      else findLocked callee fuel (m.nextLockedSession x)

/-- A new session becomes the first locked one. -/
def openNew (caller callee : R) (sibling : Option Nat) : ScoopLocks R :=
  let x := m.created
  let n := (m.newSession callee).setOpen x 1
  { n with
    nextLockedSession := update n.nextLockedSession x (m.firstLockedSession caller)
    firstLockedSession := update m.firstLockedSession caller (some x) }.link x sibling

/-- `GE_scoop_session_open`. -/
def sessionOpen (caller callee : R) (sibling : Option Nat) :
    Option (Option Nat × ScoopLocks R) :=
  if callee = caller then some (none, m)
  else do
    match ← m.findLocked callee m.created (m.firstLockedSession caller) with
    | some x => some (some x, m.setOpen x (increment (m.isOpen x)))
    | none => some (some m.created, m.openNew caller callee sibling)

/-- The session in front of `x`, from `y` on, gets its successor. -/
def unlinkAfter (x : Nat) : Nat → Option Nat → Option (ScoopLocks R)
  | _, none => some m
  | 0, some _ => none
  | fuel + 1, some y =>
      if m.nextLockedSession y = some x then
        some { m with
          nextLockedSession := update m.nextLockedSession y (m.nextLockedSession x) }
      else unlinkAfter x fuel (m.nextLockedSession y)

def unlink (caller : R) (x : Nat) : Option (ScoopLocks R) :=
  if m.firstLockedSession caller = some x then
    some { m with
      firstLockedSession := update m.firstLockedSession caller
        (m.nextLockedSession x) }
  else m.unlinkAfter x m.created (m.firstLockedSession caller)

/-- `GE_scoop_session_close`.  What wakes up other threads is left out. -/
def sessionClose (isPassive : R → Bool) (caller : R) (x : Nat)
    (noWaitConditionNotification : Bool) : Option (ScoopLocks R) :=
  if m.isOpen x = 0 then some m
  else do
    let m := m.setOpen x (m.isOpen x - 1)
    if m.isOpen x = 0 then
      let m := { m with
        noWaitConditionNotification := update m.noWaitConditionNotification x
          noWaitConditionNotification }
      let m ← m.unlink caller x
      let m := { m with nextLockedSession := update m.nextLockedSession x none }
      some (m.dispose isPassive x)
    else some m

/-- The turn of a session in `passLocks`, with the session of which `caller` is the
callee as met so far. -/
def passSession (caller : R) (x : Nat) (s : Option Nat × ScoopLocks R) :
    Option (Option Nat × ScoopLocks R) :=
  let m := s.2.setOpen x (increment (s.2.isOpen x))
  if m.callee x = caller then some (some x, m)
  else if m.isSynchronized x = 0 then some (s.1, m)
  else some (s.1, m.setSynchronized x (increment (m.isSynchronized x)))

/-- `first_locked_session` of the first region becomes the one of the second. -/
def moveLocks (source target : R) : ScoopLocks R :=
  { m with
    firstLockedSession := update
      (update m.firstLockedSession target (m.firstLockedSession source)) source none }

/-- `GE_scoop_region_pass_locks`. -/
def passLocks (caller callee : R) : Option (ScoopLocks R) :=
  if callee = caller then some m
  else do
    let m := m.moveLocks caller callee
    let (callerSession, m) ← forCells (fun s => s.2.nextLockedSession) (passSession caller)
      m.created (m.firstLockedSession callee) (none, m)
    match callerSession with
    | some x => some (m.setSynchronized x (increment (m.isSynchronized x)))
    | none => do
        let (opened, m) ← m.sessionOpen callee caller none
        let x ← opened
        some (m.setSynchronized x (increment (m.isSynchronized x)))

/-- The turn of a session in `releaseLocks`.  Its successor is read before it is closed. -/
def releaseSession (isPassive : R → Bool) (callee : R) (x : Nat)
    (s : Option Nat × ScoopLocks R) : Option (Option Nat × ScoopLocks R) := do
  let m := if s.2.isSynchronized x = 0 then s.2
    else s.2.setSynchronized x (s.2.isSynchronized x - 1)
  let next := m.nextLockedSession x
  let m ← m.sessionClose isPassive callee x false
  some (next, m)

/-- `GE_scoop_region_release_locks`. -/
def releaseLocks (isPassive : R → Bool) (caller callee : R) : Option (ScoopLocks R) :=
  if callee = caller then some m
  else do
    let (_, m) ← forCells (fun s _ => s.1) (releaseSession isPassive callee) m.created
      (m.firstLockedSession callee) (none, m)
    some (m.moveLocks callee caller)

end
/-- `xs` are the sessions locked by `r`: they are open, and have different callees. -/
structure Holds (m : ScoopLocks R) (r : R) (xs : List Nat) : Prop where
  chain : Chain m.nextLockedSession (m.firstLockedSession r) xs
  callees : (xs.map m.callee).Nodup
  isOpen : ∀ x ∈ xs, 0 < m.isOpen x
  created : ∀ x ∈ xs, x < m.created

namespace Holds

variable {m m' : ScoopLocks R} {r c : R} {x : Nat} {xs front back : List Nat}

theorem nodup (h : Holds m r xs) : xs.Nodup := h.chain.nodup

theorem length_le (h : Holds m r xs) : xs.length ≤ m.created :=
  h.chain.length_le h.created

theorem eq_of_callee (h : Holds m r xs) {y : Nat} (hx : x ∈ xs) (hy : y ∈ xs)
    (heq : m.callee x = m.callee y) : x = y :=
  inj_on_of_nodup_map h.callees hx hy heq

/-- Only the links, callees and counts of the locked sessions matter. -/
theorem congr (h : Holds m r xs) (hfirst : m'.firstLockedSession r = m.firstLockedSession r)
    (hnext : ∀ x ∈ xs, m'.nextLockedSession x = m.nextLockedSession x)
    (hcallee : ∀ x ∈ xs, m'.callee x = m.callee x) (hopen : ∀ x ∈ xs, 0 < m'.isOpen x)
    (hcreated : m.created ≤ m'.created) : Holds m' r xs where
  chain := by
    rw [hfirst]
    exact h.chain.congr hnext
  callees := by
    rw [map_congr_left hcallee]
    exact h.callees
  isOpen := hopen
  created := fun x hx => Nat.lt_of_lt_of_le (h.created x hx) hcreated

theorem setOpen (h : Holds m r xs) {n : Nat} (hn : 0 < n) : Holds (m.setOpen x n) r xs := by
  refine h.congr rfl (fun _ _ => rfl) (fun _ _ => rfl) (fun y hy => ?_) (Nat.le_refl _)
  rw [isOpen_setOpen, update_apply]
  split
  · exact hn
  · exact h.isOpen y hy

theorem setSynchronized (h : Holds m r xs) (n : Nat) : Holds (m.setSynchronized x n) r xs :=
  h.congr rfl (fun _ _ => rfl) (fun _ _ => rfl) h.isOpen (Nat.le_refl _)

theorem withCalls (h : Holds m r xs) (isSubmitted hasCall : Nat → Bool) :
    Holds (m.withCalls isSubmitted hasCall) r xs :=
  h.congr rfl (fun _ _ => rfl) (fun _ _ => rfl) h.isOpen (Nat.le_refl _)

end Holds

section

variable [DecidableEq R] {m m' : ScoopLocks R} {r c : R} {x : Nat} {xs front back : List Nat}
  {sibling : Option Nat} {isPassive : R → Bool} {flag : Bool}

theorem moveLocks_target (hne : c ≠ r) :
    (m.moveLocks r c).firstLockedSession c = m.firstLockedSession r :=
  (update_of_ne hne _ _).trans (update_self _ _ _)

theorem moveLocks_source : (m.moveLocks r c).firstLockedSession r = none :=
  update_self _ _ _

theorem moveLocks_of_ne {q : R} (hr : q ≠ r) (hc : q ≠ c) :
    (m.moveLocks r c).firstLockedSession q = m.firstLockedSession q :=
  (update_of_ne hr _ _).trans (update_of_ne hc _ _)

theorem Holds.moveLocks (h : Holds m r xs) (hne : c ≠ r) : Holds (m.moveLocks r c) c xs where
  chain := by
    rw [moveLocks_target hne]
    exact h.chain
  callees := h.callees
  isOpen := h.isOpen
  created := h.created

theorem findLocked_eq {start : Option Nat} {fuel : Nat}
    (h : Chain m.nextLockedSession start xs) (hfuel : xs.length ≤ fuel) :
    m.findLocked c fuel start = some (xs.find? fun x => m.callee x = c) := by
  induction xs generalizing start fuel with
  | nil =>
      rw [show start = none from h]
      cases fuel <;> rfl
  | cons x xs ih =>
      cases fuel with
      | zero => exact absurd hfuel (Nat.not_succ_le_zero _)
      | succ fuel =>
          rw [h.1, findLocked, find?_cons]
          by_cases hx : m.callee x = c
          · rw [if_pos hx, decide_eq_true hx]
          · rw [if_neg hx, decide_eq_false hx]
            exact ih h.2 (Nat.le_of_succ_le_succ hfuel)

theorem sessionOpen_self : m.sessionOpen r r sibling = some (none, m) := if_pos rfl

/-- A session with the callee is open already. -/
theorem sessionOpen_of_mem (sibling : Option Nat) (h : Holds m r xs) (hne : m.callee x ≠ r)
    (hx : x ∈ xs) :
    m.sessionOpen r (m.callee x) sibling =
      some (some x, m.setOpen x (increment (m.isOpen x))) := by
  have hfind : xs.find? (fun y => m.callee y = m.callee x) = some x := by
    cases hfind : xs.find? (fun y => m.callee y = m.callee x) with
    | none => exact absurd (decide_eq_true rfl) (find?_eq_none.mp hfind x hx)
    | some y =>
        have hy : m.callee y = m.callee x := by simpa using find?_some hfind
        rw [h.eq_of_callee (mem_of_find?_eq_some hfind) hx hy]
  rw [sessionOpen, if_neg hne, findLocked_eq h.chain h.length_le, hfind]
  rfl

theorem sessionOpen_of_forall (sibling : Option Nat) (h : Holds m r xs) (hne : c ≠ r)
    (hnone : ∀ x ∈ xs, m.callee x ≠ c) :
    m.sessionOpen r c sibling = some (some m.created, m.openNew r c sibling) := by
  have hfind : xs.find? (fun y => m.callee y = c) = none := by
    rw [find?_eq_none]
    exact fun x hx => by simpa using hnone x hx
  rw [sessionOpen, if_neg hne, findLocked_eq h.chain h.length_le, hfind]
  rfl

/-- Other sessions are not changed by the opening of a new one. -/
theorem openNew_of_lt (r c : R) (sibling : Option Nat) (hx : x < m.created) :
    (m.openNew r c sibling).callee x = m.callee x ∧
      (m.openNew r c sibling).isSynchronized x = m.isSynchronized x ∧
      (m.openNew r c sibling).isOpen x = m.isOpen x ∧
      (m.openNew r c sibling).isSubmitted x = m.isSubmitted x ∧
      (m.openNew r c sibling).hasCall x = m.hasCall x ∧
      (m.openNew r c sibling).nextLockedSession x = m.nextLockedSession x := by
  have hne : x ≠ m.created := Nat.ne_of_lt hx
  simp only [openNew, newSession, setOpen, link]
  refine ⟨?_, ?_, ?_, ?_, ?_, ?_⟩ <;> simp only [update_of_ne hne]

theorem openNew_created (m : ScoopLocks R) (r c : R) (sibling : Option Nat) :
    (m.openNew r c sibling).callee m.created = c ∧
      (m.openNew r c sibling).isSynchronized m.created = 0 ∧
      (m.openNew r c sibling).isOpen m.created = 1 := by
  simp only [openNew, newSession, setOpen, link]
  refine ⟨?_, ?_, ?_⟩ <;> simp only [update_self]

theorem Holds.openNew (h : Holds m r xs) (hnone : ∀ x ∈ xs, m.callee x ≠ c) :
    Holds (m.openNew r c sibling) r (m.created :: xs) := by
  have hnot : m.created ∉ xs := fun hmem => Nat.lt_irrefl _ (h.created _ hmem)
  refine ⟨?_, ?_, ?_, ?_⟩
  · simp only [ScoopLocks.openNew, newSession, ScoopLocks.setOpen, link, update_self,
      update_idem]
    exact h.chain.push hnot
  · have hmap : xs.map (m.openNew r c sibling).callee = xs.map m.callee :=
      map_congr_left fun x hx => (openNew_of_lt r c sibling (h.created x hx)).1
    rw [map_cons, hmap, (openNew_created m r c sibling).1, nodup_cons, mem_map]
    exact ⟨fun ⟨x, hx, heq⟩ => hnone x hx heq, h.callees⟩
  · intro x hx
    rcases mem_cons.mp hx with rfl | hx
    · rw [(openNew_created m r c sibling).2.2]
      exact Nat.one_pos
    · rw [(openNew_of_lt r c sibling (h.created x hx)).2.2.1]
      exact h.isOpen x hx
  · intro x hx
    rcases mem_cons.mp hx with rfl | hx
    · exact Nat.lt_succ_self _
    · exact Nat.lt_trans (h.created x hx) (Nat.lt_succ_self _)

omit [DecidableEq R] in
theorem unlinkAfter_eq {start : Option Nat} {y fuel : Nat}
    (h : Chain m.nextLockedSession start (front ++ y :: x :: back))
    (hfuel : front.length < fuel) : m.unlinkAfter x fuel start = some { m with
        nextLockedSession := update m.nextLockedSession y (m.nextLockedSession x) } := by
  induction front generalizing start fuel with
  | nil =>
      cases fuel with
      | zero => exact absurd hfuel (Nat.not_lt_zero _)
      | succ fuel => rw [h.1, unlinkAfter, if_pos h.2.1]
  | cons z front ih =>
      cases fuel with
      | zero => exact absurd hfuel (Nat.not_lt_zero _)
      | succ fuel =>
          have hrest : Chain m.nextLockedSession (m.nextLockedSession z)
              (front ++ y :: x :: back) := h.2
          have hne : m.nextLockedSession z ≠ some x := by
            rw [append_cons] at hrest
            exact hrest.start_ne (by simp)
          rw [h.1, unlinkAfter, if_neg hne]
          exact ih hrest (Nat.lt_of_succ_lt_succ hfuel)

/-- A session is taken out of the list. -/
theorem exists_unlink (h : Chain m.nextLockedSession (m.firstLockedSession r) (front ++ x :: back))
    (hlength : (front ++ x :: back).length ≤ m.created) : ∃ next first, m.unlink r x =
        some { m with nextLockedSession := next, firstLockedSession := first } ∧
      Chain next (first r) (front ++ back) ∧ (∀ y ∉ front, next y = m.nextLockedSession y) ∧
      ∀ q, q ≠ r → first q = m.firstLockedSession q := by
  rcases eq_nil_or_concat front with rfl | ⟨front, y, rfl⟩
  · refine ⟨m.nextLockedSession, _, if_pos h.1, ?_, fun _ _ => rfl, fun q hq => ?_⟩
    · rw [update_self]
      exact h.2
    · exact update_of_ne hq _ _
  · rw [concat_eq_append] at h hlength ⊢
    have hfirst : m.firstLockedSession r ≠ some x := h.start_ne (by simp)
    have hfuel : front.length < m.created := by
      simp only [length_append, length_cons] at hlength
      omega
    rw [append_assoc, singleton_append] at h
    refine ⟨update m.nextLockedSession y (m.nextLockedSession x), m.firstLockedSession,
      ?_, ?_, fun z hz => ?_, fun _ _ => rfl⟩
    · rw [unlink, if_neg hfirst]
      exact unlinkAfter_eq h hfuel
    · rw [append_assoc, singleton_append]
      exact h.unlink
    · refine update_of_ne ?_ _ _
      rintro rfl
      exact hz (by simp)

/-- What changes when the session `x` is closed for good. -/
structure Closes (isPassive : R → Bool) (m : ScoopLocks R) (r : R) (x : Nat)
    (m' : ScoopLocks R) : Prop where
  created : m'.created = m.created
  callee : m'.callee = m.callee
  isSynchronized : m'.isSynchronized = m.isSynchronized
  isOpen : m'.isOpen = update m.isOpen x 0
  isSubmitted : m'.isSubmitted = m.isSubmitted
  hasCall : m'.hasCall = m.hasCall
  firstLockedSession : ∀ q, q ≠ r → m'.firstLockedSession q = m.firstLockedSession q
  freed : m'.freed = if m.isDisposable isPassive x then m.freed ++ [x] else m.freed

omit [DecidableEq R] in
/-- The session is freed at most once more. -/
theorem Closes.count_freed (h : Closes isPassive m r x m') (y : Nat) : m'.freed.count y =
    m.freed.count y + if y = x ∧ m.isDisposable isPassive x = true then 1 else 0 := by
  rw [h.freed]
  split
  · rename_i hdispose
    rw [count_append, count_singleton, hdispose]
    by_cases hy : y = x
    · rw [if_pos (by simpa using hy.symm), if_pos ⟨hy, rfl⟩]
    · rw [if_neg (by simpa using Ne.symm hy), if_neg fun h => hy h.1]
  · rename_i hdispose
    rw [if_neg fun h => hdispose h.2]
    rfl

theorem sessionClose_of_lt (h : 1 < m.isOpen x) :
    m.sessionClose isPassive r x flag = some (m.setOpen x (m.isOpen x - 1)) := by
  have hopen : (m.setOpen x (m.isOpen x - 1)).isOpen x = m.isOpen x - 1 :=
    update_self _ _ _
  rw [sessionClose, if_neg (by omega)]
  rw [if_neg (by omega)]

/-- The session is unlinked when it is closed for the last time. -/
theorem Holds.exists_sessionClose (h : Holds m r (front ++ x :: back)) (hx : m.isOpen x = 1)
    (isPassive : R → Bool) (flag : Bool) :
    ∃ m', m.sessionClose isPassive r x flag = some m' ∧ Closes isPassive m r x m' ∧
      Holds m' r (front ++ back) ∧
      ∀ y ∉ front ++ x :: back, m'.nextLockedSession y = m.nextLockedSession y := by
  have hopen : (m.setOpen x (m.isOpen x - 1)).isOpen x = 0 := by
    rw [isOpen_setOpen, update_self, hx]
  obtain ⟨next, first, hunlink, hchain, hnext, hfirst⟩ := exists_unlink
    (m := { m.setOpen x (m.isOpen x - 1) with
      noWaitConditionNotification := update m.noWaitConditionNotification x flag })
    h.chain h.length_le
  have hsub : ∀ y ∈ front ++ back, y ∈ front ++ x :: back := by
    intro y hy
    rw [mem_append] at hy ⊢
    exact hy.imp_right (mem_cons_of_mem x)
  have hnot : x ∉ front ++ back := by
    have hnodup := h.nodup
    rw [nodup_middle] at hnodup
    exact (nodup_cons.mp hnodup).1
  have hclose : m.sessionClose isPassive r x flag = some (dispose { m with
      isOpen := update m.isOpen x (m.isOpen x - 1)
      noWaitConditionNotification := update m.noWaitConditionNotification x flag
      nextLockedSession := update next x none
      firstLockedSession := first } isPassive x) := by
    rw [sessionClose, if_neg (by omega)]
    rw [if_pos hopen]
    exact Option.bind_eq_some_iff.mpr ⟨_, hunlink, rfl⟩
  refine ⟨_, hclose, ⟨rfl, rfl, rfl, ?_, rfl, rfl, hfirst, rfl⟩, ⟨?_, ?_, ?_, ?_⟩, ?_⟩
  · rw [hx]
    rfl
  · exact hchain.update_of_notMem hnot
  · exact h.callees.sublist (List.Sublist.map _ (by simp))
  · intro y hy
    refine Nat.lt_of_lt_of_eq (h.isOpen y (hsub y hy)) (update_of_ne ?_ _ _).symm
    rintro rfl
    exact hnot hy
  · exact fun y hy => h.created y (hsub y hy)
  · intro y hy
    have hne : y ≠ x := by
      rintro rfl
      exact hy (by simp)
    refine (update_of_ne hne _ _).trans (hnext y fun hfront => hy ?_)
    exact mem_append_left _ hfront

end

end ScoopLocks

end Gobo
