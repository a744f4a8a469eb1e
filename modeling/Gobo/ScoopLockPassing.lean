/-
Locked sessions passed on to the callee of a synchronous call, and given back when the
call has been executed.
-/
import Gobo.ScoopLocks

namespace Gobo

open List Function

namespace ScoopLocks

variable {R : Type} [DecidableEq R]

section

variable (m : ScoopLocks R)

/-- The sessions `xs` had their turn in `passLocks`. -/
def passed (caller : R) (xs : List Nat) : ScoopLocks R :=
  { m with
    isOpen := fun x => if x ∈ xs then increment (m.isOpen x) else m.isOpen x
    isSynchronized := fun x =>
      if x ∈ xs ∧ m.callee x ≠ caller ∧ m.isSynchronized x ≠ 0 then
        increment (m.isSynchronized x)
      else m.isSynchronized x }

/-- The sessions `xs`, which stay open, had their turn in `releaseLocks`. -/
def released (xs : List Nat) : ScoopLocks R :=
  { m with
    isOpen := fun x => if x ∈ xs then m.isOpen x - 1 else m.isOpen x
    isSynchronized := fun x => if x ∈ xs then m.isSynchronized x - 1 else m.isSynchronized x }

end

variable {m m' m₁ m₂ : ScoopLocks R} {r c : R} {x : Nat} {xs ys done rest : List Nat}
  {isPassive : R → Bool}

theorem passed_nil : m.passed r [] = m := by
  simp [passed]

omit [DecidableEq R] in
theorem released_nil : m.released [] = m := by
  simp [released]

/-- No two sessions are for the same caller: `callerSession` is the one, if there is one. -/
def Meets (m : ScoopLocks R) (r : R) (callerSession : Option Nat) (xs : List Nat) : Prop :=
  match callerSession with
  | some x => x ∈ xs ∧ m.callee x = r
  | none => ∀ x ∈ xs, m.callee x ≠ r

theorem Meets.concat {s : Option Nat} (h : m.Meets r s done) :
    m.Meets r (if m.callee x = r then some x else s) (done ++ [x]) := by
  by_cases hx : m.callee x = r
  · rw [if_pos hx]
    exact ⟨mem_append_right _ mem_cons_self, hx⟩
  · rw [if_neg hx]
    cases s with
    | some y => exact ⟨mem_append_left _ h.1, h.2⟩
    | none =>
        intro y hy
        rcases mem_append.mp hy with hy | hy
        · exact h y hy
        · rw [mem_singleton.mp hy]
          exact hx

theorem isOpen_passed_concat (hx : x ∉ done) : (m.passed r (done ++ [x])).isOpen =
    update (m.passed r done).isOpen x (increment (m.isOpen x)) := by
  funext y
  by_cases hy : y = x
  · subst hy
    simp [passed]
  · simp [passed, hy]

/-- The session with the caller is synchronized only after the others. -/
theorem isSynchronized_passed_concat (hx : m.callee x = r ∨ m.isSynchronized x = 0) :
    (m.passed r (done ++ [x])).isSynchronized = (m.passed r done).isSynchronized := by
  funext y
  by_cases hy : y = x
  · subst hy
    rcases hx with hx | hx <;> simp [passed, hx]
  · simp [passed, hy]

theorem isSynchronized_passed_concat_of_ne (hcallee : m.callee x ≠ r)
    (hsync : m.isSynchronized x ≠ 0) : (m.passed r (done ++ [x])).isSynchronized =
      update (m.passed r done).isSynchronized x (increment (m.isSynchronized x)) := by
  funext y
  by_cases hy : y = x
  · subst hy
    simp [passed, hcallee, hsync]
  · simp [passed, hy]

theorem passSession_eq (hx : x ∉ done) (s : Option Nat) :
    passSession r x (s, m.passed r done) =
      some (if m.callee x = r then some x else s, m.passed r (done ++ [x])) := by
  have hopen : (m.passed r done).isOpen x = m.isOpen x := if_neg hx
  have hsync : (m.passed r done).isSynchronized x = m.isSynchronized x :=
    if_neg fun h => hx h.1
  have hset : (m.passed r (done ++ [x])).isSynchronized = (m.passed r done).isSynchronized →
      (m.passed r done).setOpen x (increment (m.isOpen x)) = m.passed r (done ++ [x]) := by
    intro heq
    rw [setOpen, ← isOpen_passed_concat hx, ← heq]
    rfl
  rw [passSession]
  rw [hopen]
  change (if m.callee x = r then _ else if (m.passed r done).isSynchronized x = 0 then _
    else some (s, ScoopLocks.setSynchronized _ x
      (increment ((m.passed r done).isSynchronized x)))) = _
  rw [hsync]
  by_cases hcallee : m.callee x = r
  · rw [if_pos hcallee, if_pos hcallee, hset (isSynchronized_passed_concat (Or.inl hcallee))]
  · rw [if_neg hcallee, if_neg hcallee]
    by_cases hzero : m.isSynchronized x = 0
    · rw [if_pos hzero, hset (isSynchronized_passed_concat (Or.inr hzero))]
    · rw [if_neg hzero, setSynchronized, setOpen, ← isOpen_passed_concat hx]
      rw [← isSynchronized_passed_concat_of_ne hcallee hzero]
      rfl

/-- All sessions have their turn. -/
theorem exists_passEach (h : Chain m.nextLockedSession xs.head? xs) {fuel : Nat}
    (hfuel : xs.length ≤ fuel) : ∃ s, forCells (fun s => s.2.nextLockedSession) (passSession r)
      fuel xs.head? (none, m) = some (s, m.passed r xs) ∧ m.Meets r s xs := by
  have hturn : ∀ done x rest s, xs = done ++ x :: rest →
      s.2 = m.passed r done ∧ m.Meets r s.1 done → ∃ s', passSession r x s = some s' ∧
        s'.2.nextLockedSession x = rest.head? ∧
        s'.2 = m.passed r (done ++ [x]) ∧ m.Meets r s'.1 (done ++ [x]) := by
    rintro done x rest ⟨s, n⟩ rfl ⟨rfl, hmeets⟩
    have hx : x ∉ done := by
      intro hmem
      exact (nodup_append.mp h.nodup).2.2 x hmem x mem_cons_self rfl
    exact ⟨_, passSession_eq hx s, h.next_eq, rfl, hmeets.concat⟩
  have hstart : m = m.passed r [] ∧ m.Meets r none [] :=
    ⟨passed_nil.symm, fun _ hx => absurd hx not_mem_nil⟩
  obtain ⟨⟨s, n⟩, hrun, hn, hmeets⟩ := forCells_spec (s := (none, m)) _ hturn hfuel hstart
  exact ⟨s, hn ▸ hrun, hmeets⟩

/-- No count of a session that `r` has locked is the largest `uint32_t`. -/
def Counts (m : ScoopLocks R) (r : R) : Prop :=
  ∀ xs, Chain m.nextLockedSession (m.firstLockedSession r) xs → ∀ x ∈ xs,
    m.isOpen x + 1 < 2 ^ 32 ∧ m.isSynchronized x + 1 < 2 ^ 32

omit [DecidableEq R] in
theorem counts_of_chain (h : Chain m.nextLockedSession (m.firstLockedSession r) xs)
    (hlt : ∀ x ∈ xs, m.isOpen x + 1 < 2 ^ 32 ∧ m.isSynchronized x + 1 < 2 ^ 32) : m.Counts r := by
  intro ys hys
  rw [hys.unique h]
  exact hlt

/-- What `passLocks` changes: `ys` are the sessions of `callee`, the session with the
caller included. -/
structure Passed (m : ScoopLocks R) (caller callee : R) (xs ys : List Nat)
    (m' : ScoopLocks R) : Prop where
  holds : Holds m' callee ys
  cells : ys = xs ∧ m'.created = m.created ∨
    ys = m.created :: xs ∧ m'.created = m.created + 1 ∧ m'.isOpen m.created = 1
  isOpen : ∀ x ∈ xs, m'.isOpen x = m.isOpen x + 1
  isSynchronized : ∀ x ∈ xs, m'.isSynchronized x - 1 = m.isSynchronized x
  others : ∀ x < m.created, x ∉ xs → m'.isOpen x = m.isOpen x ∧
    m'.isSynchronized x = m.isSynchronized x
  same : ∀ x < m.created, m'.callee x = m.callee x ∧ m'.isSubmitted x = m.isSubmitted x ∧
    m'.hasCall x = m.hasCall x ∧ m'.nextLockedSession x = m.nextLockedSession x
  source : m'.firstLockedSession caller = none
  regions : ∀ q, q ≠ caller → q ≠ callee → m'.firstLockedSession q = m.firstLockedSession q
  freed : m'.freed = m.freed

theorem isOpen_passed (r : R) (h : m.isOpen x + 1 < 2 ^ 32) (hx : x ∈ xs) :
    (m.passed r xs).isOpen x = m.isOpen x + 1 := by
  rw [passed]
  dsimp only
  rw [if_pos hx, increment_eq h]

theorem isSynchronized_passed (h : m.isSynchronized x + 1 < 2 ^ 32) (hx : x ∈ xs)
    (hcallee : m.callee x ≠ r) :
    (m.passed r xs).isSynchronized x - 1 = m.isSynchronized x := by
  rw [passed]
  dsimp only
  by_cases hzero : m.isSynchronized x = 0
  · rw [if_neg fun h => h.2.2 hzero, hzero]
  · rw [if_pos ⟨hx, hcallee, hzero⟩, increment_eq h]
    rfl

theorem Holds.passed (h : Holds m r xs) (hcounts : m.Counts r) : Holds (m.passed c xs) r xs := by
  refine h.congr rfl (fun _ _ => rfl) (fun _ _ => rfl) (fun x hx => ?_) (Nat.le_refl _)
  rw [isOpen_passed c (hcounts xs h.chain x hx).1 hx]
  exact Nat.succ_pos _

theorem Counts.moveLocks (h : m.Counts r) (hne : c ≠ r) : (m.moveLocks r c).Counts c := by
  intro xs hxs
  rw [moveLocks_target hne] at hxs
  exact h xs hxs

theorem isOpen_passed_of_notMem (r : R) (hx : x ∉ xs) : (m.passed r xs).isOpen x = m.isOpen x :=
  if_neg hx

theorem isSynchronized_passed_of_notMem (h : x ∈ xs → m.callee x = r) :
    (m.passed r xs).isSynchronized x = m.isSynchronized x :=
  if_neg fun hx => hx.2.1 (h hx.1)

/-- There was a session with the caller. -/
theorem passed_of_mem (hne : c ≠ r) (h : Holds m r xs) (hcounts : m.Counts r) (hx : x ∈ xs)
    (hcallee : m.callee x = r) {n : ScoopLocks R} (hn : n = (m.moveLocks r c).passed r xs) :
    Passed m r c xs xs (n.setSynchronized x (increment (n.isSynchronized x))) := by
  subst hn
  have hlt := hcounts xs h.chain
  have hself : ((m.moveLocks r c).passed r xs).isSynchronized x = m.isSynchronized x :=
    isSynchronized_passed_of_notMem fun _ => hcallee
  have hpassed := (h.moveLocks hne).passed (c := r) (hcounts.moveLocks hne)
  refine ⟨hpassed.setSynchronized _, Or.inl ⟨rfl, rfl⟩, fun y hy => ?_, fun y hy => ?_,
    fun y _ hy => ⟨?_, ?_⟩, fun y _ => ⟨rfl, rfl, rfl, rfl⟩, moveLocks_source,
    fun q hr hc => moveLocks_of_ne hr hc, rfl⟩
  · exact isOpen_passed r (hlt y hy).1 hy
  · rw [ScoopLocks.setSynchronized, hself]
    dsimp only
    by_cases hyx : y = x
    · rw [hyx, update_self, increment_eq (hlt x hx).2]
      rfl
    · rw [update_of_ne hyx]
      refine isSynchronized_passed (hlt y hy).2 hy fun heq => hyx ?_
      exact h.eq_of_callee hy hx (heq.trans hcallee.symm)
  · exact isOpen_passed_of_notMem r hy
  · have hyx : y ≠ x := by
      rintro rfl
      exact hy hx
    refine (update_of_ne hyx _ _).trans ?_
    exact isSynchronized_passed_of_notMem fun hmem => absurd hmem hy

/-- A session with the caller is opened. -/
theorem passed_of_forall (hne : c ≠ r) (h : Holds m r xs) (hcounts : m.Counts r)
    (hnone : ∀ x ∈ xs, m.callee x ≠ r) {n : ScoopLocks R}
    (hn : n = ((m.moveLocks r c).passed r xs).openNew c r none) :
    Passed m r c xs (m.created :: xs)
      (n.setSynchronized m.created (increment (n.isSynchronized m.created))) := by
  subst hn
  have hlt := hcounts xs h.chain
  have hpassed := (h.moveLocks hne).passed (c := r) (hcounts.moveLocks hne)
  have hold : ∀ y < m.created, y ≠ m.created := fun y hy => Nat.ne_of_lt hy
  have hnew : ∀ y < ((m.moveLocks r c).passed r xs).created, _ := fun y hy =>
    openNew_of_lt c r none hy
  have hcreated := (openNew_created ((m.moveLocks r c).passed r xs) c r none).2.2
  refine ⟨(hpassed.openNew hnone).setSynchronized _, Or.inr ⟨rfl, rfl, hcreated⟩,
    fun y hy => ?_, fun y hy => ?_, fun y hlt hy => ⟨?_, ?_⟩, fun y hlt => ?_, ?_,
    fun q hr hc => ?_, rfl⟩
  · refine (hnew y (h.created y hy)).2.2.1.trans ?_
    exact isOpen_passed r (hlt y hy).1 hy
  · refine Eq.trans (congrArg (· - 1) ?_) (isSynchronized_passed (r := r) (hlt y hy).2 hy
      (hnone y hy))
    refine (update_of_ne (hold y (h.created y hy)) _ _).trans ?_
    exact (hnew y (h.created y hy)).2.1
  · exact (hnew y hlt).2.2.1.trans (isOpen_passed_of_notMem r hy)
  · refine (update_of_ne (hold y hlt) _ _).trans ((hnew y hlt).2.1.trans ?_)
    exact isSynchronized_passed_of_notMem fun hmem => absurd hmem hy
  · obtain ⟨hcallee, -, -, hsubmitted, hcall, hnext⟩ := hnew y hlt
    exact ⟨hcallee, hsubmitted, hcall, hnext⟩
  · exact (update_of_ne hne.symm _ _).trans moveLocks_source
  · exact (update_of_ne hc _ _).trans (moveLocks_of_ne hr hc)

/-- The sessions are passed on. -/
theorem exists_passLocks (hne : c ≠ r) (h : Holds m r xs) (hcounts : m.Counts r) :
    ∃ m' ys, m.passLocks r c = some m' ∧ Passed m r c xs ys m' := by
  have hmoved := h.moveLocks hne
  have hfirst : (m.moveLocks r c).firstLockedSession c = xs.head? := hmoved.chain.head?_eq.symm
  have hchain : Chain (m.moveLocks r c).nextLockedSession xs.head? xs := by
    rw [← hfirst]
    exact hmoved.chain
  obtain ⟨s, hrun, hmeets⟩ := exists_passEach (r := r) hchain hmoved.length_le
  rw [passLocks, if_neg hne]
  dsimp only
  rw [hfirst]
  cases s with
  | some x =>
      refine ⟨_, xs, Option.bind_eq_some_iff.mpr ⟨_, hrun, rfl⟩, ?_⟩
      exact passed_of_mem hne h hcounts hmeets.1 hmeets.2 rfl
  | none =>
      have hpassed := hmoved.passed (c := r) (hcounts.moveLocks hne)
      have hopen := sessionOpen_of_forall none hpassed hne.symm hmeets
      refine ⟨_, m.created :: xs, Option.bind_eq_some_iff.mpr ⟨_, hrun, ?_⟩,
        passed_of_forall hne h hcounts hmeets rfl⟩
      exact Option.bind_eq_some_iff.mpr ⟨_, hopen, rfl⟩

omit [DecidableEq R] in
theorem released_concat (hx : x ∉ done) : m.released (done ++ [x]) =
    ((m.released done).setSynchronized x (m.isSynchronized x - 1)).setOpen x
      (m.isOpen x - 1) := by
  simp only [released, ScoopLocks.setSynchronized, ScoopLocks.setOpen, ScoopLocks.mk.injEq,
    true_and, and_true]
  constructor
  all_goals
    funext y
    by_cases hy : y = x
    · subst hy
      simp
    · simp [hy]

omit [DecidableEq R] in
/-- The count of what is not synchronized stays at zero. -/
theorem desynchronize_eq : (if m.isSynchronized x = 0 then m
    else m.setSynchronized x (m.isSynchronized x - 1)) =
    m.setSynchronized x (m.isSynchronized x - 1) := by
  split
  · rename_i h
    rw [h, Nat.zero_sub, ← h, ScoopLocks.setSynchronized, update_eq_self]
  · rfl

/-- A session that stays open is released. -/
theorem releaseSession_eq (hx : x ∉ done) (hopen : 1 < m.isOpen x) (s : Option Nat) :
    releaseSession isPassive c x (s, m.released done) =
      some (m.nextLockedSession x, m.released (done ++ [x])) := by
  have hopened : (m.released done).isOpen x = m.isOpen x := if_neg hx
  have hsync : (m.released done).isSynchronized x = m.isSynchronized x := if_neg hx
  have hclose : ((m.released done).setSynchronized x (m.isSynchronized x - 1)).sessionClose
      isPassive c x false = some (m.released (done ++ [x])) := by
    rw [released_concat hx, ← hopened]
    exact sessionClose_of_lt (hopened ▸ hopen)
  rw [releaseSession, desynchronize_eq]
  rw [hsync, hclose]
  rfl

theorem exists_releaseEach (isPassive : R → Bool) (c : R)
    (h : Chain m.nextLockedSession xs.head? xs) (hopen : ∀ x ∈ xs, 1 < m.isOpen x)
    {fuel : Nat} (hfuel : xs.length ≤ fuel) (s : Option Nat) : ∃ s',
      forCells (fun s _ => s.1) (releaseSession isPassive c) fuel xs.head?
      (s, m) = some (s', m.released xs) := by
  have hturn : ∀ done x rest s, xs = done ++ x :: rest → s.2 = m.released done →
      ∃ s', releaseSession isPassive c x s = some s' ∧ s'.1 = rest.head? ∧
        s'.2 = m.released (done ++ [x]) := by
    rintro done x rest ⟨s, n⟩ rfl rfl
    have hx : x ∉ done := by
      intro hmem
      exact (nodup_append.mp h.nodup).2.2 x hmem x mem_cons_self rfl
    exact ⟨_, releaseSession_eq hx (hopen x (by simp)) s, h.next_eq, rfl⟩
  obtain ⟨⟨s', n⟩, hrun, hn⟩ := forCells_spec (s := (s, m)) _ hturn hfuel released_nil.symm
  exact ⟨s', hn ▸ hrun⟩

/-- What `releaseLocks` changes: the sessions `xs` stay open, the others of `ys` are
closed. -/
structure Released (isPassive : R → Bool) (m : ScoopLocks R) (caller callee : R)
    (xs ys : List Nat) (m' : ScoopLocks R) : Prop where
  holds : Holds m' caller xs
  created : m'.created = m.created
  isOpen : ∀ x ∈ xs, m'.isOpen x = m.isOpen x - 1
  isSynchronized : ∀ x ∈ xs, m'.isSynchronized x = m.isSynchronized x - 1
  closed : ∀ x ∈ ys, x ∉ xs → m'.isOpen x = 0
  others : ∀ x ∉ ys, m'.isOpen x = m.isOpen x ∧ m'.isSynchronized x = m.isSynchronized x ∧
    m'.nextLockedSession x = m.nextLockedSession x
  same : m'.callee = m.callee ∧ m'.isSubmitted = m.isSubmitted ∧ m'.hasCall = m.hasCall
  source : m'.firstLockedSession callee = none
  regions : ∀ q, q ≠ caller → q ≠ callee → m'.firstLockedSession q = m.firstLockedSession q
  freed : ∀ x, m'.freed.count x = m.freed.count x +
    if x ∈ ys ∧ x ∉ xs ∧ m.isDisposable isPassive x = true then 1 else 0

omit [DecidableEq R] in
theorem isOpen_released (hx : x ∈ xs) : (m.released xs).isOpen x = m.isOpen x - 1 :=
  if_pos hx

theorem released_of_forall (hne : c ≠ r) (h : Holds m c xs) (hopen : ∀ x ∈ xs, 1 < m.isOpen x)
    {n : ScoopLocks R} (hn : n = m.released xs) :
    Released isPassive m r c xs xs (n.moveLocks c r) := by
  subst hn
  have hreleased : Holds (m.released xs) c xs := by
    refine h.congr rfl (fun _ _ => rfl) (fun _ _ => rfl) (fun x hx => ?_) (Nat.le_refl _)
    rw [isOpen_released hx]
    exact Nat.sub_pos_of_lt (hopen x hx)
  refine ⟨hreleased.moveLocks hne.symm, rfl, fun x hx => if_pos hx, fun x hx => if_pos hx,
    fun x hx hnot => absurd hx hnot, fun x hx => ⟨if_neg hx, if_neg hx, rfl⟩, ⟨rfl, rfl, rfl⟩,
    moveLocks_source, fun q hr hc => moveLocks_of_ne hc hr, fun x => ?_⟩
  rw [if_neg fun hx => hx.2.1 hx.1]
  rfl

omit [DecidableEq R] in
/-- The session in front is closed first. -/
theorem Released.cons (hx : x ∉ xs)
    (hclose : Closes isPassive (m.setSynchronized x (m.isSynchronized x - 1)) c x m₁)
    (hnext : ∀ y ∉ x :: xs, m₁.nextLockedSession y = m.nextLockedSession y)
    (h : Released isPassive m₁ r c xs xs m') : Released isPassive m r c xs (x :: xs) m' := by
  have hne : ∀ y ∈ xs, y ≠ x := by
    rintro y hy rfl
    exact hx hy
  have hopen : ∀ y, y ≠ x → m₁.isOpen y = m.isOpen y := fun y hy => by
    rw [hclose.isOpen]
    exact update_of_ne hy _ _
  have hsync : ∀ y, y ≠ x → m₁.isSynchronized y = m.isSynchronized y := fun y hy => by
    rw [hclose.isSynchronized]
    exact update_of_ne hy _ _
  have hother : ∀ y ∉ x :: xs, y ≠ x ∧ y ∉ xs := fun y hy => by simpa using hy
  refine ⟨h.holds, h.created.trans hclose.created, fun y hy => ?_, fun y hy => ?_,
    fun y hy hnot => ?_, fun y hy => ?_, ⟨h.same.1.trans hclose.callee,
      h.same.2.1.trans hclose.isSubmitted, h.same.2.2.trans hclose.hasCall⟩, h.source,
    fun q hr hc => (h.regions q hr hc).trans (hclose.firstLockedSession q hc), fun y => ?_⟩
  · rw [h.isOpen y hy, hopen y (hne y hy)]
  · rw [h.isSynchronized y hy, hsync y (hne y hy)]
  · rcases mem_cons.mp hy with rfl | hy
    · rw [(h.others y hnot).1, hclose.isOpen, update_self]
    · exact absurd hy hnot
  · obtain ⟨hyx, hys⟩ := hother y hy
    obtain ⟨h1, h2, h3⟩ := h.others y hys
    exact ⟨h1.trans (hopen y hyx), h2.trans (hsync y hyx), h3.trans (hnext y hy)⟩
  · rw [h.freed y, if_neg fun hy => hy.2.1 hy.1, hclose.count_freed y]
    refine congrArg (m.freed.count y + ·) (if_congr ?_ rfl rfl)
    constructor
    · rintro ⟨rfl, hdispose⟩
      exact ⟨mem_cons_self, hx, hdispose⟩
    · rintro ⟨hmem, hnot, hdispose⟩
      obtain rfl : y = x := (mem_cons.mp hmem).resolve_right hnot
      exact ⟨rfl, hdispose⟩

theorem exists_releaseLocks_self (hne : c ≠ r) (h : Holds m c xs)
    (hopen : ∀ x ∈ xs, 1 < m.isOpen x) : ∃ m', m.releaseLocks isPassive r c = some m' ∧
      Released isPassive m r c xs xs m' := by
  have hchain := h.chain
  rw [← hchain.head?_eq] at hchain
  obtain ⟨s, hrun⟩ := exists_releaseEach isPassive c hchain hopen h.length_le none
  refine ⟨_, ?_, released_of_forall hne h hopen rfl⟩
  rw [releaseLocks, if_neg hne, ← h.chain.head?_eq]
  exact Option.bind_eq_some_iff.mpr ⟨_, hrun, rfl⟩

theorem exists_releaseLocks_cons (hne : c ≠ r) (h : Holds m c (x :: xs)) (hx : m.isOpen x = 1)
    (hopen : ∀ y ∈ xs, 1 < m.isOpen y) : ∃ m', m.releaseLocks isPassive r c = some m' ∧
      Released isPassive m r c xs (x :: xs) m' := by
  have hnot : x ∉ xs := (nodup_cons.mp h.nodup).1
  have hlength := h.length_le
  have hfirst := h.chain.head?_eq
  have hset : Holds (m.setSynchronized x (m.isSynchronized x - 1)) c ([] ++ x :: xs) :=
    h.setSynchronized _
  obtain ⟨m₁, hclose, hcloses, hholds, hnext⟩ := hset.exists_sessionClose hx isPassive false
  rw [nil_append] at hholds hnext
  have hopen' : ∀ y ∈ xs, 1 < m₁.isOpen y := by
    intro y hy
    have hne : y ≠ x := by
      rintro rfl
      exact hnot hy
    rw [hcloses.isOpen, update_of_ne hne]
    exact hopen y hy
  have hchain := hholds.chain
  rw [← hchain.head?_eq] at hchain
  obtain ⟨fuel, hfuel⟩ : ∃ fuel, m.created = fuel + 1 :=
    Nat.exists_eq_add_one.mpr (Nat.zero_lt_of_lt (h.created x mem_cons_self))
  obtain ⟨s, hrun⟩ := exists_releaseEach isPassive c hchain hopen'
    (Nat.le_of_succ_le_succ (hfuel ▸ hlength)) (m.nextLockedSession x)
  have hstep : releaseSession isPassive c x (none, m) = some (m.nextLockedSession x, m₁) := by
    rw [releaseSession, desynchronize_eq]
    rw [hclose]
    rfl
  refine ⟨_, ?_, (released_of_forall hne hholds hopen' rfl).cons hnot hcloses hnext⟩
  rw [releaseLocks, if_neg hne, ← hfirst, head?_cons, hfuel]
  refine Option.bind_eq_some_iff.mpr ⟨(s, m₁.released xs), ?_, rfl⟩
  rw [forCells, hstep, Option.bind_some, ← hrun]
  exact congrArg (forCells _ _ fuel · _) (h.chain.2.head?_eq.symm)

end ScoopLocks

end Gobo
