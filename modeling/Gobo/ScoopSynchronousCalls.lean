/-
Synchronous calls of SCOOP regions, nested in each other: the callee gives back to its
caller the sessions that it was passed.
-/
import Gobo.ScoopLockBalance

namespace Gobo

open Function Option List

namespace ScoopLocks

variable {R : Type}

/-- The callee executes `body` with the locked sessions of its caller. -/
def synchronousCall [DecidableEq R] (isPassive : R → Bool) (m : ScoopLocks R) (caller callee : R)
    (body : ScoopLocks R → Option (ScoopLocks R)) : Option (ScoopLocks R) := do
  let m ← m.passLocks caller callee
  let m ← body m
  m.releaseLocks isPassive caller callee

end ScoopLocks

/-- What is executed on behalf of a region: its variables `v` hold sessions, or nothing
where a region would be its own callee. -/
inductive ScoopBody (R : Type) where
  | done
  | sessionOpen (v : Nat) (callee : R) (sibling : Option Nat) (rest : ScoopBody R)
  | sessionClose (v : Nat) (noWaitConditionNotification : Bool) (rest : ScoopBody R)
  | calls (isSubmitted hasCall : Nat → Bool) (rest : ScoopBody R)
  | synchronousCall (callee : R) (body rest : ScoopBody R)

namespace ScoopBody

open ScoopLocks

variable {R : Type}

/-- `pending` are the variables with an open session, `left` those at the end.  What is
opened in a nested call is closed there. -/
def Leaves : ScoopBody R → List Nat → List Nat → Prop
  | .done, pending, left => pending = left
  | .sessionOpen v _ _ rest, pending, left => v ∉ pending ∧ rest.Leaves (v :: pending) left
  | .sessionClose v _ rest, pending, left => v ∈ pending ∧ rest.Leaves (pending.erase v) left
  | .calls _ _ rest, pending, left => rest.Leaves pending left
  | .synchronousCall _ body rest, pending, left => body.Leaves [] [] ∧ rest.Leaves pending left

/-- The callees of the synchronous calls. -/
def callees : ScoopBody R → List R
  | .done => []
  | .sessionOpen _ _ _ rest => rest.callees
  | .sessionClose _ _ rest => rest.callees
  | .calls _ _ rest => rest.callees
  | .synchronousCall callee body rest => callee :: (body.callees ++ rest.callees)

variable [DecidableEq R] (isPassive : R → Bool)

/-- A session is closed where there is one. -/
def closeVariable (m : ScoopLocks R) (r : R) (session : Option Nat) (flag : Bool) :
    Option (ScoopLocks R) :=
  match session with
  | none => some m
  | some x => m.sessionClose isPassive r x flag

/-- Executes a body on behalf of `r`. -/
def run : ScoopBody R → R → (Nat → Option Nat) → ScoopLocks R →
    Option ((Nat → Option Nat) × ScoopLocks R)
  | .done, _, locals, m => some (locals, m)
  | .sessionOpen v callee sibling rest, r, locals, m => do
      let (session, m) ← m.sessionOpen r callee (sibling.bind locals)
      rest.run r (update locals v session) m
  | .sessionClose v flag rest, r, locals, m => do
      let m ← closeVariable isPassive m r (locals v) flag
      rest.run r locals m
  | .calls isSubmitted hasCall rest, r, locals, m =>
      rest.run r locals (m.withCalls isSubmitted hasCall)
  | .synchronousCall callee body rest, r, locals, m => do
      let m ← m.synchronousCall isPassive r callee fun m =>
        (body.run callee (fun _ => none) m).map Prod.snd
      rest.run r locals m

/-- No count is the largest `uint32_t` when it is incremented. -/
def Counted : ScoopBody R → R → (Nat → Option Nat) → ScoopLocks R → Prop
  | .done, _, _, _ => True
  | .sessionOpen v callee sibling rest, r, locals, m =>
      (∀ x m', m.sessionOpen r callee (sibling.bind locals) = some (some x, m') →
        m.isOpen x + 1 < 2 ^ 32 ∨ m.created ≤ x) ∧
      ∀ session m', m.sessionOpen r callee (sibling.bind locals) = some (session, m') →
        rest.Counted r (update locals v session) m'
  | .sessionClose v flag rest, r, locals, m =>
      ∀ m', closeVariable isPassive m r (locals v) flag = some m' → rest.Counted r locals m'
  | .calls isSubmitted hasCall rest, r, locals, m =>
      rest.Counted r locals (m.withCalls isSubmitted hasCall)
  | .synchronousCall callee body rest, r, locals, m =>
      (callee ≠ r → m.Counts r) ∧
      (∀ m', m.passLocks r callee = some m' → body.Counted callee (fun _ => none) m') ∧
      ∀ m', (m.synchronousCall isPassive r callee fun m =>
        (body.run isPassive callee (fun _ => none) m).map Prod.snd) = some m' →
        rest.Counted r locals m'

variable {isPassive} {m₀ m m' : ScoopLocks R} {r c : R} {xs₀ xs owed owed' : List Nat}

theorem exists_sessionOpen (h : Since isPassive m₀ r xs₀ m xs owed) (sibling : Option Nat)
    (hcount : ∀ x m', m.sessionOpen r c sibling = some (some x, m') →
      m.isOpen x + 1 < 2 ^ 32 ∨ m.created ≤ x) :
    ∃ session m' xs', m.sessionOpen r c sibling = some (session, m') ∧
      Since isPassive m₀ r xs₀ m' xs' (session.toList ++ owed) := by
  by_cases hself : c = r
  · subst hself
    exact ⟨none, m, xs, sessionOpen_self, h⟩
  · by_cases hlocked : ∃ x ∈ xs, m.callee x = c
    · obtain ⟨x, hx, rfl⟩ := hlocked
      have hopen := sessionOpen_of_mem sibling h.holds hself hx
      have hlt := (hcount x _ hopen).resolve_right (Nat.not_le.mpr (h.holds.created x hx))
      rw [increment_eq hlt] at hopen
      exact ⟨some x, _, xs, hopen, h.reopen hx⟩
    · have hnone : ∀ x ∈ xs, m.callee x ≠ c := fun x hx hc => hlocked ⟨x, hx, hc⟩
      exact ⟨some m.created, _, _, sessionOpen_of_forall sibling h.holds hself hnone,
        h.openNew hnone sibling⟩

theorem exists_closeVariable (h : Since isPassive m₀ r xs₀ m xs owed) {session : Option Nat}
    (hperm : owed.Perm (session.toList ++ owed')) (flag : Bool) :
    ∃ m' xs', closeVariable isPassive m r session flag = some m' ∧
      Since isPassive m₀ r xs₀ m' xs' owed' := by
  cases session with
  | none => exact ⟨m, xs, rfl, h.perm hperm⟩
  | some x =>
      have hx : x ∈ xs := h.mem x (hperm.mem_iff.mpr mem_cons_self)
      by_cases hlast : m.isOpen x = 1
      · obtain ⟨front, back, rfl⟩ := append_of_mem hx
        obtain ⟨m', hclose, hcloses, hholds, hnext⟩ :=
          h.holds.exists_sessionClose hlast isPassive flag
        exact ⟨m', _, hclose, h.close hperm hlast hcloses hholds hnext⟩
      · have hopen : 1 < m.isOpen x :=
          Nat.lt_of_le_of_ne (h.holds.isOpen x hx) (Ne.symm hlast)
        exact ⟨_, xs, sessionClose_of_lt hopen, h.reclose hperm hopen⟩

/-- A body that closes what it opens may be executed in a synchronous call. -/
theorem exists_synchronousCall (h : Holds m r xs) (hfree : c ≠ r → m.firstLockedSession c = none)
    (hcounts : c ≠ r → m.Counts r) (body : ScoopLocks R → Option (ScoopLocks R))
    (hbody : ∀ m₁ ys, m.passLocks r c = some m₁ → Holds m₁ c ys →
      (∀ q, q ≠ c → q = r ∨ m.firstLockedSession q = none → m₁.firstLockedSession q = none) →
      ∃ m₂, body m₁ = some m₂ ∧ Since isPassive m₁ c ys m₂ ys []) :
    ∃ m', m.synchronousCall isPassive r c body = some m' ∧ Since isPassive m r xs m' xs [] := by
  by_cases hself : c = r
  · subst hself
    have hpass : m.passLocks c c = some m := if_pos rfl
    obtain ⟨m₂, hrun, hsince⟩ := hbody m xs hpass h fun q hq hor => hor.resolve_left hq
    refine ⟨m₂, ?_, hsince⟩
    refine bind_eq_some_iff.mpr ⟨m, hpass, ?_⟩
    exact bind_eq_some_iff.mpr ⟨m₂, hrun, if_pos rfl⟩
  · obtain ⟨m₁, ys, hpass, hpassed⟩ := exists_passLocks hself h (hcounts hself)
    obtain ⟨m₂, hrun, hsince⟩ := hbody m₁ ys hpass hpassed.holds fun q hq hor => by
      by_cases hqr : q = r
      · rw [hqr]
        exact hpassed.source
      · exact (hpassed.regions q hqr hq).trans (hor.resolve_left hqr)
    obtain ⟨m', hrelease, hreleased⟩ : ∃ m', m₂.releaseLocks isPassive r c = some m' ∧
        Released isPassive m₂ r c xs ys m' := by
      have hcount : ∀ x ∈ ys, m₂.isOpen x = m₁.isOpen x := fun x hx => by
        rw [hsince.isOpen x hx, if_pos (hpassed.holds.created x hx), count_nil, Nat.add_zero]
      have hopen : ∀ x ∈ xs, x ∈ ys → 1 < m₂.isOpen x := fun x hx hy => by
        rw [hcount x hy, hpassed.isOpen x hx]
        exact Nat.succ_lt_succ (h.isOpen x hx)
      rcases hpassed.cells with ⟨rfl, -⟩ | ⟨rfl, -, hone⟩
      · exact exists_releaseLocks_self hself hsince.holds fun x hx => hopen x hx hx
      · refine exists_releaseLocks_cons hself hsince.holds ?_ fun x hx => ?_
        · exact (hcount _ mem_cons_self).trans hone
        · exact hopen x hx (mem_cons_of_mem _ hx)
    refine ⟨m', ?_, Since.of_call h (hfree hself) hpassed hsince hreleased⟩
    refine bind_eq_some_iff.mpr ⟨m₁, hpass, ?_⟩
    exact bind_eq_some_iff.mpr ⟨m₂, hrun, hrelease⟩

theorem filterMap_update {p : List Nat} {v : Nat} (hv : v ∉ p) (locals : Nat → Option Nat)
    (session : Option Nat) :
    (v :: p).filterMap (update locals v session) =
      session.toList ++ p.filterMap locals := by
  have hrest : p.filterMap (update locals v session) = p.filterMap locals := by
    refine filterMap_congr fun w hw => update_of_ne ?_ _ _
    rintro rfl
    exact hv hw
  cases session with
  | none => rw [filterMap_cons_none (update_self _ _ _), hrest, toList_none,
      nil_append]
  | some x => rw [filterMap_cons_some (update_self _ _ _), hrest,
      toList_some, singleton_append]

theorem filterMap_erase {p : List Nat} {v : Nat} (hv : v ∈ p) (locals : Nat → Option Nat) :
    (p.filterMap locals).Perm ((locals v).toList ++ (p.erase v).filterMap locals) := by
  refine ((perm_cons_erase hv).filterMap locals).trans ?_
  cases hsession : locals v with
  | none => rw [filterMap_cons_none hsession, toList_none, nil_append]
  | some x => rw [filterMap_cons_some hsession, toList_some, singleton_append]

/-- What is executed on behalf of a region comes to its end, and it knows what is left to
be closed. -/
theorem exists_run (body : ScoopBody R) {r : R} {m₀ m : ScoopLocks R} {xs₀ xs p left : List Nat}
    {locals : Nat → Option Nat} (h : Since isPassive m₀ r xs₀ m xs (p.filterMap locals))
    (hleaves : body.Leaves p left) (hcounted : body.Counted isPassive r locals m)
    (hfree : ∀ q ∈ body.callees, q ≠ r → m.firstLockedSession q = none) :
    ∃ locals' m' xs', body.run isPassive r locals m = some (locals', m') ∧
      Since isPassive m₀ r xs₀ m' xs' (left.filterMap locals') := by
  induction body generalizing r m₀ m xs₀ xs p left locals with
  | done =>
      obtain rfl : p = left := hleaves
      exact ⟨locals, m, xs, rfl, h⟩
  | sessionOpen v c sibling rest ih =>
      obtain ⟨hv, hleaves⟩ := hleaves
      obtain ⟨hcount, hcounted⟩ := hcounted
      obtain ⟨session, m₁, xs₁, hopen, hsince⟩ := exists_sessionOpen h _ hcount
      rw [← filterMap_update hv] at hsince
      have hregions : ∀ q ∈ rest.callees, q ≠ r → m₁.firstLockedSession q = none := fun q hq hne =>
        (hsince.regions q hne).trans ((h.regions q hne).symm.trans (hfree q hq hne))
      obtain ⟨locals', m', xs', hrun, hlast⟩ := ih hsince hleaves (hcounted _ _ hopen) hregions
      exact ⟨locals', m', xs', Option.bind_eq_some_iff.mpr ⟨_, hopen, hrun⟩, hlast⟩
  | sessionClose v flag rest ih =>
      obtain ⟨hv, hleaves⟩ := hleaves
      obtain ⟨m₁, xs₁, hclose, hsince⟩ := exists_closeVariable h (filterMap_erase hv locals) flag
      have hregions : ∀ q ∈ rest.callees, q ≠ r → m₁.firstLockedSession q = none := fun q hq hne =>
        (hsince.regions q hne).trans ((h.regions q hne).symm.trans (hfree q hq hne))
      obtain ⟨locals', m', xs', hrun, hlast⟩ := ih hsince hleaves (hcounted _ hclose) hregions
      exact ⟨locals', m', xs', Option.bind_eq_some_iff.mpr ⟨_, hclose, hrun⟩, hlast⟩
  | calls isSubmitted hasCall rest ih =>
      exact ih (h.withCalls isSubmitted hasCall) hleaves hcounted hfree
  | synchronousCall c body rest ihbody ih =>
      obtain ⟨hbody, hleaves⟩ := hleaves
      obtain ⟨hcounts, hinner, hcounted⟩ := hcounted
      have hcallees : ∀ q ∈ body.callees, q ≠ r → m.firstLockedSession q = none := fun q hq =>
        hfree q (mem_cons_of_mem c (mem_append_left _ hq))
      obtain ⟨m₁, hcall, hsince⟩ : ∃ m', (m.synchronousCall isPassive r c fun m =>
          (body.run isPassive c (fun _ => none) m).map Prod.snd) = some m' ∧
          Since isPassive m r xs m' xs [] := by
        refine exists_synchronousCall h.holds (hfree c mem_cons_self) hcounts _ ?_
        intro m₁ ys hpass hholds hregions
        have hfree₁ : ∀ q ∈ body.callees, q ≠ c → m₁.firstLockedSession q = none := by
          intro q hq hne
          refine hregions q hne ?_
          by_cases hqr : q = r
          · exact Or.inl hqr
          · exact Or.inr (hcallees q hq hqr)
        obtain ⟨locals', m₂, ys', hrun, hlast⟩ := ihbody (p := []) (Since.refl hholds) hbody
          (hinner m₁ hpass) hfree₁
        obtain rfl := hlast.eq_of_nil
        exact ⟨m₂, congrArg (Option.map Prod.snd) hrun, hlast⟩
      have hregions : ∀ q ∈ rest.callees, q ≠ r → m₁.firstLockedSession q = none := fun q hq hne =>
        (hsince.regions q hne).trans
          (hfree q (mem_cons_of_mem c (mem_append_right _ hq)) hne)
      obtain ⟨locals', m', xs', hrun, hlast⟩ := ih (h.trans hsince) hleaves (hcounted _ hcall)
        hregions
      exact ⟨locals', m', xs', Option.bind_eq_some_iff.mpr ⟨_, hcall, hrun⟩, hlast⟩

/-- `callee` has given back to `caller` the sessions `xs`, and has closed its own: they are
freed unless they are left to their callees. -/
structure GivesBack (isPassive : R → Bool) (m : ScoopLocks R) (caller callee : R)
    (xs : List Nat) (m' : ScoopLocks R) : Prop where
  locked : Chain m'.nextLockedSession (m'.firstLockedSession caller) xs
  counts : ∀ x ∈ xs, m'.isOpen x = m.isOpen x ∧ m'.isSynchronized x = m.isSynchronized x
  empty : m'.firstLockedSession callee = none
  regions : ∀ q, q ≠ caller → m'.firstLockedSession q = m.firstLockedSession q
  others : ∀ x < m.created, x ∉ xs → m'.isOpen x = m.isOpen x ∧
    m'.isSynchronized x = m.isSynchronized x ∧ m'.nextLockedSession x = m.nextLockedSession x
  kept : ∀ x < m.created, m'.freed.count x = m.freed.count x
  closed : ∀ x < m'.created, m.created ≤ x → m'.isOpen x = 0
  freed : ∀ x < m'.created, m.created ≤ x → m'.freed.count x =
    m.freed.count x + if m'.isDisposable isPassive x = true then 1 else 0

omit [DecidableEq R] in
theorem givesBack (h : Since isPassive m r xs m' xs []) (hempty : m.firstLockedSession c = none)
    (hne : c ≠ r) : GivesBack isPassive m r c xs m' where
  locked := h.holds.chain
  counts := fun x hx => by
    rw [h.isOpen x hx, if_pos (h.base.created x hx)]
    exact ⟨rfl, h.isSynchronized x hx⟩
  empty := (h.regions c hne).trans hempty
  regions := h.regions
  others := fun x hx hnot => ⟨(h.others x hx hnot).1, (h.others x hx hnot).2.1,
    (h.others x hx hnot).2.2.1⟩
  kept := fun x hx => by
    rw [h.freed x, if_neg fun hold => Nat.not_lt.mpr hold.1 hx]
    rfl
  closed := fun x hx hle => h.closed x hx hle fun hmem =>
    Nat.not_lt.mpr hle (h.base.created x hmem)
  freed := fun x hx hle => by
    have hnot : x ∉ xs := fun hmem => Nat.not_lt.mpr hle (h.base.created x hmem)
    refine (h.freed x).trans (congrArg (m.freed.count x + ·) (if_congr ?_ rfl rfl))
    rw [and_iff_right hle, and_iff_right hx, and_iff_right hnot]

/-- In a synchronous call in which no count of a session gets past the largest `uint32_t`,
the caller gets back the sessions that it had locked, with their counts. -/
theorem locks_given_back (isPassive : R → Bool) {m : ScoopLocks R} {caller callee : R}
    {xs : List Nat} {body : ScoopBody R} (h : Holds m caller xs) (hne : callee ≠ caller)
    (hempty : m.firstLockedSession callee = none) (hbody : body.Leaves [] [])
    (hfree : ∀ q ∈ body.callees, q = caller ∨ m.firstLockedSession q = none)
    (hcounted : (synchronousCall callee body .done).Counted isPassive caller (fun _ => none) m) :
    ∃ m', (m.synchronousCall isPassive caller callee fun m =>
        (body.run isPassive callee (fun _ => none) m).map Prod.snd) = some m' ∧
      GivesBack isPassive m caller callee xs m' := by
  have hregions : ∀ q ∈ (synchronousCall callee body .done).callees, q ≠ caller →
      m.firstLockedSession q = none := by
    intro q hq hqr
    rw [callees, callees, append_nil] at hq
    rcases mem_cons.mp hq with rfl | hq
    · exact hempty
    · exact (hfree q hq).resolve_left hqr
  obtain ⟨locals', m', xs', hrun, hsince⟩ := exists_run (synchronousCall callee body .done)
    (p := []) (Since.refl h) ⟨hbody, rfl⟩ hcounted hregions
  obtain ⟨m₁, hcall, hrest⟩ := bind_eq_some_iff.mp hrun
  obtain ⟨-, rfl⟩ := Prod.mk.inj (some.inj hrest)
  obtain rfl := hsince.eq_of_nil
  exact ⟨m₁, hcall, givesBack hsince hempty hne⟩

/-- Region 0 has locked region 2. -/
def oneLock (isOpen : Nat) : ScoopLocks Nat where
  created := 1
  callee := fun _ => 2
  isSynchronized := fun _ => 0
  isOpen := fun x => if x = 0 then isOpen else 0
  isSubmitted := fun _ => false
  noWaitConditionNotification := fun _ => false
  nextLockedSession := fun _ => none
  nextSiblingSession := id
  hasCall := fun _ => false
  firstLockedSession := fun r => if r = 0 then some 0 else none
  freed := []

theorem oneLock_holds {n : Nat} (hn : 0 < n) : Holds (oneLock n) 0 [0] where
  chain := ⟨rfl, rfl⟩
  callees := nodup_singleton _
  isOpen := fun x hx => by
    rw [mem_singleton.mp hx]
    exact hn
  created := fun x hx => by
    rw [mem_singleton.mp hx]
    exact Nat.one_pos

/-- The callee locks the same region, calls its caller back, and closes what it opened. -/
def callback : ScoopBody Nat :=
  .sessionOpen 0 2 none (.synchronousCall 0 .done (.sessionClose 0 false .done))

theorem locks_given_back_callback : ∃ m', ((oneLock 1).synchronousCall (fun _ => false) 0 1
      fun m => (callback.run (fun _ => false) 1 (fun _ => none) m).map Prod.snd) = some m' ∧
    GivesBack (fun _ => false) (oneLock 1) 0 1 [0] m' := by
  refine locks_given_back _ (oneLock_holds Nat.one_pos) (by decide) rfl ?_ ?_ ?_
  · exact ⟨not_mem_nil, ⟨rfl, mem_cons_self, rfl⟩⟩
  · intro q hq
    exact Or.inl (by simpa [callback, callees] using hq)
  · refine ⟨fun _ => ?_, fun m₁ hpass => ?_, fun _ _ => trivial⟩
    · exact counts_of_chain (oneLock_holds Nat.one_pos).chain (by decide)
    · obtain rfl := some.inj hpass
      refine ⟨fun x m₂ hopen => ?_, fun session m₂ hopen => ?_⟩
      · obtain rfl := some.inj (Prod.mk.inj (some.inj hopen)).1
        exact Or.inl (by decide)
      · obtain ⟨rfl, rfl⟩ := Prod.mk.inj (some.inj hopen)
        refine ⟨fun _ => ?_, fun _ _ => trivial, fun _ _ _ _ => trivial⟩
        exact counts_of_chain (show Chain _ _ [1, 0] from ⟨rfl, rfl, rfl⟩) (by decide)

/-- A session that is open as often as a `uint32_t` can tell is not open once it is passed
on, and not closed when it is released. -/
theorem not_locks_given_back : ¬∀ (m : ScoopLocks Nat) (xs : List Nat) (body : ScoopBody Nat),
    Holds m 0 xs → m.firstLockedSession 1 = none → body.Leaves [] [] →
    (∀ q ∈ body.callees, q = 0 ∨ m.firstLockedSession q = none) →
    ∃ m', (m.synchronousCall (fun _ => false) 0 1 fun m =>
        (body.run (fun _ => false) 1 (fun _ => none) m).map Prod.snd) = some m' ∧
      GivesBack (fun _ => false) m 0 1 xs m' := by
  intro h
  obtain ⟨m', hrun, hgives⟩ := h (oneLock (2 ^ 32 - 1)) [0] .done (oneLock_holds (by decide)) rfl
    rfl fun q hq => absurd hq not_mem_nil
  have hopen : ((oneLock (2 ^ 32 - 1)).synchronousCall (fun _ => false) 0 1 fun m =>
      (run (fun _ => false) .done 1 (fun _ => none) m).map Prod.snd).map (fun m => m.isOpen 0) =
      some 0 := by
    decide
  rw [hrun] at hopen
  have hzero : m'.isOpen 0 = 0 := some.inj hopen
  have hsame : m'.isOpen 0 = 2 ^ 32 - 1 := (hgives.counts 0 mem_cons_self).1
  omega

end ScoopBody

end Gobo
