/-
The sessions of a region form a doubly linked list as long as no promotion moves one of
them.
-/
import Gobo.ScoopSound

namespace Gobo

open List

namespace ScoopSessions

variable {R : Type} [DecidableEq R] {m m' : ScoopSessions R} {r : R} {x : Nat} {xs ys : List Nat}

theorem promote_first (hfirst : m.firstSession (m.callee x) = some x) :
    m.promote x = some (m.run x) := by
  rw [promote, moveToFirst, if_pos hfirst]
  rfl

/-- Sessions that are first are not moved. -/
theorem Queued.promoteAll_first {stale : Prop} (h : Queued m r stale xs)
    (hfirst : ∀ y ∈ ys, m.firstSession (m.callee y) = some y) (hrun : m.promoteAll ys = some m') :
    Queued m' r stale xs := by
  induction ys generalizing m with
  | nil =>
      obtain rfl := Option.some.inj hrun
      exact h
  | cons y ys ih =>
      obtain ⟨hy, hys⟩ := forall_mem_cons.mp hfirst
      obtain ⟨n, hn, hrun⟩ := Option.bind_eq_some_iff.mp hrun
      rw [promote_first hy] at hn
      obtain rfl := Option.some.inj hn
      exact ih (h.run hy) hys hrun

end ScoopSessions

namespace Scoop

variable {R : Type} [DecidableEq R]

/-- No promotion moves a session, and no session is removed twice. -/
def KeepsOrder (s : Scoop R) : ScoopAction R → Prop
  | .proceed a =>
      match s.phase a with
      | .promoting _ (some x) => ∀ y ∈ s.promotes x, s.firstSession (s.callee y) = some y
      | .remove x => s.isFreed x = false
      | _ => True
  | _ => True

/-- The sessions of every region form a list. -/
def Ordered (s : Scoop R) : Prop :=
  ∀ r, ∃ xs, ScoopSessions.Queued s.toScoopSessions r False xs

section

variable {isPassive : R → Bool} {s t : Scoop R} {a : ScoopAgent R} {p : ScoopPhase R}

theorem Ordered.step {action : ScoopAction R} (h : s.Ordered) (hs : s.Sound isPassive)
    (hok : s.KeepsOrder action) (hstep : step isPassive s action = some t) : t.Ordered := by
  suffices hsessions : ∀ m, t.toScoopSessions = m → SessionStep s action m →
      ∀ r, ∃ xs, ScoopSessions.Queued m r False xs from
    hsessions _ rfl (session_cases hs hstep)
  intro m _ hchange r
  obtain ⟨xs, hq⟩ := h r
  cases hchange with
  | same => exact ⟨xs, hq⟩
  | opened => exact ⟨xs, hq.newSession hs.typed _ _ _⟩
  | freed hnew => exact ⟨xs, hq.free hnew⟩
  | submitted hnodup hfresh => exact ⟨_, hq.submitAll hs.typed hnodup hfresh⟩
  | ran hfirst => exact ⟨xs, hq.run hfirst⟩
  | @promoted a q x m ha hpromote =>
      rw [KeepsOrder, ha] at hok
      exact ⟨xs, hq.promoteAll_first hok hpromote⟩
  | @removed a x ha hsubmitted =>
      rw [KeepsOrder, ha] at hok
      by_cases hr : s.callee x = r
      · subst hr
        have hx := (hq.mem_iff x).mpr ⟨rfl, hsubmitted, hok⟩
        exact ⟨_, (hq.remove hx (hq.first_of_previous hx)).mono And.left⟩
      · exact ⟨xs, (hs.typed.sameAt_remove x hr).queued hq⟩

omit [DecidableEq R] in
theorem ordered_init (r : R) : (init r).Ordered := by
  refine fun q => ⟨[], ⟨⟨rfl, rfl, Or.inl trivial⟩, fun x => ?_, fun x hx => ?_⟩⟩
  · exact ⟨fun hx => absurd hx not_mem_nil, fun hx => nomatch hx.2.1⟩
  · exact absurd hx not_mem_nil

end

/-- As long as no promotion moves a session and none is removed twice, the sessions of a
region are those of a doubly linked list, and only the first one may be running. -/
theorem sessions_ordered (isPassive : R → Bool) (r : R) {cs : List (ScoopAction R)} {t : Scoop R}
    (hcs : Permitted (step isPassive) KeepsOrder (init r) cs)
    (h : runAll (step isPassive) (init r) cs = some t) : t.Ordered := by
  refine (run_preserves (fun s => s.Sound isPassive ∧ s.Ordered) (fun s action u hs hok hstep => ?_)
    ⟨sound_init isPassive r, ordered_init r⟩ hcs h).2
  exact ⟨(step_cases hstep).sound hs.1, hs.2.step hs.1 hok hstep⟩

/-- A multisession with the regions 0 and 9, and two more sessions with region 0, whose
processor promotes the multisession, and executes and removes its session with it. -/
def multisessionRun : List (ScoopAction Nat) :=
  [.sessionOpen 1 0 none, .sessionOpen 1 9 (some 0), .sessionAddCall 0, .proceed (.caller 1),
    .sessionOpen 1 0 none, .sessionAddCall 1, .sessionAddCall 0, .sessionClose 0,
    .sessionClose 0, .sessionClose 1,
    .sessionOpen 2 0 none, .sessionAddCall 2, .proceed (.caller 2), .proceed (.caller 2),
    .sessionOpen 3 0 none, .sessionAddCall 3, .proceed (.caller 3), .proceed (.caller 3),
    .start (.processor 0) 0] ++ replicate 11 (.proceed (.processor 0))

theorem sessions_ordered_multisession :
    Permitted (step fun _ => false) KeepsOrder (init 1) multisessionRun ∧
      ∃ t, runAll (step fun _ => false) (init 1) multisessionRun = some t ∧ t.Ordered ∧
        t.isRunning 1 = true ∧ t.isFreed 0 = true ∧ t.firstSession 0 = some 2 ∧
        t.next 2 = some 3 ∧ t.previous 3 = some 2 := by
  have hcs : Permitted (step fun _ => false) KeepsOrder (init 1) multisessionRun :=
    ⟨trivial, trivial, trivial, trivial, trivial, trivial, trivial, trivial, trivial, trivial,
      trivial, trivial, trivial, trivial, trivial, trivial, trivial, trivial, trivial, trivial,
      trivial, forall_mem_cons.mpr ⟨rfl, forall_mem_singleton.mpr rfl⟩, trivial, trivial,
      trivial, trivial, trivial, trivial, rfl, trivial, trivial⟩
  exact ⟨hcs, _, rfl, sessions_ordered _ 1 hcs rfl, rfl, rfl, rfl, rfl, rfl⟩

/-- Region 9 is busy; the sessions of a caller with regions 0 and 9 wait for it when
another caller submits one to region 0, which is then promoted. -/
def overtakingRun : List (ScoopAction Nat) :=
  [.sessionOpen 1 9 none, .sessionAddCall 0, .proceed (.caller 1), .proceed (.caller 1),
    .start (.processor 9) 9, .proceed (.processor 9),
    .sessionOpen 2 0 none, .sessionOpen 2 9 (some 1), .sessionAddCall 1, .proceed (.caller 2),
    .sessionOpen 3 0 none, .sessionAddCall 3, .proceed (.caller 3), .proceed (.caller 3),
    .start (.processor 0) 0, .proceed (.processor 0), .proceed (.processor 0),
    .proceed (.processor 0), .proceed (.processor 0)]

/-- The session that was first does not know the one that is now in front of it. -/
theorem overtaken_not_linked :
    ∃ t, runAll (step fun _ => false) (init 1) overtakingRun = some t ∧ t.mutex 0 = none ∧
      ¬∃ xs, ScoopSessions.Queued t.toScoopSessions 0 False xs := by
  refine ⟨_, rfl, rfl, ?_⟩
  rintro ⟨xs, hq⟩
  obtain ⟨ys, rfl⟩ : ∃ ys, xs = 3 :: ys := head?_eq_some_iff.mp hq.first_eq.symm
  have hnext := hq.linked.chain.2
  obtain ⟨zs, rfl⟩ : ∃ zs, ys = 1 :: zs := head?_eq_some_iff.mp hnext.head?_eq
  have hprevious : (none : Option Nat) = some 3 := hq.linked.backward_of_not_stale.2.1
  exact nomatch hprevious

end Scoop

end Gobo
