/-
The calls of a session with an active region are executed in the order in which they
were added, before its callee turns to another session.
-/
import Gobo.ScoopActive

namespace Gobo

open Option List

section

variable {A : Type} {xs ys l : List A} {b : A}

theorem sublist_of_append (h : l.Sublist (xs ++ ys)) (hnot : ∀ e ∈ l, e ∉ ys) : l.Sublist xs := by
  obtain ⟨front, back, rfl, hfront, hback⟩ := sublist_append_iff.mp h
  cases back with
  | nil => rwa [append_nil]
  | cons e back =>
      have hmem : e ∈ front ++ e :: back := mem_append_right front mem_cons_self
      exact absurd (hback.subset mem_cons_self) (hnot e hmem)

/-- The last element of a sublist may be the last one of the list. -/
theorem sublist_concat (h : l.Sublist (xs ++ [b])) :
    l.Sublist xs ∨ ∃ front, l = front ++ [b] ∧ front.Sublist xs := by
  obtain ⟨front, back, rfl, hfront, hback⟩ := sublist_append_iff.mp h
  rcases sublist_singleton.mp hback with rfl | rfl
  · exact Or.inl (by rwa [append_nil])
  · exact Or.inr ⟨front, rfl, hfront⟩

/-- An element of a list to which others are appended. -/
theorem append_cons_cases {front back : List A} (h : xs ++ ys = front ++ b :: back) :
    (∃ rest, xs = front ++ b :: rest) ∨ ∃ rest, front = xs ++ rest ∧ ys = rest ++ b :: back := by
  rcases append_eq_append_iff.mp h with ⟨rest, hfront, hys⟩ | ⟨rest, hxs, hrest⟩
  · exact Or.inr ⟨rest, hfront, hys⟩
  · cases rest with
    | nil => exact Or.inr ⟨[], by rw [hxs, append_nil, append_nil], hrest.symm⟩
    | cons c rest =>
        injection hrest with hbc
        exact Or.inl ⟨rest, hbc ▸ hxs⟩

end

namespace Scoop

variable {R : Type} [DecidableEq R]

/-- The calls that were added to a session, but for running calls. -/
def addedCalls (x : Nat) (log : List ScoopEvent) : List ScoopCall :=
  log.filterMap fun e => match e with
    | .added y c => if y = x ∧ c.isRunningCall = false then some c else none
    | _ => none

/-- The calls of a session that were executed, but for running calls. -/
def executedCalls (x : Nat) (log : List ScoopEvent) : List ScoopCall :=
  log.filterMap fun e => match e with
    | .executed y c => if y = x ∧ c.isRunningCall = false then some c else none
    | _ => none

/-- The call of a session that is being executed. -/
def callOf (x : Nat) : ScoopPhase R → List ScoopCall
  | .call y c => if y = x then [c] else []
  | _ => []

/-- There is something to execute. -/
def isFeatureCall (c : ScoopCall) : Bool := !c.isRunningCall

section

variable {isPassive : R → Bool} {s t : Scoop R} {a b : ScoopAgent R} {x y : Nat} {c d e : ScoopCall}
  {action : ScoopAction R} {es : List ScoopEvent} {p q : ScoopPhase R}

theorem addedCalls_append (log es : List ScoopEvent) :
    addedCalls x (log ++ es) = addedCalls x log ++ addedCalls x es :=
  filterMap_append

theorem executedCalls_append (log es : List ScoopEvent) :
    executedCalls x (log ++ es) = executedCalls x log ++ executedCalls x es :=
  filterMap_append

theorem addedCalls_added (x : Nat) (c : ScoopCall) :
    addedCalls x [.added x c] = [c].filter isFeatureCall := by
  cases hc : c.isRunningCall <;> simp [addedCalls, isFeatureCall, hc]

theorem executedCalls_executed (x : Nat) (c : ScoopCall) :
    executedCalls x [.executed x c] = [c].filter isFeatureCall := by
  cases hc : c.isRunningCall <;> simp [executedCalls, isFeatureCall, hc]

theorem mem_addedCalls (h : c ∈ addedCalls x es) : .added x c ∈ es := by
  obtain ⟨e, he, hc⟩ := mem_filterMap.mp h
  cases e with
  | added y d =>
      have hif : (if y = x ∧ d.isRunningCall = false then some d else none) = some c := hc
      split at hif
      case isTrue heq =>
          obtain rfl := some.inj hif
          exact heq.1 ▸ he
      case isFalse => exact nomatch hif
  | _ => exact nomatch hc

theorem mem_executedCalls (h : c ∈ executedCalls x es) : .executed x c ∈ es := by
  obtain ⟨e, he, hc⟩ := mem_filterMap.mp h
  cases e with
  | executed y d =>
      have hif : (if y = x ∧ d.isRunningCall = false then some d else none) = some c := hc
      split at hif
      case isTrue heq =>
          obtain rfl := some.inj hif
          exact heq.1 ▸ he
      case isFalse => exact nomatch hif
  | _ => exact nomatch hc

theorem addedCalls_eq_nil (h : ∀ c, .added x c ∉ es) : addedCalls x es = [] :=
  eq_nil_iff_forall_not_mem.mpr fun c hc => h c (mem_addedCalls hc)

theorem executedCalls_eq_nil (h : ∀ c, .executed x c ∉ es) : executedCalls x es = [] :=
  eq_nil_iff_forall_not_mem.mpr fun c hc => h c (mem_executedCalls hc)

omit [DecidableEq R] in
theorem callOf_eq_nil (h : ∀ c, p ≠ .call x c) : callOf x p = [] := by
  cases p with
  | call y c =>
      have hyx : y ≠ x := by
        rintro rfl
        exact h c rfl
      exact if_neg hyx
  | _ => rfl

omit [DecidableEq R] in
theorem callOf_call (x : Nat) (c : ScoopCall) : callOf x (.call x c : ScoopPhase R) = [c] :=
  if_pos rfl

omit [DecidableEq R] in
theorem callOf_congr (h : ∀ c, p = .call x c ↔ q = .call x c) : callOf x p = callOf x q := by
  by_cases hp : ∃ c, p = .call x c
  · obtain ⟨c, rfl⟩ := hp
    rw [(h c).mp rfl]
  · rw [callOf_eq_nil fun c hc => hp ⟨c, hc⟩, callOf_eq_nil fun c hc => hp ⟨c, (h c).mpr hc⟩]

/-- A call is executed in a step of its own. -/
theorem executed_new (h : step isPassive s action = some t) (hmem : .executed x c ∈ t.log) :
    .executed x c ∈ s.log ∨ t.log = s.log ++ [.executed x c] ∧ ∃ a, s.phase a = .call x c := by
  cases call_cases h x with
  | kept hcalls es hlog hnone hcall =>
      rw [hlog] at hmem
      exact Or.inl ((mem_append.mp hmem).resolve_right (not_concerns hnone).2)
  | added hlocked hid hcreated hcalls hlog hcall =>
      rw [hlog] at hmem
      refine Or.inl ((mem_append.mp hmem).resolve_right fun he => ?_)
      exact nomatch mem_singleton.mp he
  | popped ha hfirst hcalls hlog hphase => exact Or.inl (hlog ▸ hmem)
  | @performed a d ha hcalls hlog hphase =>
      rw [hlog] at hmem
      rcases mem_append.mp hmem with hmem | hmem
      · exact Or.inl hmem
      · have heq := mem_singleton.mp hmem
        injection heq with _ hcd
        subst hcd
        exact Or.inr ⟨hlog, a, ha⟩

/-- The calls of a session with an active region: those executed, the one being
executed, and those in the queue are the added ones, in their order. -/
def InOrder (s : Scoop R) (x : Nat) : Prop :=
  ∃ cs, (s.calls x).Holds cs ∧ addedCalls x s.log = executedCalls x s.log ++
    (callOf x (s.phase (.processor (s.callee x))) ++ cs).filter isFeatureCall

structure CallOrder (isPassive : R → Bool) (s : Scoop R) : Prop where
  inOrder : ∀ {x : Nat}, isPassive (s.callee x) = false → s.InOrder x
  nodup : ∀ x, (addedCalls x s.log).Nodup
  executed : ∀ {x : Nat} {c : ScoopCall}, .executed x c ∈ s.log → s.isSubmitted x = true ∧
    (isPassive (s.callee x) = false → s.isRunning x = true)
  passed : ∀ {x y : Nat} {c d : ScoopCall}, [.executed x c, .executed y d].Sublist s.log →
    y ≠ x → s.callee y = s.callee x → isPassive (s.callee x) = false → s.isFreed x = true
  contiguous : ∀ {x y : Nat} {c d e : ScoopCall}, y ≠ x → s.callee y = s.callee x →
    isPassive (s.callee x) = false →
    ¬[.executed x c, .executed y d, .executed x e].Sublist s.log
  removed : ∀ {x : Nat} {front back : List ScoopEvent}, isPassive (s.callee x) = false →
    s.log = front ++ .removed x :: back → executedCalls x front = addedCalls x s.log

theorem InOrder.step (h : s.InOrder x) (hc : s.CallsSound) (ha : s.ActiveSound isPassive)
    (hstep : step isPassive s action = some t) (hx : x < s.created)
    (hactive : isPassive (s.callee x) = false) : t.InOrder x := by
  have hs := ha.reserved.sound
  have hcallee : t.callee x = s.callee x := ((session_cases hs hstep).later hs).callee hx
  obtain ⟨cs, hholds, horder⟩ := h
  rw [InOrder, hcallee]
  cases call_cases hstep x with
  | kept hcalls es hlog hnone hcall =>
      rcases hcalls with hcalls | ⟨hnew, -⟩
      · refine ⟨cs, hcalls ▸ hholds, ?_⟩
        rw [hlog, addedCalls_append, executedCalls_append,
          addedCalls_eq_nil fun c => (not_concerns hnone).1,
          executedCalls_eq_nil fun c => (not_concerns hnone).2, append_nil, append_nil,
          callOf_congr (hcall _)]
        exact horder
      · exact absurd hnew (Nat.ne_of_lt hx)
  | @added c hlocked hid hcreated hcalls hlog hcall =>
      have hfresh : c ∉ cs := by
        intro hmem
        obtain ⟨ds, hheld⟩ := hc.held x
        obtain rfl := hholds.unique hheld.holds
        exact absurd (hc.added (hheld.added c hmem)).2 (by omega)
      have hexecuted : executedCalls x [.added x c] = [] :=
        executedCalls_eq_nil fun d hd => nomatch mem_singleton.mp hd
      have hadded : addedCalls x t.log = executedCalls x t.log ++
          (callOf x (t.phase (.processor (s.callee x))) ++ cs).filter isFeatureCall ++
            [c].filter isFeatureCall := by
        rw [hlog, addedCalls_append, executedCalls_append, hexecuted, addedCalls_added,
          append_nil, callOf_congr (hcall _), ← horder]
      rcases hcalls with hcalls | ⟨hcalls, hrunning⟩
      · refine ⟨_, hcalls ▸ hholds.add hfresh, ?_⟩
        rw [hadded]
        simp only [filter_append, append_assoc]
      · refine ⟨_, hcalls ▸ hholds.push hfresh, ?_⟩
        have hnone : [c].filter isFeatureCall = [] := by simp [isFeatureCall, hrunning]
        have hskip : (c :: cs).filter isFeatureCall = cs.filter isFeatureCall :=
          filter_cons_of_neg (by simp [isFeatureCall, hrunning])
        rw [hadded, hnone, append_nil, filter_append, filter_append, hskip]
  | @popped a c hphase hfirst hcalls hlog hgoto =>
      obtain ⟨ds, rfl⟩ := hholds.exists_of_first hfirst
      have hprocessor := hs.eq_processor (congrArg session hphase) hactive
      refine ⟨ds, hcalls ▸ hholds.pop, ?_⟩
      have hnil : callOf x (.execute x : ScoopPhase R) = [] := rfl
      rw [hlog, horder, ← hprocessor, hphase, hgoto, Function.update_self, callOf_call, hnil]
      rfl
  | @performed a c hphase hcalls hlog hgoto =>
      have hprocessor := hs.eq_processor (congrArg session hphase) hactive
      have hadded : addedCalls x [.executed x c] = [] :=
        addedCalls_eq_nil fun d hd => nomatch mem_singleton.mp hd
      refine ⟨cs, hcalls ▸ hholds, ?_⟩
      have hnil : callOf x (.execute x : ScoopPhase R) = [] := rfl
      rw [hlog, addedCalls_append, executedCalls_append, hadded, executedCalls_executed,
        append_nil, horder, ← hprocessor, hphase, hgoto, Function.update_self, callOf_call,
        hnil, filter_append, append_assoc, nil_append]

/-- A step that executes a call does nothing else to the log. -/
theorem log_executed (h : step isPassive s action = some t) :
    ∃ es, t.log = s.log ++ es ∧ ((∀ z f, .executed z f ∉ es) ∨
      ∃ z f a, es = [.executed z f] ∧ s.phase a = .call z f) := by
  obtain ⟨es, hlog, hcaused, hsingle⟩ := log_cases h
  refine ⟨es, hlog, ?_⟩
  by_cases hexecuted : ∃ z f, .executed z f ∈ es
  · obtain ⟨z, f, hmem⟩ := hexecuted
    have hes : es = [.executed z f] := by
      refine (hsingle _ hmem).resolve_right ?_
      rintro ⟨w, hw | hw⟩ <;> exact nomatch hw
    cases hcaused _ hmem with
    | @executed a _ _ ha => exact Or.inr ⟨z, f, a, hes, ha⟩
  · exact Or.inl fun z f hmem => hexecuted ⟨z, f, hmem⟩

/-- A step that removes a session does nothing else to the log. -/
theorem log_removed (h : step isPassive s action = some t) :
    ∃ es, t.log = s.log ++ es ∧ ((∀ z, .removed z ∉ es) ∨
      ∃ z a, es = [.removed z] ∧ s.phase a = .remove z) := by
  obtain ⟨es, hlog, hcaused, hsingle⟩ := log_cases h
  refine ⟨es, hlog, ?_⟩
  by_cases hremoved : ∃ z, .removed z ∈ es
  · obtain ⟨z, hmem⟩ := hremoved
    have hes : es = [.removed z] := by
      refine (hsingle _ hmem).resolve_right ?_
      rintro ⟨w, hw | hw⟩ <;> exact nomatch hw
    cases hcaused _ hmem with
    | @removed a _ ha => exact Or.inr ⟨z, a, hes, ha⟩
  · exact Or.inl fun z hmem => hremoved ⟨z, hmem⟩

theorem CallOrder.inOrder_step (h : s.CallOrder isPassive) (hc : s.CallsSound)
    (ha : s.ActiveSound isPassive) (hstep : step isPassive s action = some t)
    (hactive : isPassive (t.callee x) = false) : t.InOrder x := by
  have hs := ha.reserved.sound
  have hlater := (session_cases hs hstep).later hs
  by_cases hold : x < s.created
  · rw [hlater.callee hold] at hactive
    exact (h.inOrder hactive).step hc ha hstep hold hactive
  · -- Nothing was done for a session that is new.
    have hnosession : ∀ a, session (s.phase a) ≠ some x :=
      fun a ha => hold (hs.created_of_session ha).2
    have hadded : ∀ c, .added x c ∉ s.log := fun c hmem => hold (hc.added hmem).1
    have hexecuted : ∀ c, .executed x c ∉ s.log :=
      fun c hmem => hold (hs.typed.created (h.executed hmem).1)
    obtain ⟨cs, hheld⟩ := hc.held_step hstep x
    cases call_cases hstep x with
    | kept hcalls es hlog hnone hcall =>
        have hadded' : ∀ c, .added x c ∉ t.log := by
          intro c hmem
          rw [hlog] at hmem
          exact (mem_append.mp hmem).elim (hadded c) (not_concerns hnone).1
        have hexecuted' : ∀ c, .executed x c ∉ t.log := by
          intro c hmem
          rw [hlog] at hmem
          exact (mem_append.mp hmem).elim (hexecuted c) (not_concerns hnone).2
        have hcs : cs = [] :=
          eq_nil_iff_forall_not_mem.mpr fun c hmem => hadded' c (hheld.added c hmem)
        have hcall' : ∀ c, t.phase (.processor (t.callee x)) ≠ .call x c :=
          fun c heq => hnosession _ (congrArg session ((hcall _ c).mp heq))
        refine ⟨cs, hheld.holds, ?_⟩
        rw [addedCalls_eq_nil hadded', executedCalls_eq_nil hexecuted', callOf_eq_nil hcall', hcs]
        rfl
    | added hlocked => exact absurd (hs.lockedCreated hlocked) hold
    | popped ha => exact absurd (congrArg session ha) (hnosession _)
    | performed ha => exact absurd (congrArg session ha) (hnosession _)

theorem CallOrder.nodup_step (h : s.CallOrder isPassive) (hc : s.CallsSound)
    (hstep : step isPassive s action = some t) (x : Nat) : (addedCalls x t.log).Nodup := by
  have hother : ∀ {es : List ScoopEvent}, t.log = s.log ++ es → (∀ c, .added x c ∉ es) →
      (addedCalls x t.log).Nodup := by
    intro es hlog hnone
    rw [hlog, addedCalls_append, addedCalls_eq_nil hnone, append_nil]
    exact h.nodup x
  cases call_cases hstep x with
  | kept hcalls es hlog hnone hcall => exact hother hlog fun _ => (not_concerns hnone).1
  | @added c hlocked hid hcreated hcalls hlog hcall =>
      rw [hlog, addedCalls_append, addedCalls_added]
      refine (h.nodup x).append ((nodup_singleton c).filter _) fun d hd hdc => ?_
      obtain rfl := mem_singleton.mp (mem_of_mem_filter hdc)
      exact absurd (hc.added (mem_addedCalls hd)).2 (by omega)
  | popped ha hfirst hcalls hlog hphase =>
      exact hother (hlog.trans (append_nil _).symm) fun c hmem => absurd hmem not_mem_nil
  | performed ha hcalls hlog hphase =>
      exact hother hlog fun c hmem => nomatch mem_singleton.mp hmem

section

variable (h : s.CallOrder isPassive) (ha : s.ActiveSound isPassive)

include h ha

theorem CallOrder.executed_step
    (hstep : step isPassive s action = some t) (hmem : .executed x c ∈ t.log) :
    t.isSubmitted x = true ∧ (isPassive (t.callee x) = false → t.isRunning x = true) := by
  have hs := ha.reserved.sound
  have hlater := (session_cases hs hstep).later hs
  suffices hbefore : s.isSubmitted x = true ∧
      (isPassive (s.callee x) = false → s.isRunning x = true) by
    refine ⟨hlater.submitted hbefore.1, fun hactive => hlater.running (hbefore.2 ?_)⟩
    exact hlater.callee (hs.typed.created hbefore.1) ▸ hactive
  rcases executed_new hstep hmem with hold | ⟨-, a, hphase⟩
  · exact h.executed hold
  · refine ⟨(hs.created_of_session (congrArg session hphase)).1, fun hactive => ?_⟩
    exact (ha.runs (congrArg runningSession hphase) hactive).1

/-- When a call is executed, the sessions that were executed before were removed. -/
theorem CallOrder.freed_of_call
    (hmem : .executed x c ∈ s.log) (hphase : s.phase a = .call y d) (hne : y ≠ x)
    (hcallee : s.callee y = s.callee x) (hactive : isPassive (s.callee x) = false) :
    s.isFreed x = true := by
  by_contra hfreed
  rw [Bool.not_eq_true] at hfreed
  obtain ⟨hsubmitted, hrunning⟩ := h.executed hmem
  have hfirst := ha.reserved.first_of_running hactive hsubmitted hfreed (hrunning hactive)
  have hysubmitted := (ha.reserved.sound.created_of_session (congrArg session hphase)).1
  have hyactive : isPassive (s.callee y) = false := hcallee ▸ hactive
  obtain ⟨hyrunning, hyfreed⟩ := ha.runs (congrArg runningSession hphase) hyactive
  have hyfirst := ha.reserved.first_of_running hyactive hysubmitted hyfreed hyrunning
  rw [hcallee, hfirst] at hyfirst
  exact hne (some.inj hyfirst).symm

theorem CallOrder.passed_step (hstep : step isPassive s action = some t)
    (hexecuted : [.executed x c, .executed y d].Sublist t.log) (hne : y ≠ x)
    (hcallee : t.callee y = t.callee x) (hactive : isPassive (t.callee x) = false) :
    t.isFreed x = true := by
  have hs := ha.reserved.sound
  have hlater := (session_cases hs hstep).later hs
  have hold : [.executed x c, .executed y d].Sublist s.log → t.isFreed x = true := by
    intro hexecuted
    have hx := (h.executed (hexecuted.subset mem_cons_self)).1
    have hy := (h.executed (hexecuted.subset (mem_cons_of_mem _ mem_cons_self))).1
    rw [hlater.callee (hs.typed.created hx), hlater.callee (hs.typed.created hy)] at hcallee
    rw [hlater.callee (hs.typed.created hx)] at hactive
    exact hlater.freed hx (h.passed hexecuted hne hcallee hactive)
  obtain ⟨es, hlog, hnone | ⟨z, f, a, rfl, hphase⟩⟩ := log_executed hstep
  · rw [hlog] at hexecuted
    refine hold (sublist_of_append hexecuted fun e he => ?_)
    rcases mem_cons.mp he with rfl | he
    · exact hnone x c
    · exact mem_singleton.mp he ▸ hnone y d
  · rw [hlog] at hexecuted
    rcases sublist_concat hexecuted with hexecuted | ⟨front, hlast, hfront⟩
    · exact hold hexecuted
    · obtain ⟨rfl, hyz⟩ := append_inj'
          (show [ScoopEvent.executed x c] ++ [.executed y d] = _ from hlast) rfl
      injection head_eq_of_cons_eq hyz with hyz hdf
      subst hyz hdf
      have hmem := hfront.subset mem_cons_self
      have hx := (h.executed hmem).1
      have hy := (hs.created_of_session (congrArg session hphase)).2
      rw [hlater.callee (hs.typed.created hx), hlater.callee hy] at hcallee
      rw [hlater.callee (hs.typed.created hx)] at hactive
      exact hlater.freed hx (h.freed_of_call ha hmem hphase hne hcallee hactive)

theorem CallOrder.contiguous_step (hstep : step isPassive s action = some t) (hne : y ≠ x)
    (hcallee : t.callee y = t.callee x) (hactive : isPassive (t.callee x) = false) :
    ¬[.executed x c, .executed y d, .executed x e].Sublist t.log := by
  intro hexecuted
  have hs := ha.reserved.sound
  have hlater := (session_cases hs hstep).later hs
  -- The first two calls were executed before.
  have hcontradiction : [.executed x c, .executed y d].Sublist s.log →
      ([.executed x c, .executed y d, .executed x e].Sublist s.log ∨
        s.isFreed x = false) → False := by
    intro htwo hthree
    have hx := (h.executed (htwo.subset mem_cons_self)).1
    have hy := (h.executed (htwo.subset (mem_cons_of_mem _ mem_cons_self))).1
    rw [hlater.callee (hs.typed.created hx), hlater.callee (hs.typed.created hy)] at hcallee
    rw [hlater.callee (hs.typed.created hx)] at hactive
    rcases hthree with hthree | hfreed
    · exact h.contiguous hne hcallee hactive hthree
    · exact absurd (hfreed.symm.trans (h.passed htwo hne hcallee hactive)) (by simp)
  have htwo : [ScoopEvent.executed x c, .executed y d].Sublist
      [.executed x c, .executed y d, .executed x e] :=
    ((nil_sublist _).cons_cons _).cons_cons _
  obtain ⟨es, hlog, hnone | ⟨z, f, a, rfl, hphase⟩⟩ := log_executed hstep
  · rw [hlog] at hexecuted
    have hold := sublist_of_append hexecuted fun e he => by
      rcases mem_cons.mp he with rfl | he
      · exact hnone x c
      rcases mem_cons.mp he with rfl | he
      · exact hnone y d
      · exact mem_singleton.mp he ▸ hnone x _
    exact hcontradiction (htwo.trans hold) (Or.inl hold)
  · rw [hlog] at hexecuted
    rcases sublist_concat hexecuted with hold | ⟨front, hlast, hfront⟩
    · exact hcontradiction (htwo.trans hold) (Or.inl hold)
    · have hlast' : [ScoopEvent.executed x c, .executed y d] ++ [.executed x e] =
          front ++ [.executed z f] := hlast
      obtain ⟨rfl, hxz⟩ := append_inj' hlast' rfl
      injection head_eq_of_cons_eq hxz with hxz hef
      subst hxz hef
      have hx := (hs.created_of_session (congrArg session hphase)).2
      refine hcontradiction hfront (Or.inr (ha.runs (congrArg runningSession hphase) ?_).2)
      rw [← hlater.callee hx]
      exact hactive

/-- All calls of a session that is about to be removed are executed. -/
theorem CallOrder.executed_of_remove
    (hempty : s.Exhausted isPassive) (hphase : s.phase a = .remove x)
    (hactive : isPassive (s.callee x) = false) : addedCalls x s.log = executedCalls x s.log := by
  obtain ⟨cs, hholds, horder⟩ := h.inOrder hactive
  have hcs : cs = [] := hholds.eq_nil_iff.mp (hempty hphase hactive)
  have hprocessor := ha.reserved.sound.eq_processor (congrArg session hphase) hactive
  rw [horder, ← hprocessor, hphase, hcs]
  exact append_nil _

end

theorem CallOrder.removed_step (h : s.CallOrder isPassive) (hclosing : s.Closing)
    (ha : s.ActiveSound isPassive) (hempty : s.Exhausted isPassive)
    (hstep : step isPassive s action = some t)
    {front back : List ScoopEvent} (hactive : isPassive (t.callee x) = false)
    (hremoved : t.log = front ++ .removed x :: back) :
    executedCalls x front = addedCalls x t.log := by
  have hs := ha.reserved.sound
  have hlater := (session_cases hs hstep).later hs
  obtain ⟨es, hlog, hcaused, -⟩ := log_cases hstep
  have hadded : .removed x ∈ s.log → addedCalls x es = [] := by
    intro hmem
    refine addedCalls_eq_nil fun c hc => ?_
    cases hcaused _ hc with
    | added hlocked => exact absurd (hlocked.symm.trans (hclosing.removed hmem).2) (by simp)
  rcases append_cons_cases (hlog.symm.trans hremoved) with ⟨rest, hold⟩ | ⟨rest, hfront, hes⟩
  · have hmem : .removed x ∈ s.log := hold ▸ mem_append_right front mem_cons_self
    rw [hlog, addedCalls_append, hadded hmem, append_nil]
    exact h.removed (hlater.callee (hclosing.removed hmem).1 ▸ hactive) hold
  · have hnew : .removed x ∈ es := hes ▸ mem_append_right rest mem_cons_self
    obtain ⟨es', hlog', hnone | ⟨z, a, hes', hphase⟩⟩ := log_removed hstep
    · obtain rfl := append_cancel_left (hlog'.symm.trans hlog)
      exact absurd hnew (hnone x)
    · obtain rfl := append_cancel_left (hlog'.symm.trans hlog)
      -- The session is removed in this step.
      obtain ⟨rfl, hxz⟩ : rest = [] ∧ ScoopEvent.removed x :: back = [.removed z] := by
        cases rest with
        | nil => exact ⟨rfl, hes.symm.trans hes'⟩
        | cons _ rest => exact absurd (hes.symm.trans hes') (by simp)
      obtain rfl := ScoopEvent.removed.inj (head_eq_of_cons_eq hxz)
      have hx := (hs.created_of_session (congrArg session hphase)).2
      rw [hfront, hlog, hes', append_nil, addedCalls_append,
        h.executed_of_remove ha hempty hphase (hlater.callee hx ▸ hactive)]
      exact (append_nil _).symm

theorem CallOrder.step (h : s.CallOrder isPassive) (hc : s.CallsSound) (hclosing : s.Closing)
    (ha : s.ActiveSound isPassive) (hempty : s.Exhausted isPassive)
    (hstep : step isPassive s action = some t) : t.CallOrder isPassive where
  inOrder := h.inOrder_step hc ha hstep
  nodup := h.nodup_step hc hstep
  executed := h.executed_step ha hstep
  passed := h.passed_step ha hstep
  contiguous := h.contiguous_step ha hstep
  removed := h.removed_step hclosing ha hempty hstep

omit [DecidableEq R] in
theorem callOrder_init (isPassive : R → Bool) (r : R) : (init r).CallOrder isPassive where
  inOrder := fun _ => ⟨[], CallQueue.Holds.empty, rfl⟩
  nodup := fun _ => nodup_nil
  executed := fun hmem => absurd hmem not_mem_nil
  passed := fun h => nomatch sublist_nil.mp h
  contiguous := fun _ _ _ h => nomatch sublist_nil.mp h
  removed := fun _ h => by simp [init] at h

/-- What is true of sessions with active regions in any run. -/
structure Orderly (isPassive : R → Bool) (s : Scoop R) : Prop where
  active : s.ActiveSound isPassive
  exhausted : s.Exhausted isPassive
  closing : s.Closing
  callsSound : s.CallsSound
  order : s.CallOrder isPassive

theorem Orderly.step (h : s.Orderly isPassive) (hok : s.OpensFit action)
    (hstep : step isPassive s action = some t) : t.Orderly isPassive where
  active := h.active.step hstep
  exhausted := h.exhausted.step h.active.reserved.sound h.closing hstep
  closing := h.closing.step h.active.reserved.sound hok hstep
  callsSound := h.callsSound.step h.active.reserved.sound hstep
  order := h.order.step h.callsSound h.closing h.active h.exhausted hstep

theorem orderly_init (isPassive : R → Bool) (r : R) : (init r).Orderly isPassive :=
  ⟨activeSound_init isPassive r, nofun, closing_init r, callsSound_init r,
    callOrder_init isPassive r⟩

theorem orderly_run {r : R} {cs : List (ScoopAction R)}
    (hcs : Permitted (Scoop.step isPassive) OpensFit (init r) cs)
    (h : runAll (Scoop.step isPassive) (init r) cs = some t) : t.Orderly isPassive :=
  run_preserves (fun s => s.Orderly isPassive) (fun _ _ _ hs hok hstep => hs.step hok hstep)
    (orderly_init isPassive r) hcs h

end

/-- As long as no open count wraps, the calls of a session with an active region are
executed once, in the order in which they were added, with no call of another session
between them; and when the session is removed then all of its calls were executed. -/
theorem calls_executed_in_order (isPassive : R → Bool) (r : R) {cs : List (ScoopAction R)}
    {t : Scoop R} (hcs : Permitted (step isPassive) OpensFit (init r) cs)
    (h : runAll (step isPassive) (init r) cs = some t) {x : Nat}
    (hactive : isPassive (t.callee x) = false) :
    (addedCalls x t.log).Nodup ∧ executedCalls x t.log <+: addedCalls x t.log ∧
      (∀ y c d e, y ≠ x → t.callee y = t.callee x →
        ¬[.executed x c, .executed y d, .executed x e].Sublist t.log) ∧
      ∀ front back, t.log = front ++ .removed x :: back →
        executedCalls x front = addedCalls x t.log := by
  have ht := orderly_run hcs h
  refine ⟨ht.order.nodup x, ?_, fun y c d e hne hcallee => ht.order.contiguous hne hcallee hactive,
    fun front back => ht.order.removed hactive⟩
  obtain ⟨cs, -, horder⟩ := ht.order.inOrder hactive
  exact ⟨_, horder.symm⟩

theorem calls_executed_in_order_multisession :
    Permitted (step fun _ => false) OpensFit (init 1) multisessionRun ∧
      ∃ t, runAll (step fun _ => false) (init 1) multisessionRun = some t ∧
        executedCalls 0 t.log <+: addedCalls 0 t.log ∧
        executedCalls 0 t.log = [⟨0, false⟩, ⟨2, false⟩] := by
  -- Session 0 is opened again.
  have hagain : ∀ {s : Scoop Nat} {action : ScoopAction Nat},
      (∀ x, s.Increments action x → x = 0) → s.isOpen 0 + 1 < 2 ^ 32 → s.OpensFit action :=
    fun hx hopen x h => hx x h ▸ hopen
  have hcs : Permitted (step fun _ => false) OpensFit (init 1) multisessionRun :=
    ⟨nofun, nofun, nofun, nofun,
      hagain (fun _ h => (some.inj h).symm) (show 1 + 1 < 2 ^ 32 by decide),
      nofun, nofun, nofun, nofun, nofun, nofun, nofun, nofun, nofun, nofun, nofun, nofun, nofun,
      nofun, nofun, nofun, nofun, nofun, nofun, nofun, nofun, nofun, nofun, nofun, nofun, trivial⟩
  obtain ⟨t, ht⟩ : ∃ t, runAll (step fun _ => false) (init 1) multisessionRun = some t := ⟨_, rfl⟩
  refine ⟨hcs, t, ht, (calls_executed_in_order (fun _ => false) 1 hcs ht ?_).2.1, ?_⟩
  · obtain rfl := some.inj ht
    rfl
  · obtain rfl := some.inj ht
    rfl

/-- A caller opens its session again and again. -/
theorem runAll_sessionOpen {isPassive : R → Bool} {s : Scoop R} {k r : R} {x : Nat}
    (hidle : s.phase (.caller k) = .idle) (hne : r ≠ k) (hlocked : s.lockedSession k r = some x)
    (hx : s.isOpen x < 2 ^ 32) (n : Nat) :
    runAll (step isPassive) s (replicate n (.sessionOpen k r none)) =
      some (s.setOpen x ((s.isOpen x + n) % 2 ^ 32)) := by
  induction n generalizing s with
  | zero =>
      rw [Nat.add_zero, Nat.mod_eq_of_lt hx, setOpen, Function.update_eq_self]
      rfl
  | succ n ih =>
      have hstep : step isPassive s (.sessionOpen k r none) =
          some (s.setOpen x (ScoopLocks.increment (s.isOpen x))) := by
        rw [step, asClient, if_pos hidle, sessionOpen, if_neg hne, hlocked]
      have hopen : (s.setOpen x (ScoopLocks.increment (s.isOpen x))).isOpen x =
          (s.isOpen x + 1) % 2 ^ 32 := Function.update_self _ _ _
      have hrest := ih (s := s.setOpen x (ScoopLocks.increment (s.isOpen x))) hidle hlocked
        (hopen ▸ Nat.mod_lt _ (by decide))
      rw [replicate_succ, runAll, hstep, bind_some, hrest, hopen, setOpen, setOpen,
        Function.update_idem, Nat.mod_add_mod, Nat.add_assoc, Nat.add_comm 1 n]
      rfl

/-- A caller opens its session with region 0 another 2 ^ 32 - 1 times before its call is
executed, and adds a call after it. -/
def wrappingRun : List (ScoopAction Nat) :=
  [.sessionOpen 1 0 none, .sessionAddCall 0, .proceed (.caller 1), .proceed (.caller 1)] ++
    (replicate (2 ^ 32 - 1) (.sessionOpen 1 0 none) ++
      [.start (.processor 0) 0, .proceed (.processor 0), .proceed (.processor 0),
        .proceed (.processor 0), .proceed (.processor 0), .proceed (.processor 0),
        .proceed (.processor 0), .sessionAddCall 0])

/-- The session is removed, although it was not closed, and the second call is lost. -/
theorem not_calls_executed : ∃ t, runAll (step fun _ => false) (init 1) wrappingRun = some t ∧
    t.isLocked 0 = true ∧ addedCalls 0 t.log = [⟨0, false⟩, ⟨1, false⟩] ∧
    ∃ front back, t.log = front ++ .removed 0 :: back ∧ executedCalls 0 front = [⟨0, false⟩] := by
  -- The session is submitted, opened until its count is 0, and executed.
  obtain ⟨s, hs⟩ : ∃ s, runAll (step fun _ => false) (init 1)
      [.sessionOpen 1 0 none, .sessionAddCall 0, .proceed (.caller 1),
        .proceed (.caller 1)] = some s := ⟨_, rfl⟩
  have hopened : runAll (step fun _ => false) s
      (replicate (2 ^ 32 - 1) (.sessionOpen 1 0 none)) = some (s.setOpen 0 0) := by
    obtain rfl := some.inj hs
    exact runAll_sessionOpen rfl Nat.zero_ne_one rfl (show 1 < 2 ^ 32 by decide) _
  rw [wrappingRun, runAll_append, hs, bind_some, runAll_append, hopened, bind_some]
  obtain rfl := some.inj hs
  exact ⟨_, rfl, rfl, rfl,
    [.added 0 ⟨0, false⟩, .counted 0, .submitted 0, .executed 0 ⟨0, false⟩], _, rfl, rfl⟩

end Scoop

end Gobo
