/-
Resuming a parser that its actions suspended: when a run in several calls is the
run in one call without suspension.
-/
import Gobo.ParserSkeleton

namespace Gobo

open Option

variable {σ : Type}

namespace ParserState

/-- What an action does but for its calls of `suspend`. -/
theorem exists_perform_filter (calls : List (ActionCall σ)) (p : ParserState σ)
    (x : ParsingStatus) (hx : p.status = .suspended ∨ p.status = x) :
    ∃ y, { p with status := x }.perform (calls.filter fun c => !c.isSuspend) =
        { p.perform calls with status := y } ∧
      ((p.perform calls).status = .suspended ∨ (p.perform calls).status = y) := by
  induction calls generalizing p x with
  | nil => exact ⟨x, rfl, hx⟩
  | cons c calls ih =>
      cases c with
      | update f => exact ih { p with toParserCore := f p.toParserCore } x hx
      | clearToken => exact ih p.clearToken x hx
      | recover => exact ih p.recover .continue (Or.inr rfl)
      | raiseError => exact ih p.raiseError .errorRaised (Or.inr rfl)
      | accept => exact ih p.accept .accepted (Or.inr rfl)
      | abort => exact ih p.abort .aborted (Or.inr rfl)
      | suspend => exact ih p.suspend x (Or.inl rfl)

/-- An action that does not end with the parser suspended is not changed. -/
theorem perform_filter_of_ne {calls : List (ActionCall σ)} {p : ParserState σ}
    (h : (p.perform calls).status ≠ .suspended) :
    p.perform (calls.filter fun c => !c.isSuspend) = p.perform calls := by
  obtain ⟨y, heq, hy⟩ := exists_perform_filter calls p p.status (Or.inr rfl)
  rw [heq, ← hy.resolve_left h]

theorem perform_filter_core (calls : List (ActionCall σ)) (p : ParserState σ) :
    (p.perform (calls.filter fun c => !c.isSuspend)).toParserCore =
      (p.perform calls).toParserCore := by
  obtain ⟨y, heq, -⟩ := exists_perform_filter calls p p.status (Or.inr rfl)
  rw [heq]

end ParserState

namespace ParserClient

variable (C : ParserClient σ) (T : ParserTables)

/-- What a run shows: the locals, and the attributes that are not only there to
remember them. -/
def visible (m : ParseLocals × Parser σ) : ParseLocals × ParserState σ :=
  (m.1, m.2.toParserState)

/-- At most `n` turns of the loop. -/
def turns : Nat → ParseLocals × Parser σ → Option (ParseLocals × Parser σ)
  | 0, m => some m
  | n + 1, m =>
      if m.2.status = .continue then (C.turn T m).bind (turns n) else some m

/-- A turn, and the start of the next call if parsing was suspended. -/
def resumedTurn (m : ParseLocals × Parser σ) : Option (ParseLocals × Parser σ) :=
  (C.turn T m).bind fun m =>
    if m.2.status = .suspended then resume T m.2 else some m

/-- At most `n` turns of the loops of all calls. -/
def resumedTurns : Nat → ParseLocals × Parser σ → Option (ParseLocals × Parser σ)
  | 0, m => some m
  | n + 1, m =>
      if m.2.status = .continue then (C.resumedTurn T m).bind (resumedTurns n)
      else some m

/-- A semantic action may suspend where it would have let the parser continue;
an error action called where an error is detected may not. -/
structure Resumable (m : ParseLocals × ParserState σ) : Prop where
  reduce : m.1.yyGoto = .reduce →
    (m.2.perform (C.yyDoAction m.1.yyn m.2.toParserCore)).status = .suspended →
    (m.2.perform (C.quiet.yyDoAction m.1.yyn m.2.toParserCore)).status = .continue
  errlab : m.1.yyGoto = .errlab → m.2.yyerrstatus = 0 →
    (C.reportError m.1 m.2).status ≠ .suspended

section

variable {C T} {l : ParseLocals} {p : ParserState σ}

theorem reportError_quiet_core :
    (C.quiet.reportError l p).toParserCore = (C.reportError l p).toParserCore :=
  ParserState.perform_filter_core _ _

theorem abort_reportError_quiet :
    (C.quiet.reportError l p).abort = (C.reportError l p).abort := by
  rw [ParserState.abort, ParserState.abort, reportError_quiet_core]

theorem translate_quiet : C.quiet.translate T l p = C.translate T l p := by
  rw [translate, translate, abort_reportError_quiet]

theorem newstate_quiet : C.quiet.newstate T l p = C.newstate T l p := by
  simp only [newstate, translate_quiet]
  rfl

theorem errlab_quiet (hp : p.yyerrstatus = 0 → (C.reportError l p).status ≠ .suspended) :
    C.quiet.errlab l p = C.errlab l p := by
  have hreport : p.yyerrstatus = 0 → C.quiet.reportError l p = C.reportError l p :=
    fun h => ParserState.perform_filter_of_ne (hp h)
  rw [errlab, errlab]
  by_cases h : p.yyerrstatus = 0
  · rw [if_pos h, if_pos h, hreport h]
  · rw [if_neg h, if_neg h]

theorem translate_status (hp : p.status ≠ .suspended) {m : ParseLocals × ParserState σ}
    (h : C.translate T l p = some m) : m.2.status ≠ .suspended := by
  unfold translate at h
  split at h
  · obtain ⟨_, -, h⟩ := bind_eq_some_iff.mp h
    cases h
    exact hp
  · split at h
    · cases h
      exact hp
    · cases h
      simp [ParserState.abort]

theorem lookUp_status {c : Int} {missing error : Goto}
    {shift : ParseLocals → ParserState σ → ParseLocals × ParserState σ}
    (hshift : ∀ l, (shift l p).2.status = p.status) (hp : p.status ≠ .suspended)
    {m : ParseLocals × ParserState σ}
    (h : lookUp T c missing error shift l p = some m) : m.2.status ≠ .suspended := by
  obtain ⟨b, -, h⟩ := bind_eq_some_iff.mp h
  split at h
  · obtain ⟨yyn, -, h⟩ := bind_eq_some_iff.mp h
    cases h
    split_ifs
    · exact hp
    · exact hp
    · exact hp
    · simp [ParserState.accept]
    · rw [hshift]
      exact hp
  · cases h
    exact hp

/-- A turn that calls no semantic action does not suspend. -/
theorem branch_status (hgoto : l.yyGoto ≠ .reduce)
    (herrlab : l.yyGoto = .errlab → p.yyerrstatus = 0 →
      (C.reportError l p).status ≠ .suspended)
    (hp : p.status ≠ .suspended) {m : ParseLocals × ParserState σ}
    (h : C.branch T l p = some m) : m.2.status ≠ .suspended := by
  unfold branch at h
  cases hg : l.yyGoto with
  | unset => simp [hg] at h
  | reduce => exact absurd hg hgoto
  | newstate =>
      rw [hg] at h
      obtain ⟨⟨l₁, p₁⟩, hpush, h⟩ := bind_eq_some_iff.mp h
      have hp₁ : p₁.status = p.status := by
        obtain ⟨yyss, -, heq⟩ := map_eq_some_iff.mp hpush
        cases heq
        rfl
      obtain ⟨yyn, -, h⟩ := bind_eq_some_iff.mp h
      split at h
      · cases h
        rw [hp₁]
        exact hp
      · obtain ⟨⟨l₂, p₂⟩, htranslate, h⟩ := bind_eq_some_iff.mp h
        refine lookUp_status (fun l => rfl) ?_ h
        refine translate_status ?_ htranslate
        rw [readLookahead]
        split
        · exact hp₁.trans_ne hp
        · exact hp₁.trans_ne hp
  | default =>
      rw [hg] at h
      obtain ⟨yyn, -, h⟩ := bind_eq_some_iff.mp h
      cases h
      exact hp
  | errlab =>
      rw [hg] at h
      cases h
      rw [errlab]
      split_ifs with h₁ h₂ h₃
      · simp [ParserState.abort]
      · exact hp
      · exact herrlab hg h₃
      · exact hp
  | errhandle =>
      rw [hg] at h
      obtain ⟨yyn, -, h⟩ := bind_eq_some_iff.mp h
      split at h
      · cases h
        exact hp
      · exact lookUp_status (fun l => rfl) hp h
  | errpop =>
      rw [hg] at h
      simp only [errpop] at h
      split at h
      · cases h
        simp [ParserState.abort]
      · obtain ⟨yystate, -, h⟩ := bind_eq_some_iff.mp h
        cases h
        exact hp

/-- Only a semantic action makes a difference. -/
theorem branch_quiet (hgoto : l.yyGoto ≠ .reduce)
    (herrlab : l.yyGoto = .errlab → p.yyerrstatus = 0 →
      (C.reportError l p).status ≠ .suspended) :
    C.quiet.branch T l p = C.branch T l p := by
  unfold branch
  cases hg : l.yyGoto with
  | reduce => exact absurd hg hgoto
  | newstate => exact newstate_quiet
  | errlab => exact congrArg some (errlab_quiet (herrlab hg))
  | _ => rfl

theorem reduce_quiet
    (hp : (p.perform (C.yyDoAction l.yyn p.toParserCore)).status ≠ .suspended) :
    C.quiet.reduce T l p = C.reduce T l p := by
  have hperform : p.perform (C.quiet.yyDoAction l.yyn p.toParserCore) =
      p.perform (C.yyDoAction l.yyn p.toParserCore) :=
    ParserState.perform_filter_of_ne hp
  rw [reduce, reduce, hperform]

theorem afterAction_status (hp : p.status ≠ .suspended) {m : ParseLocals × ParserState σ}
    (h : afterAction T l p = some m) : m.2.status ≠ .suspended := by
  unfold afterAction at h
  split at h
  · obtain ⟨l', -, rfl⟩ := map_eq_some_iff.mp h
    exact hp
  · cases h
    simp
  · cases h
    exact hp

theorem afterAction_of_continue (hp : p.status = .continue) :
    afterAction T l p = (T.gotoState l p).map fun l => (l, p) := by
  rw [afterAction, hp]

/-- The shift of the result of a suspended reduction is left out. -/
theorem afterAction_of_suspended (hp : p.status = .suspended) :
    afterAction T l p = some (l, p) := by
  rw [afterAction, hp]

theorem reduce_quiet_of_continue
    (hp : (p.perform (C.quiet.yyDoAction l.yyn p.toParserCore)).status = .continue) :
    C.quiet.reduce T l p = (T.gotoState l
        ⟨(p.perform (C.yyDoAction l.yyn p.toParserCore)).toParserCore, .continue⟩).map
      fun l' =>
        (l', ⟨(p.perform (C.yyDoAction l.yyn p.toParserCore)).toParserCore, .continue⟩) := by
  have hcore : (p.perform (C.quiet.yyDoAction l.yyn p.toParserCore)).toParserCore =
      (p.perform (C.yyDoAction l.yyn p.toParserCore)).toParserCore :=
    ParserState.perform_filter_core _ _
  have hperform : p.perform (C.quiet.yyDoAction l.yyn p.toParserCore) =
      ⟨(p.perform (C.yyDoAction l.yyn p.toParserCore)).toParserCore, .continue⟩ := by
    rw [← hcore, ← hp]
  rw [reduce, hperform]
  exact afterAction_of_continue rfl

end

section

variable {C T} {m m' : ParseLocals × Parser σ}

theorem turn_visible :
    (C.turn T m).map visible = C.branch T m.1 m.2.toParserState := by
  rw [turn]
  cases C.branch T m.1 m.2.toParserState with
  | none => rfl
  | some n => rfl

/-- A turn that does not suspend is the turn of the quiet client. -/
theorem resumedTurn_of_branch_quiet
    (hquiet : C.quiet.branch T m.1 m.2.toParserState = C.branch T m.1 m.2.toParserState)
    (hstatus : ∀ n, C.branch T m.1 m.2.toParserState = some n → n.2.status ≠ .suspended) :
    (C.resumedTurn T m).map visible = C.quiet.branch T m.1 m.2.toParserState := by
  rw [hquiet, ← turn_visible, resumedTurn]
  cases hturn : C.turn T m with
  | none => rfl
  | some n =>
      have hn : n.2.status ≠ .suspended := by
        apply hstatus (visible n)
        rw [← turn_visible, hturn]
        rfl
      rw [bind_some, if_neg hn]

/-- A resumed turn is a turn of the quiet client. -/
theorem resumedTurn_visible (hm : m.2.status = .continue)
    (hres : C.Resumable (visible m)) (hsame : visible m = visible m') :
    (C.resumedTurn T m).map visible = (C.quiet.turn T m').map visible := by
  have hbranch : C.quiet.branch T m'.1 m'.2.toParserState =
      C.quiet.branch T m.1 m.2.toParserState := by
    have hlocals : (visible m').1 = (visible m).1 := congrArg Prod.fst hsame.symm
    have hstate : (visible m').2 = (visible m).2 := congrArg Prod.snd hsame.symm
    exact congrArg₂ (C.quiet.branch T) hlocals hstate
  rw [turn_visible, hbranch]
  have hne : m.2.toParserState.status ≠ .suspended := by
    rw [hm]
    decide
  by_cases hgoto : m.1.yyGoto = .reduce
  · have hreduce : ∀ C : ParserClient σ, C.branch T m.1 m.2.toParserState =
        C.reduce T m.1 m.2.toParserState := by
      intro C
      rw [branch, hgoto]
    by_cases hp : (m.2.perform (C.yyDoAction m.1.yyn m.2.toParserCore)).status = .suspended
    · have hquiet := @reduce_quiet_of_continue σ C T m.1 m.2.toParserState
        (hres.reduce hgoto hp)
      refine Eq.trans ?_ ((hreduce C.quiet).trans hquiet).symm
      rw [resumedTurn, turn, hreduce, reduce, afterAction_of_suspended hp]
      simp only [bind_eq_bind, bind_some, if_pos (And.intro hgoto hp), resume,
        if_pos hp, if_pos hgoto, pure_def]
      cases T.gotoState m.1 _ with
      | none => rfl
      | some l => rfl
    · apply resumedTurn_of_branch_quiet
      · rw [hreduce, hreduce, reduce_quiet hp]
      · intro n hn
        rw [hreduce] at hn
        exact afterAction_status hp hn
  · exact resumedTurn_of_branch_quiet (branch_quiet hgoto hres.errlab)
      fun n hn => branch_status hgoto hres.errlab hne hn

/-- Turn by turn, the calls do what one call of the quiet client does. -/
theorem resumedTurns_visible
    (hres : ∀ n k, C.quiet.turns T n m' = some k → k.2.status = .continue →
      C.Resumable (visible k))
    (hsame : visible m = visible m') (n : Nat) :
    (C.resumedTurns T n m).map visible = (C.quiet.turns T n m').map visible := by
  induction n generalizing m m' with
  | zero => exact congrArg some hsame
  | succ n ih =>
      have hstatus : m.2.status = m'.2.status :=
        congrArg (fun v : ParseLocals × ParserState σ => v.2.status) hsame
      by_cases hm : m.2.status = .continue
      · have hm' : m'.2.status = .continue := hstatus.symm.trans hm
        have hturn := resumedTurn_visible (T := T) hm (hsame ▸ hres 0 m' rfl hm') hsame
        rw [resumedTurns, turns, if_pos hm, if_pos hm']
        cases hn' : C.quiet.turn T m' with
        | none =>
            rw [hn'] at hturn
            rw [map_eq_none_iff.mp hturn]
            rfl
        | some k' =>
            rw [hn'] at hturn
            obtain ⟨k, hk, hsame'⟩ := map_eq_some_iff.mp hturn
            rw [hk]
            refine ih ?_ hsame'
            intro n j hj
            apply hres (n + 1) j
            rw [turns, if_pos hm', hn']
            exact hj
      · rw [resumedTurns, turns, if_neg hm, if_neg (hstatus ▸ hm)]
        exact congrArg some hsame

end

/-! ### Whole calls -/

section

variable {C T} {m : ParseLocals × Parser σ} {q : Parser σ}

theorem loop_of_turns {n fuel : Nat} (hn : n < fuel) {k : ParseLocals × Parser σ}
    (hrun : C.turns T n m = some k) (hk : k.2.status ≠ .continue) :
    loopUntil (fun m => some (decide (m.2.status ≠ .continue))) (C.turn T) fuel m =
      some k := by
  induction n generalizing m fuel with
  | zero =>
      obtain ⟨fuel, rfl⟩ := Nat.exists_eq_succ_of_ne_zero (Nat.ne_of_gt hn)
      cases hrun
      exact loopUntil_of_stop (by simp [hk])
  | succ n ih =>
      obtain ⟨fuel, rfl⟩ := Nat.exists_eq_succ_of_ne_zero (Nat.ne_of_gt (Nat.zero_lt_of_lt hn))
      rw [turns] at hrun
      split at hrun
      · next hm =>
          obtain ⟨j, hj, hrun⟩ := bind_eq_some_iff.mp hrun
          exact (loopUntil_of_go (by simp [hm]) hj).trans (ih (by omega) hrun)
      · next hm =>
          cases hrun
          exact loopUntil_of_stop (by simp [hk])

theorem turns_of_loop {fuel : Nat} {k : ParseLocals × Parser σ}
    (hrun : loopUntil (fun m => some (decide (m.2.status ≠ .continue))) (C.turn T) fuel m =
      some k) : ∃ n, C.turns T n m = some k ∧ k.2.status ≠ .continue := by
  induction fuel generalizing m with
  | zero => cases hrun
  | succ fuel ih =>
      by_cases hm : m.2.status = .continue
      · cases hturn : C.turn T m with
        | none => simp [loopUntil, hm, hturn] at hrun
        | some j =>
            rw [loopUntil_of_go (by simp [hm]) hturn] at hrun
            obtain ⟨n, hn, hk⟩ := ih hrun
            refine ⟨n + 1, ?_, hk⟩
            rw [turns, if_pos hm, hturn]
            exact hn
      · rw [loopUntil_of_stop (by simp [hm])] at hrun
        cases hrun
        exact ⟨0, rfl, hm⟩

/-- What is done after the loop of a call. -/
def afterLoop (C : ParserClient σ) (T : ParserTables) (fuel calls : Nat)
    (m : ParseLocals × Parser σ) : Option (Parser σ) :=
  if (C.leave m.2).status = .suspended then C.parseAll T fuel calls (C.leave m.2)
  else some (C.leave m.2)

theorem parseAll_succ (fuel calls : Nat) (p : Parser σ) :
    C.parseAll T fuel (calls + 1) p = (C.enter T p).bind fun m =>
      (loopUntil (fun m => some (decide (m.2.status ≠ .continue))) (C.turn T) fuel m).bind
        (C.afterLoop T fuel calls) := by
  simp only [parseAll, parse, bind_eq_bind, bind_assoc]
  rfl

theorem leave_of_suspended {p : Parser σ} (hp : p.status = .suspended) : C.leave p = p :=
  if_neg (not_not_intro hp)

theorem leave_status (p : Parser σ) : (C.leave p).status = p.status := by
  rw [leave]
  split <;> rfl

theorem resume_status {p : Parser σ} (h : resume T p = some m) :
    m.2.status = .continue := by
  obtain ⟨l, -, h⟩ := bind_eq_some_iff.mp h
  cases h
  rfl

theorem resumedTurns_succ {n : Nat} {j : ParseLocals × Parser σ}
    (hm : m.2.status = .continue) (hturn : C.resumedTurn T m = some j) :
    C.resumedTurns T (n + 1) m = C.resumedTurns T n j := by
  rw [resumedTurns, if_pos hm, hturn]
  rfl

theorem afterLoop_of_suspended {fuel calls : Nat} (hm : m.2.status = .suspended) :
    C.afterLoop T fuel calls m = C.parseAll T fuel calls m.2 := by
  rw [afterLoop, leave_of_suspended hm, if_pos hm]

theorem afterLoop_of_ne {fuel calls : Nat} (hm : m.2.status ≠ .suspended) :
    C.afterLoop T fuel calls m = some (C.leave m.2) := by
  rw [afterLoop, leave_status, if_neg hm]

/-- The turns of all calls end, and leave the parser in the state `q`. -/
def Ends (C : ParserClient σ) (T : ParserTables) (m : ParseLocals × Parser σ)
    (q : Parser σ) : Prop :=
  ∃ n k, C.resumedTurns T n m = some k ∧ k.2.status ≠ .continue ∧
    k.2.status ≠ .suspended ∧ q = C.leave k.2

theorem Ends.of_turn {j : ParseLocals × Parser σ} (hm : m.2.status = .continue)
    (hturn : C.resumedTurn T m = some j) (h : Ends C T j q) : Ends C T m q := by
  obtain ⟨n, k, hrun, hk⟩ := h
  exact ⟨n + 1, k, (resumedTurns_succ hm hturn).trans hrun, hk⟩

/-- A loop that ends is turns of all calls, if the calls after it are. -/
theorem ends_of_loop {fuel calls rest : Nat} {j : ParseLocals × Parser σ}
    (hnext : ∀ p : Parser σ, p.status = .suspended → C.parseAll T fuel calls p = some q →
      ∃ m, resume T p = some m ∧ Ends C T m q)
    (hm : m.2.status = .continue)
    (hloop : loopUntil (fun m => some (decide (m.2.status ≠ .continue))) (C.turn T) rest m =
      some j) (hafter : C.afterLoop T fuel calls j = some q) : Ends C T m q := by
  induction rest generalizing m with
  | zero => cases hloop
  | succ rest ih =>
      cases hturn : C.turn T m with
      | none => simp [loopUntil, hm, hturn] at hloop
      | some i =>
          rw [loopUntil_of_go (by simp [hm]) hturn] at hloop
          by_cases hi : i.2.status = .continue
          · refine Ends.of_turn hm ?_ (ih hi hloop)
            rw [resumedTurn, hturn, bind_some, hi]
            rfl
          · obtain rfl : i = j := by
              cases rest with
              | zero => cases hloop
              | succ rest =>
                  rw [loopUntil_of_stop (by simp [hi])] at hloop
                  exact some.inj hloop
            by_cases hsuspended : i.2.status = .suspended
            · rw [afterLoop_of_suspended hsuspended] at hafter
              obtain ⟨k, hresume, hk⟩ := hnext i.2 hsuspended hafter
              refine Ends.of_turn hm ?_ hk
              rw [resumedTurn, hturn, bind_some, if_pos hsuspended]
              exact hresume
            · rw [afterLoop_of_ne hsuspended] at hafter
              refine Ends.of_turn hm ?_ ⟨0, i, rfl, hi, hsuspended, (some.inj hafter).symm⟩
              rw [resumedTurn, hturn, bind_some, if_neg hsuspended]

theorem ends_of_parseAll {fuel calls : Nat} {p : Parser σ} (hp : p.status = .suspended)
    (hrun : C.parseAll T fuel calls p = some q) :
    ∃ m, resume T p = some m ∧ Ends C T m q := by
  induction calls generalizing p with
  | zero => cases hrun
  | succ calls ih =>
      rw [parseAll_succ, enter, if_pos hp] at hrun
      obtain ⟨m, hresume, hrun⟩ := bind_eq_some_iff.mp hrun
      obtain ⟨j, hloop, hafter⟩ := bind_eq_some_iff.mp hrun
      exact ⟨m, hresume, ends_of_loop (fun p => ih) (resume_status hresume) hloop hafter⟩

/-- Turns of all calls that end are calls that end. -/
theorem calls_of_turns {n fuel calls rest : Nat} (hfuel : n < fuel) (hrest : n < rest)
    (hcalls : n ≤ calls) {k : ParseLocals × Parser σ}
    (hrun : C.resumedTurns T n m = some k) (hk : k.2.status ≠ .continue)
    (hk' : k.2.status ≠ .suspended) :
    (loopUntil (fun m => some (decide (m.2.status ≠ .continue))) (C.turn T) rest m).bind
      (C.afterLoop T fuel calls) = some (C.leave k.2) := by
  induction n generalizing m calls rest with
  | zero =>
      obtain ⟨rest, rfl⟩ := Nat.exists_eq_succ_of_ne_zero (Nat.ne_of_gt hrest)
      cases hrun
      rw [loopUntil_of_stop (by simp [hk])]
      exact afterLoop_of_ne hk'
  | succ n ih =>
      obtain ⟨rest, rfl⟩ :=
        Nat.exists_eq_succ_of_ne_zero (Nat.ne_of_gt (Nat.zero_lt_of_lt hrest))
      by_cases hm : m.2.status = .continue
      · rw [resumedTurns, if_pos hm] at hrun
        obtain ⟨j, hj, hrun⟩ := bind_eq_some_iff.mp hrun
        obtain ⟨i, hturn, hi⟩ := bind_eq_some_iff.mp hj
        rw [loopUntil_of_go (by simp [hm]) hturn]
        split at hi
        · next hsuspended =>
            obtain ⟨rest, rfl⟩ := Nat.exists_eq_succ_of_ne_zero (by omega : rest ≠ 0)
            obtain ⟨calls, rfl⟩ :=
              Nat.exists_eq_succ_of_ne_zero (by omega : calls ≠ 0)
            rw [loopUntil_of_stop (by simp [hsuspended]), bind_some,
              afterLoop_of_suspended hsuspended, parseAll_succ, enter, if_pos hsuspended, hi]
            exact ih (by omega) (by omega) (by omega) hrun
        · cases hi
          exact ih (by omega) (by omega) (by omega) hrun
      · rw [resumedTurns, if_neg hm] at hrun
        cases hrun
        rw [loopUntil_of_stop (by simp [hk])]
        exact afterLoop_of_ne hk'

/-- The calls of `parse` from the start end in `q` exactly when the turns do. -/
theorem parseAll_iff_ends {p : Parser σ} (hp : p.status ≠ .suspended) :
    (∃ fuel calls, C.parseAll T fuel calls p = some q) ↔ Ends C T (C.start p) q := by
  constructor
  · rintro ⟨fuel, calls, hrun⟩
    cases calls with
    | zero => cases hrun
    | succ calls =>
        rw [parseAll_succ, enter, if_neg hp, bind_some] at hrun
        obtain ⟨j, hloop, hafter⟩ := bind_eq_some_iff.mp hrun
        exact ends_of_loop (fun p => ends_of_parseAll) rfl hloop hafter
  · rintro ⟨n, k, hrun, hk, hk', rfl⟩
    refine ⟨n + 1, n + 1, ?_⟩
    rw [parseAll_succ, enter, if_neg hp, bind_some]
    exact calls_of_turns (Nat.lt_succ_self n) (Nat.lt_succ_self n) (Nat.le_refl n) hrun hk hk'

/-- A run of all calls is never left suspended. -/
theorem resumedTurns_status {n : Nat} {k : ParseLocals × Parser σ}
    (hm : m.2.status ≠ .suspended) (hrun : C.resumedTurns T n m = some k) :
    k.2.status ≠ .suspended := by
  induction n generalizing m with
  | zero =>
      cases hrun
      exact hm
  | succ n ih =>
      rw [resumedTurns] at hrun
      split at hrun
      · obtain ⟨j, hj, hrun⟩ := bind_eq_some_iff.mp hrun
        obtain ⟨i, -, hi⟩ := bind_eq_some_iff.mp hj
        refine ih ?_ hrun
        split at hi
        · rw [resume_status hi]
          decide
        · next hne =>
            cases hi
            exact hne
      · cases hrun
        exact hm

theorem leave_congr {p p' : Parser σ} (h : p.toParserState = p'.toParserState) :
    (C.leave p).toParserState = (C.quiet.leave p').toParserState := by
  obtain ⟨s, l⟩ := p
  obtain ⟨s', l'⟩ := p'
  obtain rfl : s = s' := h
  rw [leave, leave]
  split <;> rfl

/-- If semantic actions only suspend where they would have let the parser
continue, and the actions of detected errors do not suspend, then `parse`,
called again while it is suspended, ends as it does when no action suspends, and
turn by turn does the same. -/
theorem parseAll_quiet {p : Parser σ} (hp : p.status ≠ .suspended)
    (hres : ∀ n k, C.quiet.turns T n (C.start p) = some k → k.2.status = .continue →
      C.Resumable (visible k)) :
    (∀ fuel calls q, C.parseAll T fuel calls p = some q → ∃ fuel q',
      C.quiet.parse T fuel p = some q' ∧ q'.toParserState = q.toParserState) ∧
    (∀ fuel q', C.quiet.parse T fuel p = some q' → ∃ fuel calls q,
      C.parseAll T fuel calls p = some q ∧ q'.toParserState = q.toParserState) ∧
    ∀ n, (C.resumedTurns T n (C.start p)).map visible =
      (C.quiet.turns T n (C.start p)).map visible := by
  have hturns := resumedTurns_visible hres rfl
  have hstart : (C.start p).2.status ≠ .suspended := by
    show ParsingStatus.continue ≠ .suspended
    decide
  refine ⟨?_, ?_, hturns⟩
  · intro fuel calls q hrun
    obtain ⟨n, k, hk, hne, -, rfl⟩ := (parseAll_iff_ends hp).mp ⟨fuel, calls, hrun⟩
    obtain ⟨k', hk', hsame⟩ : ∃ k', C.quiet.turns T n (C.start p) = some k' ∧
        visible k' = visible k := by
      have hn := hturns n
      rw [hk] at hn
      exact map_eq_some_iff.mp hn.symm
    have hstate : k.2.toParserState = k'.2.toParserState := (congrArg Prod.snd hsame).symm
    have hne' : k'.2.status ≠ .continue := by
      rw [← hstate]
      exact hne
    have hloop := loop_of_turns (Nat.lt_succ_self n) hk' hne'
    refine ⟨n + 1, C.quiet.leave k'.2, ?_, (leave_congr hstate).symm⟩
    rw [parse, enter, if_neg hp]
    exact bind_of_some rfl (bind_of_some hloop rfl)
  · intro fuel q' hrun
    rw [parse, enter, if_neg hp] at hrun
    obtain ⟨m, hm, hrun⟩ := bind_eq_some_iff.mp hrun
    obtain rfl := some.inj hm
    obtain ⟨k', hloop, hq'⟩ := bind_eq_some_iff.mp hrun
    obtain ⟨n, hk', hne'⟩ := turns_of_loop hloop
    obtain ⟨k, hk, hsame⟩ : ∃ k, C.resumedTurns T n (C.start p) = some k ∧
        visible k = visible k' := by
      have hn := hturns n
      rw [show C.quiet.turns T n (C.start p) = some k' from hk'] at hn
      exact map_eq_some_iff.mp hn
    have hstate : k.2.toParserState = k'.2.toParserState := congrArg Prod.snd hsame
    have hne : k.2.status ≠ .continue := by
      rw [hstate]
      exact hne'
    obtain ⟨fuel, calls, hcalls⟩ := (parseAll_iff_ends (C := C) (T := T) hp).mpr
      ⟨n, k, hk, hne, resumedTurns_status hstart hk, rfl⟩
    refine ⟨fuel, calls, _, hcalls, ?_⟩
    rw [← some.inj hq']
    exact (leave_congr hstate).symm

end

/-! ### The grammar with the one rule `s: A` -/

def exampleTables : ParserTables where
  yytranslate := ⟨[0, 1, 2], 3⟩
  yyr1 := ⟨[0, 3], 2⟩
  yydefact := ⟨[0, 1, 0], 3⟩
  yydefgoto := ⟨[2], 1⟩
  yypact := ⟨[0, -32768, 3], 3⟩
  yypgoto := ⟨[-32768], 1⟩
  yytable := ⟨[0, 0, 1, 3], 4⟩
  yycheck := ⟨[-1, -1, 2, 0], 4⟩
  yyFinal := 3
  yyFlag := -32768
  yyNtbase := 3
  yyLast := 3
  yyMaxToken := 2
  yyNsyms := 4

/-- A parser of a list of tokens.  The action of the rule, which pops one state,
suspends, and so may the error actions. -/
def exampleClient (errorAction : List (ActionCall (List Int))) :
    ParserClient (List Int) where
  readToken input := (input.tail, input.headD 0)
  yyDoAction _ _ := [.update fun p => { p with yyssp := p.yyssp - 1 }, .suspend]
  yyDoErrorAction _ _ := errorAction
  yyInitValueStacks := id
  clearAll := id
  yyPushLastValue _ _ := id
  yyPushErrorValue := id
  yyPopLastValue _ := id

def exampleParser (input : List Int) : Parser (List Int) where
  errorCount := 0
  lastToken := 0
  yyss := .makeEmpty 200
  yyssp := 0
  lookaheadNeeded := false
  yyerrstatus := 0
  client := input
  status := .unset
  suspended := {}

theorem parseAll_quiet_one_token :
    ∃ fuel calls q, (exampleClient []).parseAll exampleTables fuel calls
        (exampleParser [2]) = some q ∧ q.status = .accepted ∧ q.errorCount = 0 := by
  obtain ⟨-, hquiet, -⟩ := parseAll_quiet (C := exampleClient []) (T := exampleTables)
    (p := exampleParser [2]) (by decide) (by
      intro n k _ hk
      refine ⟨fun _ _ => hk, ?_⟩
      intro _ _ hsuspended
      exact absurd (hk.symm.trans hsuspended) (by decide))
  obtain ⟨fuel, calls, q, hrun, hq⟩ := hquiet 10 _ rfl
  refine ⟨fuel, calls, q, hrun, ?_, ?_⟩
  · rw [← hq]
    rfl
  · rw [← hq]
    rfl

/-- The locals are not remembered where an error action suspends: the next call
does not know where to go on, and never ends. -/
theorem errlab_loses_locals :
    ((exampleClient [.suspend]).quiet.parse exampleTables 10 (exampleParser [])).map
        (fun q => (q.status, q.errorCount)) = some (.aborted, 1) ∧
      ((exampleClient [.suspend]).parse exampleTables 10 (exampleParser [])).map
        (fun q => (q.status, q.suspended.yyGoto)) = some (.suspended, .unset) ∧
      ∀ fuel calls, (exampleClient [.suspend]).parseAll exampleTables fuel calls
        (exampleParser []) = none := by
  refine ⟨by decide, by decide, ?_⟩
  intro fuel calls
  rw [eq_none_iff_forall_ne_some]
  intro q hq
  obtain ⟨n, k, hrun, hk, -⟩ := (parseAll_iff_ends (by decide)).mp ⟨fuel, calls, hq⟩
  match n with
  | 0 => cases hrun; exact hk rfl
  | 1 => cases hrun; exact hk rfl
  | 2 => cases hrun; exact hk rfl
  | 3 => cases hrun; exact hk rfl
  | n + 4 => cases hrun

end ParserClient

end Gobo
