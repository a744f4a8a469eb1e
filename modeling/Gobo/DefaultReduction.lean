/-
The default reduction of a state, as it is stored in the tables (`put_yydefact`).
-/
import Gobo.Loop
import Gobo.MachineState
import Mathlib.Data.List.Nodup

namespace Gobo

open List Function

namespace Machine

variable {T V R Q : Type}

/-- The flag of the tables for an error. -/
def yyFlag : Int := -32768

/-- `action_row.put (v, j)`; the row has the indexes from 0 to `nbTokens`. -/
def putAction (nbTokens : Nat) (row : Nat → Int) (v : Int) (j : Nat) : Option (Nat → Int) :=
  if j ≤ nbTokens then some (update row j v) else none

/-- The loop over the reductions, in reverse order: the first one that likes a token will
handle it. -/
def putReductions (m : Machine T V R Q) (nbTokens : Nat) (reductions : List (Reduction T R))
    (row : Nat → Int) : Option (Nat → Int) :=
  reductions.reverse.foldlM (fun row r => r.lookaheads.foldlM
    (fun row t => putAction nbTokens row (-m.ruleId r.rule) (m.tokenId t)) row) row

/-- A turn of the loop over the shifts, with the flag `no_default`: there is no default
reduction when "error", whose id is 1, is shifted. -/
def putShift (m : Machine T V R Q) (nbTokens : Nat) :
    (Nat → Int) × Bool → Q → Option ((Nat → Int) × Bool)
  | (row, noDefault), q =>
      match m.accessingSymbol q with
      | .terminal t => (putAction nbTokens row (m.stateId q) (m.tokenId t)).map fun row =>
          (row, noDefault || m.tokenId t == 1)
      | .nonterminal _ => some (row, noDefault)

/-- The loop over the errors. -/
def putErrors (m : Machine T V R Q) (nbTokens : Nat) (errors : List T) (row : Nat → Int) :
    Option (Nat → Int) :=
  errors.foldlM (fun row t => putAction nbTokens row yyFlag (m.tokenId t)) row

/-- The number of actions of the row that are `v`. -/
def countActions (nbTokens : Nat) (row : Nat → Int) (v : Int) : Nat :=
  (range (nbTokens + 1)).countP fun j => row j = v

/-- A turn of the loop that looks for the most common reduction, on `count`, `max` and
`default_rule`. -/
def mostCommon (m : Machine T V R Q) (nbTokens : Nat) (row : Nat → Int) :
    Nat × Nat × Int → Reduction T R → Nat × Nat × Int
  | (count, max, defaultRule), r =>
      let count := count + countActions nbTokens row (-m.ruleId r.rule)
      if count > max then (count, count, -m.ruleId r.rule) else (count, max, defaultRule)

/-- Replace an action of the row with zero, which means "use the default". -/
def useDefault (v : Int) (row : Nat → Int) : Nat → Int :=
  fun j => if row j = v then 0 else row j

/-- The default rule, and the row in which its actions are replaced. -/
def chooseDefault (m : Machine T V R Q) (nbTokens : Nat) (s : MachineState T R Q)
    (row : Nat → Int) (noDefault : Bool) : Int × (Nat → Int) :=
  match s.reductions, noDefault with
  | first :: _, false =>
      if !s.lookaheadNeeded then (m.ruleId first.rule, row)
      else
        let (_, max, defaultRule) := s.reductions.foldl (m.mostCommon nbTokens row) (0, 0, 0)
        if max > 0 then (-defaultRule, useDefault defaultRule row) else (defaultRule, row)
  | _, _ => (0, row)

/-- What is stored for a state: the item of `yydefact`, and the portion of `yytable`. -/
structure StateTable where
  defaultRule : Int
  portion : List (Nat × Int)

/-- The action row of a state, and whether "error" is shifted. -/
def actionRow (m : Machine T V R Q) (nbTokens : Nat) (s : MachineState T R Q) :
    Option ((Nat → Int) × Bool) := do
  let row ← if s.lookaheadNeeded then m.putReductions nbTokens s.reductions fun _ => 0
    else some fun _ => 0
  let (row, noDefault) ← s.shifts.foldlM (m.putShift nbTokens) (row, false)
  let row ← m.putErrors nbTokens s.errors row
  some (row, noDefault)

/-- `put_yydefact`: when there is no default rule, the default is an error. -/
def putYydefact (m : Machine T V R Q) (nbTokens : Nat) (s : MachineState T R Q) :
    Option StateTable := do
  let (row, noDefault) ← m.actionRow nbTokens s
  let (defaultRule, row) := m.chooseDefault nbTokens s row noDefault
  let row := if defaultRule = 0 then useDefault yyFlag row else row
  some ⟨defaultRule, ((range (nbTokens + 1)).filter fun j => row j ≠ 0).map fun j =>
    (j, row j)⟩

/-- An action of the parser. -/
inductive ParserAction
  | shift (state : Int)
  | reduce (rule : Int)
  | error
  deriving DecidableEq

/-- What the parser does in a state for the token `j`: negative is a reduction, positive a
shift, 0 or the flag an error, and the default is taken when nothing is stored. -/
def StateTable.perform (table : StateTable) (j : Nat) : ParserAction :=
  match table.portion.lookup j with
  | some v =>
      if v < 0 then if v = yyFlag then .error else .reduce (-v)
      else if v = 0 then .error
      else .shift v
  | none => if table.defaultRule = 0 then .error else .reduce table.defaultRule

section

variable [DecidableEq T]

/-- The reduction that handles a token: the first one that likes it. -/
def handler (reductions : List (Reduction T R)) (t : T) : Option (Reduction T R) :=
  reductions.find? fun r => t ∈ r.lookaheads

/-- The target of the last shift of a token. -/
def shiftTarget (m : Machine T V R Q) (shifts : List Q) (t : T) : Option Q :=
  shifts.reverse.find? (m.shiftsToken t)

section

variable (m : Machine T V R Q) (s : MachineState T R Q)

/-- The action of a state for a token. -/
def tokenAction (t : T) : Int :=
  if t ∈ s.errors then yyFlag
  else (m.shiftTarget s.shifts t).elim
    ((handler s.reductions t).elim 0 fun r => -m.ruleId r.rule) m.stateId

/-- A reduction handles a token when it is the first one that likes it, and the token is
neither shifted nor an error. -/
def Handles (r : Reduction T R) (t : T) : Prop :=
  t ∉ s.errors ∧ t ∉ m.shiftTokens s.shifts ∧ handler s.reductions t = some r

/-- The last reduction that handles a token. -/
def LastHandler (r : Reduction T R) : Prop :=
  ∃ before after, s.reductions = before ++ r :: after ∧ (∃ t, m.Handles s r t) ∧
    ∀ r' ∈ after, ∀ t, ¬m.Handles s r' t

end

end

/-- The row has the actions `act` of the tokens, and no others. -/
def RowOf (m : Machine T V R Q) (row : Nat → Int) (act : T → Int) : Prop :=
  (∀ t, row (m.tokenId t) = act t) ∧ ∀ j, (∀ t, m.tokenId t ≠ j) → row j = 0

/-- The numbers of the tokens, the rules and the states. -/
structure IsNumbered (m : Machine T V R Q) (nbTokens : Nat) (s : MachineState T R Q) : Prop where
  tokenId_inj : Function.Injective m.tokenId
  lookaheads_le : ∀ r ∈ s.reductions, ∀ t ∈ r.lookaheads, m.tokenId t ≤ nbTokens
  shifts_le : ∀ q ∈ s.shifts, ∀ t, m.shiftToken q = some t → m.tokenId t ≤ nbTokens
  errors_le : ∀ t ∈ s.errors, m.tokenId t ≤ nbTokens
  /-- The state 0 is the first one: it is not the target of a shift. -/
  stateId_pos : ∀ q ∈ s.shifts, 0 < m.stateId q
  ruleId_pos : ∀ r ∈ s.reductions, 0 < m.ruleId r.rule
  /-- The flag is not the action of a rule. -/
  ruleId_ne : ∀ r ∈ s.reductions, -m.ruleId r.rule ≠ yyFlag
  /-- The reductions of a state are those of different rules. -/
  ruleId_nodup : (s.reductions.map fun r => m.ruleId r.rule).Nodup

section

variable {m : Machine T V R Q} {nbTokens : Nat} {row : Nat → Int} {s : MachineState T R Q}

theorem IsNumbered.ruleId_inj (hs : m.IsNumbered nbTokens s) {r r' : Reduction T R}
    (hr : r ∈ s.reductions) (hr' : r' ∈ s.reductions) (h : m.ruleId r.rule = m.ruleId r'.rule) :
    r = r' :=
  inj_on_of_nodup_map hs.ruleId_nodup hr hr' h

/-- The loop that looks for the most common reduction leaves with the last one that is
counted. -/
theorem foldl_mostCommon (m : Machine T V R Q) (nbTokens : Nat) (row : Nat → Int)
    (reductions : List (Reduction T R)) :
    ∃ count d, reductions.foldl (m.mostCommon nbTokens row) (0, 0, 0) = (count, count, d) ∧
      (count = 0 ∧ d = 0 ∧ (∀ r ∈ reductions, countActions nbTokens row (-m.ruleId r.rule) = 0) ∨
        0 < count ∧ ∃ before r after, reductions = before ++ r :: after ∧ d = -m.ruleId r.rule ∧
          0 < countActions nbTokens row (-m.ruleId r.rule) ∧
          ∀ r' ∈ after, countActions nbTokens row (-m.ruleId r'.rule) = 0) := by
  refine foldl_spec (fun (done : List (Reduction T R)) c => ∃ count d, c = (count, count, d) ∧
    (count = 0 ∧ d = 0 ∧ (∀ r ∈ done, countActions nbTokens row (-m.ruleId r.rule) = 0) ∨
      0 < count ∧ ∃ before r after, done = before ++ r :: after ∧ d = -m.ruleId r.rule ∧
        0 < countActions nbTokens row (-m.ruleId r.rule) ∧
        ∀ r' ∈ after, countActions nbTokens row (-m.ruleId r'.rule) = 0)) ?_
    ⟨0, 0, rfl, Or.inl ⟨rfl, rfl, nofun⟩⟩
  rintro done r rest c - ⟨count, d, rfl, hI⟩
  rcases Nat.eq_zero_or_pos (countActions nbTokens row (-m.ruleId r.rule)) with hzero | hpos
  · refine ⟨count, d, ?_, ?_⟩
    · rw [mostCommon, hzero, Nat.add_zero]
      exact if_neg (Nat.lt_irrefl count)
    · rcases hI with ⟨hcount, hd, hnone⟩ | ⟨hcount, before, r', after, rfl, hd, hr', hafter⟩
      · refine Or.inl ⟨hcount, hd, fun r' hr' => ?_⟩
        rcases mem_append.mp hr' with hr' | hr'
        · exact hnone r' hr'
        · exact mem_singleton.mp hr' ▸ hzero
      · refine Or.inr ⟨hcount, before, r', after ++ [r], by rw [append_assoc]; rfl, hd, hr',
          fun r'' hr'' => ?_⟩
        rcases mem_append.mp hr'' with hr'' | hr''
        · exact hafter r'' hr''
        · exact mem_singleton.mp hr'' ▸ hzero
  · refine ⟨count + countActions nbTokens row (-m.ruleId r.rule), -m.ruleId r.rule, ?_,
      Or.inr ⟨by omega, done, r, [], rfl, rfl, hpos, nofun⟩⟩
    rw [mostCommon]
    exact if_pos (Nat.lt_add_of_pos_right hpos)

theorem chooseDefault_of_no_default : m.chooseDefault nbTokens s row true = (0, row) := by
  unfold chooseDefault
  cases s.reductions with
  | nil => rfl
  | cons first rest => rfl

theorem chooseDefault_of_nil (h : s.reductions = []) :
    m.chooseDefault nbTokens s row false = (0, row) := by
  unfold chooseDefault
  rw [h]

theorem chooseDefault_of_lookaheadNeeded (hneeded : s.lookaheadNeeded = true)
    (hne : s.reductions ≠ []) {count : Nat} {d : Int}
    (hrun : s.reductions.foldl (m.mostCommon nbTokens row) (0, 0, 0) = (count, count, d)) :
    m.chooseDefault nbTokens s row false =
      if count > 0 then (-d, useDefault d row) else (d, row) := by
  unfold chooseDefault
  cases hreductions : s.reductions with
  | nil => exact absurd hreductions hne
  | cons first rest =>
      rw [hreductions] at hrun
      simp only [hneeded, hrun]
      rfl

theorem lookup_portion (j : Nat) :
    (((range (nbTokens + 1)).filter fun j => row j ≠ 0).map fun j => (j, row j)).lookup j =
      if j ≤ nbTokens ∧ row j ≠ 0 then some (row j) else none := by
  have hmem : j ∈ (range (nbTokens + 1)).filter (fun j => row j ≠ 0) ↔
      j ≤ nbTokens ∧ row j ≠ 0 := by
    rw [mem_filter, mem_range, Nat.lt_succ_iff, decide_eq_true_eq]
  by_cases hj : j ≤ nbTokens ∧ row j ≠ 0
  · rw [if_pos hj]
    exact lookup_graph row (hmem.mpr hj)
  · rw [if_neg hj, lookup_eq_none_iff]
    intro pair hpair
    obtain ⟨j', hj', rfl⟩ := mem_map.mp hpair
    have hne : j ≠ j' := fun h => hj (hmem.mp (h ▸ hj'))
    exact bne_iff_ne.mpr hne

/-- The parser takes the default when the row has no action. -/
theorem perform_zero {d : Int} {j : Nat} (hj : row j = 0) :
    (StateTable.mk d (((range (nbTokens + 1)).filter fun j => row j ≠ 0).map fun j =>
      (j, row j))).perform j = if d = 0 then .error else .reduce d := by
  rw [StateTable.perform, lookup_portion, if_neg fun h => h.2 hj]

theorem perform_ne_zero {d : Int} {j : Nat} (hle : j ≤ nbTokens) (hj : row j ≠ 0) :
    (StateTable.mk d (((range (nbTokens + 1)).filter fun j => row j ≠ 0).map fun j =>
      (j, row j))).perform j =
      if row j < 0 then if row j = yyFlag then .error else .reduce (-row j) else
        .shift (row j) := by
  rw [StateTable.perform, lookup_portion, if_pos ⟨hle, hj⟩]
  exact ite_congr rfl (fun _ => rfl) fun _ => if_neg hj

end

section

variable [DecidableEq T] {m : Machine T V R Q} {nbTokens : Nat} {row : Nat → Int}
  {act : T → Int} {v : Int}

theorem handler_cons_of_mem {r : Reduction T R} {reductions : List (Reduction T R)} {t : T}
    (ht : t ∈ r.lookaheads) : handler (r :: reductions) t = some r :=
  find?_cons_of_pos (decide_eq_true ht)

theorem handler_cons_of_notMem {r : Reduction T R} {reductions : List (Reduction T R)} {t : T}
    (ht : t ∉ r.lookaheads) : handler (r :: reductions) t = handler reductions t :=
  find?_cons_of_neg (by rw [decide_eq_true_eq]; exact ht)

theorem shiftTarget_cons (q : Q) (shifts : List Q) (t : T) :
    m.shiftTarget (q :: shifts) t =
      (m.shiftTarget shifts t).or (if m.shiftToken q = some t then some q else none) := by
  rw [shiftTarget, reverse_cons, find?_append, find?_singleton, shiftTarget]
  congr 1
  exact if_congr (by rw [shiftsToken, decide_eq_true_eq]) rfl rfl

/-- The loop that records one action for the tokens of a list. -/
theorem RowOf.put (hinj : Function.Injective m.tokenId) {tokens : List T}
    (hle : ∀ t ∈ tokens, m.tokenId t ≤ nbTokens) (hrow : m.RowOf row act) :
    ∃ row', tokens.foldlM (fun row t => putAction nbTokens row v (m.tokenId t)) row = some row' ∧
      m.RowOf row' fun t => if t ∈ tokens then v else act t := by
  induction tokens generalizing row act with
  | nil => exact ⟨row, rfl, hrow⟩
  | cons t tokens ih =>
      have hput : putAction nbTokens row v (m.tokenId t) =
          some (update row (m.tokenId t) v) :=
        if_pos (hle t mem_cons_self)
      have hrow' : m.RowOf (update row (m.tokenId t) v)
          fun t' => if t' = t then v else act t' := by
        constructor
        · intro t'
          by_cases ht : t' = t
          · rw [ht, update_self]
            exact (if_pos rfl).symm
          · rw [update_of_ne (hinj.ne ht), hrow.1 t']
            exact (if_neg ht).symm
        · intro j hj
          rw [update_of_ne (hj t).symm]
          exact hrow.2 j hj
      obtain ⟨row', hrun, hfinal⟩ := ih (fun t' ht' => hle t' (mem_cons_of_mem t ht')) hrow'
      refine ⟨row', by rw [foldlM_cons, hput]; exact hrun, ?_⟩
      have hact : (fun t' => if t' ∈ tokens then v else if t' = t then v else act t') =
          fun t' => if t' ∈ t :: tokens then v else act t' := by
        funext t'
        by_cases ht : t' = t
        · rw [if_pos ht, ite_self, if_pos (ht ▸ mem_cons_self)]
        · rw [if_neg ht]
          exact if_congr (by rw [mem_cons, or_iff_right ht]) rfl rfl
      exact hact ▸ hfinal

/-- The loop over the reductions. -/
theorem RowOf.putReductions (hinj : Function.Injective m.tokenId)
    {reductions : List (Reduction T R)}
    (hle : ∀ r ∈ reductions, ∀ t ∈ r.lookaheads, m.tokenId t ≤ nbTokens)
    (hrow : m.RowOf row act) :
    ∃ row', m.putReductions nbTokens reductions row = some row' ∧
      m.RowOf row' fun t => (handler reductions t).elim (act t) fun r => -m.ruleId r.rule := by
  induction reductions with
  | nil => exact ⟨row, rfl, hrow⟩
  | cons r reductions ih =>
      obtain ⟨row₁, hrun₁, hrow₁⟩ := ih fun r' hr' => hle r' (mem_cons_of_mem r hr')
      obtain ⟨row₂, hrun₂, hrow₂⟩ := RowOf.put (v := -m.ruleId r.rule) hinj
        (hle r mem_cons_self) hrow₁
      refine ⟨row₂, ?_, ?_⟩
      · rw [Machine.putReductions, reverse_cons, foldlM_append]
        rw [Machine.putReductions] at hrun₁
        rw [hrun₁]
        exact (bind_pure _).trans hrun₂
      · have hact : (fun t => if t ∈ r.lookaheads then -m.ruleId r.rule
              else (handler reductions t).elim (act t) fun r' => -m.ruleId r'.rule) =
            fun t => (handler (r :: reductions) t).elim (act t) fun r' => -m.ruleId r'.rule := by
          funext t
          by_cases ht : t ∈ r.lookaheads
          · rw [if_pos ht, handler_cons_of_mem ht]
            rfl
          · rw [if_neg ht, handler_cons_of_notMem ht]
        exact hact ▸ hrow₂

/-- The loop over the shifts. -/
theorem RowOf.putShifts (hinj : Function.Injective m.tokenId) {shifts : List Q} {b : Bool}
    (hle : ∀ q ∈ shifts, ∀ t, m.shiftToken q = some t → m.tokenId t ≤ nbTokens)
    (hrow : m.RowOf row act) :
    ∃ row', shifts.foldlM (m.putShift nbTokens) (row, b) =
        some (row', b || (m.shiftTokens shifts).any fun t => m.tokenId t == 1) ∧
      m.RowOf row' fun t => (m.shiftTarget shifts t).elim (act t) m.stateId := by
  induction shifts generalizing row act b with
  | nil => exact ⟨row, by rw [shiftTokens]; exact congrArg some (by simp), hrow⟩
  | cons q shifts ih =>
      have hle' : ∀ q ∈ shifts, ∀ t, m.shiftToken q = some t → m.tokenId t ≤ nbTokens :=
        fun q' hq' => hle q' (mem_cons_of_mem q hq')
      cases hq : m.accessingSymbol q with
      | nonterminal x =>
          have htoken : m.shiftToken q = none := by rw [shiftToken, hq]
          obtain ⟨row', hrun, hfinal⟩ := ih (b := b) hle' hrow
          refine ⟨row', ?_, ?_⟩
          · rw [foldlM_cons, putShift, hq, shiftTokens_cons, htoken]
            exact hrun.trans (by rw [Option.toList_none, append_nil])
          · have htarget : ∀ t, m.shiftTarget (q :: shifts) t = m.shiftTarget shifts t := by
              intro t
              rw [shiftTarget_cons, if_neg (by rw [htoken]; exact fun h => by cases h),
                Option.or_none]
            simpa only [htarget] using hfinal
      | terminal t =>
          have htoken : m.shiftToken q = some t := by rw [shiftToken, hq]
          have hle₁ : ∀ t' ∈ [t], m.tokenId t' ≤ nbTokens :=
            fun t' ht' => mem_singleton.mp ht' ▸ hle q mem_cons_self t htoken
          obtain ⟨row₁, hput, hrow₁⟩ := RowOf.put (v := m.stateId q) hinj hle₁ hrow
          simp only [foldlM_cons, foldlM_nil, bind_pure] at hput
          obtain ⟨row', hrun, hfinal⟩ := ih (b := b || m.tokenId t == 1) hle' hrow₁
          refine ⟨row', ?_, ?_⟩
          · rw [foldlM_cons, putShift, hq, shiftTokens_cons, htoken]
            simp only [hput]
            refine hrun.trans ?_
            rw [Option.toList_some, any_append, any_cons, any_nil, Bool.or_false,
              Bool.or_assoc, Bool.or_comm (m.tokenId t == 1)]
          · have hact : (fun t' => (m.shiftTarget shifts t').elim
                  (if t' ∈ [t] then m.stateId q else act t') m.stateId) =
                fun t' => (m.shiftTarget (q :: shifts) t').elim (act t') m.stateId := by
              funext t'
              rw [shiftTarget_cons, htoken]
              cases m.shiftTarget shifts t' with
              | some q' => rfl
              | none =>
                  by_cases ht : t = t'
                  · rw [ht, if_pos rfl]
                    exact if_pos (mem_singleton.mpr rfl)
                  · rw [if_neg fun h => ht (Option.some.inj h)]
                    exact if_neg fun h => ht (mem_singleton.mp h).symm
            exact hact ▸ hfinal

/-- The action row of a state has the actions of the tokens. -/
theorem actionRow_eq {s : MachineState T R Q} (hs : m.IsNumbered nbTokens s)
    (hneeded : s.lookaheadNeeded = true) :
    ∃ row, m.actionRow nbTokens s =
        some (row, (m.shiftTokens s.shifts).any fun t => m.tokenId t == 1) ∧
      m.RowOf row (m.tokenAction s) := by
  have hempty : m.RowOf (fun _ => 0) fun _ => 0 := ⟨fun _ => rfl, fun _ _ => rfl⟩
  obtain ⟨row₁, hrun₁, hrow₁⟩ := hempty.putReductions hs.tokenId_inj hs.lookaheads_le
  obtain ⟨row₂, hrun₂, hrow₂⟩ := hrow₁.putShifts (b := false) hs.tokenId_inj hs.shifts_le
  obtain ⟨row₃, hrun₃, hrow₃⟩ := hrow₂.put (v := yyFlag) hs.tokenId_inj hs.errors_le
  refine ⟨row₃, ?_, hrow₃⟩
  simp only [actionRow, hneeded, if_true, hrun₁, hrun₂, putErrors, hrun₃, Bool.false_or,
    some_bind]

theorem shiftTarget_eq_none {shifts : List Q} {t : T} :
    m.shiftTarget shifts t = none ↔ t ∉ m.shiftTokens shifts := by
  rw [shiftTarget, find?_eq_none, mem_shiftTokens]
  constructor
  · rintro h ⟨q, hq, hshift⟩
    exact h q (mem_reverse.mpr hq) (decide_eq_true hshift)
  · intro h q hq hshift
    exact h ⟨q, mem_reverse.mp hq, of_decide_eq_true hshift⟩

theorem shiftTarget_mem {shifts : List Q} {t : T} {q : Q} (h : m.shiftTarget shifts t = some q) :
    q ∈ shifts ∧ m.shiftToken q = some t :=
  ⟨mem_reverse.mp (mem_of_find?_eq_some h),
    of_decide_eq_true (find?_some (p := m.shiftsToken t) h)⟩

theorem handler_mem {reductions : List (Reduction T R)} {t : T} {r : Reduction T R}
    (h : handler reductions t = some r) : r ∈ reductions ∧ t ∈ r.lookaheads :=
  ⟨mem_of_find?_eq_some h,
    of_decide_eq_true (find?_some (p := fun r : Reduction T R => t ∈ r.lookaheads) h)⟩

variable {s : MachineState T R Q} {r : Reduction T R} {t : T}

theorem tokenAction_of_error (ht : t ∈ s.errors) : m.tokenAction s t = yyFlag := if_pos ht

theorem tokenAction_of_shift {q : Q} (ht : t ∉ s.errors)
    (hq : m.shiftTarget s.shifts t = some q) : m.tokenAction s t = m.stateId q := by
  rw [tokenAction, if_neg ht, hq]
  rfl

theorem Handles.tokenAction_eq (h : m.Handles s r t) : m.tokenAction s t = -m.ruleId r.rule := by
  rw [tokenAction, if_neg h.1, shiftTarget_eq_none.mpr h.2.1, h.2.2]
  rfl

theorem tokenAction_of_none (ht : t ∉ s.errors) (hq : m.shiftTarget s.shifts t = none)
    (hr : handler s.reductions t = none) : m.tokenAction s t = 0 := by
  rw [tokenAction, if_neg ht, hq, hr]
  rfl

section

variable (hs : m.IsNumbered nbTokens s)

include hs

/-- An action of a rule is that of the reduction that handles the token. -/
theorem tokenAction_eq_iff (hr : r ∈ s.reductions) :
    m.tokenAction s t = -m.ruleId r.rule ↔ m.Handles s r t := by
  refine ⟨fun h => ?_, Handles.tokenAction_eq⟩
  have hpos := hs.ruleId_pos r hr
  by_cases ht : t ∈ s.errors
  · exact absurd ((tokenAction_of_error ht).symm.trans h).symm (hs.ruleId_ne r hr)
  cases hq : m.shiftTarget s.shifts t with
  | some q =>
      have hid := hs.stateId_pos q (shiftTarget_mem hq).1
      rw [tokenAction_of_shift ht hq] at h
      omega
  | none =>
      have htarget := shiftTarget_eq_none.mp hq
      cases hr' : handler s.reductions t with
      | none =>
          rw [tokenAction_of_none ht hq hr'] at h
          omega
      | some r' =>
          have hhandles : m.Handles s r' t := ⟨ht, htarget, hr'⟩
          rw [hhandles.tokenAction_eq] at h
          have heq := hs.ruleId_inj (handler_mem hr').1 hr (Int.neg_inj.mp h)
          exact heq ▸ hhandles

/-- A token that has an action has a number of the row. -/
theorem tokenId_le (h : m.tokenAction s t ≠ 0) : m.tokenId t ≤ nbTokens := by
  by_cases ht : t ∈ s.errors
  · exact hs.errors_le t ht
  cases hq : m.shiftTarget s.shifts t with
  | some q => exact hs.shifts_le q (shiftTarget_mem hq).1 t (shiftTarget_mem hq).2
  | none =>
      cases hr : handler s.reductions t with
      | some r => exact hs.lookaheads_le r (handler_mem hr).1 t (handler_mem hr).2
      | none => exact absurd (tokenAction_of_none ht hq hr) h

/-- The actions of a rule are counted when its reduction handles a token. -/
theorem countActions_pos (hrow : m.RowOf row (m.tokenAction s))
    (hr : r ∈ s.reductions) :
    0 < countActions nbTokens row (-m.ruleId r.rule) ↔ ∃ t, m.Handles s r t := by
  have hpos := hs.ruleId_pos r hr
  rw [countActions, countP_pos_iff]
  constructor
  · rintro ⟨j, -, hj⟩
    have hj := of_decide_eq_true hj
    obtain ⟨t, ht⟩ : ∃ t, m.tokenId t = j := by
      by_contra hnone
      have hzero := hrow.2 j fun t ht => hnone ⟨t, ht⟩
      omega
    exact ⟨t, (tokenAction_eq_iff hs hr).mp ((hrow.1 t).symm.trans (ht ▸ hj))⟩
  · rintro ⟨t, ht⟩
    have hne : m.tokenAction s t ≠ 0 := by
      rw [ht.tokenAction_eq]
      omega
    refine ⟨m.tokenId t, mem_range.mpr (Nat.lt_succ_of_le (tokenId_le hs hne)),
      decide_eq_true ?_⟩
    rw [hrow.1 t, ht.tokenAction_eq]

/-- There is no default when "error" is shifted or no reduction handles a token. -/
theorem chooseDefault_eq_zero (hneeded : s.lookaheadNeeded = true)
    (hrow : m.RowOf row (m.tokenAction s)) {noDefault : Bool}
    (h : noDefault = true ∨ ∀ r ∈ s.reductions, ∀ t, ¬m.Handles s r t) :
    m.chooseDefault nbTokens s row noDefault = (0, row) := by
  cases noDefault with
  | true => exact chooseDefault_of_no_default
  | false =>
      have h := h.resolve_left Bool.false_ne_true
      by_cases hne : s.reductions = []
      · exact chooseDefault_of_nil hne
      obtain ⟨count, d, hrun, ⟨rfl, rfl, -⟩ | ⟨-, before, r, after, hlist, -, hr, -⟩⟩ :=
        foldl_mostCommon m nbTokens row s.reductions
      · rw [chooseDefault_of_lookaheadNeeded hneeded hne hrun]
        rfl
      · have hmem : r ∈ s.reductions := hlist ▸ mem_append_right _ mem_cons_self
        obtain ⟨t, ht⟩ := (countActions_pos hs hrow hmem).mp hr
        exact absurd ht (h r hmem t)

/-- The default is the last reduction that handles a token. -/
theorem exists_chooseDefault (hneeded : s.lookaheadNeeded = true)
    (hrow : m.RowOf row (m.tokenAction s)) (hr : r ∈ s.reductions) (ht : m.Handles s r t) :
    ∃ r', m.LastHandler s r' ∧ m.chooseDefault nbTokens s row false =
      (m.ruleId r'.rule, useDefault (-m.ruleId r'.rule) row) := by
  obtain ⟨count, d, hrun, ⟨-, -, hnone⟩ | ⟨hcount, before, r', after, hlist, rfl, hr', hafter⟩⟩ :=
    foldl_mostCommon m nbTokens row s.reductions
  · exact absurd (hnone r hr) (Nat.ne_of_gt ((countActions_pos hs hrow hr).mpr ⟨t, ht⟩))
  · have hmem : ∀ r'' ∈ r' :: after, r'' ∈ s.reductions :=
      fun r'' hr'' => hlist ▸ mem_append_right _ hr''
    have hhandles := (countActions_pos hs hrow (hmem r' mem_cons_self)).mp hr'
    refine ⟨r', ⟨before, after, hlist, hhandles, ?_⟩, ?_⟩
    · intro r'' hr'' t'' ht''
      have hmem'' := hmem r'' (mem_cons_of_mem r' hr'')
      exact Nat.ne_of_gt ((countActions_pos hs hrow hmem'').mpr ⟨t'', ht''⟩) (hafter r'' hr'')
    · rw [chooseDefault_of_lookaheadNeeded hneeded (ne_nil_of_mem hr) hrun, if_pos hcount,
        Int.neg_neg]

end

/-- The default of the tables, with the value that means "use the default". -/
def IsDefault (m : Machine T V R Q) (s : MachineState T R Q) (d v : Int) : Prop :=
  d = 0 ∧ v = yyFlag ∨ ∃ r ∈ s.reductions, d = m.ruleId r.rule ∧ v = -m.ruleId r.rule

/-- The tables reduce a rule for the tokens that its reduction handles, and by default. -/
theorem perform_eq_reduce_iff (hs : m.IsNumbered nbTokens s)
    (hrow : m.RowOf row (m.tokenAction s)) {d v e : Int} (hd : m.IsDefault s d v) :
    (StateTable.mk d (((range (nbTokens + 1)).filter fun j => useDefault v row j ≠ 0).map
      fun j => (j, useDefault v row j))).perform (m.tokenId t) = .reduce e ↔
      (∃ r, m.Handles s r t ∧ m.ruleId r.rule = e) ∨ m.tokenAction s t = 0 ∧ d ≠ 0 ∧ d = e := by
  have hitem : useDefault v row (m.tokenId t) =
      if m.tokenAction s t = v then 0 else m.tokenAction s t := by
    rw [useDefault, hrow.1 t]
  have hnotReduce : m.tokenAction s t ≠ 0 → (∀ r, ¬m.Handles s r t) →
      ¬((∃ r, m.Handles s r t ∧ m.ruleId r.rule = e) ∨ m.tokenAction s t = 0 ∧ d ≠ 0 ∧ d = e) := by
    rintro hne hnone (⟨r, hr, -⟩ | ⟨hzero, -⟩)
    · exact hnone r hr
    · exact hne hzero
  by_cases ht : t ∈ s.errors
  · have hflag := tokenAction_of_error (m := m) ht
    rw [hflag] at hitem
    refine iff_of_false (fun h => ?_)
      (hnotReduce (by rw [hflag]; decide) fun r hr => hr.1 ht)
    by_cases hv : yyFlag = v
    · rcases hd with ⟨rfl, -⟩ | ⟨r, hr, -, hrv⟩
      · rw [perform_zero (by rw [hitem, if_pos hv])] at h
        exact nomatch h
      · exact hs.ruleId_ne r hr (hrv.symm.trans hv.symm)
    · rw [if_neg hv] at hitem
      have hle := hs.errors_le t ht
      rw [perform_ne_zero hle (by rw [hitem]; decide), hitem] at h
      exact nomatch h
  cases hq : m.shiftTarget s.shifts t with
  | some q =>
      have hshift := tokenAction_of_shift ht hq
      have hpos := hs.stateId_pos q (shiftTarget_mem hq).1
      have hv : v < 0 := by
        rcases hd with ⟨-, rfl⟩ | ⟨r, hr, -, rfl⟩
        · decide
        · have := hs.ruleId_pos r hr
          omega
      refine iff_of_false (fun h => ?_) (hnotReduce (by omega) fun r hr =>
        hr.2.1 (mem_shiftTokens.mpr ⟨q, shiftTarget_mem hq⟩))
      rw [if_neg (by omega), hshift] at hitem
      have hle := tokenId_le (t := t) hs (by omega)
      rw [perform_ne_zero hle (by omega), hitem, if_neg (by omega)] at h
      exact nomatch h
  | none =>
      cases hr : handler s.reductions t with
      | none =>
          have hzero := tokenAction_of_none ht hq hr
          rw [hzero, ite_self] at hitem
          rw [perform_zero hitem]
          constructor
          · intro h
            by_cases hd' : d = 0
            · rw [if_pos hd'] at h
              exact nomatch h
            · rw [if_neg hd'] at h
              exact Or.inr ⟨hzero, hd', ParserAction.reduce.inj h⟩
          · rintro (⟨r, hhandles, -⟩ | ⟨-, hd', rfl⟩)
            · exact nomatch hr.symm.trans hhandles.2.2
            · exact if_neg hd'
      | some r =>
          have hhandles : m.Handles s r t := ⟨ht, shiftTarget_eq_none.mp hq, hr⟩
          have hmem := (handler_mem hr).1
          have hpos := hs.ruleId_pos r hmem
          have haction := hhandles.tokenAction_eq
          have hreduce : (StateTable.mk d (((range (nbTokens + 1)).filter fun j =>
              useDefault v row j ≠ 0).map fun j => (j, useDefault v row j))).perform
                (m.tokenId t) = .reduce (m.ruleId r.rule) := by
            rw [haction] at hitem
            by_cases hv : -m.ruleId r.rule = v
            · rcases hd with ⟨-, rfl⟩ | ⟨r', -, rfl, hrv⟩
              · exact absurd hv (hs.ruleId_ne r hmem)
              · have hid : m.ruleId r.rule = m.ruleId r'.rule := by omega
                rw [perform_zero (by rw [hitem, if_pos hv]), if_neg (by omega), hid]
            · rw [if_neg hv] at hitem
              rw [perform_ne_zero (tokenId_le (t := t) hs (by omega)) (by omega), hitem,
                if_pos (by omega), if_neg (hs.ruleId_ne r hmem), Int.neg_neg]
          rw [hreduce]
          constructor
          · exact fun h => Or.inl ⟨r, hhandles, ParserAction.reduce.inj h⟩
          · rintro (⟨r', hr', rfl⟩ | ⟨hzero, -⟩)
            · rw [Option.some.inj (hr.symm.trans hr'.2.2)]
            · omega

/-- The table of a state: its default, and the tokens for which it reduces. -/
theorem exists_putYydefact (hs : m.IsNumbered nbTokens s) (hneeded : s.lookaheadNeeded = true) :
    ∃ row table, m.actionRow nbTokens s =
        some (row, (m.shiftTokens s.shifts).any fun t => m.tokenId t == 1) ∧
      m.RowOf row (m.tokenAction s) ∧ m.putYydefact nbTokens s = some table ∧
      (((m.shiftTokens s.shifts).any (fun t => m.tokenId t == 1) = true ∨
          ∀ r ∈ s.reductions, ∀ t, ¬m.Handles s r t) ∧ table.defaultRule = 0 ∨
        (m.shiftTokens s.shifts).any (fun t => m.tokenId t == 1) = false ∧
          ∃ r, m.LastHandler s r ∧ table.defaultRule = m.ruleId r.rule) ∧
      ∀ t e, table.perform (m.tokenId t) = .reduce e ↔
        (∃ r, m.Handles s r t ∧ m.ruleId r.rule = e) ∨
          m.tokenAction s t = 0 ∧ table.defaultRule ≠ 0 ∧ table.defaultRule = e := by
  obtain ⟨row, hrun, hrow⟩ := actionRow_eq hs hneeded
  by_cases hnone : (m.shiftTokens s.shifts).any (fun t => m.tokenId t == 1) = true ∨
      ∀ r ∈ s.reductions, ∀ t, ¬m.Handles s r t
  · refine ⟨row, ⟨0, _⟩, hrun, hrow, ?_, Or.inl ⟨hnone, rfl⟩, fun t e =>
      perform_eq_reduce_iff hs hrow (Or.inl ⟨rfl, rfl⟩)⟩
    rw [putYydefact, hrun, some_bind]
    simp only [chooseDefault_eq_zero hs hneeded hrow hnone, if_true]
  · obtain ⟨hshift, hsome⟩ := not_or.mp hnone
    have hshift := Bool.eq_false_iff.mpr hshift
    obtain ⟨r, hr, t, ht⟩ : ∃ r ∈ s.reductions, ∃ t, m.Handles s r t := by
      by_contra hall
      exact hsome fun r hr t ht => hall ⟨r, hr, t, ht⟩
    obtain ⟨r', hlast, hchoose⟩ := exists_chooseDefault hs hneeded hrow hr ht
    obtain ⟨before, after, hlist, -, -⟩ := id hlast
    have hmem : r' ∈ s.reductions := hlist ▸ mem_append_right _ mem_cons_self
    have hpos := hs.ruleId_pos r' hmem
    refine ⟨row, ⟨m.ruleId r'.rule, _⟩, hrun, hrow, ?_, Or.inr ⟨hshift, r', hlast, rfl⟩,
      fun t e => perform_eq_reduce_iff hs hrow (Or.inr ⟨r', hmem, rfl, rfl⟩)⟩
    rw [putYydefact, hrun, some_bind]
    simp only [hshift, hchoose, if_neg (Int.ne_of_gt hpos)]

end

end Machine

end Gobo
