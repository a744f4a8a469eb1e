/-
Conflicts of a state of the parsing machine (`PR_STATE.resolve_conflicts`): the tokens, the
shifts and the lookaheads are edited while the tokens are scanned from their end.
-/
import Gobo.ListEdits
import Mathlib.Computability.Language

namespace Gobo

open List

/-- `associativity` of a token. -/
inductive Associativity
  | unset
  | left
  | right
  | non
  deriving DecidableEq

/-- The attributes of the tokens `T`, the rules `R` and the states `Q` of a machine. -/
structure Machine (T V R Q : Type) where
  accessingSymbol : Q → Symbol T V
  stateId : Q → Int
  tokenId : T → Nat
  tokenName : T → String
  ruleId : R → Int
  /-- The name of the left-hand side. -/
  lhsName : R → String
  tokenPrecedence : T → Int
  rulePrecedence : R → Int
  associativity : T → Associativity

/-- `PR_REDUCTION`. -/
structure Reduction (T R : Type) where
  rule : R
  lookaheads : List T

/-- `PR_CONFLICT`, with the state's id. -/
structure Conflict (T R : Type) where
  state : Int
  rule : R
  token : T
  resolution : String

/-- `PR_STATE`, with its shifts to the states `Q`. -/
structure MachineState (T R Q : Type) where
  id : Int
  shifts : List Q
  reductions : List (Reduction T R)
  errors : List T
  lookaheadNeeded : Bool
  hasConflict : Bool

namespace Machine

variable {T V R Q : Type}

/-- The token of a shift. -/
def shiftToken (m : Machine T V R Q) (q : Q) : Option T :=
  match m.accessingSymbol q with
  | .terminal t => some t
  | .nonterminal _ => none

/-- `tokens` of `resolve_conflicts`, from the last shift to the first one. -/
def shiftTokens (m : Machine T V R Q) (shifts : List Q) : List T :=
  shifts.reverse.filterMap m.shiftToken

theorem mem_shiftTokens {m : Machine T V R Q} {shifts : List Q} {t : T} :
    t ∈ m.shiftTokens shifts ↔ ∃ q ∈ shifts, m.shiftToken q = some t := by
  rw [shiftTokens, mem_filterMap]
  simp only [mem_reverse]

theorem shiftTokens_cons (m : Machine T V R Q) (q : Q) (shifts : List Q) :
    m.shiftTokens (q :: shifts) = m.shiftTokens shifts ++ (m.shiftToken q).toList := by
  rw [shiftTokens, reverse_cons, filterMap_append, shiftTokens]
  cases hq : m.shiftToken q with
  | none => rw [filterMap_cons_none hq]; rfl
  | some t => rw [filterMap_cons_some hq]; rfl

theorem accessingSymbol_of_shiftToken {m : Machine T V R Q} {t : T} {q : Q}
    (h : m.shiftToken q = some t) :
    m.accessingSymbol q = .terminal t := by
  rw [shiftToken] at h
  split at h
  case h_1 t' heq => rw [heq, Option.some.inj h]
  case h_2 => exact nomatch h

section

variable [DecidableEq T]

/-- Is the symbol of the shift this token? -/
def shiftsToken (m : Machine T V R Q) (t : T) (q : Q) : Bool :=
  decide (m.shiftToken q = some t)

/-- `remove_shift`: the list is scanned from its end. -/
def removeShift (m : Machine T V R Q) (t : T) (shifts : List Q) : List Q :=
  (shifts.reverse.eraseP (m.shiftsToken t)).reverse

/-- The data of `resolve_conflicts`; `lookaheads` are those of the current reduction. -/
structure Resolving (T R Q : Type) where
  tokens : List T
  lookaheads : List T
  shifts : List Q
  errors : List T
  conflicts : List (Conflict T R)

/-- Keep only the reduction; `j` is the index of the token from 0. -/
def keepReduction (m : Machine T V R Q) (id : Int) (r : R) (j : Nat) (t : T)
    (s : Resolving T R Q) : Resolving T R Q :=
  { s with
    tokens := s.tokens.eraseIdx j
    shifts := m.removeShift t s.shifts
    conflicts := s.conflicts ++ [⟨id, r, t, "reduce"⟩] }

/-- Keep only the shift. -/
def keepShift (id : Int) (r : R) (t : T) (s : Resolving T R Q) : Resolving T R Q :=
  { s with
    lookaheads := s.lookaheads.filter fun t' => t' ≠ t
    conflicts := s.conflicts ++ [⟨id, r, t, "shift"⟩] }

/-- Keep neither. -/
def keepNeither (m : Machine T V R Q) (id : Int) (r : R) (j : Nat) (t : T)
    (s : Resolving T R Q) : Resolving T R Q :=
  { s with
    tokens := s.tokens.eraseIdx j
    lookaheads := s.lookaheads.filter fun t' => t' ≠ t
    shifts := m.removeShift t s.shifts
    -- Record an explicit error for this token.
    errors := s.errors ++ [t]
    conflicts := s.conflicts ++ [⟨id, r, t, "an error"⟩] }

/-- A turn of the loop over the tokens, at the index `j` from 0. -/
def resolveToken (m : Machine T V R Q) (id : Int) (r : R) (j : Nat) (s : Resolving T R Q) :
    Option (Resolving T R Q) := do
  let t ← s.tokens[j]?
  some (if m.tokenPrecedence t ≠ 0 then
      if t ∈ s.lookaheads then
        if m.tokenPrecedence t < m.rulePrecedence r then m.keepReduction id r j t s
        else if m.rulePrecedence r < m.tokenPrecedence t then keepShift id r t s
        else
          match m.associativity t with
          | .left => m.keepReduction id r j t s
          | .right => keepShift id r t s
          | .non => m.keepNeither id r j t s
          | .unset => s
      else s
    else s)

/-- The loop over the tokens, from the index `j - 1` down to 0. -/
def resolveTokens (m : Machine T V R Q) (id : Int) (r : R) :
    Nat → Resolving T R Q → Option (Resolving T R Q)
  | 0, s => some s
  | j + 1, s => (m.resolveToken id r j s).bind (m.resolveTokens id r j)

/-- A turn of the loop over the reductions. -/
def resolveReduction (m : Machine T V R Q) (id : Int) (r : Reduction T R)
    (s : Resolving T R Q) : Option (Resolving T R Q) :=
  if m.rulePrecedence r.rule ≠ 0 then
    m.resolveTokens id r.rule s.tokens.length { s with lookaheads := r.lookaheads }
  else some { s with lookaheads := r.lookaheads }

/-- The loop over the reductions, which gives them their new lookaheads. -/
def resolveReductions (m : Machine T V R Q) (id : Int) :
    List (Reduction T R) → Resolving T R Q → Option (List (Reduction T R) × Resolving T R Q)
  | [], s => some ([], s)
  | r :: reductions, s => do
      let s ← m.resolveReduction id r s
      let (rest, s') ← m.resolveReductions id reductions s
      some ({ r with lookaheads := s.lookaheads } :: rest, s')

/-- A turn of the last loop: a token that is in the list already is in conflict. -/
def detectConflict : List T × Bool → T → List T × Bool
  | (tokens, hasConflict), t =>
      if t ∈ tokens then (tokens, true) else (tokens ++ [t], hasConflict)

/-- The last loop, over the reductions and their lookaheads from their ends. -/
def detectConflicts (tokens : List T) (reductions : List (Reduction T R)) : Bool :=
  (reductions.reverse.foldl (fun d r => r.lookaheads.reverse.foldl detectConflict d)
    (tokens, false)).2

/-- `resolve_conflicts`, with the conflicts that it resolves. -/
def resolveConflicts (m : Machine T V R Q) (s : MachineState T R Q) :
    Option (MachineState T R Q × List (Conflict T R)) := do
  let (reductions, s') ← m.resolveReductions s.id s.reductions
    ⟨m.shiftTokens s.shifts, [], s.shifts, s.errors, []⟩
  some ({ s with
    shifts := s'.shifts
    reductions := reductions
    errors := s'.errors
    hasConflict := detectConflicts s'.tokens reductions }, s'.conflicts)

end

/-- What becomes of a token that is shifted and a lookahead. -/
inductive Resolution
  | reduce
  | shift
  | error
  deriving DecidableEq

/-- The action between the reduction of a rule and the shift of a token. -/
def resolution (m : Machine T V R Q) (r : R) (t : T) : Option Resolution :=
  if m.rulePrecedence r = 0 ∨ m.tokenPrecedence t = 0 then none
  else if m.tokenPrecedence t < m.rulePrecedence r then some .reduce
  else if m.rulePrecedence r < m.tokenPrecedence t then some .shift
  else
    match m.associativity t with
    | .left => some .reduce
    | .right => some .shift
    | .non => some .error
    | .unset => none

/-- The reduction loses the token to its shift. -/
def losesToken (m : Machine T V R Q) (r : Reduction T R) (t : T) : Bool :=
  decide (m.resolution r.rule t = some .shift) || decide (m.resolution r.rule t = some .error)

theorem losesToken_of_none {m : Machine T V R Q} {r : Reduction T R}
    (hr : m.rulePrecedence r.rule = 0) (t : T) :
    m.losesToken r t = false := by
  rw [losesToken, resolution, if_pos (Or.inl hr)]
  rfl

variable [DecidableEq T]

/-- The reduction takes the token from the shifts. -/
def removesShift (m : Machine T V R Q) (r : Reduction T R) (t : T) : Bool :=
  decide (t ∈ r.lookaheads) &&
    (decide (m.resolution r.rule t = some .reduce) || decide (m.resolution r.rule t = some .error))

/-- The token is an error. -/
def isError (m : Machine T V R Q) (r : Reduction T R) (t : T) : Bool :=
  decide (t ∈ r.lookaheads) && decide (m.resolution r.rule t = some .error)

/-- The token is one of `tokens`, and still shifted after these reductions. -/
def remainsShifted (m : Machine T V R Q) (tokens : List T) (reductions : List (Reduction T R))
    (t : T) : Bool :=
  decide (t ∈ tokens) && reductions.all fun r => !m.removesShift r t

section

variable {m : Machine T V R Q} {id : Int} {r : Reduction T R} {t : T} {s s₀ : Resolving T R Q}
  {shifts : List Q} {tokens front back : List T}

theorem shiftsToken_iff {q : Q} : m.shiftsToken t q = true ↔ m.shiftToken q = some t :=
  decide_eq_true_iff

/-- No token is shifted twice. -/
def AreDistinct (m : Machine T V R Q) (shifts : List Q) : Prop :=
  shifts.Pairwise fun q q' => ∀ t, ¬(m.shiftsToken t q = true ∧ m.shiftsToken t q' = true)

theorem removeShift_eq (h : m.AreDistinct shifts) (t : T) :
    m.removeShift t shifts = shifts.filter fun q => !m.shiftsToken t q := by
  have hreverse : shifts.reverse.Pairwise fun q q' =>
      ¬(m.shiftsToken t q = true ∧ m.shiftsToken t q' = true) :=
    pairwise_reverse.mpr (h.imp fun hq hboth => hq t hboth.symm)
  rw [removeShift, eraseP_eq_filter hreverse, filter_reverse, reverse_reverse]

theorem resolveToken_eq {r : R} {j : Nat} (hr : m.rulePrecedence r ≠ 0)
    (ht : s.tokens[j]? = some t) :
    m.resolveToken id r j s = some (if t ∈ s.lookaheads then
      match m.resolution r t with
      | some .reduce => m.keepReduction id r j t s
      | some .shift => keepShift id r t s
      | some .error => m.keepNeither id r j t s
      | none => s
      else s) := by
  rw [resolveToken, ht, Option.bind_eq_bind, Option.bind_some]
  by_cases hprecedence : m.tokenPrecedence t = 0
  · rw [if_neg (not_not.mpr hprecedence), resolution, if_pos (Or.inr hprecedence), ite_self]
  · rw [if_pos hprecedence, resolution, if_neg (not_or.mpr ⟨hr, hprecedence⟩)]
    congr 1
    refine if_congr Iff.rfl ?_ rfl
    split
    case isTrue => rfl
    case isFalse =>
        split
        case isTrue => rfl
        case isFalse => cases m.associativity t <;> rfl

/-- The tokens of `back` have been scanned for the reduction `r`. -/
structure Scanned (m : Machine T V R Q) (r : Reduction T R) (s₀ : Resolving T R Q)
    (front back : List T) (s : Resolving T R Q) : Prop where
  split : s₀.tokens = front ++ back
  tokens : s.tokens = front ++ back.filter fun t => !m.removesShift r t
  lookaheads : s.lookaheads =
    r.lookaheads.filter fun t => !(decide (t ∈ back) && m.losesToken r t)
  shifts : s.shifts = s₀.shifts.filter fun q =>
    !back.any fun t => m.removesShift r t && m.shiftsToken t q
  errors : s.errors = s₀.errors ++ (back.filter (m.isError r)).reverse

theorem removesShift_of_notMem (h : t ∉ r.lookaheads) : m.removesShift r t = false := by
  rw [removesShift, decide_eq_false h, Bool.false_and]

theorem isError_of_notMem (h : t ∉ r.lookaheads) : m.isError r t = false := by
  rw [isError, decide_eq_false h, Bool.false_and]

theorem filter_kept (hkeep : t ∉ r.lookaheads ∨ m.losesToken r t = false) :
    (r.lookaheads.filter fun x => !(decide (x ∈ t :: back) && m.losesToken r x)) =
      r.lookaheads.filter fun x => !(decide (x ∈ back) && m.losesToken r x) := by
  refine filter_congr fun x hx => ?_
  by_cases hxt : x = t
  · rw [hxt] at hx ⊢
    rw [hkeep.resolve_left (not_not.mpr hx), Bool.and_false, Bool.and_false]
  · rw [decide_eq_decide.mpr (mem_cons.trans (or_iff_right hxt))]

theorem filter_lost (hloses : m.losesToken r t = true) :
    (r.lookaheads.filter fun x => !(decide (x ∈ t :: back) && m.losesToken r x)) =
      (r.lookaheads.filter fun x => !(decide (x ∈ back) && m.losesToken r x)).filter
        fun x => x ≠ t := by
  rw [filter_filter]
  refine filter_congr fun x _ => ?_
  by_cases hxt : x = t
  · rw [hxt, decide_eq_true mem_cons_self, hloses, decide_eq_false (not_not.mpr rfl)]
    rfl
  · rw [decide_eq_decide.mpr (mem_cons.trans (or_iff_right hxt)), decide_eq_true hxt,
      Bool.true_and]

theorem filter_shifts (hdistinct : m.AreDistinct s₀.shifts)
    (hremoves : m.removesShift r t = true) :
    m.removeShift t (s₀.shifts.filter fun q =>
        !back.any fun t => m.removesShift r t && m.shiftsToken t q) =
      s₀.shifts.filter fun q =>
        !(t :: back).any fun t => m.removesShift r t && m.shiftsToken t q := by
  rw [removeShift_eq (hdistinct.filter _), filter_filter]
  refine filter_congr fun q _ => ?_
  rw [any_cons, hremoves, Bool.true_and, Bool.not_or]

theorem filter_shifts_kept (hkeep : m.removesShift r t = false) :
    (s₀.shifts.filter fun q =>
        !(t :: back).any fun t => m.removesShift r t && m.shiftsToken t q) =
      s₀.shifts.filter fun q =>
        !back.any fun t => m.removesShift r t && m.shiftsToken t q := by
  refine filter_congr fun q _ => ?_
  rw [any_cons, hkeep, Bool.false_and, Bool.false_or]

/-- A turn of the loop over the tokens. -/
theorem Scanned.turn (hr : m.rulePrecedence r.rule ≠ 0) (hdistinct : m.AreDistinct s₀.shifts)
    (hnodup : s₀.tokens.Nodup) (h : m.Scanned r s₀ (front ++ [t]) back s) :
    ∃ s', m.resolveToken id r.rule front.length s = some s' ∧
      m.Scanned r s₀ front (t :: back) s' := by
  have hsplit : s₀.tokens = front ++ t :: back := by
    rw [h.split, append_assoc, singleton_append]
  have htokens : s.tokens = front ++ t :: back.filter fun t => !m.removesShift r t := by
    rw [h.tokens, append_assoc, singleton_append]
  have hnew : t ∉ back := by
    rw [hsplit] at hnodup
    exact (nodup_cons.mp (nodup_append.mp hnodup).2.1).1
  have hmem : t ∈ s.lookaheads ↔ t ∈ r.lookaheads := by
    rw [h.lookaheads, mem_filter, decide_eq_false hnew]
    exact and_iff_left rfl
  have hget : s.tokens[front.length]? = some t := by
    rw [htokens]
    exact getElem?_append_cons _ _ _
  have herase : s.tokens.eraseIdx front.length =
      front ++ back.filter fun t => !m.removesShift r t := by
    rw [htokens]
    exact eraseIdx_append_cons _ _ _
  -- The four lists, when the token is kept in each of them or removed from it.
  have hkeptTokens : m.removesShift r t = false →
      s.tokens = front ++ (t :: back).filter fun t => !m.removesShift r t := by
    intro hremoves
    rw [htokens, filter_cons_of_pos (by rw [hremoves]; rfl)]
  have hremovedTokens : m.removesShift r t = true → s.tokens.eraseIdx front.length =
      front ++ (t :: back).filter fun t => !m.removesShift r t := by
    intro hremoves
    rw [herase, filter_cons_of_neg (by rw [hremoves]; decide)]
  have hkeptShifts : m.removesShift r t = false → s.shifts = s₀.shifts.filter fun q =>
      !(t :: back).any fun t => m.removesShift r t && m.shiftsToken t q := by
    intro hremoves
    rw [h.shifts, filter_shifts_kept hremoves]
  have hremovedShifts : m.removesShift r t = true →
      m.removeShift t s.shifts = s₀.shifts.filter fun q =>
        !(t :: back).any fun t => m.removesShift r t && m.shiftsToken t q := by
    intro hremoves
    rw [h.shifts, filter_shifts hdistinct hremoves]
  have hkeptErrors : m.isError r t = false →
      s.errors = s₀.errors ++ ((t :: back).filter (m.isError r)).reverse := by
    intro herror
    rw [h.errors, filter_cons_of_neg (by rw [herror]; decide)]
  have hnewErrors : m.isError r t = true →
      s.errors ++ [t] = s₀.errors ++ ((t :: back).filter (m.isError r)).reverse := by
    intro herror
    rw [h.errors, filter_cons_of_pos herror, reverse_cons, append_assoc]
  have hkeptLookaheads : t ∉ r.lookaheads ∨ m.losesToken r t = false → s.lookaheads =
      r.lookaheads.filter fun x => !(decide (x ∈ t :: back) && m.losesToken r x) := by
    intro hkeep
    rw [h.lookaheads, filter_kept hkeep]
  have hlostLookaheads : m.losesToken r t = true → s.lookaheads.filter (fun x => x ≠ t) =
      r.lookaheads.filter fun x => !(decide (x ∈ t :: back) && m.losesToken r x) := by
    intro hloses
    rw [h.lookaheads, filter_lost hloses]
  refine ⟨_, resolveToken_eq hr hget, ?_⟩
  by_cases ht : t ∈ r.lookaheads
  · rw [if_pos (hmem.mpr ht)]
    cases hresolution : m.resolution r.rule t with
    | none =>
        have hremoves : m.removesShift r t = false := by
          rw [removesShift, hresolution]
          simp
        have hloses : m.losesToken r t = false := by
          rw [losesToken, hresolution]
          rfl
        have herror : m.isError r t = false := by
          rw [isError, hresolution]
          simp
        exact ⟨hsplit, hkeptTokens hremoves, hkeptLookaheads (Or.inr hloses),
          hkeptShifts hremoves, hkeptErrors herror⟩
    | some resolution =>
        have hremoves : m.removesShift r t = (decide (resolution = .reduce) ||
            decide (resolution = .error)) := by
          rw [removesShift, hresolution, decide_eq_true ht, Bool.true_and]
          simp only [Option.some.injEq]
        have hloses : m.losesToken r t = (decide (resolution = .shift) ||
            decide (resolution = .error)) := by
          rw [losesToken, hresolution]
          simp only [Option.some.injEq]
        have herror : m.isError r t = decide (resolution = .error) := by
          rw [isError, hresolution, decide_eq_true ht, Bool.true_and]
          simp only [Option.some.injEq]
        cases resolution with
        | reduce => exact ⟨hsplit, hremovedTokens hremoves, hkeptLookaheads (Or.inr hloses),
            hremovedShifts hremoves, hkeptErrors herror⟩
        | shift => exact ⟨hsplit, hkeptTokens hremoves, hlostLookaheads hloses,
            hkeptShifts hremoves, hkeptErrors herror⟩
        | error => exact ⟨hsplit, hremovedTokens hremoves, hlostLookaheads hloses,
            hremovedShifts hremoves, hnewErrors herror⟩
  · rw [if_neg (fun hin => ht (hmem.mp hin))]
    exact ⟨hsplit, hkeptTokens (removesShift_of_notMem ht), hkeptLookaheads (Or.inl ht),
      hkeptShifts (removesShift_of_notMem ht), hkeptErrors (isError_of_notMem ht)⟩

theorem Scanned.run (hr : m.rulePrecedence r.rule ≠ 0) (hdistinct : m.AreDistinct s₀.shifts)
    (hnodup : s₀.tokens.Nodup) (h : m.Scanned r s₀ front back s) :
    ∃ s', m.resolveTokens id r.rule front.length s = some s' ∧
      m.Scanned r s₀ [] (front ++ back) s' := by
  induction front using reverseRecOn generalizing back s with
  | nil => exact ⟨s, rfl, h⟩
  | append_singleton front t ih =>
      obtain ⟨s₁, hturn, h₁⟩ : ∃ s₁, m.resolveToken id r.rule front.length s = some s₁ ∧
          m.Scanned r s₀ front (t :: back) s₁ := h.turn hr hdistinct hnodup
      obtain ⟨s', hrun, h'⟩ := ih h₁
      refine ⟨s', ?_, ?_⟩
      · rw [length_append, length_singleton, resolveTokens, hturn]
        exact hrun
      · rw [append_assoc]
        exact h'

/-- A reduction of a rule with no precedence changes nothing. -/
theorem removesShift_of_none (hr : m.rulePrecedence r.rule = 0) (t : T) :
    m.removesShift r t = false := by
  rw [removesShift, resolution, if_pos (Or.inl hr)]
  simp

theorem isError_of_none (hr : m.rulePrecedence r.rule = 0) (t : T) :
    m.isError r t = false := by
  rw [isError, resolution, if_pos (Or.inl hr)]
  simp

/-- A turn of the loop over the reductions. -/
theorem scanned_all (hdistinct : m.AreDistinct s.shifts) (hnodup : s.tokens.Nodup) :
    ∃ s', m.resolveReduction id r s = some s' ∧ m.Scanned r s [] s.tokens s' := by
  rw [resolveReduction]
  split
  case isTrue hr =>
      have hstart : m.Scanned r s s.tokens [] { s with lookaheads := r.lookaheads } :=
        { split := (append_nil _).symm
          tokens := (append_nil _).symm
          lookaheads := by simp
          shifts := by simp
          errors := (append_nil _).symm }
      obtain ⟨s', hrun, h⟩ : ∃ s', m.resolveTokens id r.rule s.tokens.length
          { s with lookaheads := r.lookaheads } = some s' ∧
          m.Scanned r s [] (s.tokens ++ []) s' := hstart.run hr hdistinct hnodup
      exact ⟨s', hrun, append_nil s.tokens ▸ h⟩
  case isFalse hr =>
      have hnone := not_not.mp hr
      refine ⟨_, rfl, rfl, ?_, ?_, ?_, ?_⟩
      · simp [removesShift_of_none hnone]
      · simp [losesToken_of_none hnone]
      · refine (filter_eq_self.mpr fun q _ => ?_).symm
        rw [Bool.not_eq_true', any_eq_false]
        intro t _
        rw [removesShift_of_none hnone, Bool.false_and]
        exact Bool.false_ne_true
      · simp [isError_of_none hnone]

/-- The reductions with the lookaheads that are left to them. -/
def settled (m : Machine T V R Q) : List T → List (Reduction T R) → List (Reduction T R)
  | _, [] => []
  | tokens, r :: reductions =>
      { r with
        lookaheads := r.lookaheads.filter fun t => !(decide (t ∈ tokens) && m.losesToken r t) } ::
        m.settled (tokens.filter fun t => !m.removesShift r t) reductions

/-- The tokens that are recorded as errors. -/
def recorded (m : Machine T V R Q) : List T → List (Reduction T R) → List T
  | _, [] => []
  | tokens, r :: reductions =>
      (tokens.filter (m.isError r)).reverse ++
        m.recorded (tokens.filter fun t => !m.removesShift r t) reductions

/-- The shift is left after these reductions. -/
def keepsShift (m : Machine T V R Q) (tokens : List T) (reductions : List (Reduction T R))
    (q : Q) : Bool :=
  match m.shiftToken q with
  | none => true
  | some t => m.remainsShifted tokens reductions t

theorem remainsShifted_cons {reductions : List (Reduction T R)} :
    m.remainsShifted (tokens.filter fun t => !m.removesShift r t) reductions t =
      m.remainsShifted tokens (r :: reductions) t := by
  rw [remainsShifted, remainsShifted, all_cons, ← Bool.and_assoc]
  congr 1
  rw [Bool.eq_iff_iff, Bool.and_eq_true, decide_eq_true_iff, decide_eq_true_iff,
    mem_filter]

theorem remainsShifted_nil : m.remainsShifted tokens [] t = decide (t ∈ tokens) :=
  Bool.and_true _

theorem resolveReductions_eq {reductions : List (Reduction T R)}
    (hdistinct : m.AreDistinct s.shifts) (hnodup : s.tokens.Nodup)
    (hcover : ∀ q ∈ s.shifts, ∀ t, m.shiftToken q = some t → t ∈ s.tokens) :
    ∃ s', m.resolveReductions id reductions s = some (m.settled s.tokens reductions, s') ∧
      s'.tokens = s.tokens.filter (m.remainsShifted s.tokens reductions) ∧
      s'.shifts = s.shifts.filter (m.keepsShift s.tokens reductions) ∧
      s'.errors = s.errors ++ m.recorded s.tokens reductions := by
  induction reductions generalizing s with
  | nil =>
      refine ⟨s, rfl, ?_, ?_, (append_nil _).symm⟩
      · refine (filter_eq_self.mpr fun t ht => ?_).symm
        rw [remainsShifted_nil, decide_eq_true ht]
      · refine (filter_eq_self.mpr fun q hq => ?_).symm
        rw [keepsShift]
        cases hq' : m.shiftToken q with
        | none => rfl
        | some t =>
            show m.remainsShifted s.tokens [] t = true
            rw [remainsShifted_nil, decide_eq_true (hcover q hq t hq')]
  | cons r reductions ih =>
      obtain ⟨s₁, hone, hscanned⟩ : ∃ s₁, m.resolveReduction id r s = some s₁ ∧
          m.Scanned r s [] s.tokens s₁ := scanned_all hdistinct hnodup
      have htokens : s₁.tokens = s.tokens.filter fun t => !m.removesShift r t := hscanned.tokens
      have hkept : ∀ q ∈ s.shifts,
          (!s.tokens.any fun t => m.removesShift r t && m.shiftsToken t q) = true ↔
            ∀ t, m.shiftToken q = some t → m.removesShift r t = false := by
        intro q hq
        rw [Bool.not_eq_true', any_eq_false]
        constructor
        · intro hall t hqt
          have hnot := hall t (hcover q hq t hqt)
          rw [shiftsToken_iff.mpr hqt, Bool.and_true] at hnot
          exact Bool.eq_false_iff.mpr hnot
        · intro hall t _ hboth
          rw [Bool.and_eq_true, shiftsToken_iff] at hboth
          rw [hall t hboth.2] at hboth
          exact Bool.noConfusion hboth.1
      have hcover₁ : ∀ q ∈ s₁.shifts, ∀ t, m.shiftToken q = some t → t ∈ s₁.tokens := by
        intro q hq t hqt
        rw [hscanned.shifts] at hq
        obtain ⟨hq, hany⟩ := mem_filter.mp hq
        rw [htokens, mem_filter]
        refine ⟨hcover q hq t hqt, ?_⟩
        rw [(hkept q hq).mp hany t hqt]
        rfl
      obtain ⟨s', hrun, htokens', hshifts', herrors'⟩ := ih
        (by rw [hscanned.shifts]; exact hdistinct.filter _)
        (by rw [htokens]; exact hnodup.filter _) hcover₁
      refine ⟨s', ?_, ?_, ?_, ?_⟩
      · rw [resolveReductions, hone, Option.bind_eq_bind, Option.bind_some, hrun, settled,
          ← htokens, ← hscanned.lookaheads]
        rfl
      · rw [htokens', htokens, filter_filter]
        refine filter_congr fun t ht => ?_
        rw [remainsShifted_cons, remainsShifted, all_cons]
        cases m.removesShift r t <;> simp
      · rw [hshifts', hscanned.shifts, filter_filter]
        refine filter_congr fun q hq => ?_
        rw [Bool.eq_iff_iff, Bool.and_eq_true, hkept q hq, keepsShift, keepsShift]
        cases hqt : m.shiftToken q with
        | none => exact and_iff_left fun t ht => nomatch ht
        | some t =>
            show m.remainsShifted s₁.tokens reductions t = true ∧ _ ↔
              m.remainsShifted s.tokens (r :: reductions) t = true
            rw [htokens, remainsShifted_cons]
            refine and_iff_left_of_imp fun h t' ht' => ?_
            rw [remainsShifted, all_cons, Bool.and_eq_true, Bool.and_eq_true,
              Bool.not_eq_true'] at h
            exact Option.some.inj ht' ▸ h.2.1
      · rw [herrors', hscanned.errors, append_assoc, htokens]
        rfl

/-- The lookaheads of a reduction are settled by the reductions before it. -/
theorem settled_getElem? {before after : List (Reduction T R)} :
    (m.settled tokens (before ++ r :: after))[before.length]? = some { r with
      lookaheads := r.lookaheads.filter fun t =>
        !(m.remainsShifted tokens before t && m.losesToken r t) } := by
  induction before generalizing tokens with
  | nil => simp only [remainsShifted_nil]; rfl
  | cons b before ih =>
      simp only [← remainsShifted_cons]
      exact ih

section

variable {reductions : List (Reduction T R)}

theorem length_settled :
    (m.settled tokens reductions).length = reductions.length := by
  induction reductions generalizing tokens with
  | nil => rfl
  | cons r reductions ih => exact congrArg (· + 1) ih

theorem mem_recorded :
    t ∈ m.recorded tokens reductions ↔ ∃ before r after, reductions = before ++ r :: after ∧
      m.remainsShifted tokens before t = true ∧ m.isError r t = true := by
  induction reductions generalizing tokens with
  | nil =>
      refine ⟨fun h => absurd h not_mem_nil, fun ⟨before, r, after, h, _⟩ => ?_⟩
      exact absurd h (append_ne_nil_of_right_ne_nil _ (cons_ne_nil _ _)).symm
  | cons r reductions ih =>
      rw [recorded, mem_append, mem_reverse, mem_filter, ih]
      constructor
      · rintro (⟨ht, herror⟩ | ⟨before, r', after, rfl, hremains, herror⟩)
        · refine ⟨[], r, reductions, rfl, ?_, herror⟩
          rw [remainsShifted_nil, decide_eq_true ht]
        · rw [remainsShifted_cons] at hremains
          exact ⟨r :: before, r', after, rfl, hremains, herror⟩
      · rintro ⟨before, r', after, hsplit, hremains, herror⟩
        cases before with
        | nil =>
            obtain ⟨rfl, -⟩ := cons.inj hsplit
            rw [remainsShifted_nil, decide_eq_true_iff] at hremains
            exact Or.inl ⟨hremains, herror⟩
        | cons b before =>
            obtain ⟨rfl, rfl⟩ := cons.inj hsplit
            rw [← remainsShifted_cons] at hremains
            exact Or.inr ⟨before, r', after, rfl, hremains, herror⟩

theorem removesShift_of_isError (h : m.isError r t = true) : m.removesShift r t = true := by
  rw [isError, Bool.and_eq_true] at h
  rw [removesShift, h.1, h.2, Bool.or_true, Bool.and_true]

theorem nodup_recorded (hnodup : tokens.Nodup) :
    (m.recorded tokens reductions).Nodup := by
  induction reductions generalizing tokens with
  | nil => exact nodup_nil
  | cons r reductions ih =>
      refine nodup_append.mpr ⟨nodup_reverse.mpr (hnodup.filter _),
        ih (hnodup.filter _), ?_⟩
      rintro t ht _ ht' rfl
      have herror := (mem_filter.mp (mem_reverse.mp ht)).2
      obtain ⟨before, r', after, -, hremains, -⟩ := mem_recorded.mp ht'
      rw [remainsShifted_cons, remainsShifted, all_cons, removesShift_of_isError herror]
        at hremains
      simp at hremains

/-- The last loop finds a token that is met twice. -/
theorem detectConflict_iff {found : List T} {b : Bool} (hnodup : tokens.Nodup) :
    (found.foldl detectConflict (tokens, b)).2 = true ↔ b = true ∨ ¬(tokens ++ found).Nodup := by
  induction found generalizing tokens b with
  | nil =>
      rw [append_nil]
      exact (or_iff_left (not_not.mpr hnodup)).symm
  | cons t found ih =>
      rw [foldl_cons, detectConflict]
      split
      case isTrue ht =>
          rw [ih hnodup]
          have htwice : ¬(tokens ++ t :: found).Nodup := fun h =>
            (nodup_append.mp h).2.2 t ht t mem_cons_self rfl
          exact ⟨fun _ => Or.inr htwice, fun _ => Or.inl rfl⟩
      case isFalse ht =>
          have hmore : (tokens ++ [t]).Nodup := concat_eq_append ▸ hnodup.concat ht
          rw [ih hmore, append_assoc, singleton_append]

theorem nodup_settled (h : ∀ r ∈ reductions, r.lookaheads.Nodup) :
    ∀ r ∈ m.settled tokens reductions, r.lookaheads.Nodup := by
  induction reductions generalizing tokens with
  | nil => exact fun r hr => absurd hr not_mem_nil
  | cons r reductions ih =>
      intro r' hr'
      rcases mem_cons.mp hr' with rfl | hr'
      · exact (h r mem_cons_self).filter _
      · exact ih (fun r hr => h r (mem_cons_of_mem _ hr)) r' hr'

end

/-- A state as the machine is built: one shift for each symbol, and no token twice in the
lookaheads of a reduction. -/
structure IsBuilt (m : Machine T V R Q) (s : MachineState T R Q) : Prop where
  one_shift : (s.shifts.map m.accessingSymbol).Nodup
  lookaheads_nodup : ∀ r ∈ s.reductions, r.lookaheads.Nodup

theorem areDistinct_of_nodup (h : (shifts.map m.accessingSymbol).Nodup) :
    m.AreDistinct shifts := by
  refine (pairwise_map.mp h).imp fun hne t hboth => hne ?_
  rw [accessingSymbol_of_shiftToken (shiftsToken_iff.mp hboth.1),
    accessingSymbol_of_shiftToken (shiftsToken_iff.mp hboth.2)]

theorem nodup_shiftTokens (h : (shifts.map m.accessingSymbol).Nodup) :
    (m.shiftTokens shifts).Nodup := by
  have hdistinct := areDistinct_of_nodup h
  refine pairwise_filterMap.mpr (pairwise_reverse.mpr (hdistinct.imp ?_))
  rintro q q' hne t hq t' hq' rfl
  exact hne t ⟨shiftsToken_iff.mpr hq', shiftsToken_iff.mpr hq⟩

/-- A token is met twice: shifted and reduced, or reduced by two rules. -/
theorem conflict_iff {reductions : List (Reduction T R)}
    (hnodup : tokens.Nodup) (hlookaheads : ∀ r ∈ reductions, r.lookaheads.Nodup) :
    detectConflicts tokens reductions = true ↔
      (∃ t ∈ tokens, ∃ r ∈ reductions, t ∈ r.lookaheads) ∨
        ∃ (t : T) (i k : Nat) (r r' : Reduction T R), i < k ∧ reductions[i]? = some r ∧
          reductions[k]? = some r' ∧ t ∈ r.lookaheads ∧ t ∈ r'.lookaheads := by
  have hmem : ∀ t, t ∈ (reductions.reverse.flatMap fun r => r.lookaheads.reverse) ↔
      ∃ r ∈ reductions, t ∈ r.lookaheads := by
    intro t
    simp only [List.mem_flatMap, List.mem_reverse]
  have hflat : (reductions.reverse.flatMap fun r => r.lookaheads.reverse).Nodup ↔
      reductions.Pairwise fun r r' => ∀ t ∈ r.lookaheads, t ∉ r'.lookaheads := by
    rw [List.nodup_flatMap]
    constructor
    · rintro ⟨-, hpairwise⟩
      refine (List.pairwise_reverse.mp hpairwise).imp fun {r r'} hdisjoint t ht ht' => ?_
      exact hdisjoint (List.mem_reverse.mpr ht') (List.mem_reverse.mpr ht)
    · intro hpairwise
      refine ⟨fun r hr => List.nodup_reverse.mpr (hlookaheads r (List.mem_reverse.mp hr)),
        List.pairwise_reverse.mpr (hpairwise.imp fun {r r'} hnone => ?_)⟩
      exact fun t ht ht' => hnone t (List.mem_reverse.mp ht') (List.mem_reverse.mp ht)
  rw [detectConflicts, ← List.foldl_flatMap, detectConflict_iff hnodup,
    or_iff_right Bool.false_ne_true,
    List.nodup_append, hflat]
  constructor
  · intro htwice
    by_contra hnone
    rw [not_or] at hnone
    refine htwice ⟨hnodup, List.pairwise_iff_getElem.mpr fun i k hi hk hik t ht ht' => ?_,
      fun t ht t' ht' heq => ?_⟩
    · exact hnone.2 ⟨t, i, k, _, _, hik, List.getElem?_eq_getElem hi,
        List.getElem?_eq_getElem hk, ht, ht'⟩
    · exact hnone.1 ⟨t, ht, (hmem t).mp (heq ▸ ht')⟩
  · rintro (⟨t, ht, hin⟩ | ⟨t, i, k, r, r', hik, hr, hr', ht, ht'⟩) ⟨-, hpairwise, hdisjoint⟩
    · exact hdisjoint t ht t ((hmem t).mpr hin) rfl
    · obtain ⟨hi, rfl⟩ := List.getElem?_eq_some_iff.mp hr
      obtain ⟨hk, rfl⟩ := List.getElem?_eq_some_iff.mp hr'
      exact List.pairwise_iff_getElem.mp hpairwise i k hi hk hik t ht ht'

/-- `resolve_conflicts` processes the reductions in order, for each token that is shifted:
a reduction loses the token or takes it from the shifts, or both, by precedence and
associativity.  Nothing else changes, and `has_conflict` tells whether some token is still
shifted and reduced, or reduced by two rules. -/
theorem resolveConflicts_resolves {s : MachineState T R Q} (hs : m.IsBuilt s) :
    ∃ s' conflicts, m.resolveConflicts s = some (s', conflicts) ∧ s'.id = s.id ∧
      s'.lookaheadNeeded = s.lookaheadNeeded ∧
      s'.shifts = s.shifts.filter (m.keepsShift (m.shiftTokens s.shifts) s.reductions) ∧
      s'.reductions.length = s.reductions.length ∧
      (∀ before r after, s.reductions = before ++ r :: after →
        s'.reductions[before.length]? = some { r with
          lookaheads := r.lookaheads.filter fun t =>
            !(m.remainsShifted (m.shiftTokens s.shifts) before t && m.losesToken r t) }) ∧
      (∃ recorded, s'.errors = s.errors ++ recorded ∧ recorded.Nodup ∧
        ∀ t, t ∈ recorded ↔ ∃ before r after, s.reductions = before ++ r :: after ∧
          m.remainsShifted (m.shiftTokens s.shifts) before t = true ∧ m.isError r t = true) ∧
      (s'.hasConflict = true ↔
        (∃ t, (∃ q ∈ s'.shifts, m.shiftToken q = some t) ∧
          ∃ r ∈ s'.reductions, t ∈ r.lookaheads) ∨
        ∃ (t : T) (i k : Nat) (r r' : Reduction T R), i < k ∧ s'.reductions[i]? = some r ∧
          s'.reductions[k]? = some r' ∧ t ∈ r.lookaheads ∧ t ∈ r'.lookaheads) := by
  have hnodup := nodup_shiftTokens hs.one_shift
  obtain ⟨s', hrun, htokens, hshifts, herrors⟩ : ∃ s', m.resolveReductions s.id s.reductions
      ⟨m.shiftTokens s.shifts, [], s.shifts, s.errors, []⟩ =
        some (m.settled (m.shiftTokens s.shifts) s.reductions, s') ∧ _ ∧ _ ∧ _ :=
    resolveReductions_eq (areDistinct_of_nodup hs.one_shift) hnodup
      fun q hq t ht => mem_shiftTokens.mpr ⟨q, hq, ht⟩
  have hresolve : m.resolveConflicts s = some ({ s with
      shifts := s'.shifts
      reductions := m.settled (m.shiftTokens s.shifts) s.reductions
      errors := s'.errors
      hasConflict := detectConflicts s'.tokens
        (m.settled (m.shiftTokens s.shifts) s.reductions) }, s'.conflicts) := by
    rw [resolveConflicts, hrun, Option.bind_eq_bind, Option.bind_some]
  refine ⟨_, s'.conflicts, hresolve, rfl, rfl, hshifts, length_settled, ?_, ⟨_, herrors,
    nodup_recorded hnodup, fun t => mem_recorded⟩, ?_⟩
  · intro before r after hsplit
    show (m.settled (m.shiftTokens s.shifts) s.reductions)[before.length]? = _
    rw [hsplit]
    exact settled_getElem?
  · have hremaining : ∀ t, t ∈ s'.tokens ↔ ∃ q ∈ s'.shifts, m.shiftToken q = some t := by
      intro t
      rw [htokens, hshifts, mem_filter, mem_shiftTokens]
      constructor
      · rintro ⟨⟨q, hq, hqt⟩, hremains⟩
        refine ⟨q, mem_filter.mpr ⟨hq, ?_⟩, hqt⟩
        rw [keepsShift, hqt]
        exact hremains
      · rintro ⟨q, hq, hqt⟩
        obtain ⟨hq, hkeeps⟩ := mem_filter.mp hq
        rw [keepsShift, hqt] at hkeeps
        exact ⟨⟨q, hq, hqt⟩, hkeeps⟩
    have hleft : s'.tokens.Nodup := htokens ▸ hnodup.filter _
    refine (conflict_iff hleft (nodup_settled hs.lookaheads_nodup)).trans ?_
    refine or_congr ⟨fun ⟨t, ht, hr⟩ => ⟨t, (hremaining t).mp ht, hr⟩,
      fun ⟨t, ht, hr⟩ => ⟨t, (hremaining t).mpr ht, hr⟩⟩ Iff.rfl

end

/-- A state after an expression: the token 2 is left associative, the token 3 is not
associative. -/
def expressionMachine : Machine Nat Nat Nat Nat where
  accessingSymbol q := if q < 7 then .terminal (q - 3) else .nonterminal 0
  stateId q := q
  tokenId t := t
  tokenName t := toString t
  ruleId r := r
  lhsName _ := "expression"
  tokenPrecedence t := if t = 2 ∨ t = 3 then 1 else 0
  rulePrecedence _ := 1
  associativity t := if t = 2 then .left else .non

def expressionState : MachineState Nat Nat Nat where
  id := 4
  shifts := [5, 6, 7]
  reductions := [⟨1, [0, 2, 3]⟩]
  errors := []
  lookaheadNeeded := true
  hasConflict := false

theorem resolveConflicts_resolves_expression :
    ∃ s' conflicts, expressionMachine.resolveConflicts expressionState = some (s', conflicts) ∧
      s'.shifts = [7] ∧ s'.errors = [3] ∧ s'.hasConflict = false ∧
      ∀ t, (∃ q ∈ s'.shifts, expressionMachine.shiftToken q = some t) →
        ∀ r ∈ s'.reductions, t ∉ r.lookaheads := by
  have hbuilt : expressionMachine.IsBuilt expressionState :=
    ⟨by decide, fun r hr => by rw [mem_singleton.mp hr]; decide⟩
  obtain ⟨s', conflicts, hrun, -, -, -, -, -, -, hconflict⟩ := resolveConflicts_resolves hbuilt
  have heval : (expressionMachine.resolveConflicts expressionState).map
      (fun s => (s.1.shifts, s.1.errors, s.1.hasConflict)) = some ([7], [3], false) := by decide
  rw [hrun] at heval
  simp only [Option.map_some, Option.some.injEq, Prod.mk.injEq] at heval
  obtain ⟨hshifts, herrors, hno⟩ := heval
  refine ⟨s', conflicts, hrun, hshifts, herrors, hno, fun t ht r hr hin => ?_⟩
  rw [hconflict.mpr (Or.inl ⟨t, ht, r, hr, hin⟩)] at hno
  exact Bool.noConfusion hno

end Machine

end Gobo
