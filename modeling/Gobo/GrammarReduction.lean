/-
Removal of useless variables and rules (`PR_GRAMMAR.reduce`): two passes share the flags
`is_useful`, then the lists are edited and renumbered.
-/
import Gobo.Grammar
import Gobo.ListEdits

namespace Gobo

open List Function ContextFree

namespace Grammar

variable {T V R : Type}

section

variable [DecidableEq V] [DecidableEq R]

/-- `a_symbol.is_terminal or a_symbol.is_useful`. -/
def symbolIsUseful (g : Grammar T V R) : Symbol T V → Bool
  | .terminal _ => true
  | .nonterminal v => g.variableIsUseful v

/-- `a_rule.set_useful (b)`. -/
def setRuleUseful (g : Grammar T V R) (r : R) (b : Bool) : Grammar T V R :=
  { g with ruleIsUseful := update g.ruleIsUseful r b }

/-- `a_variable.set_useful (b)`. -/
def setVariableUseful (g : Grammar T V R) (v : V) (b : Bool) : Grammar T V R :=
  { g with variableIsUseful := update g.variableIsUseful v b }

/-- `a_token.set_useful (True)`. -/
def setTokenUseful [DecidableEq T] (g : Grammar T V R) (t : T) : Grammar T V R :=
  { g with tokenIsUseful := update g.tokenIsUseful t true }

/-- A turn of the loop of `mark_useful_variables` over the rules, with the flag `changed`.
The right-hand side is read from its end. -/
def markRule : Grammar T V R × Bool → R → Grammar T V R × Bool
  | (g, changed), r =>
    if g.ruleIsUseful r then (g, changed)
    else if (g.rhs r).reverse.all g.symbolIsUseful then
      if g.variableIsUseful (g.lhs r) then (g.setRuleUseful r true, changed)
      else ((g.setRuleUseful r true).setVariableUseful (g.lhs r) true, true)
    else (g.setRuleUseful r false, changed)

/-- A turn of the outer loop. -/
def markRules : Grammar T V R × Bool → Option (Grammar T V R × Bool)
  | (g, _) => some (g.rules.foldl markRule (g, false))

def markUsefulVariables (g : Grammar T V R) : Option (Grammar T V R) :=
  (loopUntil (fun s => some (decide (s.2 = false))) markRules
    (g.rules.length + 2) (g, true)).map Prod.fst

variable [DecidableEq T]

/-- A turn of the loop of `traverse_variable` over the symbols of a right-hand side. -/
def traverseSymbol (traverse : V → Grammar T V R → Option (Grammar T V R))
    (g : Grammar T V R) : Symbol T V → Option (Grammar T V R)
  | .terminal t => some (g.setTokenUseful t)
  | .nonterminal v =>
      if g.variableIsUseful v then some g else traverse v (g.setVariableUseful v true)

/-- A turn of its loop over the rules of a variable. -/
def traverseRule (traverse : V → Grammar T V R → Option (Grammar T V R))
    (g : Grammar T V R) (r : R) : Option (Grammar T V R) :=
  if g.ruleIsUseful r then (g.rhs r).reverse.foldlM (traverseSymbol traverse) g else some g

/-- The lists are read from their ends; the calls are nested at most `fuel` deep. -/
def traverseVariable : Nat → V → Grammar T V R → Option (Grammar T V R)
  | 0, _, _ => none
  | fuel + 1, v, g =>
      (g.variableRules v).reverse.foldlM (traverseRule (traverseVariable fuel)) g

/-- The traversal of `mark_useful_rules`, when `start_symbol` was useful. -/
def traverseStart (g : Grammar T V R) (useful : Bool) : Option (Grammar T V R) :=
  if useful then
    traverseVariable (g.variableList.length + 2) g.startSymbol
      (g.setVariableUseful g.startSymbol true)
  else some g

def markUsefulRules (g : Grammar T V R) : Option (Grammar T V R) :=
  let useful := g.variableIsUseful g.startSymbol
  let g := g.variableList.reverse.foldl (fun g v => g.setVariableUseful v false) g
  (g.traverseStart useful).map fun g => g.rules.reverse.foldl
    (fun g r => if g.variableIsUseful (g.lhs r) then g else g.setRuleUseful r false) g

/-- A turn of the loop that removes the useless rules; `i` is an index from 1. -/
def reduceRule : Nat × Grammar T V R × Nat → Option (Nat × Grammar T V R × Nat)
  | (i, g, uselessRules) => do
      let r ← g.rules[i - 1]?
      if g.ruleIsUseful r then
        some (i + 1, { g with ruleId := update g.ruleId r i }, uselessRules)
      else some (i, { g with rules := g.rules.eraseIdx (i - 1) }, uselessRules + 1)

/-- A turn of the loop over the rules of a kept variable, from their end. -/
def reduceOwnRule (isUseful : R → Bool) : Nat × List R → Option (Nat × List R)
  | (j, rules) => do
      let r ← rules[j - 1]?
      if isUseful r then some (j - 1, rules) else some (j - 1, rules.eraseIdx (j - 1))

def reduceOwnRules (isUseful : R → Bool) (rules : List R) : Option (List R) :=
  (loopUntil (fun s => some (decide (s.1 < 1))) (reduceOwnRule isUseful)
    (rules.length + 1) (rules.length, rules)).map Prod.snd

/-- A turn of the loop that removes the useless variables. -/
def reduceVariable : Nat × Grammar T V R × Nat → Option (Nat × Grammar T V R × Nat)
  | (i, g, uselessVariables) => do
      let v ← g.variableList[i - 1]?
      if g.variableIsUseful v then
        let own ← reduceOwnRules g.ruleIsUseful (g.variableRules v)
        some (i + 1, { g with
          -- Variables are indexed from 0.
          variableId := update g.variableId v (i - 1)
          variableRules := update g.variableRules v own }, uselessVariables)
      else some (i, { g with variableList := g.variableList.eraseIdx (i - 1) },
        uselessVariables + 1)

/-- The warning for the numbers of variables and rules that were removed. -/
def uselessMessage (uselessVariables uselessRules : Nat) : Option String :=
  if uselessVariables > 0 ∨ uselessRules > 0 then
    some ("Parser contains " ++ (if uselessVariables = 1 then "1 useless nonterminal"
        else if uselessVariables > 1 then toString uselessVariables ++ " useless nonterminals"
        else "") ++
      (if uselessVariables > 0 ∧ uselessRules > 0 then " and " else "") ++
      (if uselessRules = 1 then "1 useless rule"
        else if uselessRules > 1 then toString uselessRules ++ " useless rules"
        else "") ++ ".\n")
  else none

/-- `reduce`, with what is reported to the error handler. -/
def reduce (g : Grammar T V R) : Option (Grammar T V R × Option String) := do
  let g ← g.markUsefulVariables
  let g ← g.markUsefulRules
  let (_, g, uselessRules) ← loopUntil
    (fun s : Nat × Grammar T V R × Nat => some (decide (s.2.1.rules.length < s.1))) reduceRule
    (g.rules.length + 1) (1, g, 0)
  let (_, g, uselessVariables) ← loopUntil
    (fun s : Nat × Grammar T V R × Nat => some (decide (s.2.1.variableList.length < s.1)))
    reduceVariable (g.variableList.length + 1) (1, g, 0)
  some (g, uselessMessage uselessVariables uselessRules)

end

/-- The grammar with other flags. -/
def withFlags (g : Grammar T V R) (fr : R → Bool) (fv : V → Bool) (ft : T → Bool) :
    Grammar T V R :=
  { g with ruleIsUseful := fr, variableIsUseful := fv, tokenIsUseful := ft }

section

variable {g : Grammar T V R} {fr : R → Bool} {fv : V → Bool} {r : R}

/-- All the symbols of the right-hand side are useful. -/
def Usable (g : Grammar T V R) (fv : V → Bool) (r : R) : Prop :=
  ∀ v, Symbol.nonterminal v ∈ g.rhs r → fv v = true

theorem usable_iff {ft : T → Bool} :
    (g.rhs r).reverse.all (g.withFlags fr fv ft).symbolIsUseful = true ↔ g.Usable fv r := by
  rw [all_eq_true]
  constructor
  · intro h v hv
    exact h _ (mem_reverse.mpr hv)
  · intro h s hs
    cases s with
    | terminal t => rfl
    | nonterminal v => exact h v (mem_reverse.mp hs)

/-- The rules whose left-hand side is not marked. -/
def unmarkedRules (g : Grammar T V R) (fv : V → Bool) : Nat :=
  g.rules.countP fun r => !fv (g.lhs r)

variable [DecidableEq V]

theorem unmarkedRules_lt (hr : r ∈ g.rules) (hlhs : fv (g.lhs r) = false) :
    g.unmarkedRules (update fv (g.lhs r) true) < g.unmarkedRules fv := by
  refine countP_lt_of_mem hr (fun r' _ => not_of_le (le_update fv _ (g.lhs r'))) ?_ ?_
  · rw [update_self]
    rfl
  · rw [hlhs]
    rfl

variable [DecidableEq T]

/-- A grammar as the parser builds it: each rule is listed by its left-hand side, and the
flags that are set are right. -/
structure IsBuilt (g : Grammar T V R) : Prop where
  rules_nodup : g.rules.Nodup
  variables_nodup : g.variableList.Nodup
  lhs_mem : ∀ r ∈ g.rules, g.lhs r ∈ g.variableList
  rhs_mem : ∀ r ∈ g.rules, ∀ v, Symbol.nonterminal v ∈ g.rhs r → v ∈ g.variableList
  own_lhs : ∀ v, ∀ r ∈ g.variableRules v, g.lhs r = v
  own_mem : ∀ r ∈ g.rules, r ∈ g.variableRules (g.lhs r)
  rule_useful : ∀ r, g.ruleIsUseful r = true → r ∈ g.rules ∧
    ProductiveAll g.contextFree (g.rhs r) ∧ g.variableIsUseful (g.lhs r) = true
  variable_useful : ∀ v, g.variableIsUseful v = true → Productive g.contextFree v

theorem rule_mem_contextFree (hr : r ∈ g.rules) :
    ContextFreeRule.mk (g.lhs r) (g.rhs r) ∈ g.contextFree.rules :=
  mem_contextFree_rules.mpr ⟨r, hr, rfl⟩

/-- The flags that are set are right. -/
structure Marked (g : Grammar T V R) (fr : R → Bool) (fv : V → Bool) : Prop where
  rule : ∀ r, fr r = true →
    r ∈ g.rules ∧ ProductiveAll g.contextFree (g.rhs r) ∧ fv (g.lhs r) = true
  productive : ∀ v, fv v = true → Productive g.contextFree v

theorem Marked.usable (h : g.Marked fr fv) (hr : g.Usable fv r) :
    ProductiveAll g.contextFree (g.rhs r) := by
  intro s hs
  cases s with
  | terminal t => exact trivial
  | nonterminal v => exact h.productive v (hr v hs)

variable [DecidableEq R]

theorem Marked.mark (h : g.Marked fr fv) (hr : r ∈ g.rules) (husable : g.Usable fv r) :
    g.Marked (update fr r true) (update fv (g.lhs r) true) where
  rule r' hr' := by
    by_cases hrr : r' = r
    · rw [hrr]
      exact ⟨hr, h.usable husable, update_self _ _ _⟩
    · rw [update_of_ne hrr] at hr'
      obtain ⟨hmem, hproductive, hlhs⟩ := h.rule r' hr'
      exact ⟨hmem, hproductive, le_update fv _ _ hlhs⟩
  productive v hv := by
    by_cases hvl : v = g.lhs r
    · rw [hvl]
      exact GeneratingAll.rule (rule_mem_contextFree hr) (h.usable husable)
    · rw [update_of_ne hvl] at hv
      exact h.productive v hv

/-- A turn of `mark_useful_variables` that began with the marks `fv₀`, when the rules of
`done` have been read. -/
structure Marking (g : Grammar T V R) (fv₀ : V → Bool) (ft : T → Bool) (done : List R)
    (s : Grammar T V R × Bool) : Prop where
  flags : ∃ fr fv, s.1 = g.withFlags fr fv ft ∧ g.Marked fr fv ∧
    (∀ r ∈ done, s.2 = false → g.Usable fv₀ r → fr r = true) ∧
    (s.2 = false → fv = fv₀) ∧ (s.2 = true → g.unmarkedRules fv < g.unmarkedRules fv₀)

theorem Marking.read {fv₀ : V → Bool} {ft : T → Bool} {done : List R}
    {s : Grammar T V R × Bool} (h : g.Marking fv₀ ft done s) (hr : r ∈ g.rules) :
    g.Marking fv₀ ft (done ++ [r]) (markRule s r) := by
  obtain ⟨g', changed⟩ := s
  obtain ⟨fr, fv, hg, hmarked, hdone, hsame, hless⟩ := h.flags
  dsimp only at hg hdone hsame hless
  subst hg
  have hread : ∀ fr' : R → Bool, (∀ r', fr r' = true → fr' r' = true) →
      (changed = false → g.Usable fv₀ r → fr' r = true) →
        ∀ r' ∈ done ++ [r], changed = false → g.Usable fv₀ r' → fr' r' = true := by
    intro fr' hle hlast r' hr' hchanged husable
    rcases mem_append.mp hr' with hr' | hr'
    · exact hle r' (hdone r' hr' hchanged husable)
    · rw [mem_singleton.mp hr'] at husable ⊢
      exact hlast hchanged husable
  rw [markRule]
  split
  case isTrue hset =>
      exact ⟨fr, fv, rfl, hmarked, hread fr (fun _ h => h) (fun _ _ => hset), hsame, hless⟩
  case isFalse hset =>
      split
      case isTrue hall =>
          have husable : g.Usable fv r := usable_iff.mp hall
          split
          case isTrue hlhs =>
              have hsame' : update fv (g.lhs r) true = fv := by
                rw [show true = fv (g.lhs r) from hlhs.symm]
                exact update_eq_self _ _
              have hmark := hmarked.mark hr husable
              rw [hsame'] at hmark
              exact ⟨update fr r true, fv, rfl, hmark,
                hread _ (fun r' h => le_update fr r r' h)
                  (fun _ _ => update_self _ _ _), hsame, hless⟩
          case isFalse hlhs =>
              refine ⟨update fr r true, update fv (g.lhs r) true, rfl,
                hmarked.mark hr husable, fun _ _ h => Bool.noConfusion h,
                fun h => Bool.noConfusion h, fun _ => ?_⟩
              have hlt := unmarkedRules_lt hr (Bool.eq_false_iff.mpr hlhs)
              cases changed with
              | false => exact hsame rfl ▸ hlt
              | true => exact Nat.lt_trans hlt (hless rfl)
      case isFalse hall =>
          have hfr : update fr r false = fr := by
            rw [show false = fr r from (Bool.eq_false_iff.mpr hset).symm]
            exact update_eq_self _ _
          refine ⟨fr, fv, ?_, hmarked, hread fr (fun _ h => h) (fun hchanged husable => ?_),
            hsame, hless⟩
          · show { g.withFlags fr fv ft with ruleIsUseful := update fr r false } = _
            rw [hfr]
            rfl
          · exact absurd (usable_iff.mpr (hsame hchanged ▸ husable)) hall

/-- What the outer loop of `mark_useful_variables` keeps. -/
structure MarkingLoop (g : Grammar T V R) (ft : T → Bool) (s : Grammar T V R × Bool) : Prop where
  flags : ∃ fr fv, s.1 = g.withFlags fr fv ft ∧ g.Marked fr fv ∧
    (s.2 = false → ∀ r ∈ g.rules, g.Usable fv r → fr r = true)

/-- The rules still to be found, and one more turn when the last one found something. -/
def markingVariant (s : Grammar T V R × Bool) : Nat :=
  s.1.unmarkedRules s.1.variableIsUseful + s.2.toNat

theorem MarkingLoop.turn {ft : T → Bool} {s : Grammar T V R × Bool} (h : g.MarkingLoop ft s)
    (hchanged : ¬s.2 = false) :
    ∃ s', markRules s = some s' ∧ markingVariant s' < markingVariant s ∧
      g.MarkingLoop ft s' := by
  obtain ⟨g', changed⟩ := s
  obtain ⟨fr, fv, hg, hmarked, -⟩ := h.flags
  dsimp only at hg
  subst hg
  have hpass : g.Marking fv ft g.rules (g.rules.foldl markRule (g.withFlags fr fv ft, false)) :=
    foldl_spec (g.Marking fv ft) (fun done r rest s hrules hs => hs.read
        (by rw [hrules]; exact mem_append_right _ mem_cons_self))
      ⟨fr, fv, rfl, hmarked, fun r hr => absurd hr not_mem_nil, fun _ => rfl,
        fun h => Bool.noConfusion h⟩
  refine ⟨_, rfl, ?_, ?_⟩
  · obtain ⟨fr', fv', hg', -, -, hsame, hless⟩ := hpass.flags
    have hstart : markingVariant (g.withFlags fr fv ft, changed) = g.unmarkedRules fv + 1 := by
      rw [show changed = true from Bool.eq_true_of_not_eq_false hchanged]
      rfl
    have hend : markingVariant (g.rules.foldl markRule (g.withFlags fr fv ft, false)) =
        g.unmarkedRules fv' +
          (g.rules.foldl markRule (g.withFlags fr fv ft, false)).2.toNat := by
      rw [markingVariant, hg']
      rfl
    show markingVariant (g.rules.foldl markRule (g.withFlags fr fv ft, false)) < _
    rw [hstart, hend]
    cases hflag : (g.rules.foldl markRule (g.withFlags fr fv ft, false)).2 with
    | false =>
        rw [hsame hflag]
        exact Nat.lt_succ_self _
    | true => exact Nat.succ_lt_succ (hless hflag)
  · obtain ⟨fr', fv', hg', hmarked', hdone, hsame, -⟩ := hpass.flags
    exact ⟨fr', fv', hg', hmarked', fun hflag r hr husable =>
      hdone r hr hflag (hsame hflag ▸ husable)⟩

/-- The first pass marks what derives a string of tokens. -/
theorem markUsefulVariables_eq (hg : g.IsBuilt) :
    ∃ fr fv, g.markUsefulVariables = some (g.withFlags fr fv g.tokenIsUseful) ∧
      (∀ r, fr r = true ↔ r ∈ g.rules ∧ ProductiveAll g.contextFree (g.rhs r)) ∧
      ∀ v, fv v = true ↔ Productive g.contextFree v := by
  have hstart : g.MarkingLoop g.tokenIsUseful (g, true) :=
    ⟨g.ruleIsUseful, g.variableIsUseful, rfl, ⟨hg.rule_useful, hg.variable_useful⟩,
      fun h => Bool.noConfusion h⟩
  have hfuel : markingVariant (g, true) < g.rules.length + 2 :=
    Nat.succ_lt_succ (Nat.lt_succ_of_le countP_le_length)
  obtain ⟨⟨g', changed⟩, hrun, hloop, hend⟩ := loopUntil_decide (g.MarkingLoop g.tokenIsUseful)
    markingVariant (fun s hs hchanged => hs.turn hchanged) hstart hfuel
  obtain ⟨fr, fv, hg', hmarked, hdone⟩ := hloop.flags
  have hfv : ∀ v, Productive g.contextFree v → fv v = true := by
    intro v hv
    refine Generating.least (S := fun v => fv v = true) (fun c hc _ ih => ?_) hv
    obtain ⟨r, hr, rfl⟩ := mem_contextFree_rules.mp hc
    exact (hmarked.rule r (hdone hend r hr ih)).2.2
  refine ⟨fr, fv, ?_, fun r => ⟨fun hr => ⟨(hmarked.rule r hr).1, (hmarked.rule r hr).2.1⟩,
    fun ⟨hr, hproductive⟩ => hdone hend r hr fun v hv => hfv v (hproductive _ hv)⟩,
    fun v => ⟨hmarked.productive v, hfv v⟩⟩
  rw [markUsefulVariables, hrun]
  exact congrArg some hg'

end

section

variable {g : Grammar T V R} {fr : R → Bool} {fv : V → Bool} {r : R}

/-- `w` stands in a useful rule of `v`. -/
def Leads (g : Grammar T V R) (fr : R → Bool) (v w : V) : Prop :=
  ∃ r ∈ g.variableRules v, fr r = true ∧ Symbol.nonterminal w ∈ g.rhs r

/-- What `traverse_variable` has done for `v`, all of it or a part. -/
structure Traversed (g : Grammar T V R) (fr : R → Bool) (v : V) (fv fv' : V → Bool) : Prop where
  mono : ∀ x, fv x = true → fv' x = true
  sound : ∀ x, fv' x = true → fv x = true ∨ Relation.ReflTransGen (g.Leads fr) v x
  closed : ∀ x, fv' x = true → fv x = false → ∀ w, g.Leads fr x w → fv' w = true

def unmarkedVariables (g : Grammar T V R) (fv : V → Bool) : Nat :=
  g.variableList.countP fun v => !fv v

/-- `traverse` marks what its variable leads to, when there is `fuel` for it. -/
def Traverses (g : Grammar T V R) (fr : R → Bool) (fuel : Nat)
    (traverse : V → Grammar T V R → Option (Grammar T V R)) : Prop :=
  ∀ v fv ft, g.unmarkedVariables fv < fuel →
    ∃ fv' ft', traverse v (g.withFlags fr fv ft) = some (g.withFlags fr fv' ft') ∧
      g.Traversed fr v fv fv' ∧ ∀ w, g.Leads fr v w → fv' w = true

variable {traverse : V → Grammar T V R → Option (Grammar T V R)} {fuel : Nat} {v : V}
  {fv₁ : V → Bool}

theorem unmarkedVariables_le (hmono : ∀ x, fv x = true → fv₁ x = true) :
    g.unmarkedVariables fv₁ ≤ g.unmarkedVariables fv :=
  countP_mono_left fun x _ => not_of_le (hmono x)

variable [DecidableEq V]

theorem unmarkedVariables_lt {w : V} (hw : w ∈ g.variableList) (hfalse : fv w = false) :
    g.unmarkedVariables (update fv w true) < g.unmarkedVariables fv := by
  refine countP_lt_of_mem hw (fun x _ => not_of_le (le_update fv w x)) ?_ ?_
  · rw [update_self]
    rfl
  · rw [hfalse]
    rfl

/-- Another variable is marked and traversed. -/
theorem Traversed.visit {w : V} {fv₂ : V → Bool} (h : g.Traversed fr v fv fv₁)
    (hw : g.Leads fr v w) (hvisit : g.Traversed fr w (update fv₁ w true) fv₂)
    (hnext : ∀ x, g.Leads fr w x → fv₂ x = true) : g.Traversed fr v fv fv₂ where
  mono x hx := hvisit.mono x (le_update fv₁ w x (h.mono x hx))
  sound x hx := by
    rcases hvisit.sound x hx with hmarked | hreach
    · by_cases hxw : x = w
      · exact Or.inr (hxw ▸ .single hw)
      · rw [update_of_ne hxw] at hmarked
        exact h.sound x hmarked
    · exact Or.inr (.head hw hreach)
  closed x hx hnot y hy := by
    by_cases hxw : x = w
    · exact hnext y (hxw ▸ hy)
    · cases hx₁ : fv₁ x with
      | true => exact hvisit.mono y (le_update fv₁ w y (h.closed x hx₁ hnot y hy))
      | false => exact hvisit.closed x hx (by rw [update_of_ne hxw, hx₁]) y hy

variable [DecidableEq T]

/-- A turn of the loop over the symbols of a rule of `v`. -/
theorem Traversed.symbol (htraverse : g.Traverses fr fuel traverse)
    (hlisted : ∀ v w, g.Leads fr v w → w ∈ g.variableList)
    (hfuel : g.unmarkedVariables fv < fuel + 1) (h : g.Traversed fr v fv fv₁)
    {s : Symbol T V} (hs : ∀ w, s = .nonterminal w → g.Leads fr v w) (ft₁ : T → Bool) :
    ∃ fv₂ ft₂, traverseSymbol traverse (g.withFlags fr fv₁ ft₁) s =
        some (g.withFlags fr fv₂ ft₂) ∧ g.Traversed fr v fv fv₂ ∧
      (∀ x, fv₁ x = true → fv₂ x = true) ∧ ∀ w, s = .nonterminal w → fv₂ w = true := by
  cases s with
  | terminal t => exact ⟨fv₁, _, rfl, h, fun _ hx => hx, fun w hw => nomatch hw⟩
  | nonterminal w =>
      rw [traverseSymbol]
      split
      case isTrue hmarked =>
          refine ⟨fv₁, ft₁, rfl, h, fun _ hx => hx, fun w' hw' => ?_⟩
          cases hw'
          exact hmarked
      case isFalse hnot =>
          have hfalse : fv₁ w = false := Bool.eq_false_iff.mpr hnot
          have hlead := hs w rfl
          have hlt := unmarkedVariables_lt (hlisted v w hlead) hfalse
          have hle := unmarkedVariables_le (g := g) h.mono
          obtain ⟨fv₂, ft₂, hrun, hvisit, hnext⟩ :=
            htraverse w (update fv₁ w true) ft₁ (by omega)
          refine ⟨fv₂, ft₂, hrun, h.visit hlead hvisit hnext,
            fun x hx => hvisit.mono x (le_update fv₁ w x hx), fun w' hw' => ?_⟩
          cases hw'
          exact hvisit.mono w (update_self _ _ _)

/-- A turn of the loop over the rules of `v`. -/
theorem Traversed.rule (htraverse : g.Traverses fr fuel traverse)
    (hlisted : ∀ v w, g.Leads fr v w → w ∈ g.variableList)
    (hfuel : g.unmarkedVariables fv < fuel + 1) (h : g.Traversed fr v fv fv₁)
    (hr : r ∈ g.variableRules v) (ft₁ : T → Bool) :
    ∃ fv₂ ft₂, traverseRule traverse (g.withFlags fr fv₁ ft₁) r =
        some (g.withFlags fr fv₂ ft₂) ∧ g.Traversed fr v fv fv₂ ∧
      (∀ x, fv₁ x = true → fv₂ x = true) ∧
      (fr r = true → ∀ w, Symbol.nonterminal w ∈ g.rhs r → fv₂ w = true) := by
  rw [traverseRule]
  split
  case isTrue huseful =>
      obtain ⟨s', hrun, fv₂, ft₂, rfl, htraversed, hmono, hdone⟩ := foldlM_spec
        (l := (g.rhs r).reverse) (f := traverseSymbol traverse) (s := g.withFlags fr fv₁ ft₁)
        (fun done s' => ∃ fv₂ ft₂, s' = g.withFlags fr fv₂ ft₂ ∧ g.Traversed fr v fv fv₂ ∧
          (∀ x, fv₁ x = true → fv₂ x = true) ∧
          ∀ w, Symbol.nonterminal w ∈ done → fv₂ w = true)
        (by
          rintro done s rest _ hsplit ⟨fv₂, ft₂, rfl, htraversed, hmono, hdone⟩
          have hs : ∀ w, s = .nonterminal w → g.Leads fr v w := by
            rintro w rfl
            refine ⟨r, hr, huseful, mem_reverse.mp ?_⟩
            rw [hsplit]
            exact mem_append_right _ mem_cons_self
          obtain ⟨fv₃, ft₃, hstep, htraversed', hmono', hnew⟩ :=
            htraversed.symbol htraverse hlisted hfuel hs ft₂
          refine ⟨_, hstep, fv₃, ft₃, rfl, htraversed', fun x hx => hmono' x (hmono x hx),
            fun w hw => ?_⟩
          rcases mem_append.mp hw with hw | hw
          · exact hmono' w (hdone w hw)
          · exact hnew w (mem_singleton.mp hw).symm)
        ⟨fv₁, ft₁, rfl, h, fun _ hx => hx, fun w hw => absurd hw not_mem_nil⟩
      exact ⟨fv₂, ft₂, hrun, htraversed, hmono,
        fun _ w hw => hdone w (mem_reverse.mpr hw)⟩
  case isFalse hnot =>
      exact ⟨fv₁, ft₁, rfl, h, fun _ hx => hx, fun huseful => absurd huseful hnot⟩

/-- The recursion is not deeper than the number of variables still to be marked. -/
theorem traverseVariable_traverses
    (hlisted : ∀ v w, g.Leads fr v w → w ∈ g.variableList) :
    ∀ fuel, g.Traverses fr fuel (traverseVariable fuel) := by
  intro fuel
  induction fuel with
  | zero => exact fun v fv ft hfuel => absurd hfuel (Nat.not_lt_zero _)
  | succ fuel ih =>
      intro v fv ft hfuel
      obtain ⟨s', hrun, fv₂, ft₂, rfl, htraversed, hdone⟩ := foldlM_spec
        (l := (g.variableRules v).reverse) (f := traverseRule (traverseVariable fuel))
        (s := g.withFlags fr fv ft)
        (fun done s' => ∃ fv₂ ft₂, s' = g.withFlags fr fv₂ ft₂ ∧ g.Traversed fr v fv fv₂ ∧
          ∀ r ∈ done, fr r = true → ∀ w, Symbol.nonterminal w ∈ g.rhs r → fv₂ w = true)
        (by
          rintro done r rest _ hsplit ⟨fv₂, ft₂, rfl, htraversed, hdone⟩
          have hr : r ∈ g.variableRules v := by
            rw [← mem_reverse, hsplit]
            exact mem_append_right _ mem_cons_self
          obtain ⟨fv₃, ft₃, hstep, htraversed', hmono, hnew⟩ :=
            htraversed.rule ih hlisted hfuel hr ft₂
          refine ⟨_, hstep, fv₃, ft₃, rfl, htraversed', fun r' hr' huseful w hw => ?_⟩
          rcases mem_append.mp hr' with hr' | hr'
          · exact hmono w (hdone r' hr' huseful w hw)
          · rw [mem_singleton.mp hr'] at huseful hw
            exact hnew huseful w hw)
        ⟨fv, ft, rfl, ⟨fun _ hx => hx, fun x hx => Or.inl hx,
            fun x hx hnot => absurd (hx.symm.trans hnot) Bool.noConfusion⟩,
          fun r hr => absurd hr not_mem_nil⟩
      refine ⟨fv₂, ft₂, hrun, htraversed, ?_⟩
      rintro w ⟨r, hr, huseful, hw⟩
      exact hdone r (mem_reverse.mpr hr) huseful w hw

end

end Grammar

end Gobo
