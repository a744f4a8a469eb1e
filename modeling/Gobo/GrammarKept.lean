/-
What `PR_GRAMMAR.reduce` keeps: the rules and variables of the derivations of strings of
tokens from the start symbol.
-/
import Gobo.GrammarReduction

namespace Gobo

open List Function ContextFree

namespace Grammar

variable {T V R : Type}

/-- The loop over the rules of a variable, when those of `done` have been read. -/
structure OwnRulesRead (isUseful : R → Bool) (rules rest done : List R) (s : Nat × List R) :
    Prop where
  split : rules = rest ++ done
  index : s.1 = rest.length
  kept : s.2 = rest ++ done.filter isUseful

theorem OwnRulesRead.turn {isUseful : R → Bool} {rules rest done : List R} {r : R}
    {s : Nat × List R} (h : OwnRulesRead isUseful rules (rest ++ [r]) done s) :
    ∃ s', reduceOwnRule isUseful s = some s' ∧
      OwnRulesRead isUseful rules rest (r :: done) s' := by
  obtain ⟨j, kept⟩ := s
  obtain ⟨hsplit, hj, hkept⟩ := h
  dsimp only at hj hkept
  rw [length_append, length_singleton] at hj
  rw [append_assoc, singleton_append] at hsplit hkept
  subst hj hkept
  unfold reduceOwnRule
  dsimp only
  rw [Nat.add_sub_cancel, getElem?_append_cons, some_bind]
  split
  case isTrue huseful =>
      refine ⟨_, rfl, hsplit, rfl, ?_⟩
      rw [filter_cons_of_pos huseful]
  case isFalse huseless =>
      refine ⟨_, rfl, hsplit, rfl, ?_⟩
      rw [eraseIdx_append_cons, filter_cons_of_neg huseless]

/-- The loop that removes the useless rules from the list of a variable. -/
theorem reduceOwnRules_eq (isUseful : R → Bool) (rules : List R) :
    reduceOwnRules isUseful rules = some (rules.filter isUseful) := by
  have hstart : ∃ rest done, OwnRulesRead isUseful rules rest done (rules.length, rules) :=
    ⟨rules, [], (append_nil rules).symm, rfl, (append_nil rules).symm⟩
  obtain ⟨⟨j, kept⟩, hrun, ⟨rest, done, hread⟩, hend⟩ := loopUntil_decide
    (P := fun s : Nat × List R => s.1 < 1)
    (fun s => ∃ rest done, OwnRulesRead isUseful rules rest done s) Prod.fst
    (by
      rintro s ⟨rest, done, hread⟩ hgo
      have hindex := hread.index
      rcases eq_nil_or_concat rest with rfl | ⟨rest, r, rfl⟩
      · rw [length_nil] at hindex
        omega
      · rw [concat_eq_append] at hread hindex
        obtain ⟨s', hturn, hread'⟩ := hread.turn
        refine ⟨s', hturn, ?_, _, _, hread'⟩
        rw [hread'.index, hindex, length_append, length_singleton]
        exact Nat.lt_succ_self _)
    hstart (Nat.lt_succ_self _)
  have hrest : rest = [] := by
    have hindex := hread.index
    dsimp only at hindex hend
    exact length_eq_zero_iff.mp (by omega)
  subst hrest
  rw [reduceOwnRules, hrun, hread.split]
  exact congrArg some hread.kept

section

variable [DecidableEq R] {g : Grammar T V R}

/-- The loop over the rules, once those of `done` have been read. -/
structure RulesRead (g : Grammar T V R) (done rest : List R)
    (s : Nat × Grammar T V R × Nat) : Prop where
  split : g.rules = done ++ rest
  index : s.1 = (done.filter g.ruleIsUseful).length + 1
  useless : s.2.2 + (done.filter g.ruleIsUseful).length = done.length
  grammar : ∃ ids, s.2.1 = { g with
      rules := done.filter g.ruleIsUseful ++ rest
      ruleId := ids } ∧ Numbered ids (done.filter g.ruleIsUseful) 1

theorem RulesRead.turn {done rest : List R} {r : R} {s : Nat × Grammar T V R × Nat}
    (hnodup : g.rules.Nodup) (h : g.RulesRead done (r :: rest) s) :
    ∃ s', reduceRule s = some s' ∧ g.RulesRead (done ++ [r]) rest s' := by
  obtain ⟨i, g', n⟩ := s
  obtain ⟨hsplit, hi, hn, ids, hg', hids⟩ := h
  dsimp only at hi hn hg'
  subst hi hg'
  have hsplit' : g.rules = done ++ [r] ++ rest := by
    rw [hsplit, append_assoc, singleton_append]
  have hnew : r ∉ done := by
    rw [hsplit] at hnodup
    exact fun hmem => (nodup_append.mp hnodup).2.2 r hmem r mem_cons_self rfl
  rw [reduceRule, Nat.add_sub_cancel]
  rw [getElem?_append_cons, some_bind]
  split
  case isTrue huseful =>
      have hfilter : (done ++ [r]).filter g.ruleIsUseful =
          done.filter g.ruleIsUseful ++ [r] := by
        rw [filter_append, filter_cons_of_pos huseful, filter_nil]
      refine ⟨_, rfl, hsplit', ?_, ?_,
        update ids r ((done.filter g.ruleIsUseful).length + 1), ?_, ?_⟩
      · rw [hfilter, length_append, length_singleton]
      · rw [hfilter, length_append, length_append, ← Nat.add_assoc, hn]
      · rw [hfilter, append_assoc, singleton_append]
      · rw [hfilter]
        exact hids.append fun hmem => hnew (mem_filter.mp hmem).1
  case isFalse huseless =>
      have hfilter : (done ++ [r]).filter g.ruleIsUseful = done.filter g.ruleIsUseful := by
        rw [filter_append, filter_cons_of_neg huseless, filter_nil, append_nil]
      refine ⟨_, rfl, hsplit', ?_, ?_, ids, ?_, ?_⟩
      · rw [hfilter]
      · rw [hfilter, length_append, length_singleton]
        dsimp only
        omega
      · rw [hfilter, eraseIdx_append_cons]
      · rw [hfilter]
        exact hids

/-- The useless rules are removed, the others are numbered from 1. -/
theorem reduceRules_eq (hnodup : g.rules.Nodup) :
    ∃ i ids n, loopUntil
        (fun s : Nat × Grammar T V R × Nat => some (decide (s.2.1.rules.length < s.1)))
        reduceRule (g.rules.length + 1) (1, g, 0) =
      some (i, { g with
        rules := g.rules.filter g.ruleIsUseful
        ruleId := ids }, n) ∧ Numbered ids (g.rules.filter g.ruleIsUseful) 1 ∧
      n = g.rules.length - (g.rules.filter g.ruleIsUseful).length := by
  obtain ⟨⟨i, g', n⟩, hrun, ⟨done, rest, hread⟩, hend⟩ := loopUntil_decide
    (P := fun s : Nat × Grammar T V R × Nat => s.2.1.rules.length < s.1)
    (fun s => ∃ done rest, g.RulesRead done rest s)
    (fun s => s.2.1.rules.length + 1 - s.1)
    (by
      rintro s ⟨done, rest, hread⟩ hgo
      have hlength : s.2.1.rules.length + 1 - s.1 = rest.length := by
        obtain ⟨ids, hg', -⟩ := hread.grammar
        rw [hg', hread.index, length_append]
        omega
      cases rest with
      | nil =>
          rw [length_nil] at hlength
          omega
      | cons r rest =>
          obtain ⟨s', hturn, hread'⟩ := hread.turn hnodup
          refine ⟨s', hturn, ?_, _, _, hread'⟩
          obtain ⟨ids, hg', -⟩ := hread'.grammar
          rw [hlength, hg', hread'.index, length_append, length_cons]
          omega)
    (⟨[], g.rules, rfl, rfl, rfl, g.ruleId, rfl, fun k a h => nomatch h⟩ :
      ∃ done rest, g.RulesRead done rest (1, g, 0))
    (Nat.lt_succ_self g.rules.length)
  obtain ⟨ids, hg', hids⟩ := hread.grammar
  have hindex := hread.index
  have huseless := hread.useless
  dsimp only at hg' hindex huseless hend
  have hrest : rest = [] := by
    rw [hg', hindex, length_append] at hend
    exact length_eq_zero_iff.mp (by omega)
  have hdone : g.rules = done := by
    rw [hread.split, hrest, append_nil]
  refine ⟨i, ids, n, ?_, hdone ▸ hids, ?_⟩
  · rw [hrun, hg', hrest, append_nil, hdone]
  · rw [hdone]
    omega

end

section

variable [DecidableEq V] {g : Grammar T V R}

/-- The loop over the variables, once those of `done` have been read. -/
structure VariablesRead (g : Grammar T V R) (done rest : List V)
    (s : Nat × Grammar T V R × Nat) : Prop where
  split : g.variableList = done ++ rest
  index : s.1 = (done.filter g.variableIsUseful).length + 1
  useless : s.2.2 + (done.filter g.variableIsUseful).length = done.length
  grammar : ∃ ids own, s.2.1 = { g with
      variableList := done.filter g.variableIsUseful ++ rest
      variableId := ids
      variableRules := own } ∧ Numbered ids (done.filter g.variableIsUseful) 0 ∧
    ∀ v, own v = if v ∈ done.filter g.variableIsUseful then
      (g.variableRules v).filter g.ruleIsUseful else g.variableRules v

theorem VariablesRead.turn {done rest : List V} {v : V} {s : Nat × Grammar T V R × Nat}
    (hnodup : g.variableList.Nodup) (h : g.VariablesRead done (v :: rest) s) :
    ∃ s', reduceVariable s = some s' ∧ g.VariablesRead (done ++ [v]) rest s' := by
  obtain ⟨i, g', n⟩ := s
  obtain ⟨hsplit, hi, hn, ids, own, hg', hids, hown⟩ := h
  dsimp only at hi hn hg'
  subst hi hg'
  have hsplit' : g.variableList = done ++ [v] ++ rest := by
    rw [hsplit, append_assoc, singleton_append]
  have hnew : v ∉ done.filter g.variableIsUseful := by
    rw [hsplit] at hnodup
    exact fun hmem => (nodup_append.mp hnodup).2.2 v (mem_filter.mp hmem).1 v
      mem_cons_self rfl
  rw [reduceVariable, Nat.add_sub_cancel]
  dsimp only
  rw [getElem?_append_cons, some_bind]
  split
  case isTrue huseful =>
      have hfilter : (done ++ [v]).filter g.variableIsUseful =
          done.filter g.variableIsUseful ++ [v] := by
        rw [filter_append, filter_cons_of_pos huseful, filter_nil]
      rw [reduceOwnRules_eq, some_bind, hown v, if_neg hnew]
      refine ⟨_, rfl, hsplit', ?_, ?_,
        update ids v (done.filter g.variableIsUseful).length,
        update own v ((g.variableRules v).filter g.ruleIsUseful), ?_, ?_, ?_⟩
      · rw [hfilter, length_append, length_singleton]
      · rw [hfilter, length_append, length_append, ← Nat.add_assoc, hn]
      · rw [hfilter, append_assoc, singleton_append]
      · rw [hfilter]
        exact hids.append hnew
      · intro w
        rw [hfilter]
        by_cases hwv : w = v
        · rw [hwv, update_self, if_pos (mem_append_right _ mem_cons_self)]
        · have hiff : w ∈ done.filter g.variableIsUseful ++ [v] ↔
              w ∈ done.filter g.variableIsUseful := by
            rw [mem_append, mem_singleton, or_iff_left hwv]
          rw [update_of_ne hwv, hown w]
          simp only [hiff]
  case isFalse huseless =>
      have hfilter : (done ++ [v]).filter g.variableIsUseful =
          done.filter g.variableIsUseful := by
        rw [filter_append, filter_cons_of_neg huseless, filter_nil, append_nil]
      refine ⟨_, rfl, hsplit', ?_, ?_, ids, own, ?_, ?_, ?_⟩
      · rw [hfilter]
      · rw [hfilter, length_append, length_singleton]
        dsimp only
        omega
      · rw [hfilter, eraseIdx_append_cons]
      · rw [hfilter]
        exact hids
      · rw [hfilter]
        exact hown

/-- The useless variables are removed, the others are numbered from 0 and keep their useful
rules. -/
theorem reduceVariables_eq (hnodup : g.variableList.Nodup) :
    ∃ i ids own n, loopUntil
        (fun s : Nat × Grammar T V R × Nat => some (decide (s.2.1.variableList.length < s.1)))
        reduceVariable (g.variableList.length + 1) (1, g, 0) =
      some (i, { g with
        variableList := g.variableList.filter g.variableIsUseful
        variableId := ids
        variableRules := own }, n) ∧
      Numbered ids (g.variableList.filter g.variableIsUseful) 0 ∧
      (∀ v ∈ g.variableList.filter g.variableIsUseful,
        own v = (g.variableRules v).filter g.ruleIsUseful) ∧
      n = g.variableList.length - (g.variableList.filter g.variableIsUseful).length := by
  have hstart : ∃ done rest, g.VariablesRead done rest (1, g, 0) :=
    ⟨[], g.variableList, rfl, rfl, rfl, g.variableId, g.variableRules, rfl,
      (fun k a h => nomatch h), fun v => (if_neg not_mem_nil).symm⟩
  obtain ⟨⟨i, g', n⟩, hrun, ⟨done, rest, hread⟩, hend⟩ := loopUntil_decide
    (P := fun s : Nat × Grammar T V R × Nat => s.2.1.variableList.length < s.1)
    (fun s => ∃ done rest, g.VariablesRead done rest s)
    (fun s => s.2.1.variableList.length + 1 - s.1)
    (by
      rintro s ⟨done, rest, hread⟩ hgo
      have hlength : s.2.1.variableList.length + 1 - s.1 = rest.length := by
        obtain ⟨ids, own, hg', -⟩ := hread.grammar
        rw [hg', hread.index, length_append]
        omega
      cases rest with
      | nil =>
          rw [length_nil] at hlength
          omega
      | cons v rest =>
          obtain ⟨s', hturn, hread'⟩ := hread.turn hnodup
          refine ⟨s', hturn, ?_, _, _, hread'⟩
          obtain ⟨ids, own, hg', -⟩ := hread'.grammar
          rw [hlength, hg', hread'.index, length_append, length_cons]
          omega)
    hstart (Nat.lt_succ_self g.variableList.length)
  obtain ⟨ids, own, hg', hids, hown⟩ := hread.grammar
  have hindex := hread.index
  have huseless := hread.useless
  dsimp only at hg' hindex huseless hend
  have hrest : rest = [] := by
    rw [hg', hindex, length_append] at hend
    exact length_eq_zero_iff.mp (by omega)
  have hdone : g.variableList = done := by
    rw [hread.split, hrest, append_nil]
  refine ⟨i, ids, own, n, ?_, hdone ▸ hids, ?_, ?_⟩
  · rw [hrun, hg', hrest, append_nil, hdone]
  · intro v hv
    rw [hdone] at hv
    rw [hown v, if_pos hv]
  · rw [hdone]
    omega

end

section

variable {g : Grammar T V R} {fr : R → Bool} {fv : V → Bool}

/-- The rules of `l` whose left-hand side is not useful are not marked any more. -/
theorem clearRules [DecidableEq R] (g : Grammar T V R) (fr : R → Bool) (fv : V → Bool)
    (ft : T → Bool) (l : List R) :
    ∃ fr', l.foldl (fun g r => if g.variableIsUseful (g.lhs r) then g
          else g.setRuleUseful r false) (g.withFlags fr fv ft) = g.withFlags fr' fv ft ∧
      ∀ r, fr' r = true ↔ fr r = true ∧ (r ∈ l → fv (g.lhs r) = true) := by
  refine foldl_spec (fun done (g' : Grammar T V R) => ∃ fr', g' = g.withFlags fr' fv ft ∧
    ∀ r, fr' r = true ↔ fr r = true ∧ (r ∈ done → fv (g.lhs r) = true))
    (fun done r rest g' _ hs => ?_)
    ⟨fr, rfl, fun r => ⟨fun h => ⟨h, fun hr => absurd hr not_mem_nil⟩, And.left⟩⟩
  obtain ⟨fr', rfl, hfr'⟩ := hs
  have hmem : ∀ r', r' ∈ done ++ [r] ↔ r' ∈ done ∨ r' = r := by
    intro r'
    rw [mem_append, mem_singleton]
  split
  case isTrue hlhs =>
      refine ⟨fr', rfl, fun r' => (hfr' r').trans (and_congr_right fun _ => ?_)⟩
      rw [hmem]
      refine ⟨fun h hr' => hr'.elim h fun heq => heq ▸ hlhs, fun h hr' => h (Or.inl hr')⟩
  case isFalse hlhs =>
      refine ⟨update fr' r false, rfl, fun r' => ?_⟩
      by_cases hrr : r' = r
      · rw [hrr, update_self, hmem]
        exact ⟨fun h => Bool.noConfusion h, fun h => absurd (h.2 (Or.inr rfl)) hlhs⟩
      · rw [update_of_ne hrr, hfr', hmem, or_iff_left hrr]

variable [DecidableEq V]

/-- The variables of `l` are not marked any more. -/
theorem clearVariables (g : Grammar T V R) (fr : R → Bool) (fv : V → Bool)
    (ft : T → Bool) (l : List V) :
    ∃ fv', l.foldl (fun g v => g.setVariableUseful v false) (g.withFlags fr fv ft) =
        g.withFlags fr fv' ft ∧
      ∀ v, fv' v = true → fv v = true ∧ v ∉ l := by
  refine foldl_spec (fun done (g' : Grammar T V R) =>
    ∃ fv', g' = g.withFlags fr fv' ft ∧ ∀ v, fv' v = true → fv v = true ∧ v ∉ done)
    (fun done w rest g' _ hs => ?_) ⟨fv, rfl, fun v hv => ⟨hv, not_mem_nil⟩⟩
  obtain ⟨fv', rfl, hfv'⟩ := hs
  refine ⟨update fv' w false, rfl, fun v hv => ?_⟩
  by_cases hvw : v = w
  · rw [hvw, update_self] at hv
    exact Bool.noConfusion hv
  · rw [update_of_ne hvw] at hv
    refine ⟨(hfv' v hv).1, fun hmem => ?_⟩
    rcases mem_append.mp hmem with hmem | hmem
    · exact (hfv' v hv).2 hmem
    · exact hvw (mem_singleton.mp hmem)

/-- What the traversal from the start symbol reaches. -/
theorem traversed_iff {v₀ : V} {fv₀ fv' : V → Bool} (hfv₀ : ∀ v, fv₀ v = false)
    (h : g.Traversed fr v₀ (update fv₀ v₀ true) fv')
    (hnext : ∀ w, g.Leads fr v₀ w → fv' w = true) (v : V) :
    fv' v = true ↔ Relation.ReflTransGen (g.Leads fr) v₀ v := by
  constructor
  · intro hv
    rcases h.sound v hv with hmarked | hreach
    · by_cases hvv : v = v₀
      · rw [hvv]
      · rw [update_of_ne hvv, hfv₀] at hmarked
        exact Bool.noConfusion hmarked
    · exact hreach
  · intro hreach
    induction hreach with
    | refl => exact h.mono v₀ (update_self _ _ _)
    | @tail x y _ hxy ih =>
        by_cases hx : x = v₀
        · exact hnext y (hx ▸ hxy)
        · exact h.closed x ih (by rw [update_of_ne hx, hfv₀]) y hxy

variable [DecidableEq T]

/-- Useful rules lead to what is reached in the grammar. -/
theorem leads_iff_reaches (hg : g.IsBuilt)
    (hfr : ∀ r, fr r = true ↔ r ∈ g.rules ∧ ProductiveAll g.contextFree (g.rhs r)) (v : V) :
    Relation.ReflTransGen (g.Leads fr) g.startSymbol v ↔ Reaches g.contextFree v := by
  constructor
  · intro h
    induction h with
    | refl => exact .initial
    | tail _ hxy ih =>
        obtain ⟨r, hr, huseful, hw⟩ := hxy
        obtain ⟨hmem, hproductive⟩ := (hfr r).mp huseful
        have hlhs := hg.own_lhs _ r hr
        exact .rule (r := ⟨g.lhs r, g.rhs r⟩) (hlhs ▸ ih) (rule_mem_contextFree hmem)
          hproductive hw
  · have hstart : Relation.ReflTransGen (g.Leads fr) g.startSymbol g.contextFree.initial := .refl
    refine fun h => Reaches.least (g := g.contextFree)
      (S := Relation.ReflTransGen (g.Leads fr) g.startSymbol) hstart ?_ h
    intro c hc ih hproductive w hw
    obtain ⟨r, hr, rfl⟩ := mem_contextFree_rules.mp hc
    exact ih.tail ⟨r, hg.own_mem r hr, (hfr r).mpr ⟨hr, hproductive⟩, hw⟩

variable [DecidableEq R]

/-- The second pass: what occurs in the derivation of a string of tokens. -/
theorem markUsefulRules_eq (hg : g.IsBuilt)
    (hfr : ∀ r, fr r = true ↔ r ∈ g.rules ∧ ProductiveAll g.contextFree (g.rhs r))
    (hfv : ∀ v, fv v = true ↔ Productive g.contextFree v) (ft : T → Bool) :
    ∃ fr' fv' ft', (g.withFlags fr fv ft).markUsefulRules = some (g.withFlags fr' fv' ft') ∧
      (∀ r, fr' r = true ↔
        r ∈ g.rules ∧ RuleOccurs g.contextFree (g.lhs r) (g.rhs r)) ∧
      ∀ v, fv' v = true ↔ VariableOccurs g.contextFree v := by
  obtain ⟨fv₀, hclear, hfv₀⟩ := clearVariables g fr fv ft g.variableList.reverse
  have hnone : ∀ v, fv₀ v = false := by
    intro v
    by_contra hne
    obtain ⟨hproductive, hout⟩ := hfv₀ v (Bool.eq_true_of_not_eq_false hne)
    obtain ⟨c, hc, rfl, -⟩ := ((hfv v).mp hproductive).exists_rule
    obtain ⟨r, hr, rfl⟩ := mem_contextFree_rules.mp hc
    exact hout (mem_reverse.mpr (hg.lhs_mem r hr))
  obtain ⟨fv', ft', htraverse, hfv'⟩ : ∃ fv' ft',
      (g.withFlags fr fv₀ ft).traverseStart (fv g.startSymbol) =
        some (g.withFlags fr fv' ft') ∧
      ∀ v, fv' v = true ↔ VariableOccurs g.contextFree v := by
    rw [traverseStart]
    split
    case isTrue hstart =>
        have hlisted : ∀ v w, g.Leads fr v w → w ∈ g.variableList := by
          rintro v w ⟨r, -, huseful, hw⟩
          exact hg.rhs_mem r ((hfr r).mp huseful).1 w hw
        obtain ⟨fv', ft', hrun, htraversed, hnext⟩ :=
          traverseVariable_traverses hlisted (g.variableList.length + 2) g.startSymbol
            (update fv₀ g.startSymbol true) ft
            (Nat.lt_succ_of_le (Nat.le_succ_of_le countP_le_length))
        have hstart' : Productive g.contextFree g.contextFree.initial := (hfv _).mp hstart
        exact ⟨fv', ft', hrun, fun v => ((traversed_iff hnone htraversed hnext v).trans
          (leads_iff_reaches hg hfr v)).trans
          ((and_iff_right hstart').symm.trans variableOccurs_iff_initial.symm)⟩
    case isFalse hstart =>
        refine ⟨fv₀, ft, rfl, fun v => ⟨fun hv => ?_, fun hv => ?_⟩⟩
        · rw [hnone v] at hv
          exact Bool.noConfusion hv
        · exact absurd ((hfv _).mpr (variableOccurs_iff_initial.mp hv).1) hstart
  obtain ⟨fr', hrules, hfr'⟩ := clearRules g fr fv' ft' g.rules.reverse
  refine ⟨fr', fv', ft', ?_, fun r => ?_, hfv'⟩
  · have hsecond : (g.withFlags fr fv ft).markUsefulRules =
        ((g.variableList.reverse.foldl (fun g v => g.setVariableUseful v false)
          (g.withFlags fr fv ft)).traverseStart (fv g.startSymbol)).map fun g =>
            g.rules.reverse.foldl (fun g r => if g.variableIsUseful (g.lhs r) then g
              else g.setRuleUseful r false) g := rfl
    rw [hsecond, hclear, htraverse]
    exact congrArg some hrules
  · rw [hfr', hfr]
    constructor
    · rintro ⟨⟨hr, hproductive⟩, hlhs⟩
      exact ⟨hr, (ruleOccurs_iff_variable (rule_mem_contextFree hr)).mpr
        ⟨hproductive, (hfv' _).mp (hlhs (mem_reverse.mpr hr))⟩⟩
    · rintro ⟨hr, hoccurs⟩
      obtain ⟨hproductive, hlhs⟩ :=
        (ruleOccurs_iff_variable (rule_mem_contextFree hr)).mp hoccurs
      exact ⟨⟨hr, hproductive⟩, fun _ => (hfv' _).mpr hlhs⟩

open Classical in
/-- `reduce` keeps the rules and variables that occur in the derivation of some string of
tokens from the start symbol, numbers them in their old order, and does not change the
language. -/
theorem reduce_keeps (hg : g.IsBuilt) :
    ∃ g' warning, g.reduce = some (g', warning) ∧
      g'.startSymbol = g.startSymbol ∧ g'.lhs = g.lhs ∧ g'.rhs = g.rhs ∧
      g'.rules = g.rules.filter (fun r =>
        RuleOccurs g.contextFree (g.lhs r) (g.rhs r)) ∧
      g'.variableList = g.variableList.filter (fun v => VariableOccurs g.contextFree v) ∧
      Numbered g'.ruleId g'.rules 1 ∧ Numbered g'.variableId g'.variableList 0 ∧
      (∀ v ∈ g'.variableList,
        g'.variableRules v = (g.variableRules v).filter (fun r => r ∈ g'.rules)) ∧
      (∀ r ∈ g'.rules, r ∈ g'.variableRules (g'.lhs r)) ∧
      g'.contextFree.language = g.contextFree.language ∧
      warning = uselessMessage (g.variableList.length - g'.variableList.length)
        (g.rules.length - g'.rules.length) := by
  obtain ⟨fr, fv, hfirst, hfr, hfv⟩ := markUsefulVariables_eq hg
  obtain ⟨fr', fv', ft', hsecond, hfr', hfv'⟩ :=
    markUsefulRules_eq hg hfr hfv g.tokenIsUseful
  obtain ⟨i, ids, n, hrules, hids, hn⟩ :=
    reduceRules_eq (g := g.withFlags fr' fv' ft') hg.rules_nodup
  obtain ⟨j, ids', own, m, hvariables, hids', hown, hm⟩ := reduceVariables_eq
    (g := { g.withFlags fr' fv' ft' with
      rules := g.rules.filter fr'
      ruleId := ids }) hg.variables_nodup
  have hkept : g.rules.filter fr' = g.rules.filter (fun r =>
      RuleOccurs g.contextFree (g.lhs r) (g.rhs r)) :=
    filter_congr fun r hr => Bool.eq_iff_iff.mpr
      (((hfr' r).trans (and_iff_right hr)).trans (decide_eq_true_iff).symm)
  have hkept' : g.variableList.filter fv' =
      g.variableList.filter (fun v => VariableOccurs g.contextFree v) :=
    filter_congr fun v _ => Bool.eq_iff_iff.mpr
      ((hfv' v).trans (decide_eq_true_iff).symm)
  have hmem : ∀ r, fr' r = true ↔ r ∈ g.rules.filter fr' := by
    intro r
    rw [mem_filter]
    exact ⟨fun h => ⟨((hfr' r).mp h).1, h⟩, And.right⟩
  have hrun : g.reduce = some ({ g.withFlags fr' fv' ft' with
      rules := g.rules.filter fr'
      ruleId := ids
      variableList := g.variableList.filter fv'
      variableId := ids'
      variableRules := own }, uselessMessage m n) := by
    rw [reduce, hfirst, some_bind, hsecond, some_bind, hrules, some_bind]
    exact congrArg (Option.bind · _) hvariables
  refine ⟨_, _, hrun, rfl, rfl, rfl, hkept, hkept', hids, hids', ?_, ?_, ?_, ?_⟩
  · intro v hv
    exact (hown v hv).trans (filter_congr fun r _ => Bool.eq_iff_iff.mpr
      ((hmem r).trans (decide_eq_true_iff).symm))
  · intro r hr
    have hoccurs := ((hfr' r).mp ((hmem r).mpr hr)).2
    have hr' := ((hfr' r).mp ((hmem r).mpr hr)).1
    have hlhs := ((ruleOccurs_iff_variable (rule_mem_contextFree hr')).mp hoccurs).2
    show r ∈ own (g.lhs r)
    rw [hown (g.lhs r) (mem_filter.mpr ⟨hg.lhs_mem r hr', (hfv' _).mpr hlhs⟩)]
    exact mem_filter.mpr ⟨hg.own_mem r hr', (hmem r).mpr hr⟩
  · refine language_eq_of_occurs fun c => mem_contextFree_rules.trans ?_
    constructor
    · rintro ⟨r, hr, rfl⟩
      have hoccurs := (hfr' r).mp ((hmem r).mpr hr)
      exact ⟨rule_mem_contextFree hoccurs.1, hoccurs.2⟩
    · rintro ⟨hc, hoccurs⟩
      obtain ⟨r, hr, rfl⟩ := mem_contextFree_rules.mp hc
      exact ⟨r, (hmem r).mp ((hfr' r).mpr ⟨hr, hoccurs⟩), rfl⟩
  · rw [hn, hm]
    rfl

end

theorem isBuilt_threeRules : threeRules.IsBuilt where
  rules_nodup := by decide
  variables_nodup := by decide
  lhs_mem := by decide
  rhs_mem r hr v hv := by
    have hall : ∀ r ∈ threeRules.rules, ∀ s ∈ threeRules.rhs r,
        ∀ v ∈ [s].filterMap (fun s => match s with
          | .terminal _ => none
          | .nonterminal v => some v), v ∈ threeRules.variableList := by decide
    exact hall r hr _ hv v (mem_filterMap.mpr ⟨_, mem_cons_self, rfl⟩)
  own_lhs v r hr := by
    rw [mem_singleton.mp hr]
    rfl
  own_mem := by decide
  rule_useful r hr := nomatch hr
  variable_useful v hv := nomatch hv

theorem reduce_keeps_threeRules :
    (∃ g' warning, threeRules.reduce = some (g', warning) ∧ g'.rules = [1, 2] ∧
      g'.contextFree.language = threeRules.contextFree.language) ∧
    RuleOccurs threeRules.contextFree (0 : Nat) [.nonterminal (1 : Nat), .nonterminal (1 : Nat)] ∧
    ¬RuleOccurs threeRules.contextFree (2 : Nat) [.terminal 7] := by
  obtain ⟨g', warning, hrun, -, -, -, hrules, -, -, -, -, -, hlanguage, -⟩ :=
    reduce_keeps isBuilt_threeRules
  have heval : threeRules.reduce.map (fun g => g.1.rules) = some [1, 2] := by decide
  have hkept : g'.rules = [1, 2] := by
    rw [hrun] at heval
    exact Option.some.inj heval
  have hiff : ∀ r, r ∈ g'.rules ↔ r ∈ threeRules.rules ∧
      RuleOccurs threeRules.contextFree (threeRules.lhs r) (threeRules.rhs r) := by
    intro r
    simp only [hrules, mem_filter, decide_eq_true_eq]
  refine ⟨⟨g', warning, hrun, hkept, hlanguage⟩, ((hiff 1).mp (hkept ▸ by decide)).2, fun h => ?_⟩
  have hmem : (3 : Nat) ∈ g'.rules := (hiff 3).mpr ⟨by decide, h⟩
  rw [hkept] at hmem
  exact absurd hmem (by decide)

end Grammar

end Gobo
