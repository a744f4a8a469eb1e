/-
Grammars of the parser generator (`PR_GRAMMAR`): symbols and rules are objects with flags.
`set_nullable` marks the variables that can be expanded to an empty string.
-/
import Gobo.ContextFree
import Gobo.Loop
import Mathlib.Data.List.DropRight
import Mathlib.Logic.Function.Basic

namespace Gobo

open List Function ContextFree

/-- A grammar over the tokens `T`, the variables `V` and the rules `R` (`PR_TOKEN`,
`PR_VARIABLE`, `PR_RULE`), with the attributes of these objects. -/
structure Grammar (T V R : Type) where
  rules : List R
  variableList : List V
  startSymbol : V
  lhs : R → V
  rhs : R → List (Symbol T V)
  variableRules : V → List R
  ruleId : R → Nat
  variableId : V → Nat
  ruleIsUseful : R → Bool
  variableIsUseful : V → Bool
  tokenIsUseful : T → Bool
  isNullable : V → Bool

namespace Grammar

variable {T V R : Type}

/-- `a_list` of `set_nullable`: its first item, the left-hand side, then the variables of the
right-hand side that are not known to be nullable. -/
structure Pending (V : Type) where
  lhs : V
  others : List V

/-- The right-hand side is read from its end; `none` when there is a token. -/
def pendingVariables (isNullable : V → Bool) : List (Symbol T V) → Option (List V)
  | [] => some []
  | .terminal _ :: _ => none
  | .nonterminal v :: symbols =>
      (pendingVariables isNullable symbols).map fun others =>
        if isNullable v then others else v :: others

section

variable {f : V → Bool}

theorem pendingVariables_none {symbols : List (Symbol T V)}
    (h : pendingVariables f symbols = none) : ∃ t, Symbol.terminal t ∈ symbols := by
  induction symbols with
  | nil => exact absurd h (Option.some_ne_none _)
  | cons s symbols ih =>
      cases s with
      | terminal t => exact ⟨t, mem_cons_self⟩
      | nonterminal v =>
          obtain ⟨t, ht⟩ := ih (Option.map_eq_none_iff.mp h)
          exact ⟨t, mem_cons_of_mem _ ht⟩

theorem pendingVariables_some {symbols : List (Symbol T V)} {others : List V}
    (h : pendingVariables f symbols = some others) :
    (∀ v ∈ others, Symbol.nonterminal v ∈ symbols) ∧
      ∀ s ∈ symbols, ∃ v, s = .nonterminal v ∧ (f v = true ∨ v ∈ others) := by
  induction symbols generalizing others with
  | nil =>
      cases h
      exact ⟨fun v hv => absurd hv not_mem_nil, fun s hs => absurd hs not_mem_nil⟩
  | cons s symbols ih =>
      cases s with
      | terminal t => exact absurd h.symm (Option.some_ne_none _)
      | nonterminal v =>
          obtain ⟨rest, hrest, hothers⟩ := Option.map_eq_some_iff.mp h
          obtain ⟨hmem, hall⟩ := ih hrest
          by_cases hv : f v = true
          · rw [if_pos hv] at hothers
            subst hothers
            refine ⟨fun w hw => mem_cons_of_mem _ (hmem w hw), fun s hs => ?_⟩
            rcases mem_cons.mp hs with rfl | hs
            · exact ⟨v, rfl, Or.inl hv⟩
            · exact hall s hs
          · rw [if_neg hv] at hothers
            subst hothers
            refine ⟨fun w hw => ?_, fun s hs => ?_⟩
            · rcases mem_cons.mp hw with rfl | hw
              · exact mem_cons_self
              · exact mem_cons_of_mem _ (hmem w hw)
            · rcases mem_cons.mp hs with rfl | hs
              · exact ⟨v, rfl, Or.inr mem_cons_self⟩
              · obtain ⟨w, hw, h⟩ := hall s hs
                exact ⟨w, hw, h.imp_right (mem_cons_of_mem _)⟩

end

section

variable {g : Grammar T V R} {a : Pending V} {r : R} {f : V → Bool}

/-- The list `a` stands for the rule `r`: once its variables are nullable, so is the
left-hand side. -/
structure Stands (g : Grammar T V R) (f : V → Bool) (a : Pending V) (r : R) : Prop where
  lhs : a.lhs = g.lhs r
  others : ∀ v ∈ a.others, Symbol.nonterminal v ∈ g.rhs r
  symbols : ∀ s ∈ g.rhs r, ∃ v, s = .nonterminal v ∧ (f v = true ∨ v ∈ a.others)

theorem Stands.dropWhile (h : g.Stands f a r) :
    g.Stands f ⟨a.lhs, a.others.rdropWhile f⟩ r where
  lhs := h.lhs
  others v hv := h.others v ((List.rdropWhile_prefix f a.others).subset hv)
  symbols s hs := by
    obtain ⟨v, hv, hcase⟩ := h.symbols s hs
    refine ⟨v, hv, hcase.elim Or.inl fun hmem => ?_⟩
    rw [← rdropWhile_append_rtakeWhile (p := f) (l := a.others)] at hmem
    rcases mem_append.mp hmem with hmem | hmem
    · exact Or.inr hmem
    · exact Or.inl (mem_rtakeWhile_imp hmem)

end

/-- The variables marked so far, and the list `todo`. -/
structure NullableState (V : Type) where
  isNullable : V → Bool
  todo : List (Pending V)

variable [DecidableEq V]

/-- `lhs.set_nullable`. -/
def NullableState.mark (s : NullableState V) (v : V) : NullableState V :=
  { s with isNullable := update s.isNullable v true }

/-- A turn of the first loop. -/
def scanRule (g : Grammar T V R) (s : NullableState V) (r : R) : NullableState V :=
  if (g.rhs r).isEmpty then s.mark (g.lhs r)
  else if s.isNullable (g.lhs r) then s
  else
    match pendingVariables s.isNullable (g.rhs r).reverse with
    | none => s
    | some [] => s.mark (g.lhs r)
    | some others => { s with todo := s.todo ++ [⟨g.lhs r, others⟩] }

/-- A turn of the loop over `old_todo`: nullable variables are removed from the end of the
list, down to its first item. -/
def visitPending (s : NullableState V) (a : Pending V) : NullableState V :=
  if s.isNullable a.lhs then s
  else
    match a.others.rdropWhile s.isNullable with
    | [] => s.mark a.lhs
    | others => { s with todo := s.todo ++ [⟨a.lhs, others⟩] }

/-- A turn of the outer loop, on `old_todo` and the other data. -/
def nullablePass : List (Pending V) × NullableState V →
    Option (List (Pending V) × NullableState V)
  | (_, s) => some (s.todo, s.todo.foldl visitPending { s with todo := [] })

/-- `set_nullable`. -/
def setNullable (g : Grammar T V R) : Option (Grammar T V R) :=
  let s := g.rules.foldl g.scanRule ⟨g.isNullable, []⟩
  (loopUntil (fun s => some (decide (s.1.length = s.2.todo.length))) nullablePass
    (2 * s.todo.length + 2) ([], s)).map fun s => { g with isNullable := s.2.isNullable }

section

variable {g : Grammar T V R} {a : Pending V} {r : R} {f : V → Bool}

theorem le_update (f : V → Bool) (v w : V) (h : f w = true) :
    update f v true w = true := by
  by_cases hvw : w = v
  · rw [hvw, update_self]
  · rw [update_of_ne hvw]
    exact h

theorem Stands.update (h : g.Stands f a r) (v : V) :
    g.Stands (update f v true) a r where
  lhs := h.lhs
  others := h.others
  symbols s hs := by
    obtain ⟨w, hw, hcase⟩ := h.symbols s hs
    exact ⟨w, hw, hcase.imp_left (le_update f v w)⟩

variable [DecidableEq T]

/-- What the rules generate. -/
def contextFree (g : Grammar T V R) : ContextFreeGrammar T where
  NT := V
  initial := g.startSymbol
  rules := (g.rules.map fun r => ContextFreeRule.mk (g.lhs r) (g.rhs r)).toFinset

theorem mem_contextFree_rules {c : ContextFreeRule T V} :
    c ∈ g.contextFree.rules ↔ ∃ r ∈ g.rules, ContextFreeRule.mk (g.lhs r) (g.rhs r) = c :=
  mem_toFinset.trans mem_map

/-- The variables that can be expanded to an empty string. -/
abbrev DerivesEmpty (g : Grammar T V R) : V → Prop := Generating g.contextFree fun _ => False

theorem derivesEmpty_of_rule (hr : r ∈ g.rules)
    (h : ∀ s ∈ g.rhs r, ∃ v, s = .nonterminal v ∧ g.DerivesEmpty v) :
    g.DerivesEmpty (g.lhs r) := by
  have hrule : (⟨g.lhs r, g.rhs r⟩ : ContextFreeRule T V) ∈ g.contextFree.rules :=
    mem_contextFree_rules.mpr ⟨r, hr, rfl⟩
  refine GeneratingAll.rule hrule fun s hs => ?_
  obtain ⟨v, rfl, hv⟩ := h s hs
  exact hv

/-- What the marks and the lists mean when the rules of `done` have been read. -/
structure NullableInvariant (g : Grammar T V R) (done : List R) (f : V → Bool)
    (todo : List (Pending V)) : Prop where
  sound : ∀ v, f v = true → g.DerivesEmpty v
  pending : ∀ a ∈ todo, ∃ r ∈ g.rules, g.Stands f a r
  covered : ∀ r ∈ done, f (g.lhs r) = true ∨ (∃ t, Symbol.terminal t ∈ g.rhs r) ∨
    ∃ a ∈ todo, g.Stands f a r

theorem NullableInvariant.mark {done : List R} {todo : List (Pending V)} {v : V}
    (h : g.NullableInvariant done f todo) (hv : g.DerivesEmpty v) :
    g.NullableInvariant done (update f v true) todo where
  sound w hw := by
    by_cases hwv : w = v
    · exact hwv ▸ hv
    · rw [update_of_ne hwv] at hw
      exact h.sound w hw
  pending a ha := by
    obtain ⟨r, hr, hstands⟩ := h.pending a ha
    exact ⟨r, hr, hstands.update v⟩
  covered r hr := by
    rcases h.covered r hr with hlhs | hterminal | ⟨a, ha, hstands⟩
    · exact Or.inl (le_update f v _ hlhs)
    · exact Or.inr (Or.inl hterminal)
    · exact Or.inr (Or.inr ⟨a, ha, hstands.update v⟩)

theorem NullableInvariant.read {done : List R} {todo : List (Pending V)}
    (h : g.NullableInvariant done f todo)
    (hr : f (g.lhs r) = true ∨ (∃ t, Symbol.terminal t ∈ g.rhs r) ∨
      ∃ a ∈ todo, g.Stands f a r) : g.NullableInvariant (done ++ [r]) f todo where
  sound := h.sound
  pending := h.pending
  covered r' hr' := by
    rcases mem_append.mp hr' with hr' | hr'
    · exact h.covered r' hr'
    · exact mem_singleton.mp hr' ▸ hr

theorem NullableInvariant.put {done : List R} {todo : List (Pending V)}
    (h : g.NullableInvariant done f todo) (hr : r ∈ g.rules) (ha : g.Stands f a r) :
    g.NullableInvariant done f (todo ++ [a]) where
  sound := h.sound
  pending b hb := by
    rcases mem_append.mp hb with hb | hb
    · exact h.pending b hb
    · exact mem_singleton.mp hb ▸ ⟨r, hr, ha⟩
  covered r' hr' := by
    rcases h.covered r' hr' with hlhs | hterminal | ⟨b, hb, hstands⟩
    · exact Or.inl hlhs
    · exact Or.inr (Or.inl hterminal)
    · exact Or.inr (Or.inr ⟨b, mem_append_left _ hb, hstands⟩)

/-- A turn of the first loop. -/
theorem NullableInvariant.scanRule {done : List R} {s : NullableState V}
    (h : g.NullableInvariant done s.isNullable s.todo) (hr : r ∈ g.rules) :
    g.NullableInvariant (done ++ [r]) (g.scanRule s r).isNullable (g.scanRule s r).todo := by
  have hmarked : ∀ {v}, v = g.lhs r → g.DerivesEmpty v →
      g.NullableInvariant (done ++ [r]) (s.mark v).isNullable (s.mark v).todo := by
    rintro v rfl hv
    exact (h.mark hv).read (Or.inl (update_self _ _ _))
  unfold Grammar.scanRule
  split
  case isTrue hempty =>
      refine hmarked rfl (derivesEmpty_of_rule hr fun s hs => ?_)
      rw [isEmpty_iff.mp hempty] at hs
      exact absurd hs not_mem_nil
  case isFalse =>
      split
      case isTrue hlhs => exact h.read (Or.inl hlhs)
      case isFalse =>
          cases hpending : pendingVariables s.isNullable (g.rhs r).reverse with
          | none =>
              obtain ⟨t, ht⟩ := pendingVariables_none hpending
              exact h.read (Or.inr (Or.inl ⟨t, mem_reverse.mp ht⟩))
          | some others =>
              obtain ⟨hmem, hall⟩ := pendingVariables_some hpending
              have hstands : g.Stands s.isNullable ⟨g.lhs r, others⟩ r :=
                ⟨rfl, fun v hv => mem_reverse.mp (hmem v hv),
                  fun s hs => hall s (mem_reverse.mpr hs)⟩
              cases others with
              | nil =>
                  refine hmarked rfl (derivesEmpty_of_rule hr fun s' hs' => ?_)
                  obtain ⟨v, hv, hcase⟩ := hstands.symbols s' hs'
                  exact ⟨v, hv, h.sound v (hcase.resolve_right not_mem_nil)⟩
              | cons v others =>
                  exact (h.put hr hstands).read
                    (Or.inr (Or.inr ⟨_, mem_append_right _ mem_cons_self, hstands⟩))

/-- A list whose left-hand side is nullable is of no use any more. -/
theorem NullableInvariant.drop {done : List R} {todo rest : List (Pending V)}
    (h : g.NullableInvariant done f (todo ++ a :: rest)) (ha : f a.lhs = true) :
    g.NullableInvariant done f (todo ++ rest) where
  sound := h.sound
  pending b hb := by
    refine h.pending b ?_
    rcases mem_append.mp hb with hb | hb
    · exact mem_append_left _ hb
    · exact mem_append_right _ (mem_cons_of_mem _ hb)
  covered r hr := by
    rcases h.covered r hr with hlhs | hterminal | ⟨b, hb, hstands⟩
    · exact Or.inl hlhs
    · exact Or.inr (Or.inl hterminal)
    · rcases mem_append.mp hb with hb | hb
      · exact Or.inr (Or.inr ⟨b, mem_append_left _ hb, hstands⟩)
      · rcases mem_cons.mp hb with rfl | hb
        · exact Or.inl (hstands.lhs ▸ ha)
        · exact Or.inr (Or.inr ⟨b, mem_append_right _ hb, hstands⟩)

theorem NullableInvariant.replace {done : List R} {todo rest : List (Pending V)} {b : Pending V}
    (h : g.NullableInvariant done f (todo ++ a :: rest))
    (hab : ∀ r, g.Stands f a r → g.Stands f b r) :
    g.NullableInvariant done f (todo ++ b :: rest) where
  sound := h.sound
  pending c hc := by
    rcases mem_append.mp hc with hc | hc
    · exact h.pending c (mem_append_left _ hc)
    · rcases mem_cons.mp hc with rfl | hc
      · obtain ⟨r, hr, hstands⟩ := h.pending a (mem_append_right _ mem_cons_self)
        exact ⟨r, hr, hab r hstands⟩
      · exact h.pending c (mem_append_right _ (mem_cons_of_mem _ hc))
  covered r hr := by
    rcases h.covered r hr with hlhs | hterminal | ⟨c, hc, hstands⟩
    · exact Or.inl hlhs
    · exact Or.inr (Or.inl hterminal)
    · rcases mem_append.mp hc with hc | hc
      · exact Or.inr (Or.inr ⟨c, mem_append_left _ hc, hstands⟩)
      · rcases mem_cons.mp hc with rfl | hc
        · exact Or.inr (Or.inr ⟨b, mem_append_right _ mem_cons_self, hab r hstands⟩)
        · exact Or.inr (Or.inr
            ⟨c, mem_append_right _ (mem_cons_of_mem _ hc), hstands⟩)

/-- The variables of the lists that are not removed are not all nullable. -/
def Stuck (f : V → Bool) (todo : List (Pending V)) : Prop :=
  ∀ a ∈ todo, ∃ v ∈ a.others, f v = false

/-- What holds in a pass over `old`, which began with the marks `f`, once the lists of
`done` have been visited. -/
structure PassInvariant (g : Grammar T V R) (f : V → Bool) (old done : List (Pending V))
    (s : NullableState V) : Prop where
  marks : ∀ rest, old = done ++ rest →
    g.NullableInvariant g.rules s.isNullable (s.todo ++ rest)
  length_le : s.todo.length ≤ done.length
  unchanged : s.todo.length = done.length → s.isNullable = f ∧ Stuck f s.todo

theorem PassInvariant.visit {old done rest : List (Pending V)} {s : NullableState V}
    (hold : old = done ++ a :: rest) (h : g.PassInvariant f old done s) :
    g.PassInvariant f old (done ++ [a]) (visitPending s a) := by
  have hrest : ∀ rest', old = done ++ [a] ++ rest' → rest' = rest := by
    intro rest' hrest'
    rw [hold, append_assoc] at hrest'
    exact (cons.inj (append_cancel_left hrest')).2.symm
  have hmarks := h.marks _ hold
  have hlength : (done ++ [a]).length = done.length + 1 := length_append
  have hle := h.length_le
  unfold visitPending
  split
  case isTrue hlhs =>
      refine ⟨fun rest' h' => ?_, by omega, fun h' => absurd h' (by omega)⟩
      rw [hrest rest' h']
      exact hmarks.drop hlhs
  case isFalse =>
      split
      case h_1 hall =>
          have hempty : g.DerivesEmpty a.lhs := by
            obtain ⟨r, hr, hstands⟩ :=
              hmarks.pending a (mem_append_right _ mem_cons_self)
            rw [hstands.lhs]
            refine derivesEmpty_of_rule hr fun s' hs' => ?_
            obtain ⟨v, hv, hcase⟩ := hstands.symbols s' hs'
            exact ⟨v, hv, hmarks.sound v (hcase.elim id (rdropWhile_eq_nil_iff.mp hall v))⟩
          refine ⟨fun rest' h' => ?_, Nat.le_trans hle (by omega), fun h' => ?_⟩
          · rw [hrest rest' h']
            exact (hmarks.mark hempty).drop (update_self _ _ _)
          · have hsame : s.todo.length = (done ++ [a]).length := h'
            omega
      case h_2 hsome =>
          have hput : ∀ t : List (Pending V), ∀ b, (t ++ [b]).length = t.length + 1 :=
            fun t b => length_append
          refine ⟨fun rest' h' => ?_, ?_, fun h' => ?_⟩
          · rw [hrest rest' h']
            show g.NullableInvariant g.rules s.isNullable (s.todo ++ [_] ++ rest)
            rw [append_assoc]
            exact hmarks.replace fun r hstands => hstands.dropWhile
          · show (s.todo ++ [_]).length ≤ _
            rw [hput, hlength]
            exact Nat.succ_le_succ hle
          · change (s.todo ++ [_]).length = _ at h'
            rw [hput, hlength] at h'
            obtain ⟨hsame, hstuck⟩ := h.unchanged (by omega)
            refine ⟨hsame, fun b hb => ?_⟩
            rcases mem_append.mp hb with hb | hb
            · exact hstuck b hb
            · rw [mem_singleton.mp hb]
              refine ⟨_, getLast_mem hsome, ?_⟩
              rw [← hsame]
              exact Bool.eq_false_iff.mpr (rdropWhile_last_not _ _ hsome)

/-- A pass over `todo`. -/
theorem NullableInvariant.pass {s : NullableState V}
    (h : g.NullableInvariant g.rules s.isNullable s.todo) :
    g.PassInvariant s.isNullable s.todo s.todo
      (s.todo.foldl visitPending { s with todo := [] }) :=
  foldl_spec (g.PassInvariant s.isNullable s.todo)
    (fun _ _ _ _ hold hs => hs.visit hold)
    ⟨fun rest hrest => by rw [nil_append] at hrest; exact hrest ▸ h,
      Nat.le_refl 0, fun _ => ⟨rfl, fun b hb => absurd hb not_mem_nil⟩⟩

/-- When no list can be shortened away, everything that derives the empty string is
marked. -/
theorem NullableInvariant.complete {todo : List (Pending V)}
    (h : g.NullableInvariant g.rules f todo) (hstuck : Stuck f todo) :
    ∀ v, g.DerivesEmpty v → f v = true := by
  intro v hv
  refine Generating.least (S := fun v => f v = true) (fun c hc hletters ih => ?_) hv
  obtain ⟨r, hr, rfl⟩ := mem_contextFree_rules.mp hc
  rcases h.covered r hr with hlhs | ⟨t, ht⟩ | ⟨a, ha, hstands⟩
  · exact hlhs
  · exact (hletters t ht).elim
  · obtain ⟨v, hv, hnot⟩ := hstuck a ha
    have hmarked : f v = true := ih v (hstands.others v hv)
    rw [hmarked] at hnot
    exact absurd hnot Bool.noConfusion

/-- The first loop. -/
theorem nullableInvariant_scan (hsound : ∀ v, g.isNullable v = true → g.DerivesEmpty v) :
    g.NullableInvariant g.rules (g.rules.foldl g.scanRule ⟨g.isNullable, []⟩).isNullable
      (g.rules.foldl g.scanRule ⟨g.isNullable, []⟩).todo :=
  foldl_spec (fun done (s : NullableState V) => g.NullableInvariant done s.isNullable s.todo)
    (fun done r rest s hrules hs => hs.scanRule
      (by rw [hrules]; exact mem_append_right _ mem_cons_self))
    ⟨hsound, fun a ha => absurd ha not_mem_nil, fun r hr => absurd hr not_mem_nil⟩

/-- What the outer loop keeps. -/
structure NullableLoop (g : Grammar T V R) (s : List (Pending V) × NullableState V) : Prop where
  marks : g.NullableInvariant g.rules s.2.isNullable s.2.todo
  stuck : s.1.length = s.2.todo.length → Stuck s.2.isNullable s.2.todo

theorem NullableLoop.pass {s : List (Pending V) × NullableState V} (h : g.NullableLoop s)
    (hne : ¬s.1.length = s.2.todo.length) :
    ∃ s', nullablePass s = some s' ∧
      2 * s'.2.todo.length + (if s'.1.length = s'.2.todo.length then 0 else 1) <
        2 * s.2.todo.length + (if s.1.length = s.2.todo.length then 0 else 1) ∧
      g.NullableLoop s' := by
  have hpass := h.marks.pass
  have hle := hpass.length_le
  refine ⟨_, rfl, ?_, ?_, fun hsame => ?_⟩
  · dsimp only
    rw [if_neg hne]
    split <;> omega
  · have hall := hpass.marks [] (append_nil _).symm
    rwa [append_nil] at hall
  · obtain ⟨hmarks, hstuck⟩ := hpass.unchanged hsame.symm
    exact hmarks.symm ▸ hstuck

/-- `set_nullable` ends, and marks the variables that derive the empty string. -/
theorem setNullable_marks (hsound : ∀ v, g.isNullable v = true →
      g.contextFree.Derives [.nonterminal v] []) :
    ∃ f, g.setNullable = some { g with isNullable := f } ∧
      ∀ v, f v = true ↔ g.contextFree.Derives [.nonterminal v] [] := by
  have hscan := nullableInvariant_scan fun v hv => generating_false_iff.mpr (hsound v hv)
  have hstart : g.NullableLoop ([], g.rules.foldl g.scanRule ⟨g.isNullable, []⟩) := by
    refine ⟨hscan, fun hempty a ha => ?_⟩
    rw [length_eq_zero_iff.mp hempty.symm] at ha
    exact absurd ha not_mem_nil
  have hfuel : ∀ n k : Nat, 2 * n + (if k = n then 0 else 1) < 2 * n + 2 := by
    intro n k
    split <;> omega
  obtain ⟨⟨old, s⟩, hrun, hloop, hend⟩ := loopUntil_decide g.NullableLoop _
    (fun s hs hne => hs.pass hne) hstart (hfuel _ _)
  refine ⟨s.isNullable, ?_, fun v => ⟨fun hv => generating_false_iff.mp (hloop.marks.sound v hv),
    fun hv => hloop.marks.complete (hloop.stuck hend) v (generating_false_iff.mpr hv)⟩⟩
  rw [setNullable]
  exact congrArg (Option.map _) hrun

end

/-- `0` is `1 1`, `1` is empty and `2` is the token `7`. -/
def threeRules : Grammar Nat Nat Nat where
  rules := [1, 2, 3]
  variableList := [0, 1, 2]
  startSymbol := 0
  lhs r := r - 1
  rhs r := if r = 1 then [.nonterminal 1, .nonterminal 1] else if r = 2 then [] else [.terminal 7]
  variableRules v := [v + 1]
  ruleId := id
  variableId := id
  ruleIsUseful _ := false
  variableIsUseful _ := false
  tokenIsUseful _ := true
  isNullable _ := false

theorem setNullable_marks_threeRules :
    (threeRules.setNullable.map fun g => [0, 1, 2].map g.isNullable) =
        some [true, true, false] ∧
      threeRules.contextFree.Derives [.nonterminal (0 : Nat)] [] ∧
      ¬threeRules.contextFree.Derives [.nonterminal (2 : Nat)] [] := by
  obtain ⟨f, hrun, hmarks⟩ := setNullable_marks (g := threeRules) fun _ h => nomatch h
  have heval : (threeRules.setNullable.map fun g => [0, 1, 2].map g.isNullable) =
      some [true, true, false] := by decide
  have hf : [f 0, f 1, f 2] = [true, true, false] := by
    rw [hrun] at heval
    exact Option.some.inj heval
  simp only [cons.injEq] at hf
  refine ⟨heval, (hmarks 0).mp hf.1, fun h => ?_⟩
  rw [(hmarks 2).mpr h] at hf
  exact absurd hf.2.2.1 Bool.noConfusion

end Grammar

end Gobo
