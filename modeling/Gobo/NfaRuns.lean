/-
The iterations of an automaton, and sequences of operations on automata.
-/
import Gobo.NfaCopy

namespace Gobo

open List

open scoped Computability

namespace Nfa

open NfaStates

variable {C : Type} {has : C → Int → Bool} {h h₁ : NfaStates C} {n a other : Nfa}
  {L L₁ L₂ : Language Int} {used : List Nat} {p nb lb ub : Nat}

/-- The automaton itself. -/
theorem Built.spliced (hn : Built has h n L) : Spliced has h n.states h n L :=
  ⟨hn, Nat.le_refl _, fun _ _ _ => rfl, fun _ hp => Or.inl hp⟩

/-- Another automaton, next to one that is new. -/
theorem Spliced.keeps (hs : Spliced has h used h₁ a L₁) (hn : Built has h n L)
    (hused : ∀ p ∈ used, p ∉ n.states) : Built has h₁ n L ∧ n.states.Disjoint a.states := by
  refine ⟨hn.frame hs.created_le fun p hp => hs.frame p (hn.created p hp) fun hp' => hused p hp' hp,
    fun p hp hpa => ?_⟩
  rcases hs.states p hpa with hp' | hge
  · exact hused p hp' hp
  · exact Nat.not_le_of_lt (hn.created p hp) hge

/-- A concatenation, when everything else has been left alone. -/
theorem concatenation_eq (hn : Built has h₁ n L₁) (ho : Built has h₁ other L₂)
    (hapart : n.states.Disjoint other.states) (hle : h.created ≤ h₁.created)
    (hframe : ∀ p < h.created, p ∉ used → h₁.links p = h.links p)
    (hused : ∀ p ∈ n.states ++ other.states, p ∈ used ∨ h.created ≤ p) :
    ∃ h' n', buildConcatenation h₁ n other = some (h', n') ∧
      Spliced has h used h' n' (L₁ * L₂) := by
  obtain ⟨h', n', hrun, hs⟩ := buildConcatenation_eq hn ho hapart
  exact ⟨h', n', hrun, hs.trans hle hframe hused⟩

/-- A copy of `n` is made when `a` has been built from other ones. -/
theorem Spliced.copy (hs : Spliced has h [] h₁ a L₁) (hn : Built has h n L) :
    ∃ h₂ b, Nfa.copy h₁ n = some (h₂, b) ∧ Spliced has h [] h₂ b L ∧ Built has h₂ a L₁ ∧
      a.states.Disjoint b.states := by
  obtain ⟨hn₁, -⟩ := hs.keeps hn nofun
  obtain ⟨h₂, b, hrun, hb⟩ := copy_eq hn₁
  obtain ⟨ha, hapart⟩ := hb.keeps hs.built nofun
  exact ⟨h₂, b, hrun, hb.trans hs.created_le hs.frame nofun, ha, hapart⟩

theorem Spliced.states_ge (hs : Spliced has h [] h₁ a L₁) : ∀ p ∈ a.states, h.created ≤ p :=
  fun p hp => (hs.states p hp).resolve_left not_mem_nil

/-- An automaton is followed by one that has been built from its copies. -/
theorem Spliced.concatenation (hs : Spliced has h [] h₁ a L₁) (hn : Built has h n L) :
    ∃ h' n', buildConcatenation h₁ n a = some (h', n') ∧
      Spliced has h n.states h' n' (L * L₁) := by
  obtain ⟨hn₁, hapart⟩ := hs.keeps hn nofun
  refine concatenation_eq hn₁ hs.built hapart hs.created_le
    (fun p hp _ => hs.frame p hp not_mem_nil) fun p hp => ?_
  exact (mem_append.mp hp).imp_right (hs.states_ge p)

/-- `build_iteration`. -/
theorem buildIteration_eq (hn : Built has h n L) (hnb : 0 < nb) :
    ∃ h' n', buildIteration h n nb = some (h', n') ∧ Spliced has h n.states h' n' (L ^ nb) := by
  rw [buildIteration]
  split_ifs with hone
  · obtain ⟨h₁, a, hrun₁, hs₁⟩ := copy_eq hn
    obtain ⟨⟨h₂, a₂⟩, hrun₂, hs₂⟩ : ∃ m : NfaStates C × Nfa,
        forUp (iterationTurn n) (nb - 2) 2 (h₁, a) = some m ∧
          Spliced has h [] m.1 m.2 (L ^ (2 + (nb - 2) - 1)) := by
      refine forUp_spec (fun i (m : NfaStates C × Nfa) => Spliced has h [] m.1 m.2 (L ^ (i - 1)))
        (fun i m hi _ hm => ?_) (by simpa using hs₁)
      obtain ⟨h₂, b, hcopy, hb, ha, hapart⟩ := hm.copy hn
      obtain ⟨h₃, a₃, hrun, hs⟩ := concatenation_eq ha hb.built hapart hb.created_le hb.frame
        fun p hp => Or.inr ((mem_append.mp hp).elim (hm.states_ge p) (hb.states_ge p))
      refine ⟨(h₃, a₃), ?_, ?_⟩
      · rw [iterationTurn, hcopy]
        exact hrun
      · rw [← pow_succ, Nat.sub_add_cancel (Nat.le_of_succ_le hi)] at hs
        exact hs
    obtain ⟨h₃, n₃, hrun₃, hs₃⟩ := hs₂.concatenation hn
    refine ⟨h₃, n₃, ?_, ?_⟩
    · simp only [hrun₁, hrun₂, some_bind]
      exact hrun₃
    · rwa [← pow_succ', (by omega : 2 + (nb - 2) - 1 + 1 = nb)] at hs₃
  · obtain rfl : nb = 1 := not_not.mp hone
    exact ⟨h, n, rfl, (pow_one L).symm ▸ hn.spliced⟩

/-- The automaton is repeated when `a` has been built from its copies, and followed by `a`. -/
theorem Spliced.iteration (hs : Spliced has h [] h₁ a L₁) (hn : Built has h n L) (hnb : 0 < nb) :
    ∃ h₂ n₂ h' n', buildIteration h₁ n nb = some (h₂, n₂) ∧
      buildConcatenation h₂ n₂ a = some (h', n') ∧
        Spliced has h n.states h' n' (L ^ nb * L₁) := by
  obtain ⟨hn₁, hapart⟩ := hs.keeps hn nofun
  obtain ⟨h₂, n₂, hrun₂, hs₂⟩ := buildIteration_eq hn₁ hnb
  obtain ⟨ha, hapart₂⟩ := hs₂.keeps hs.built fun p hp => hapart hp
  have hframe : ∀ p < h.created, p ∉ n.states → h₂.links p = h.links p := fun p hp hout =>
    (hs₂.frame p (hp.trans_le hs.created_le) hout).trans (hs.frame p hp not_mem_nil)
  obtain ⟨h', n', hrun, hs'⟩ := concatenation_eq hs₂.built ha hapart₂.symm
    (hs.created_le.trans hs₂.created_le) hframe fun p hp => by
      rcases mem_append.mp hp with hp | hp
      · exact (hs₂.states p hp).imp_right hs.created_le.trans
      · exact Or.inr (hs.states_ge p hp)
  exact ⟨h₂, n₂, h', n', hrun₂, hrun, hs'⟩

/-- `build_unbounded_iteration`. -/
theorem buildUnboundedIteration_eq (hn : Built has h n L) (hnb : 0 < nb) :
    ∃ h' n', buildUnboundedIteration h n nb = some (h', n') ∧
      Spliced has h n.states h' n' (L ^ nb * L∗) := by
  obtain ⟨h₁, a, hrun₁, hs₁⟩ := copy_eq hn
  obtain ⟨h₂, a₂, hrun₂, hs₂⟩ := buildClosure_eq hs₁.built
  have hs : Spliced has h [] h₂ a₂ L∗ := hs₂.trans hs₁.created_le hs₁.frame hs₁.states
  obtain ⟨h₃, n₃, h', n', hrun₃, hrun, hs'⟩ := hs.iteration hn hnb
  refine ⟨h', n', ?_, hs'⟩
  simp only [buildUnboundedIteration, hrun₁, hrun₂, hrun₃, some_bind]
  exact hrun

/-- From `lb` to `ub` times the language. -/
def bounded (L : Language Int) (lb ub : Nat) : Language Int :=
  {w | ∃ k, lb ≤ k ∧ k ≤ ub ∧ w ∈ L ^ k}

theorem bounded_zero (L : Language Int) : bounded L 0 0 = 1 := by
  ext w
  refine ⟨fun ⟨k, _, hk, hw⟩ => ?_, fun hw => ⟨0, Nat.le_refl 0, Nat.le_refl 0, hw⟩⟩
  obtain rfl := Nat.le_zero.mp hk
  exact hw

theorem bounded_succ (L : Language Int) (k : Nat) :
    bounded L 0 (k + 1) = L * bounded L 0 k + 1 := by
  ext w
  rw [Language.mem_add, Language.mem_mul, Language.mem_one]
  constructor
  · rintro ⟨_ | j, -, hj, hw⟩
    · exact Or.inr hw
    · rw [pow_succ', Language.mem_mul] at hw
      obtain ⟨u, hu, v, hv, rfl⟩ := hw
      exact Or.inl ⟨u, hu, v, ⟨j, Nat.zero_le j, Nat.le_of_succ_le_succ hj, hv⟩, rfl⟩
  · rintro (⟨u, hu, v, ⟨j, -, hj, hv⟩, rfl⟩ | rfl)
    · refine ⟨j + 1, Nat.zero_le _, Nat.succ_le_succ hj, ?_⟩
      rw [pow_succ']
      exact Language.append_mem_mul hu hv
    · exact ⟨0, Nat.le_refl 0, Nat.zero_le _, rfl⟩

theorem pow_mul_bounded (L : Language Int) (lb k : Nat) :
    L ^ lb * bounded L 0 k = bounded L lb (lb + k) := by
  ext w
  rw [Language.mem_mul]
  constructor
  · rintro ⟨u, hu, v, ⟨j, -, hj, hv⟩, rfl⟩
    refine ⟨lb + j, Nat.le_add_right lb j, Nat.add_le_add_left hj lb, ?_⟩
    rw [pow_add]
    exact Language.append_mem_mul hu hv
  · rintro ⟨j, hlb, hj, hw⟩
    obtain ⟨i, rfl⟩ := Nat.exists_eq_add_of_le hlb
    rw [pow_add, Language.mem_mul] at hw
    obtain ⟨u, hu, v, hv, rfl⟩ := hw
    exact ⟨u, hu, v, ⟨i, Nat.zero_le i, Nat.le_of_add_le_add_left hj, hv⟩, rfl⟩

/-- `build_bounded_iteration`. -/
theorem buildBoundedIteration_eq (hn : Built has h n L) (hlb : 0 < lb) (hub : lb ≤ ub) :
    ∃ h' n', buildBoundedIteration h n lb ub = some (h', n') ∧
      Spliced has h n.states h' n' (bounded L lb ub) := by
  rw [buildBoundedIteration]
  split_ifs with heq
  · subst heq
    obtain ⟨h', n', hrun, hs⟩ := buildIteration_eq hn hlb
    refine ⟨h', n', hrun, ?_⟩
    have hpow := pow_mul_bounded L lb 0
    rw [bounded_zero, mul_one] at hpow
    exact hpow ▸ hs
  · obtain ⟨h₁, a, hrun₁, hs₁⟩ := copy_eq hn
    obtain ⟨h₂, a₂, hrun₂, hs₂⟩ := buildOptional_eq hs₁.built
    have hfirst : bounded L 0 1 = L + 1 := by rw [bounded_succ, bounded_zero, mul_one]
    rw [← hfirst] at hs₂
    have hs : Spliced has h [] h₂ a₂ (bounded L 0 1) :=
      hs₂.trans hs₁.created_le hs₁.frame hs₁.states
    obtain ⟨⟨h₃, a₃⟩, hrun₃, hs₃⟩ : ∃ m : NfaStates C × Nfa,
        forUp (boundedTurn n) (ub - (lb + 1)) (lb + 1) (h₂, a₂) = some m ∧
          Spliced has h [] m.1 m.2 (bounded L 0 (lb + 1 + (ub - (lb + 1)) - lb)) := by
      refine forUp_spec (fun i (m : NfaStates C × Nfa) =>
        Spliced has h [] m.1 m.2 (bounded L 0 (i - lb))) (fun i m hi _ hm => ?_) ?_
      · obtain ⟨h₄, b, hcopy, hb, ha, hapart⟩ := hm.copy hn
        obtain ⟨h₅, b₅, hrun₅, hs₅⟩ := concatenation_eq hb.built ha hapart.symm hb.created_le
          hb.frame fun p hp =>
            Or.inr ((mem_append.mp hp).elim (hb.states_ge p) (hm.states_ge p))
        obtain ⟨h₆, b₆, hrun₆, hs₆⟩ := buildOptional_eq hs₅.built
        refine ⟨(h₆, b₆), ?_, ?_⟩
        · simp only [boundedTurn, hcopy, hrun₅, some_bind]
          exact hrun₆
        · rw [← bounded_succ, ← Nat.sub_add_comm (Nat.le_of_succ_le hi)] at hs₆
          exact hs₆.trans hs₅.created_le hs₅.frame hs₅.states
      · rwa [Nat.add_sub_cancel_left]
    obtain ⟨h₄, n₄, h', n', hrun₄, hrun, hs'⟩ := hs₃.iteration hn hlb
    refine ⟨h', n', ?_, ?_⟩
    · simp only [hrun₁, hrun₂, hrun₃, hrun₄, some_bind]
      exact hrun
    · rwa [pow_mul_bounded, (by omega : lb + (lb + 1 + (ub - (lb + 1)) - lb) = ub)] at hs'

/-- A transition between two new states. -/
theorem makeTransition_eq (label : NfaLabel C) (inContext : Bool) (h : NfaStates C) :
    Spliced has h [] (makeTransition label inContext h).1 (makeTransition label inContext h).2
      {w | ∃ o, labeled has label o ∧ w = o.toList} := by
  obtain ⟨h', hh'⟩ : ∃ h', h' = ((h.create (.make inContext)).create
      (.make inContext)).setTransition h.created label (h.created + 1) := ⟨_, rfl⟩
  have hc : h.created ≠ h.created + 1 := Nat.ne_of_lt (Nat.lt_succ_self _)
  have hfirst : h'.links h.created = (some (label, h.created + 1), none) := by
    rw [hh', links_setTransition_self, links_create_of_ne, links_create_self]
    · rfl
    · exact hc
  have hlast : h'.links (h.created + 1) = (none, none) := by
    rw [hh', links_setTransition_of_ne hc.symm]
    exact links_create_self _
  have hcreated : h'.created = h.created + 2 := by rw [hh']; rfl
  have hmem : ∀ p ∈ [h.created, h.created + 1], p = h.created ∨ p = h.created + 1 := fun p hp =>
    (mem_cons.mp hp).imp_right mem_singleton.mp
  have hleads : ∀ p ∈ [h.created, h.created + 1], ∀ q, h'.Leads p q → q = h.created + 1 := by
    intro p hp q hq
    rcases hmem p hp with rfl | rfl
    · rw [Leads, hfirst] at hq
      rcases hq with ⟨_, hq⟩ | hq
      · exact (Prod.mk.inj (Option.some.inj hq)).2.symm
      · cases hq
    · rw [Leads, hlast] at hq
      rcases hq with ⟨_, hq⟩ | hq <;> cases hq
  have hshape : Shaped has h' ⟨[h.created, h.created + 1], inContext⟩
      {w | ∃ o, labeled has label o ∧ w = o.toList} h.created [] (h.created + 1) := by
    constructor
    case states => rfl
    case nodup => exact nodup_cons.mpr ⟨fun h => hc (mem_singleton.mp h), nodup_singleton _⟩
    case created =>
      intro p hp
      rw [hcreated]
      rcases hmem p hp with rfl | rfl
      · exact Nat.lt_add_of_pos_right Nat.two_pos
      · exact Nat.lt_succ_self _
    case closed =>
      intro p hp q hq
      rw [hleads p hp q hq]
      exact mem_cons_of_mem _ mem_cons_self
    case start => exact fun p hp hq => hc (hleads p hp _ hq)
    case final => exact hlast
    case language =>
      ext w
      rw [between, mem_pathLanguage_iff hc]
      constructor
      · rintro ⟨o, q, hstep, v, hv, rfl⟩
        rcases mem_step.mp hstep with ⟨label', hq, ho⟩ | ⟨hq, -⟩
        · rw [hfirst] at hq
          obtain ⟨rfl, rfl⟩ := Prod.mk.inj (Option.some.inj hq)
          have hone : v ∈ between has h' (h.created + 1) (h.created + 1) := hv
          rw [between_self hlast, Language.mem_one] at hone
          exact ⟨o, ho, by rw [hone, append_nil]⟩
        · rw [hfirst] at hq
          cases hq
      · rintro ⟨o, ho, rfl⟩
        refine ⟨o, h.created + 1, Or.inl ⟨label, congrArg Prod.fst hfirst, ho⟩, [], ?_,
          (append_nil _).symm⟩
        have hone : [] ∈ between has h' (h.created + 1) (h.created + 1) := by
          rw [between_self hlast]
          exact Language.nil_mem_one
        exact hone
  have heq : makeTransition label inContext h = (h', ⟨[h.created, h.created + 1], inContext⟩) := by
    rw [hh']
    rfl
  rw [heq]
  refine ⟨hshape.built, ?_, fun p hp _ => ?_, fun p hp => Or.inr ?_⟩
  · rw [hcreated]
    exact Nat.le_add_right _ _
  · rw [hh', links_setTransition_of_ne (Nat.ne_of_lt hp), links_create_of_ne, links_create_of_ne]
    · exact Nat.ne_of_lt hp
    · exact Nat.ne_of_lt (Nat.lt_succ_of_lt hp)
  · rcases hmem p hp with rfl | rfl
    · exact Nat.le_refl _
    · exact Nat.le_succ _

end Nfa

/-- The automata that have been created, and their states. -/
structure Nfas (C : Type) where
  heap : NfaStates C
  nfas : List Nfa

namespace Nfas

open Nfa

variable {C : Type}

/-- The calls: on the automaton `i`, and on the automaton `j` that it takes over. -/
inductive Call (C : Type) where
  | makeSymbol (symbol : Int) (inContext : Bool)
  | makeEpsilon (inContext : Bool)
  | makeSymbolClass (symbols : C) (inContext : Bool)
  | clone (i : Nat)
  | setAcceptedRule (i rule : Nat)
  | buildConcatenation (i j : Nat)
  | buildUnion (i j : Nat)
  | buildOptional (i : Nat)
  | buildClosure (i : Nat)
  | buildPositiveClosure (i : Nat)
  | buildIteration (i nb : Nat)
  | buildUnboundedIteration (i nb : Nat)
  | buildBoundedIteration (i lb ub : Nat)

/-- A new automaton. -/
def add (w : Nfas C) (r : NfaStates C × Nfa) : Nfas C := ⟨r.1, w.nfas ++ [r.2]⟩

/-- The automaton `i` has been changed. -/
def change (w : Nfas C) (i : Nat) (r : NfaStates C × Nfa) : Nfas C := ⟨r.1, w.nfas.set i r.2⟩

def exec (w : Nfas C) : Call C → Option (Nfas C)
  | .makeSymbol symbol inContext => some (w.add (makeSymbol symbol inContext w.heap))
  | .makeEpsilon inContext => some (w.add (makeEpsilon inContext w.heap))
  | .makeSymbolClass symbols inContext => some (w.add (makeSymbolClass symbols inContext w.heap))
  | .clone i => do
      let n ← w.nfas[i]?
      (copy w.heap n).map w.add
  | .setAcceptedRule i rule => do
      let n ← w.nfas[i]?
      (setAcceptedRule w.heap n rule).map fun h => { w with heap := h }
  | .buildConcatenation i j => do
      let n ← w.nfas[i]?
      let other ← w.nfas[j]?
      (buildConcatenation w.heap n other).map (w.change i)
  | .buildUnion i j => do
      let n ← w.nfas[i]?
      let other ← w.nfas[j]?
      (buildUnion w.heap n other).map fun (h, n, other) =>
        (w.change j (h, other)).change i (h, n)
  | .buildOptional i => do
      let n ← w.nfas[i]?
      (buildOptional w.heap n).map (w.change i)
  | .buildClosure i => do
      let n ← w.nfas[i]?
      (buildClosure w.heap n).map (w.change i)
  | .buildPositiveClosure i => do
      let n ← w.nfas[i]?
      (buildPositiveClosure w.heap n).map (w.change i)
  | .buildIteration i nb => do
      let n ← w.nfas[i]?
      (buildIteration w.heap n nb).map (w.change i)
  | .buildUnboundedIteration i nb => do
      let n ← w.nfas[i]?
      (buildUnboundedIteration w.heap n nb).map (w.change i)
  | .buildBoundedIteration i lb ub => do
      let n ← w.nfas[i]?
      (buildBoundedIteration w.heap n lb ub).map (w.change i)

/-- The only word is the symbol. -/
def word (symbol : Int) : Language Int := {[symbol]}

/-- The words are the symbols of a symbol class. -/
def symbols (has : C → Int → Bool) (c : C) : Language Int :=
  {w | ∃ symbol, has c symbol = true ∧ w = [symbol]}

/-- The languages that are meant, `none` for an automaton that another one has taken over. -/
abbrev Meanings := List (Option (Language Int))

def meaning (ls : Meanings) (i : Nat) : Language Int := (ls[i]?.join).getD 0

/-- What the calls are for. -/
def Meanings.after (has : C → Int → Bool) (ls : Meanings) : Call C → Meanings
  | .makeSymbol symbol _ => ls ++ [some (word symbol)]
  | .makeEpsilon _ => ls ++ [some 1]
  | .makeSymbolClass c _ => ls ++ [some (symbols has c)]
  | .clone i => ls ++ [some (meaning ls i)]
  | .setAcceptedRule _ _ => ls
  | .buildConcatenation i j => (ls.set j none).set i (some (meaning ls i * meaning ls j))
  | .buildUnion i j => (ls.set j none).set i (some (meaning ls i + meaning ls j))
  | .buildOptional i => ls.set i (some (meaning ls i + 1))
  | .buildClosure i => ls.set i (some (meaning ls i)∗)
  | .buildPositiveClosure i => ls.set i (some (meaning ls i * (meaning ls i)∗))
  | .buildIteration i nb => ls.set i (some (meaning ls i ^ nb))
  | .buildUnboundedIteration i nb => ls.set i (some (meaning ls i ^ nb * (meaning ls i)∗))
  | .buildBoundedIteration i lb ub => ls.set i (some (bounded (meaning ls i) lb ub))

/-- The automaton `i` has not been taken over. -/
def Live (ls : Meanings) (i : Nat) : Prop := ∃ L, ls[i]? = some (some L)

/-- The preconditions. -/
def Pre (ls : Meanings) : Call C → Prop
  | .makeSymbol _ _ | .makeEpsilon _ | .makeSymbolClass _ _ => True
  | .clone i | .setAcceptedRule i _ | .buildOptional i | .buildClosure i
  | .buildPositiveClosure i => Live ls i
  | .buildConcatenation i j | .buildUnion i j => Live ls i ∧ Live ls j ∧ i ≠ j
  | .buildIteration i nb | .buildUnboundedIteration i nb => Live ls i ∧ 0 < nb
  | .buildBoundedIteration i lb ub => Live ls i ∧ 0 < lb ∧ lb ≤ ub

def execAll (w : Nfas C) (calls : List (Call C)) : Option (Nfas C) := calls.foldlM exec w

def Meanings.afterAll (has : C → Int → Bool) (ls : Meanings) (calls : List (Call C)) : Meanings :=
  calls.foldl (Meanings.after has) ls

/-- Each call of a sequence meets its preconditions. -/
def PreAll (has : C → Int → Bool) : Meanings → List (Call C) → Prop
  | _, [] => True
  | ls, call :: calls => Pre ls call ∧ PreAll has (ls.after has call) calls

/-- The automata have the languages that are meant, and share no state. -/
structure Sound (has : C → Int → Bool) (w : Nfas C) (ls : Meanings) : Prop where
  length : w.nfas.length = ls.length
  built : ∀ (i : Nat) n L, w.nfas[i]? = some n → ls[i]? = some (some L) → Built has w.heap n L
  apart : ∀ (i j : Nat) n n' L L', i ≠ j → w.nfas[i]? = some n → w.nfas[j]? = some n' →
    ls[i]? = some (some L) → ls[j]? = some (some L') → n.states.Disjoint n'.states

section

variable {has : C → Int → Bool} {w : Nfas C} {ls ls' : Meanings} {h' : NfaStates C}
  {n n' other : Nfa}
  {L L' L₂ : Language Int} {used : List Nat} {nfas : List Nfa} {i j : Nat}

section

variable (hs : Sound has w ls)

include hs

/-- One automaton gets a language, and the other ones are left alone. -/
theorem Sound.replaced (hsp : Spliced has w.heap used h' n' L')
    (hlength : nfas.length = ls'.length) (hi : nfas[i]? = some n') (hi' : ls'[i]? = some (some L'))
    (hothers : ∀ (k : Nat) m L, k ≠ i → nfas[k]? = some m → ls'[k]? = some (some L) →
      w.nfas[k]? = some m ∧ ls[k]? = some (some L) ∧ used.Disjoint m.states) :
    Sound has ⟨h', nfas⟩ ls' := by
  have hkeeps : ∀ (k : Nat) m L, k ≠ i → nfas[k]? = some m → ls'[k]? = some (some L) →
      Built has h' m L ∧ m.states.Disjoint n'.states := by
    intro k m L hk hm hL
    obtain ⟨hold, holdL, hused⟩ := hothers k m L hk hm hL
    exact hsp.keeps (hs.built k m L hold holdL) fun p hp hp' => hused hp hp'
  refine ⟨hlength, fun k m L hm hL => ?_, fun k l m m' L L₁ hkl hm hm' hL hL' => ?_⟩
  · rcases eq_or_ne k i with rfl | hk
    · obtain rfl := Option.some.inj (hi.symm.trans hm)
      obtain rfl := Option.some.inj (Option.some.inj (hi'.symm.trans hL))
      exact hsp.built
    · exact (hkeeps k m L hk hm hL).1
  · rcases eq_or_ne k i with rfl | hk
    · obtain rfl := Option.some.inj (hi.symm.trans hm)
      exact (hkeeps l m' L₁ hkl.symm hm' hL').2.symm
    · rcases eq_or_ne l i with rfl | hl
      · obtain rfl := Option.some.inj (hi.symm.trans hm')
        exact (hkeeps k m L hk hm hL).2
      · obtain ⟨hold, holdL, -⟩ := hothers k m L hk hm hL
        obtain ⟨hold', holdL', -⟩ := hothers l m' L₁ hl hm' hL'
        exact hs.apart k l m m' L L₁ hkl hold hold' holdL holdL'

theorem Sound.add (hsp : Spliced has w.heap [] h' n' L') :
    Sound has (w.add (h', n')) (ls ++ [some L']) := by
  refine hs.replaced (i := w.nfas.length) hsp ?_ ?_ ?_ fun k m L hk hm hL => ?_
  · rw [List.length_append, List.length_append, hs.length]
    rfl
  · exact List.getElem?_concat_length
  · rw [hs.length]
    exact List.getElem?_concat_length
  · have hlt : k < w.nfas.length := by
      have hle := (List.getElem?_eq_some_iff.mp hm).1
      rw [List.length_append] at hle
      exact Nat.lt_of_le_of_ne (Nat.le_of_lt_succ hle) hk
    rw [List.getElem?_append_left hlt] at hm
    rw [List.getElem?_append_left (hs.length ▸ hlt)] at hL
    exact ⟨hm, hL, fun p hp => absurd hp List.not_mem_nil⟩

theorem Sound.change (hn : w.nfas[i]? = some n) (hL : ls[i]? = some (some L))
    (hsp : Spliced has w.heap n.states h' n' L') :
    Sound has (w.change i (h', n')) (ls.set i (some L')) := by
  refine hs.replaced (i := i) hsp ?_ ?_ ?_ fun k m L₁ hk hm hL₁ => ?_
  · rw [List.length_set, List.length_set, hs.length]
  · exact List.getElem?_set_self (List.getElem?_eq_some_iff.mp hn).1
  · exact List.getElem?_set_self (List.getElem?_eq_some_iff.mp hL).1
  · rw [List.getElem?_set_ne hk.symm] at hm hL₁
    exact ⟨hm, hL₁, hs.apart i k n m L L₁ hk.symm hn hm hL hL₁⟩

/-- The automaton `i` has taken over the automaton `j`. -/
theorem Sound.merge (other' : Nfa) (hn : w.nfas[i]? = some n)
    (hL : ls[i]? = some (some L)) (ho : w.nfas[j]? = some other) (hL₂ : ls[j]? = some (some L₂))
    (hsp : Spliced has w.heap (n.states ++ other.states) h' n' L') :
    Sound has ((w.change j (h', other')).change i (h', n'))
      ((ls.set j none).set i (some L')) := by
  refine hs.replaced (i := i) hsp ?_ ?_ ?_ fun k m L₁ hk hm hL₁ => ?_
  · rw [List.length_set, List.length_set, List.length_set, ← hs.length]
    exact List.length_set
  · refine List.getElem?_set_self ?_
    exact (List.getElem?_eq_some_iff.mp hn).1.trans_eq List.length_set.symm
  · refine List.getElem?_set_self ?_
    exact (List.getElem?_eq_some_iff.mp hL).1.trans_eq List.length_set.symm
  · rw [List.getElem?_set_ne hk.symm] at hm hL₁
    rcases eq_or_ne j k with rfl | hjk
    · rw [List.getElem?_set_self (List.getElem?_eq_some_iff.mp hL₂).1] at hL₁
      exact nomatch hL₁
    · rw [List.getElem?_set_ne hjk] at hL₁
      have hm' : w.nfas[k]? = some m := (List.getElem?_set_ne hjk).symm.trans hm
      refine ⟨hm', hL₁, fun p hp hpm => ?_⟩
      rcases List.mem_append.mp hp with hp | hp
      · exact hs.apart i k n m L L₁ hk.symm hn hm' hL hL₁ hp hpm
      · exact hs.apart j k other m L₂ L₁ hjk ho hm' hL₂ hL₁ hp hpm

theorem Live.exists_eq (hi : Live ls i) :
    ∃ n, w.nfas[i]? = some n ∧ ls[i]? = some (some (meaning ls i)) ∧
      Built has w.heap n (meaning ls i) := by
  obtain ⟨L, hL⟩ := hi
  have hmeaning : meaning ls i = L := by
    rw [meaning, hL]
    rfl
  obtain ⟨n, hn⟩ : ∃ n, w.nfas[i]? = some n :=
    ⟨_, List.getElem?_eq_getElem (hs.length ▸ (List.getElem?_eq_some_iff.mp hL).1)⟩
  exact ⟨n, hn, by rw [hL, hmeaning], hmeaning ▸ hs.built i n L hn hL⟩

/-- An operation on the automaton `i`. -/
theorem Sound.unary (op : NfaStates C → Nfa → Option (NfaStates C × Nfa))
    (F : Language Int → Language Int) (hi : Live ls i)
    (hop : ∀ n L, Built has w.heap n L →
      ∃ h' n', op w.heap n = some (h', n') ∧ Spliced has w.heap n.states h' n' (F L)) :
    ∃ w', (do
      let n ← w.nfas[i]?
      (op w.heap n).map (w.change i)) = some w' ∧
        Sound has w' (ls.set i (some (F (meaning ls i)))) := by
  obtain ⟨n, hn, hL, hb⟩ := hi.exists_eq hs
  obtain ⟨h', n', hrun, hsp⟩ := hop n _ hb
  refine ⟨w.change i (h', n'), ?_, hs.change hn hL hsp⟩
  rw [hn, some_bind, hrun]
  rfl

/-- Each call does what it is for. -/
theorem Sound.step (call : Call C) (hpre : Pre ls call) :
    ∃ w', w.exec call = some w' ∧ Sound has w' (ls.after has call) := by
  cases call with
  | makeSymbol symbol inContext =>
      have hlanguage : {w | ∃ o, labeled has (.symbol symbol) o ∧ w = o.toList} = word symbol := by
        ext w
        refine ⟨fun ⟨o, ho, hw⟩ => ?_, fun hw => ⟨_, rfl, hw⟩⟩
        obtain rfl : o = some symbol := ho
        exact hw
      exact ⟨_, rfl, hs.add (hlanguage ▸ makeTransition_eq _ inContext w.heap)⟩
  | makeEpsilon inContext =>
      have hlanguage : {w | ∃ o, labeled has .epsilon o ∧ w = o.toList} = (1 : Language Int) := by
        ext w
        refine ⟨fun ⟨o, ho, hw⟩ => ?_, fun hw => ⟨_, rfl, hw⟩⟩
        obtain rfl : o = none := ho
        exact hw
      exact ⟨_, rfl, hs.add (hlanguage ▸ makeTransition_eq _ inContext w.heap)⟩
  | makeSymbolClass c inContext =>
      have hlanguage : {w | ∃ o, labeled has (.symbolClass c) o ∧ w = o.toList} =
          symbols has c := by
        ext w
        constructor
        · rintro ⟨_, ⟨symbol, rfl, hsymbol⟩, hw⟩
          exact ⟨symbol, hsymbol, hw⟩
        · rintro ⟨symbol, hsymbol, hw⟩
          exact ⟨_, ⟨symbol, rfl, hsymbol⟩, hw⟩
      exact ⟨_, rfl, hs.add (hlanguage ▸ makeTransition_eq _ inContext w.heap)⟩
  | clone i =>
      obtain ⟨n, hn, hL, hb⟩ := hpre.exists_eq hs
      obtain ⟨h', n', hrun, hsp⟩ := copy_eq hb
      refine ⟨_, ?_, hs.add hsp⟩
      rw [exec, hn, some_bind, hrun]
      rfl
  | setAcceptedRule i rule =>
      obtain ⟨n, hn, hL, hb⟩ := hpre.exists_eq hs
      obtain ⟨s, m, f, hshape⟩ := hb.shape
      refine ⟨⟨w.heap.setAcceptedRule f rule, w.nfas⟩, ?_, hs.length, fun k m L hm hL => ?_,
        hs.apart⟩
      · rw [exec, hn, some_bind, setAcceptedRule, finalState_of_shape hshape.states]
        rfl
      · exact (hs.built k m L hm hL).frame (Nat.le_refl _) fun p _ =>
          NfaStates.links_setAcceptedRule rule
  | buildConcatenation i j =>
      obtain ⟨hi, hj, hij⟩ := hpre
      obtain ⟨n, hn, hL, hb⟩ := hi.exists_eq hs
      obtain ⟨other, ho, hL', hb'⟩ := hj.exists_eq hs
      obtain ⟨h', n', hrun, hsp⟩ := buildConcatenation_eq hb hb'
        (hs.apart i j n other _ _ hij hn ho hL hL')
      have hsame : (w.change j (h', other)).change i (h', n') = w.change i (h', n') := by
        obtain ⟨hlt, hget⟩ := List.getElem?_eq_some_iff.mp ho
        rw [Nfas.change, Nfas.change, Nfas.change, ← hget, List.set_getElem_self]
      refine ⟨_, ?_, hsame ▸ hs.merge other hn hL ho hL' hsp⟩
      rw [exec, hn, some_bind, ho, some_bind, hrun]
      rfl
  | buildUnion i j =>
      obtain ⟨hi, hj, hij⟩ := hpre
      obtain ⟨n, hn, hL, hb⟩ := hi.exists_eq hs
      obtain ⟨other, ho, hL', hb'⟩ := hj.exists_eq hs
      obtain ⟨h', n', other', hrun, hsp⟩ := buildUnion_eq hb hb'
        (hs.apart i j n other _ _ hij hn ho hL hL')
      refine ⟨_, ?_, hs.merge other' hn hL ho hL' hsp⟩
      rw [exec, hn, some_bind, ho, some_bind, hrun]
      rfl
  | buildOptional i =>
      exact hs.unary buildOptional (· + 1) hpre fun n L hb => buildOptional_eq hb
  | buildClosure i =>
      exact hs.unary buildClosure (·∗) hpre fun n L hb => buildClosure_eq hb
  | buildPositiveClosure i =>
      exact hs.unary buildPositiveClosure (fun L => L * L∗) hpre
        fun n L hb => buildPositiveClosure_eq hb
  | buildIteration i nb =>
      exact hs.unary (fun h n => buildIteration h n nb) (· ^ nb) hpre.1
        fun n L hb => buildIteration_eq hb hpre.2
  | buildUnboundedIteration i nb =>
      exact hs.unary (fun h n => buildUnboundedIteration h n nb) (fun L => L ^ nb * L∗) hpre.1
        fun n L hb => buildUnboundedIteration_eq hb hpre.2
  | buildBoundedIteration i lb ub =>
      exact hs.unary (fun h n => buildBoundedIteration h n lb ub) (bounded · lb ub) hpre.1
        fun n L hb => buildBoundedIteration_eq hb hpre.2.1 hpre.2.2

theorem Sound.run (calls : List (Call C)) (hcalls : PreAll has ls calls) :
    ∃ w', w.execAll calls = some w' ∧ Sound has w' (ls.afterAll has calls) := by
  induction calls generalizing w ls with
  | nil => exact ⟨w, rfl, hs⟩
  | cons call calls ih =>
      obtain ⟨w₁, hrun, hs₁⟩ := hs.step call hcalls.1
      obtain ⟨w', hrun', hs'⟩ := ih hs₁ hcalls.2
      refine ⟨w', ?_, hs'⟩
      rw [execAll, foldlM_cons, hrun]
      exact hrun'

end

end

def initial : Nfas C := ⟨⟨0, fun _ => .make false⟩, []⟩

/-- The automata that are built by any sequence of operations. -/
theorem run_initial (has : C → Int → Bool) (calls : List (Call C)) (hcalls : PreAll has [] calls) :
    ∃ w : Nfas C, initial.execAll calls = some w ∧
      Sound has w (Meanings.afterAll has [] calls) := by
  have hinitial : Sound has (initial : Nfas C) [] := ⟨rfl, nofun, nofun⟩
  exact hinitial.run calls hcalls

theorem run_iteration_of_union :
    ∃ w : Nfas Unit, initial.execAll [.makeSymbol 97 false, .makeSymbol 98 false, .buildUnion 0 1,
        .buildBoundedIteration 0 2 4] = some w ∧
      Sound (fun _ _ => true) w (Meanings.afterAll (fun _ _ => true) [] ([.makeSymbol 97 false,
        .makeSymbol 98 false, .buildUnion 0 1, .buildBoundedIteration 0 2 4] :
          List (Call Unit))) :=
  run_initial _ _ ⟨trivial, trivial, ⟨⟨_, rfl⟩, ⟨_, rfl⟩, by decide⟩,
    ⟨⟨_, rfl⟩, by decide, by decide⟩,
    trivial⟩

end Nfas

end Gobo
