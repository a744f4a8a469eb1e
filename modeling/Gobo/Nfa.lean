/-
Automata with empty transitions (`LX_NFA`): states that are shared by reference, and for each
automaton the list of its states, from the start state to the final one.
-/
import Gobo.Loop
import Mathlib.Computability.EpsilonNFA
import Mathlib.Logic.Function.Basic

namespace Gobo

/-- The label of a transition; `C` are the symbol classes. -/
inductive NfaLabel (C : Type) where
  | epsilon
  | symbol (label : Int)
  | symbolClass (label : C)

structure NfaState (C : Type) where
  transition : Option (NfaLabel C × Nat)
  epsilonTransition : Option Nat
  acceptedRule : Option Nat
  id : Nat
  inTrailContext : Bool

namespace NfaState

variable {C : Type}

/-- `make`. -/
def make (inContext : Bool) : NfaState C := ⟨none, none, none, 0, inContext⟩

/-- `is_accepting`. -/
def isAccepting (s : NfaState C) : Bool := s.acceptedRule.isSome

end NfaState

/-- The states that have been created. -/
structure NfaStates (C : Type) where
  created : Nat
  state : Nat → NfaState C

namespace NfaStates

variable {C : Type}

/-- Create a state, the number `created`. -/
def create (h : NfaStates C) (s : NfaState C) : NfaStates C :=
  ⟨h.created + 1, Function.update h.state h.created s⟩

def change (h : NfaStates C) (p : Nat) (s : NfaState C) : NfaStates C :=
  { h with state := Function.update h.state p s }

def setTransition (h : NfaStates C) (p : Nat) (label : NfaLabel C) (target : Nat) : NfaStates C :=
  h.change p { h.state p with transition := some (label, target) }

def setEpsilonTransition (h : NfaStates C) (p target : Nat) : NfaStates C :=
  h.change p { h.state p with epsilonTransition := some target }

def setId (h : NfaStates C) (p id : Nat) : NfaStates C := h.change p { h.state p with id := id }

def setAcceptedRule (h : NfaStates C) (p rule : Nat) : NfaStates C :=
  h.change p { h.state p with acceptedRule := some rule }

end NfaStates

structure Nfa where
  states : List Nat
  inTrailContext : Bool

namespace Nfa

variable {C : Type}

/-- `states.item (i)`. -/
def item (states : List Nat) (i : Nat) : Option Nat := if i = 0 then none else states[i - 1]?

/-- `states.replace (s, i)`. -/
def replace (n : Nfa) (s i : Nat) : Option Nfa :=
  if i = 0 ∨ n.states.length < i then none
  else some { n with states := n.states.set (i - 1) s }

/-- `states.force_last`. -/
def forceLast (n : Nfa) (s : Nat) : Nfa := { n with states := n.states ++ [s] }

/-- `states.append_last`. -/
def appendLast (n other : Nfa) : Nfa := { n with states := n.states ++ other.states }

/-- `start_state`. -/
def startState (n : Nfa) : Option Nat := n.states.head?

/-- `final_state`. -/
def finalState (n : Nfa) : Option Nat := n.states.getLast?

/-- `make_symbol`, `make_epsilon` and `make_symbol_class`. -/
def makeTransition (label : NfaLabel C) (inContext : Bool) (h : NfaStates C) : NfaStates C × Nfa :=
  let state1 := h.created
  let h := h.create (.make inContext)
  let state2 := h.created
  let h := h.create (.make inContext)
  (h.setTransition state1 label state2, ⟨[state1, state2], inContext⟩)

/-- `make_symbol`. -/
def makeSymbol (symbol : Int) (inContext : Bool) (h : NfaStates C) : NfaStates C × Nfa :=
  makeTransition (.symbol symbol) inContext h

/-- `make_epsilon`. -/
def makeEpsilon (inContext : Bool) (h : NfaStates C) : NfaStates C × Nfa :=
  makeTransition .epsilon inContext h

/-- `make_symbol_class`. -/
def makeSymbolClass (symbols : C) (inContext : Bool) (h : NfaStates C) : NfaStates C × Nfa :=
  makeTransition (.symbolClass symbols) inContext h

/-- A turn of the first loop of `copy`. -/
def copyTurn (oldStates : List Nat) (i : Nat) :
    NfaStates C × List Nat → Option (NfaStates C × List Nat)
  | (h, states) => do
      let oldState ← item oldStates i
      let h := h.setId oldState i
      some (h.create (h.state oldState), states ++ [h.created])

/-- The targets of the transitions of a state are replaced with their copies. -/
def retargetTurn (states : List Nat) (i : Nat) (h : NfaStates C) : Option (NfaStates C) := do
  let newState ← item states i
  let h ← match (h.state newState).transition with
    | some (label, oldState) => do
        let target ← item states (h.state oldState).id
        some (h.setTransition newState label target)
    | none => some h
  match (h.state newState).epsilonTransition with
  | some oldState => do
      let target ← item states (h.state oldState).id
      some (h.setEpsilonTransition newState target)
  | none => some h

/-- `copy`, into a new automaton. -/
def copy (h : NfaStates C) (other : Nfa) : Option (NfaStates C × Nfa) := do
  let nb := other.states.length
  let (h, states) ← forUp (copyTurn other.states) nb 1 (h, [])
  let h ← forUp (retargetTurn states) nb 1 h
  some (h, { other with states := states })

/-- `set_accepted_rule`. -/
def setAcceptedRule (h : NfaStates C) (n : Nfa) (rule : Nat) : Option (NfaStates C) := do
  let state ← n.finalState
  some (h.setAcceptedRule state rule)

section

variable (h : NfaStates C)

include h

/-- `build_concatenation`. -/
def buildConcatenation (n other : Nfa) : Option (NfaStates C × Nfa) := do
  let target ← other.startState
  let state ← n.finalState
  some (h.setTransition state .epsilon target, n.appendLast other)

/-- The start states of a union. -/
def uniteStarts (n other : Nfa) : Option (NfaStates C × Nfa × Nfa) := do
  let state1 ← n.startState
  let state2 ← other.startState
  if (h.state state1).epsilonTransition = none then
    some (h.setEpsilonTransition state1 state2, n, other)
  else if (h.state state2).epsilonTransition = none then do
    let n ← n.replace state2 1
    let other ← other.replace state1 1
    some (h.setEpsilonTransition state2 state1, n, other)
  else do
    let state3 := h.created
    let h := h.create (.make n.inTrailContext)
    let h := (h.setTransition state3 .epsilon state1).setEpsilonTransition state3 state2
    let n ← n.replace state3 1
    let state3 ← n.finalState
    let n ← n.replace state1 n.states.length
    some (h, n.forceLast state3, other)

/-- The final states of a union. -/
def uniteFinals (n other : Nfa) : Option (NfaStates C × Nfa × Nfa) := do
  let state1 ← n.finalState
  let state2 ← other.finalState
  if (h.state state2).isAccepting = false then
    some (h.setTransition state1 .epsilon state2, n.appendLast other, other)
  else if (h.state state1).isAccepting = false then do
    let n ← n.replace state2 n.states.length
    let other ← other.replace state1 other.states.length
    some (h.setTransition state2 .epsilon state1, n.appendLast other, other)
  else
    let state3 := h.created
    let h := h.create (.make n.inTrailContext)
    some ((h.setTransition state1 .epsilon state3).setTransition state2 .epsilon state3,
      (n.appendLast other).forceLast state3, other)

/-- `build_union`; `other` might be altered. -/
def buildUnion (n other : Nfa) : Option (NfaStates C × Nfa × Nfa) := do
  let (h, n, other) ← uniteStarts h n other
  uniteFinals h n other

/-- `build_optional`. -/
def buildOptional (n : Nfa) : Option (NfaStates C × Nfa) := do
  let state1 ← n.startState
  let state2 ← n.finalState
  if (h.state state1).epsilonTransition = none then
    some (h.setEpsilonTransition state1 state2, n)
  else do
    let state3 := h.created
    let h := h.create (.make n.inTrailContext)
    let h := (h.setTransition state3 .epsilon state1).setEpsilonTransition state3 state2
    let n ← n.replace state3 1
    let n ← n.replace state1 n.states.length
    some (h, n.forceLast state2)

/-- `build_positive_closure`. -/
def buildPositiveClosure (n : Nfa) : Option (NfaStates C × Nfa) := do
  let state1 ← n.startState
  let state2 ← n.finalState
  let h := h.setTransition state2 .epsilon state1
  let state3 := h.created
  let h := (h.create (.make n.inTrailContext)).setTransition state3 .epsilon state1
  let n ← n.replace state3 1
  let state3 := h.created
  let h := (h.create (.make n.inTrailContext)).setEpsilonTransition state2 state3
  some (h, (n.forceLast state1).forceLast state3)

/-- `build_closure`. -/
def buildClosure (n : Nfa) : Option (NfaStates C × Nfa) := do
  let (h, n) ← buildPositiveClosure h n
  buildOptional h n

end

/-- A turn of the loop of `build_iteration`. -/
def iterationTurn (n : Nfa) (_i : Nat) :
    NfaStates C × Nfa → Option (NfaStates C × Nfa)
  | (h, aNfa) => do
      let (h, other) ← copy h n
      buildConcatenation h aNfa other

/-- `build_iteration`. -/
def buildIteration (h : NfaStates C) (n : Nfa) (nb : Nat) : Option (NfaStates C × Nfa) :=
  if nb ≠ 1 then do
    let (h, aNfa) ← copy h n
    let (h, aNfa) ← forUp (iterationTurn n) (nb - 2) 2 (h, aNfa)
    buildConcatenation h n aNfa
  else some (h, n)

/-- `build_unbounded_iteration`. -/
def buildUnboundedIteration (h : NfaStates C) (n : Nfa) (nb : Nat) :
    Option (NfaStates C × Nfa) := do
  let (h, aNfa) ← copy h n
  let (h, aNfa) ← buildClosure h aNfa
  let (h, n) ← buildIteration h n nb
  buildConcatenation h n aNfa

/-- A turn of the loop of `build_bounded_iteration`. -/
def boundedTurn (n : Nfa) (_i : Nat) : NfaStates C × Nfa → Option (NfaStates C × Nfa)
  | (h, aNfa1) => do
      let (h, aNfa2) ← copy h n
      let (h, aNfa2) ← buildConcatenation h aNfa2 aNfa1
      buildOptional h aNfa2

/-- `build_bounded_iteration`. -/
def buildBoundedIteration (h : NfaStates C) (n : Nfa) (lb ub : Nat) :
    Option (NfaStates C × Nfa) :=
  if lb = ub then buildIteration h n lb
  else do
    let (h, aNfa1) ← copy h n
    let (h, aNfa1) ← buildOptional h aNfa1
    let (h, aNfa1) ← forUp (boundedTurn n) (ub - (lb + 1)) (lb + 1) (h, aNfa1)
    let (h, n) ← buildIteration h n lb
    buildConcatenation h n aNfa1

/-- `labeled`. -/
def labeled (has : C → Int → Bool) : NfaLabel C → Option Int → Prop
  | .epsilon, o => o = none
  | .symbol label, o => o = some label
  | .symbolClass label, o => ∃ symbol, o = some symbol ∧ has label symbol = true

/-- The states that a state leads to. -/
def step (has : C → Int → Bool) (h : NfaStates C) (p : Nat) (o : Option Int) : Set Nat :=
  {q | (∃ label, (h.state p).transition = some (label, q) ∧ labeled has label o) ∨
    (h.state p).epsilonTransition = some q ∧ o = none}

/-- The automaton that is meant. -/
def automaton (has : C → Int → Bool) (h : NfaStates C) (n : Nfa) : εNFA Int Nat :=
  ⟨step has h, {p | n.startState = some p}, {q | n.finalState = some q}⟩

end Nfa

end Gobo
