/-
The calls of a SCOOP session that are still to be executed (`GE_scoop_call`).
-/
import Gobo.LinkChain

namespace Gobo

open List

/-- A call, known by its number. -/
structure ScoopCall where
  id : Nat
  /-- Only tells its caller that the session is running: there is nothing to execute. -/
  isRunningCall : Bool
deriving DecidableEq, Repr

/-- The pointers to the calls of a session. -/
structure CallQueue where
  firstCall : Option ScoopCall
  lastCall : Option ScoopCall
  next : ScoopCall → Option ScoopCall

namespace CallQueue

def empty : CallQueue where
  firstCall := none
  lastCall := none
  next := fun _ => none

/-- A new call at the end, as in `GE_scoop_session_add_call`. -/
def add (q : CallQueue) (c : ScoopCall) : CallQueue :=
  let next := Function.update q.next c none
  match q.lastCall with
  | some d => { q with lastCall := some c, next := Function.update next d (some c) }
  | none => { firstCall := some c, lastCall := some c, next := next }

/-- A new call in front of the others, as in `GE_scoop_session_add_running_call`. -/
def push (q : CallQueue) (c : ScoopCall) : CallQueue where
  firstCall := some c
  lastCall := q.lastCall.or (some c)
  next := Function.update q.next c q.firstCall

/-- Without its first call `c`, as in `GE_scoop_session_execute`. -/
def pop (q : CallQueue) (c : ScoopCall) : CallQueue where
  firstCall := q.next c
  lastCall := if q.next c = none then none else q.lastCall
  next := q.next

/-- The calls are `cs`, in their order. -/
structure Holds (q : CallQueue) (cs : List ScoopCall) : Prop where
  chain : Chain q.next q.firstCall cs
  last_eq : q.lastCall = cs.getLast?

namespace Holds

variable {q : CallQueue} {c : ScoopCall} {cs ds : List ScoopCall}

theorem empty : Holds CallQueue.empty [] := ⟨rfl, rfl⟩

theorem unique (hc : q.Holds cs) (hd : q.Holds ds) : cs = ds :=
  hc.chain.unique hd.chain

theorem firstCall_eq (h : q.Holds cs) : q.firstCall = cs.head? :=
  h.chain.head?_eq.symm

theorem eq_nil_iff (h : q.Holds cs) : q.firstCall = none ↔ cs = [] := by
  rw [h.firstCall_eq, head?_eq_none_iff]

theorem add (h : q.Holds cs) (hc : c ∉ cs) : (q.add c).Holds (cs ++ [c]) := by
  have hlast := h.last_eq
  rcases eq_nil_or_concat cs with rfl | ⟨front, d, rfl⟩
  · have hnone : q.lastCall = none := hlast
    rw [CallQueue.add, hnone]
    exact ⟨⟨rfl, Function.update_self _ _ _⟩, rfl⟩
  · rw [concat_eq_append] at h hc hlast ⊢
    rw [getLast?_concat] at hlast
    rw [CallQueue.add, hlast]
    refine ⟨?_, by rw [getLast?_concat]⟩
    have hchain := h.chain.insertAfter hc
    rw [h.chain.next_last] at hchain
    rw [append_assoc]
    exact hchain

theorem push (h : q.Holds cs) (hc : c ∉ cs) : (q.push c).Holds (c :: cs) := by
  refine ⟨h.chain.push hc, ?_⟩
  rw [CallQueue.push, h.last_eq]
  cases cs with
  | nil => rfl
  | cons d ds => simp [getLast?_cons]

theorem pop (h : q.Holds (c :: cs)) : (q.pop c).Holds cs := by
  refine ⟨h.chain.2, ?_⟩
  cases cs with
  | nil =>
      have hnext : q.next c = none := h.chain.2
      simp only [CallQueue.pop, if_pos hnext, getLast?_nil]
  | cons d ds =>
      have hne : ¬q.next c = none := h.chain.2.1 ▸ Option.some_ne_none d
      simp only [CallQueue.pop, if_neg hne, h.last_eq, getLast?_cons_cons]

/-- The first call is the one to be executed next. -/
theorem exists_of_first (h : q.Holds cs) (hc : q.firstCall = some c) : ∃ ds, cs = c :: ds :=
  head?_eq_some_iff.mp (h.firstCall_eq.symm.trans hc)

end Holds

end CallQueue

end Gobo
