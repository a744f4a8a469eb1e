/-
Walking through a linked tree: the node next to a node is the next one of the
in-order list.
-/
import Mathlib.Data.List.Basic
import Gobo.TreeContainer

namespace Gobo

open List

variable {M : Type}

/-- The nodes of a tree in the order in which they are met going to the given
side. -/
def Tree.along (isLeft : Bool) (T : Tree M) : List Nat :=
  if isLeft then T.ids.reverse else T.ids

/-- The nodes beyond a subtree on the given side, nearest first. -/
def Path.beyond (isLeft : Bool) (p : Path M) : List Nat :=
  if isLeft then p.before.reverse else p.after

namespace LinkedTree

variable {t : LinkedTree M} {T U l r c o sib : Tree M} {p up : Path M} {i n : Nat}
  {m : M} {s : Bool}

theorem along_join_not :
    (Tree.join (!s) c i m o).along s = c.along s ++ i :: o.along s := by
  cases s <;> simp [Tree.along]

theorem beyond_child_self : (Path.child s i m sib up).beyond s = up.beyond s := by
  cases s <;> rfl

theorem beyond_child_not :
    (Path.child (!s) i m sib up).beyond s = i :: sib.along s ++ up.beyond s := by
  cases s <;> simp [Path.beyond, Path.before, Path.after, Tree.along]

/-- The way down on one side ends at the node met first from that side. -/
theorem Holds.outermost (h : t.Holds (p.plug U)) (hU : U.root = some n) :
    ∃ (j : Nat) (q : Path M) (m' : M) (c' : Tree M),
      t.outermost (!s) n = some j ∧ p.plug U = q.plug (.join (!s) .nil j m' c') ∧
      (U.along s).head? = some j ∧ q.beyond (!s) = p.beyond (!s) := by
  suffices ∀ fuel, U.height ≤ fuel → ∃ (j : Nat) (q : Path M) (m' : M) (c' : Tree M),
      loopUntil (fun n => some (t.child (!s) n).isNone) (fun n => t.child (!s) n)
        fuel n = some j ∧ p.plug U = q.plug (.join (!s) .nil j m' c') ∧
      (U.along s).head? = some j ∧ q.beyond (!s) = p.beyond (!s) from
    this (t.created + 1) (Nat.le_succ_of_le h.height_le)
  intro fuel hfuel
  induction fuel generalizing p U n with
  | zero =>
      rw [Tree.height_eq_zero.mp (Nat.le_zero.mp hfuel)] at hU
      exact absurd hU (by simp [Tree.root])
  | succ fuel ih =>
      obtain ⟨c, m, o, rfl⟩ := Tree.eq_join (!s) hU
      have hchild : t.child (!s) n = c.root := by
        rw [child, h.links_join, child_withChild]
      cases c with
      | nil =>
          refine ⟨n, p, m, o, loopUntil_of_stop ?_, rfl, ?_, rfl⟩
          · rw [hchild]
            rfl
          · rw [along_join_not]
            cases s <;> rfl
      | node l j m' r =>
          have hroot : (Tree.node l j m' r).root = some j := rfl
          rw [Tree.height_join] at hfuel
          obtain ⟨k, q, mk, c', hrun, hplug, hhead, hbeyond⟩ := @ih (.node l j m' r)
            (.child (!s) n m o p) j h hroot (by omega)
          refine ⟨k, q, mk, c', (loopUntil_of_go ?_ ?_).trans hrun, hplug, ?_,
            hbeyond.trans beyond_child_self⟩
          · rw [hchild]
            rfl
          · exact hchild
          · rw [along_join_not, head?_append, hhead]
            rfl

theorem Holds.child_eq {s' : Bool} (h : t.Holds ((Path.child s' i m sib up).plug U))
    (hU : U.root = some n) : t.child s' i = some n := by
  rw [child, Holds.links_join h, child_withChild, hU]

/-- A child on one side is not the child on the other side. -/
theorem Holds.child_not_ne {s' : Bool}
    (h : t.Holds ((Path.child s' i m sib up).plug U)) (hU : U.root = some n) :
    t.child (!s') i ≠ some n := by
  rw [child, Holds.links_join h, child_withChild_not]
  intro hsib
  have hmem : n ∈ sib.ids := Tree.root_mem_ids (by cases s' <;> exact hsib)
  have hnodup := h.nodup
  rw [Path.ids_plug] at hnodup
  have hn := Tree.root_mem_ids hU
  cases s' <;> simp only [Path.before, Path.after, nodup_append, mem_append,
    mem_cons, cons_append] at hnodup <;> grind

theorem Holds.child_join_ne {s' : Bool} (h : t.Holds (up.plug (.join s' U i m sib)))
    (hU : U.root = some n) : t.child (!s') i ≠ some n :=
  child_not_ne h hU

/-- Around a node there is only one way to split the in-order list. -/
theorem Holds.split_eq (h : t.Holds (p.plug (.node l i m r))) {front back : List Nat}
    (hids : (p.plug (.node l i m r)).ids = front ++ i :: back) :
    p.before ++ l.ids = front ∧ r.ids ++ p.after = back := by
  have hnodup := h.nodup
  have heq : (p.before ++ l.ids) ++ i :: (r.ids ++ p.after) = front ++ i :: back := by
    rw [← hids, Path.ids_plug]
    simp
  rw [hids] at hnodup
  have hfront : i ∉ front := by
    intro hmem
    exact (nodup_append.mp hnodup).2.2 i hmem i mem_cons_self rfl
  have hback : i ∉ back := (nodup_cons.mp (nodup_append.mp hnodup).2.1).1
  have hinj := (append_cons_inj_of_notMem hfront hback).mp heq.symm
  exact ⟨hinj.1.symm, hinj.2.2.symm⟩

/-- Climbing ends at the nearest node beyond. -/
theorem Holds.climb (h : t.Holds (p.plug U)) (hU : U.root = some n) :
    t.climb (!s) n = some (p.beyond s).head? := by
  suffices ∀ fuel, p.depth < fuel → ∃ j,
      loopUntil (fun n => some ((t.parent n).elim true fun p => t.child (!s) p == some n))
        (fun n => t.parent n) fuel n = some j ∧
      ((t.parent j).filter fun p => t.child (!s) p == some j) = (p.beyond s).head? by
    have hdepth : p.depth < t.created + 1 := by
      obtain ⟨l, m, r, rfl⟩ := Tree.eq_join true hU
      have hlt := h.depth_lt
      omega
    obtain ⟨j, hrun, hj⟩ := this _ hdepth
    rw [LinkedTree.climb, hrun, ← hj]
    rfl
  intro fuel hfuel
  induction p generalizing U n fuel with
  | root =>
      obtain ⟨fuel, rfl⟩ : ∃ k, fuel = k + 1 := ⟨fuel - 1, by omega⟩
      have hparent : t.parent n = none := h.represents.parent_eq hU
      refine ⟨n, loopUntil_of_stop ?_, ?_⟩
      · rw [hparent]
        rfl
      · rw [hparent]
        cases s <;> rfl
  | child s' i m sib up ih =>
      obtain ⟨fuel, rfl⟩ : ∃ k, fuel = k + 1 := ⟨fuel - 1, by omega⟩
      have hparent : t.parent n = some i :=
        (represents_plug.mp h.represents).2.parent_eq hU
      by_cases hs : s' = s
      · subst hs
        have hother : t.child (!s') i ≠ some n := h.child_not_ne hU
        obtain ⟨j, hrun, hj⟩ := @ih (.join s' U i m sib) i h (Tree.root_join _ _ _ _ _)
          fuel (by simp only [Path.depth] at hfuel; omega)
        refine ⟨j, (loopUntil_of_go ?_ hparent).trans hrun, ?_⟩
        · rw [hparent]
          simp [hother]
        · rw [beyond_child_self]
          exact hj
      · obtain rfl : s' = !s := by
          cases s <;> cases s' <;> simp_all
        have hself : t.child (!s) i = some n := h.child_eq hU
        refine ⟨n, loopUntil_of_stop ?_, ?_⟩
        · rw [hparent]
          simp [hself]
        · rw [beyond_child_not, hparent]
          simp [hself]

/-- The node next to a node: the next one inside its subtree, or else the
nearest one beyond. -/
theorem Holds.neighbour (h : t.Holds (p.plug (.join s c i m o))) :
    t.neighbour s i = some (c.along s ++ p.beyond s).head? := by
  have hchild : t.child s i = c.root := by
    rw [child, h.links_join, child_withChild]
  have hparent : t.parent i = p.parent :=
    (represents_plug.mp h.represents).2.parent_eq (Tree.root_join _ _ _ _ _)
  rw [LinkedTree.neighbour, hchild, hparent]
  cases c with
  | node l j m' r =>
      obtain ⟨k, q, mk, c', hrun, -, hhead, -⟩ :=
        Holds.outermost (p := .child s i m o p) (U := .node l j m' r) (s := s) h rfl
      simp only [Tree.root, hrun, Option.map_some, head?_append, hhead]
      rfl
  | nil =>
      cases p with
      | root => cases s <;> rfl
      | child s' j m' sib up =>
          simp only [Tree.root, Path.parent]
          by_cases hs : s' = s
          · subst hs
            have hself : t.child s' j = some i := h.child_eq (Tree.root_join _ _ _ _ _)
            rw [if_pos hself, beyond_child_self]
            exact (Holds.climb (p := up) h (Tree.root_join _ _ _ _ _)).trans
              (by cases s' <;> rfl)
          · obtain rfl : s' = !s := by
              cases s <;> cases s' <;> simp_all
            have hother : t.child s j ≠ some i := by
              have hne := h.child_not_ne (Tree.root_join _ _ _ _ _)
              rwa [Bool.not_not] at hne
            rw [if_neg hother, beyond_child_not]
            cases s <;> rfl

/-- The successor is the next node in in-order. -/
theorem Holds.successor (h : t.Holds T) {front back : List Nat}
    (hids : T.ids = front ++ i :: back) : t.successor i = some back.head? := by
  obtain ⟨p, l, r, m, rfl⟩ := Path.exists_plug (T := T) (i := i) (by simp [hids])
  obtain ⟨-, hback⟩ := h.split_eq hids
  rw [← hback]
  exact Holds.neighbour (s := false) (c := r) (o := l) h

/-- The predecessor is the previous node in in-order. -/
theorem Holds.predecessor (h : t.Holds T) {front back : List Nat}
    (hids : T.ids = front ++ i :: back) : t.predecessor i = some front.getLast? := by
  obtain ⟨p, l, r, m, rfl⟩ := Path.exists_plug (T := T) (i := i) (by simp [hids])
  obtain ⟨hfront, -⟩ := h.split_eq hids
  rw [← hfront]
  refine (Holds.neighbour (s := true) (c := l) (o := r) h).trans ?_
  rw [Tree.along, Path.beyond, if_pos rfl, if_pos rfl, ← reverse_append,
    head?_reverse]

end LinkedTree

end Gobo
