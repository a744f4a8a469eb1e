/-
Binary trees whose nodes are numbered objects, and the path from a subtree up
to the root.  `true` stands for the left side and `false` for the right side,
so that an argument and its mirror image are one statement.
-/
import Mathlib.Data.List.Nodup

namespace Gobo

open List

variable {M : Type}

/-- A binary tree of node objects; `M` is what a kind of tree marks its nodes
with. -/
inductive Tree (M : Type) where
  | nil
  | node (left : Tree M) (i : Nat) (mark : M) (right : Tree M)
  deriving DecidableEq

namespace Tree

/-- The nodes in in-order. -/
def ids : Tree M → List Nat
  | nil => []
  | node l i _ r => l.ids ++ i :: r.ids

def root : Tree M → Option Nat
  | nil => none
  | node _ i _ _ => some i

/-- The number of nodes on a longest path down. -/
def height : Tree M → Nat
  | nil => 0
  | node l _ _ r => max l.height r.height + 1

/-- The node `i` with `c` as its child on the given side and `o` as the other
one. -/
def join (isLeft : Bool) (c : Tree M) (i : Nat) (m : M) (o : Tree M) : Tree M :=
  if isLeft then node c i m o else node o i m c

@[simp] theorem join_true (c o : Tree M) (i : Nat) (m : M) :
    join true c i m o = node c i m o := rfl

@[simp] theorem join_false (c o : Tree M) (i : Nat) (m : M) :
    join false c i m o = node o i m c := rfl

theorem join_not (isLeft : Bool) (c o : Tree M) (i : Nat) (m : M) :
    join (!isLeft) c i m o = join isLeft o i m c := by
  cases isLeft <;> rfl

@[simp] theorem join_nil (isLeft : Bool) (i : Nat) (m : M) :
    join isLeft nil i m nil = node nil i m nil := by
  cases isLeft <;> rfl

@[simp] theorem root_join (isLeft : Bool) (c o : Tree M) (i : Nat) (m : M) :
    (join isLeft c i m o).root = some i := by
  cases isLeft <;> rfl

@[simp] theorem ids_nil : (nil : Tree M).ids = [] := rfl

@[simp] theorem ids_node (l r : Tree M) (i : Nat) (m : M) :
    (node l i m r).ids = l.ids ++ i :: r.ids := rfl

theorem mem_ids_join {isLeft : Bool} {c o : Tree M} {i j : Nat} {m : M} :
    j ∈ (join isLeft c i m o).ids ↔ j ∈ c.ids ∨ j = i ∨ j ∈ o.ids := by
  cases isLeft
  · simp only [join_false, ids_node, mem_append, mem_cons]
    exact ⟨fun h => h.elim (Or.inr ∘ Or.inr) (Or.elim · (Or.inr ∘ Or.inl) Or.inl),
      fun h => h.elim (Or.inr ∘ Or.inr) (Or.elim · (Or.inr ∘ Or.inl) Or.inl)⟩
  · simp only [join_true, ids_node, mem_append, mem_cons]

theorem root_mem_ids {T : Tree M} {i : Nat} (h : T.root = some i) : i ∈ T.ids := by
  cases T with
  | nil => exact absurd h (by simp [root])
  | node l j m r =>
      obtain rfl : j = i := Option.some.inj h
      simp

theorem root_eq_none {T : Tree M} : T.root = none ↔ T = nil := by
  cases T <;> simp [root]

/-- A nonempty tree, seen from either side. -/
theorem eq_join (isLeft : Bool) {T : Tree M} {i : Nat} (h : T.root = some i) :
    ∃ c m o, T = join isLeft c i m o := by
  cases T with
  | nil => exact absurd h (by simp [root])
  | node l j m r =>
      obtain rfl : j = i := Option.some.inj h
      cases isLeft
      · exact ⟨r, m, l, rfl⟩
      · exact ⟨l, m, r, rfl⟩

@[simp] theorem height_join (isLeft : Bool) (c o : Tree M) (i : Nat) (m : M) :
    (join isLeft c i m o).height = max c.height o.height + 1 := by
  cases isLeft
  · simp [height, Nat.max_comm]
  · rfl

theorem height_le (T : Tree M) : T.height ≤ T.ids.length := by
  induction T with
  | nil => exact Nat.le_refl 0
  | node l i m r ihl ihr =>
      simp only [height, ids_node, length_append, length_cons]
      omega

theorem height_eq_zero {T : Tree M} : T.height = 0 ↔ T = nil := by
  cases T <;> simp [height]

end Tree

/-- The way up from a subtree.  In `child isLeft i m sibling up` the subtree is
the child of node `i` on the given side, `sibling` the other one. -/
inductive Path (M : Type) where
  | root
  | child (isLeft : Bool) (i : Nat) (mark : M) (sibling : Tree M) (up : Path M)

namespace Path

open Gobo.Tree

/-- The whole tree with the subtree filled in. -/
def plug : Path M → Tree M → Tree M
  | root, T => T
  | child isLeft i m sib up, T => up.plug (join isLeft T i m sib)

/-- The parent of the subtree. -/
def parent : Path M → Option Nat
  | root => none
  | child _ i _ _ _ => some i

/-- On which side of its parent the subtree is. -/
def isLeft : Path M → Bool
  | root => false
  | child isLeft _ _ _ _ => isLeft

/-- The nodes before the subtree in in-order. -/
def before : Path M → List Nat
  | root => []
  | child true _ _ _ up => up.before
  | child false i _ sib up => up.before ++ sib.ids ++ [i]

/-- The nodes after the subtree in in-order. -/
def after : Path M → List Nat
  | root => []
  | child true i _ sib up => i :: sib.ids ++ up.after
  | child false _ _ _ up => up.after

/-- The number of ancestors. -/
def depth : Path M → Nat
  | root => 0
  | child _ _ _ _ up => up.depth + 1

@[simp] theorem plug_root (T : Tree M) : (root : Path M).plug T = T := rfl

@[simp] theorem plug_child (isLeft : Bool) (i : Nat) (m : M) (sib T : Tree M)
    (up : Path M) :
    (child isLeft i m sib up).plug T = up.plug (join isLeft T i m sib) := rfl

theorem ids_plug (p : Path M) (T : Tree M) :
    (p.plug T).ids = p.before ++ T.ids ++ p.after := by
  induction p generalizing T with
  | root => simp [before, after]
  | child isLeft i m sib up ih =>
      rw [plug_child, ih]
      cases isLeft <;> simp [before, after]

/-- The nodes of the whole tree only depend on those of the subtree. -/
theorem ids_plug_congr (p : Path M) {T T' : Tree M} (h : T'.ids = T.ids) :
    (p.plug T').ids = (p.plug T).ids := by
  rw [ids_plug, ids_plug, h]

theorem mem_ids_plug {p : Path M} {T : Tree M} {i : Nat} :
    i ∈ (p.plug T).ids ↔ i ∈ T.ids ∨ i ∈ p.before ++ p.after := by
  rw [ids_plug]
  simp only [mem_append]
  tauto

theorem mem_ids_plug_join {p : Path M} {isLeft : Bool} {T o : Tree M} {i j : Nat}
    {m : M} : j ∈ (p.plug (join isLeft T i m o)).ids ↔
      j ∈ T.ids ∨ j = i ∨ j ∈ o.ids ∨ j ∈ p.before ++ p.after := by
  rw [mem_ids_plug, mem_ids_join]
  tauto

/-- The nodes of a tree are those of a subtree and those of the rest. -/
theorem ids_plug_join_perm (p : Path M) (isLeft : Bool) (T o : Tree M) (i : Nat)
    (m : M) : (p.plug (join isLeft T i m o)).ids.Perm
      (T.ids ++ (p.plug (join isLeft nil i m o)).ids) := by
  rw [ids_plug, ids_plug]
  cases isLeft
  · simp only [join_false, ids_node, ids_nil, append_assoc, cons_append, nil_append]
    calc p.before ++ (o.ids ++ i :: (T.ids ++ p.after))
        = (p.before ++ o.ids ++ [i]) ++ (T.ids ++ p.after) := by simp
      _ |>.Perm (T.ids ++ ((p.before ++ o.ids ++ [i]) ++ p.after)) :=
          perm_append_comm_assoc _ _ _
      _ = T.ids ++ (p.before ++ (o.ids ++ i :: p.after)) := by simp
  · simp only [join_true, ids_node, ids_nil, append_assoc, nil_append]
    exact perm_append_comm_assoc _ _ _

theorem depth_le (p : Path M) : p.depth ≤ (p.before ++ p.after).length := by
  induction p with
  | root => exact Nat.zero_le _
  | child isLeft i m sib up ih =>
      cases isLeft <;> simp only [depth, before, after, length_append,
        length_cons, length_nil] at ih ⊢ <;> omega

/-- Every node is the root of a subtree. -/
theorem exists_plug {T : Tree M} {i : Nat} (h : i ∈ T.ids) :
    ∃ (p : Path M) (l r : Tree M) (m : M), T = p.plug (node l i m r) := by
  suffices ∀ (T : Tree M) (q : Path M), i ∈ T.ids →
      ∃ (p : Path M) (l r : Tree M) (m : M), q.plug T = p.plug (node l i m r) from
    this T root h
  intro T
  induction T with
  | nil =>
      intro q hi
      exact absurd hi not_mem_nil
  | node l j m r ihl ihr =>
      intro q hi
      rw [ids_node, mem_append, mem_cons] at hi
      rcases hi with hl | rfl | hr
      · exact ihl (child true j m r q) hl
      · exact ⟨q, l, r, m, rfl⟩
      · exact ihr (child false j m l q) hr

theorem root_plug (p : Path M) {T T' : Tree M} (h : T'.root = T.root) :
    (p.plug T').root = (p.plug T).root := by
  induction p generalizing T T' with
  | root => exact h
  | child isLeft i m sib up ih =>
      apply ih
      rw [root_join, root_join]

/-- Below the root a subtree does not decide which node is the root. -/
theorem root_plug_of_parent {p : Path M} {i : Nat} (hp : p.parent = some i)
    (T T' : Tree M) : (p.plug T').root = (p.plug T).root := by
  cases p with
  | root => exact absurd hp (by simp [parent])
  | child isLeft j m sib up =>
      rw [plug_child, plug_child]
      apply root_plug
      rw [root_join, root_join]

theorem parent_mem {p : Path M} {i : Nat} (hp : p.parent = some i) :
    i ∈ p.before ++ p.after := by
  cases p with
  | root => exact absurd hp (by simp [parent])
  | child isLeft j m sib up =>
      obtain rfl : j = i := Option.some.inj hp
      cases isLeft <;> simp [before, after]

/-- Below the root, the root is an ancestor. -/
theorem root_plug_mem {p : Path M} {i : Nat} (hp : p.parent = some i) (T : Tree M) :
    ∃ j ∈ p.before ++ p.after, (p.plug T).root = some j := by
  induction p generalizing T i with
  | root => exact absurd hp (by simp [parent])
  | child isLeft k m sib up ih =>
      cases up with
      | root =>
          refine ⟨k, parent_mem rfl, ?_⟩
          rw [plug_child, plug_root, root_join]
      | child isLeft' j m' sib' up' =>
          obtain ⟨n, hn, hroot⟩ := ih rfl (join isLeft T k m sib)
          refine ⟨n, ?_, hroot⟩
          cases isLeft <;> simp only [before, after, mem_append,
            mem_cons, cons_append] at hn ⊢ <;> tauto

end Path

end Gobo
