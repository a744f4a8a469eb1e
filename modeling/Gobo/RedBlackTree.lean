/-
Red-black trees (`DS_RED_BLACK_TREE_CONTAINER`).  The mark of a node tells
whether it is red.
-/
import Mathlib.Data.Nat.Log
import Gobo.TreeLaws
import Mathlib.Algebra.Ring.Nat

namespace Gobo

open List LinkedTree

namespace LinkedTree

section

variable (t : LinkedTree Bool)

def isRed (i : Nat) : Bool := t.mark i

def isBlack (i : Nat) : Bool := !t.isRed i

def setIsRed (i : Nat) (aBool : Bool) : LinkedTree Bool := t.setMark i aBool

/-- If there is no node, its color is black. -/
def isNodeRed (aNode : Option Nat) : Bool := aNode.elim false t.isRed

def grandParent (i : Nat) : Option Nat := (t.parent i).bind t.parent

/-- The other child of `grand_parent`. -/
def uncle (i : Nat) : Option (Option Nat) := do
  let g ← t.grandParent i
  return if t.parent i = t.leftChild g then t.rightChild g else t.leftChild g

end

end LinkedTree

namespace RedBlackTree

/-! ### Insertion -/

/-- The locals of the loop in `on_node_added`. -/
structure Insertion where
  tree : LinkedTree Bool
  node : Option Nat

def insertCase3 (t : LinkedTree Bool) (aNode aUncle aGrandParent : Nat) :
    Option (LinkedTree Bool) := do
  let parent ← t.parent aNode
  return ((t.setIsRed parent false).setIsRed aUncle false).setIsRed aGrandParent true

def insertCase4 (t : LinkedTree Bool) (aNode aGrandParent : Nat) :
    Option (LinkedTree Bool × Nat) := do
  let parent ← t.parent aNode
  if t.rightChild parent = some aNode ∧ t.leftChild aGrandParent = some parent then
    let t ← t.rotateLeft aNode
    return (t, ← t.leftChild aNode)
  else if t.leftChild parent = some aNode ∧ t.rightChild aGrandParent = some parent then
    let t ← t.rotateRight aNode
    return (t, ← t.rightChild aNode)
  else
    return (t, aNode)

def insertCase5 (t : LinkedTree Bool) (aNode aGrandParent : Nat) :
    Option (LinkedTree Bool) := do
  let parent ← t.parent aNode
  let t := (t.setIsRed parent false).setIsRed aGrandParent true
  if t.leftChild parent = some aNode ∧ t.leftChild aGrandParent = some parent then
    t.rotateRight parent
  else
    t.rotateLeft parent

/-- One turn of the loop in `on_node_added`. -/
def addedStep (n : Insertion) : Option Insertion := do
  let node ← n.node
  if n.tree.rootNode = some node then
    return ⟨n.tree.setIsRed node false, none⟩
  else
    let parent ← n.tree.parent node
    if n.tree.isBlack parent then
      return { n with node := none }
    else
      let uncle ← n.tree.uncle node
      let grandParent ← n.tree.grandParent node
      match uncle.filter n.tree.isRed with
      | some uncle =>
          return ⟨← insertCase3 n.tree node uncle grandParent, grandParent⟩
      | none =>
          let (t, node) ← insertCase4 n.tree node grandParent
          let grandParent ← t.grandParent node
          return ⟨← insertCase5 t node grandParent, none⟩

def onNodeAdded (t : LinkedTree Bool) (aNode : Nat) : Option (LinkedTree Bool) := do
  let n ← loopUntil (fun n => some n.node.isNone) addedStep (t.created + 1)
    ⟨t, some aNode⟩
  return n.tree

/-! ### Removal -/

def onRootNodeRemoved (t : LinkedTree Bool) : Option (LinkedTree Bool) := do
  let root ← t.rootNode
  return if t.isRed root then t.setIsRed root false else t

/-- The locals of the loop in `on_node_removed` that a turn hands to the next
one. -/
structure Removal where
  tree : LinkedTree Bool
  isLeftChild : Bool
  parent : Option Nat
  child : Option Nat

section

variable (t : LinkedTree Bool) (aParent aSibling : Nat)

def removeCase2 (aIsLeftChild : Bool) : Option (LinkedTree Bool × Nat) := do
  let t := (t.setIsRed aParent true).setIsRed aSibling false
  if aIsLeftChild then
    let t ← t.rotateLeft aSibling
    return (t, ← t.rightChild aParent)
  else
    let t ← t.rotateRight aSibling
    return (t, ← t.leftChild aParent)

def removeCase5 (aSiblingIsRed aIsLeftChild : Bool) : Option (LinkedTree Bool × Nat) :=
  if aIsLeftChild ∧ !aSiblingIsRed ∧ t.isNodeRed (t.leftChild aSibling) ∧
      !t.isNodeRed (t.rightChild aSibling) then do
    let leftChild ← t.leftChild aSibling
    let t := (t.setIsRed aSibling true).setIsRed leftChild false
    let t ← t.rotateRight leftChild
    return (t, ← t.rightChild aParent)
  else if !aIsLeftChild ∧ t.isBlack aSibling ∧ t.isNodeRed (t.rightChild aSibling) ∧
      !t.isNodeRed (t.leftChild aSibling) then do
    let rightChild ← t.rightChild aSibling
    let t := (t.setIsRed aSibling true).setIsRed rightChild false
    let t ← t.rotateLeft rightChild
    return (t, ← t.leftChild aParent)
  else
    some (t, aSibling)

def removeCase6 (aIsLeftChild : Bool) : Option (LinkedTree Bool) :=
  let t := t.setIsRed aSibling (t.isRed aParent)
  let t := t.setIsRed aParent false
  if aIsLeftChild then do
    (t.setIsRed (← t.rightChild aSibling) false).rotateLeft aSibling
  else do
    (t.setIsRed (← t.leftChild aSibling) false).rotateRight aSibling

end

/-- The delete cases 3 to 6, for the sibling after case 2. -/
def removeCases (t : LinkedTree Bool) (parent sibling : Nat) (isLeftChild : Bool)
    (child : Option Nat) : Option Removal := do
  let siblingIsRed := t.isNodeRed (some sibling)
  if t.isBlack parent ∧ !siblingIsRed ∧ !t.isNodeRed (t.leftChild sibling) ∧
      !t.isNodeRed (t.rightChild sibling) then
    let t := t.setIsRed sibling true
    return ⟨t, (t.parent parent).elim true fun p => t.leftChild p = some parent,
      t.parent parent, some parent⟩
  else if t.isRed parent ∧ !siblingIsRed ∧ !t.isNodeRed (t.leftChild sibling) ∧
      !t.isNodeRed (t.rightChild sibling) then
    return ⟨(t.setIsRed sibling true).setIsRed parent false, isLeftChild, none, child⟩
  else
    let (t, sibling) ← removeCase5 t parent sibling siblingIsRed isLeftChild
    return ⟨← removeCase6 t parent sibling isLeftChild, isLeftChild, none, child⟩

/-- One turn of the loop in `on_node_removed`; it changes nothing at the root. -/
def removedStep (n : Removal) : Option Removal := do
  let parent ← n.parent
  if n.child ≠ n.tree.rootNode then
    let sibling ← (if n.isLeftChild then n.tree.rightChild parent
      else n.tree.leftChild parent)
    let (t, sibling) ← (if n.tree.isNodeRed (some sibling) then
      removeCase2 n.tree parent sibling n.isLeftChild else some (n.tree, sibling) :
      Option _)
    removeCases t parent sibling n.isLeftChild n.child
  else
    return n

def onNodeRemoved (t : LinkedTree Bool) (aOldNode aNode : Nat) (aWasLeftChild : Bool) :
    Option (LinkedTree Bool) :=
  let child := if aWasLeftChild then t.leftChild aNode else t.rightChild aNode
  if t.isBlack aOldNode then
    match child.filter t.isRed with
    | some child => some (t.setIsRed child false)
    | none => do
        let n ← loopUntil (fun n => some n.parent.isNone) removedStep (t.created + 1)
          ⟨t, aWasLeftChild, some aNode, child⟩
        return n.tree
  else
    some t

end RedBlackTree

/-! ### Colors and black nodes -/

namespace Tree

/-- The color of the root; a missing node is black. -/
def isRed : Tree Bool → Bool
  | nil => false
  | node _ _ m _ => m

/-- No red node has a red child, and there are `n` black nodes on every path
down. -/
def RedBlack : Nat → Tree Bool → Prop
  | n, nil => n = 0
  | n, node l _ true r => l.isRed = false ∧ r.isRed = false ∧ l.RedBlack n ∧ r.RedBlack n
  | n, node l _ false r => ∃ k, n = k + 1 ∧ l.RedBlack k ∧ r.RedBlack k

/-- No red node has a red child. -/
def NoRedRed : Tree Bool → Prop
  | nil => True
  | node l _ m r =>
      (m = true → l.isRed = false ∧ r.isRed = false) ∧ l.NoRedRed ∧ r.NoRedRed

/-- The numbers of black nodes on the paths from the root to where a child is
missing. -/
def blackCounts : Tree Bool → List Nat
  | nil => [0]
  | node l _ m r =>
      (l.blackCounts ++ r.blackCounts).map fun n => if m then n else n + 1

theorem blackCounts_ne_nil (T : Tree Bool) : T.blackCounts ≠ [] := by
  induction T with
  | nil => exact cons_ne_nil _ _
  | node l i m r ihl ihr =>
      intro hnil
      rw [blackCounts, map_eq_nil_iff, append_eq_nil_iff] at hnil
      exact ihl hnil.1

theorem redBlack_iff {T : Tree Bool} {n : Nat} :
    T.RedBlack n ↔ T.NoRedRed ∧ ∀ c ∈ T.blackCounts, c = n := by
  induction T generalizing n with
  | nil => simp [RedBlack, NoRedRed, blackCounts, eq_comm]
  | node l i m r ihl ihr =>
      cases m with
      | true =>
          simp only [RedBlack, NoRedRed, blackCounts, ihl, ihr, if_true, map_id',
            mem_append, forall_const]
          grind
      | false =>
          simp only [RedBlack, NoRedRed, blackCounts, ihl, ihr, Bool.false_eq_true,
            if_false, mem_map, mem_append]
          constructor
          · rintro ⟨k, rfl, ⟨hl, hlk⟩, hr, hrk⟩
            grind
          · rintro ⟨⟨-, hl, hr⟩, hall⟩
            obtain ⟨c, hc⟩ := exists_mem_of_ne_nil _ l.blackCounts_ne_nil
            have hn := hall (c + 1) ⟨c, Or.inl hc, rfl⟩
            refine ⟨c, hn.symm, ⟨hl, ?_⟩, hr, ?_⟩
            · intro d hd
              have := hall (d + 1) ⟨d, Or.inl hd, rfl⟩
              omega
            · intro d hd
              have := hall (d + 1) ⟨d, Or.inr hd, rfl⟩
              omega

theorem RedBlack.height_le {T : Tree Bool} {n : Nat} (h : T.RedBlack n) :
    T.height ≤ 2 * n + if T.isRed then 1 else 0 := by
  induction T generalizing n with
  | nil => exact Nat.zero_le _
  | node l i m r ihl ihr =>
      cases m with
      | true =>
          obtain ⟨hl, hr, hln, hrn⟩ := h
          have h₁ := ihl hln
          have h₂ := ihr hrn
          rw [hl] at h₁
          rw [hr] at h₂
          simp only [Bool.false_eq_true, if_false, height, isRed, if_true] at h₁ h₂ ⊢
          omega
      | false =>
          obtain ⟨k, rfl, hl, hr⟩ := h
          have h₁ := ihl hl
          have h₂ := ihr hr
          simp only [height, isRed, Bool.false_eq_true, if_false]
          split at h₁ <;> split at h₂ <;> omega

theorem RedBlack.pow_le {T : Tree Bool} {n : Nat} (h : T.RedBlack n) :
    2 ^ n ≤ T.ids.length + 1 := by
  induction T generalizing n with
  | nil =>
      obtain rfl : n = 0 := h
      exact Nat.le_refl 1
  | node l i m r ihl ihr =>
      rw [ids_node, length_append, length_cons]
      cases m with
      | true =>
          have hle := ihl h.2.2.1
          omega
      | false =>
          obtain ⟨k, rfl, hl, hr⟩ := h
          have h₁ := ihl hl
          have h₂ := ihr hr
          rw [Nat.pow_succ]
          omega

variable {c o : Tree Bool} {s : Bool} {i n : Nat} {m : Bool}

@[simp] theorem isRed_join : (join s c i m o).isRed = m := by
  cases s <;> rfl

theorem redBlack_join_red : (join s c i true o).RedBlack n ↔
    c.isRed = false ∧ o.isRed = false ∧ c.RedBlack n ∧ o.RedBlack n := by
  cases s
  · simp only [join_false, RedBlack]
    tauto
  · rfl

theorem redBlack_join_black : (join s c i false o).RedBlack n ↔
    ∃ k, n = k + 1 ∧ c.RedBlack k ∧ o.RedBlack k := by
  cases s
  · simp only [join_false, RedBlack]
    exact exists_congr fun k => and_congr_right fun _ => and_comm
  · rfl

theorem RedBlack.exists_join {T : Tree Bool} (h : T.RedBlack (n + 1))
    (hT : T.isRed = false) (s : Bool) :
    ∃ a x b, T = join s a x false b ∧ a.RedBlack n ∧ b.RedBlack n := by
  cases T with
  | nil => exact absurd h (Nat.succ_ne_zero n)
  | node l x m r =>
      obtain rfl : m = false := hT
      obtain ⟨a, m, b, hjoin⟩ := eq_join s (T := node l x false r) rfl
      have hm : (join s a x m b).isRed = false := hjoin ▸ rfl
      rw [isRed_join] at hm
      subst hm
      rw [hjoin, redBlack_join_black] at h
      obtain ⟨k, hk, ha, hb⟩ := h
      obtain rfl : n = k := Nat.succ.inj hk
      exact ⟨a, x, b, hjoin, ha, hb⟩

end Tree

namespace Path

/-- A subtree of the given color with `n` black nodes on every path fits in; the
root is black. -/
def RedBlack : Path Bool → Bool → Nat → Prop
  | root, red, _ => red = false
  | child _ _ true sib up, red, n =>
      red = false ∧ sib.isRed = false ∧ sib.RedBlack n ∧ up.RedBlack true n
  | child _ _ false sib up, _, n => sib.RedBlack n ∧ up.RedBlack false (n + 1)

/-- A black subtree fits in wherever a red one does. -/
theorem RedBlack.black {p : Path Bool} {red : Bool} {n : Nat} (h : p.RedBlack red n) :
    p.RedBlack false n := by
  cases p with
  | root => rfl
  | child s i m sib up =>
      cases m with
      | true => exact ⟨rfl, h.2⟩
      | false => exact h

theorem redBlack_plug {p : Path Bool} {T : Tree Bool} :
    (p.plug T).isRed = false ∧ (∃ n, (p.plug T).RedBlack n) ↔
      ∃ n, T.RedBlack n ∧ p.RedBlack T.isRed n := by
  induction p generalizing T with
  | root =>
      exact ⟨fun ⟨h, n, hn⟩ => ⟨n, hn, h⟩, fun ⟨n, hn, h⟩ => ⟨h, n, hn⟩⟩
  | child s i m sib up ih =>
      rw [plug_child, ih]
      cases m with
      | true =>
          simp only [Tree.redBlack_join_red, Tree.isRed_join, RedBlack]
          exact exists_congr fun n => by tauto
      | false =>
          simp only [Tree.redBlack_join_black, Tree.isRed_join, RedBlack]
          constructor
          · rintro ⟨n, ⟨k, rfl, hT, hsib⟩, hup⟩
            exact ⟨k, hT, hsib, hup⟩
          · rintro ⟨k, hT, hsib, hup⟩
            exact ⟨k + 1, ⟨k, rfl, hT, hsib⟩, hup⟩

end Path

/-! ### Insertion keeps the colors right -/

namespace LinkedTree

variable {t : LinkedTree Bool} {p up : Path Bool} {T U c o sib : Tree Bool} {s : Bool}
  {i n x : Nat} {m : Bool}

theorem Holds.isNodeRed (h : t.Holds (p.plug U)) : t.isNodeRed U.root = U.isRed := by
  cases U with
  | nil => rfl
  | node l i m r =>
      show t.isRed i = m
      rw [LinkedTree.isRed, mark, h.links]

theorem Holds.isNodeRed_child (h : t.Holds (p.plug (.join s c i m o))) :
    t.isNodeRed (t.child s i) = c.isRed ∧ t.isNodeRed (t.child (!s) i) = o.isRed := by
  rw [h.child_join, h.child_join_not]
  have ho : t.Holds ((Path.child (!s) i m c p).plug o) := by
    rw [Path.plug_child, Tree.join_not]
    exact h
  exact ⟨Holds.isNodeRed (p := .child s i m o p) h, ho.isNodeRed⟩

theorem Holds.filter_isRed (h : t.Holds (p.plug U)) :
    U.root.filter t.isRed = if U.isRed then U.root else none := by
  cases U with
  | nil => rfl
  | node l i m r =>
      have hi : t.isRed i = m := by
        rw [LinkedTree.isRed, mark, h.links]
      rw [Tree.root, Option.filter_some, hi]
      rfl

theorem Holds.grandParent (h : t.Holds ((Path.child s i m sib up).plug U))
    (hx : U.root = some x) : t.grandParent x = up.parent := by
  have hi : t.parent i = up.parent := Holds.parent_eq h (Tree.root_join s U sib i m)
  rw [LinkedTree.grandParent, h.parent_eq hx, ← hi]
  rfl

theorem Holds.uncle {g : Nat} {mg s' : Bool} {unc : Tree Bool}
    (h : t.Holds ((Path.child s i m sib (.child s' g mg unc up)).plug U))
    (hx : U.root = some x) : t.uncle x = some unc.root := by
  have h' : t.Holds (up.plug (.join s' (.join s U i m sib) g mg unc)) := h
  rw [LinkedTree.uncle, h.grandParent hx, h.parent_eq hx]
  refine bind_of_some rfl ?_
  cases s' with
  | true =>
      have hleft : t.leftChild g = some i := h'.child_join.trans (Tree.root_join _ _ _ _ _)
      have hright : t.rightChild g = unc.root := h'.child_join_not
      simp [Path.parent, hleft, hright]
  | false =>
      have hleft : t.leftChild g = unc.root := h'.child_join_not
      have hne : t.leftChild g ≠ some i := h'.child_join_ne (Tree.root_join _ _ _ _ _)
      exact congrArg some ((if_neg hne.symm).trans hleft)

end LinkedTree

namespace RedBlackTree

variable {t : LinkedTree Bool} {p up : Path Bool} {a b c d sib unc Y : Tree Bool}
  {s s' : Bool} {x y z q g n : Nat} {mg mq mx my : Bool}

theorem exists_insertCase4 (h : t.Holds (up.plug
      (.join s' (.join s (.join s a x true b) q true sib) g mg unc)))
    (ha : a.isRed = false ∧ a.RedBlack n) (hb : b.isRed = false ∧ b.RedBlack n)
    (hsib : sib.isRed = false ∧ sib.RedBlack n) :
    ∃ t' y z Y d, insertCase4 t x g = some (t', y) ∧
      t.Rearranges (up.plug (.join s' (.join s (.join s a x true b) q true sib) g mg unc))
        t' (up.plug (.join s' (.join s' Y z true d) g mg unc)) ∧
      Y.root = some y ∧ Y.RedBlack n ∧ d.isRed = false ∧ d.RedBlack n := by
  have hx : t.Holds ((Path.child s' g mg unc up).plug
      (.join s (.join s a x true b) q true sib)) := h
  have hparent : t.parent x = some q := Holds.parent_eq
    (p := .child s q true sib (.child s' g mg unc up)) h (Tree.root_join _ _ _ _ _)
  have hq : t.child s q = some x := hx.child_join.trans (Tree.root_join _ _ _ _ _)
  have hq' : t.child (!s) q ≠ some x := hx.child_join_ne (Tree.root_join _ _ _ _ _)
  have hg : t.child s' g = some q := h.child_join.trans (Tree.root_join _ _ _ _ _)
  have hg' : t.child (!s') g ≠ some q := h.child_join_ne (Tree.root_join _ _ _ _ _)
  by_cases hs : s = s'
  · -- The three nodes are already on one line.
    subst hs
    refine ⟨t, x, q, .join s a x true b, sib, ?_, Rearranges.refl h,
      Tree.root_join _ _ _ _ _, Tree.redBlack_join_red.mpr ⟨ha.1, hb.1, ha.2, hb.2⟩, hsib⟩
    refine bind_of_some hparent ?_
    cases s with
    | true =>
        refine (if_neg ?_).trans (if_neg ?_)
        · exact fun hboth => hq' hboth.1
        · exact fun hboth => hg' hboth.2
    | false =>
        refine (if_neg ?_).trans (if_neg ?_)
        · exact fun hboth => hg' hboth.2
        · exact fun hboth => hq' hboth.1
  · obtain rfl : s = !s' := by
      cases s <;> cases s' <;> simp_all
    obtain ⟨t', hrun, hre⟩ := exists_rotate hx
    have hchild : t'.child s' x = some q := by
      have hx' := Holds.child_join_not (p := .child s' g mg unc up) hre.holds
      rwa [Bool.not_not, Tree.root_join] at hx'
    rw [Tree.join_not s' a (.join (!s') b q true sib), Path.plug_child,
      Path.plug_child] at hre
    refine ⟨t', q, x, .join (!s') b q true sib, a, ?_, hre, Tree.root_join _ _ _ _ _,
      Tree.redBlack_join_red.mpr ⟨hb.1, hsib.1, hb.2, hsib.2⟩, ha⟩
    refine bind_of_some hparent ?_
    cases s' with
    | true =>
        refine (if_pos ⟨hq, hg⟩).trans ?_
        exact bind_of_some hrun (bind_of_some hchild rfl)
    | false =>
        refine (if_neg ?_).trans ((if_pos ⟨hq, hg⟩).trans ?_)
        · exact fun hboth => hq' hboth.1
        · exact bind_of_some hrun (bind_of_some hchild rfl)

theorem exists_insertCase5
    (h : t.Holds (up.plug (.join s' (.join s' Y z true d) g mg unc)))
    (hY : Y.root = some y) :
    ∃ t', insertCase5 t y g = some t' ∧
      t.Rearranges (up.plug (.join s' (.join s' Y z true d) g mg unc)) t'
        (up.plug (.join s' Y z false (.join s' d g true unc))) := by
  have hparent : t.parent y = some z := Holds.parent_eq
    (p := .child s' z true d (.child s' g mg unc up)) h hY
  have hpaint := ((Rearranges.refl h).setMark_child false).setMark true
  obtain ⟨t', hrun, hre⟩ := exists_rotate hpaint.holds
  refine ⟨t', ?_, hpaint.trans hre⟩
  refine bind_of_some hparent ?_
  have hz := Holds.child_join (p := .child s' g true unc up) hpaint.holds
  have hg := hpaint.holds.child_join
  rw [hY] at hz
  rw [Tree.root_join] at hg
  cases s' with
  | true => exact (if_pos ⟨hz, hg⟩).trans hrun
  | false =>
      refine (if_neg fun hboth => ?_).trans hrun
      exact hpaint.holds.child_join_ne (Tree.root_join _ _ _ _ _) hboth.2

/-- The subtree `U` at `x` was black and is now red, with as many black nodes. -/
structure Reddened (t : LinkedTree Bool) (p : Path Bool) (U : Tree Bool) (x n : Nat) :
    Prop where
  holds : t.Holds (p.plug U)
  root : U.root = some x
  redBlack : U.RedBlack n
  isRed : U.isRed = true
  path : p.RedBlack false n

theorem Reddened.exists_join {U : Tree Bool} (h : Reddened t p U x n) (s : Bool) :
    ∃ a b, U = .join s a x true b ∧ (a.isRed = false ∧ a.RedBlack n) ∧
      b.isRed = false ∧ b.RedBlack n := by
  obtain ⟨a, m, b, rfl⟩ := Tree.eq_join s h.root
  have hred := h.isRed
  rw [Tree.isRed_join] at hred
  subst hred
  obtain ⟨ha, hb, han, hbn⟩ := Tree.redBlack_join_red.mp h.redBlack
  exact ⟨a, b, rfl, ⟨ha, han⟩, hb, hbn⟩

/-- The insert cases 3 to 5: the parent is red, so the grand parent is black. -/
theorem exists_addedTurn_red {U : Tree Bool}
    (h : Reddened t (.child s q true sib (.child s' g false unc up)) U x n) :
    (∃ t' T', addedStep ⟨t, some x⟩ = some ⟨t', none⟩ ∧
        t.Rearranges ((Path.child s q true sib (.child s' g false unc up)).plug U) t' T' ∧
        T'.isRed = false ∧ ∃ n, T'.RedBlack n) ∨
      ∃ t' U', addedStep ⟨t, some x⟩ = some ⟨t', some g⟩ ∧
        t.Rearranges ((Path.child s q true sib (.child s' g false unc up)).plug U) t'
          (up.plug U') ∧ Reddened t' up U' g (n + 1) := by
  obtain ⟨a, b, rfl, ha, hb⟩ := h.exists_join s
  obtain ⟨-, hsib, hsibn, hunc, hup⟩ := h.path
  have hx : t.rootNode ≠ some x := h.holds.rootNode_ne rfl h.root
  have hparent : t.parent x = some q := h.holds.parent_eq h.root
  have huncle := Holds.uncle h.holds h.root
  have hgrand := h.holds.grandParent h.root
  have hholds : t.Holds (up.plug (.join s' (.join s (.join s a x true b) q true sib) g false
    unc)) := h.holds
  have hblack : ¬ t.isBlack q = true := by
    rw [isBlack, isRed, Holds.mark_join
      (p := .child s' g false unc up) (show t.Holds _ from h.holds)]
    exact Bool.false_ne_true
  have hfilter := Holds.filter_isRed
    (p := .child (!s') g false (.join s (.join s a x true b) q true sib) up)
    (by rw [Path.plug_child, Tree.join_not]; exact hholds)
  have hgo : ∀ u, (match unc.root.filter t.isRed with
      | some uncle => do return ⟨← insertCase3 t x uncle g, some g⟩
      | none => do
          let (t, node) ← insertCase4 t x g
          let grandParent ← t.grandParent node
          return ⟨← insertCase5 t node grandParent, none⟩) = some u →
      addedStep ⟨t, some x⟩ = some u := by
    intro u hu
    unfold addedStep
    exact bind_of_some rfl ((if_neg hx).trans
      (bind_of_some hparent ((if_neg hblack).trans
      (bind_of_some huncle
      (bind_of_some hgrand hu)))))
  cases hred : unc.isRed with
  | true =>
      right
      obtain ⟨u, hu⟩ : ∃ u, unc.root = some u := by
        cases unc with
        | nil => exact absurd hred Bool.false_ne_true
        | node l u m r => exact ⟨u, rfl⟩
      rw [hred, if_pos rfl, hu] at hfilter
      obtain ⟨e, m, f, rfl⟩ := Tree.eq_join true hu
      rw [Tree.isRed_join] at hred
      subst hred
      obtain ⟨he, hf, hen, hfn⟩ := Tree.redBlack_join_red.mp hunc
      have hre := (((Rearranges.refl hholds).setMark_child false).setMark_other
        false).setMark true
      refine ⟨_, _, hgo _ ?_, hre, hre.holds, Tree.root_join _ _ _ _ _,
        Tree.redBlack_join_red.mpr ⟨Tree.isRed_join, Tree.isRed_join,
          Tree.redBlack_join_black.mpr ⟨n, rfl, h.redBlack, hsibn⟩,
          Tree.redBlack_join_black.mpr ⟨n, rfl, hen, hfn⟩⟩, Tree.isRed_join, hup⟩
      rw [hu, hfilter]
      exact bind_of_some (bind_of_some hparent rfl) rfl
  | false =>
      left
      rw [hred, if_neg Bool.false_ne_true] at hfilter
      obtain ⟨t₁, y, z, Y, d, hrun, hre, hY, hYn, hd, hdn⟩ :=
        exists_insertCase4 hholds ha hb ⟨hsib, hsibn⟩
      obtain ⟨t₂, hrun', hre'⟩ := exists_insertCase5 hre.holds hY
      have hholds' : t₁.Holds ((Path.child s' z true d (.child s' g false unc up)).plug Y) :=
        hre.holds
      have hgrand' : t₁.grandParent y = some g := hholds'.grandParent hY
      refine ⟨t₂, _, hgo _ ?_, hre.trans hre', Path.redBlack_plug.mpr
        ⟨n + 1, Tree.redBlack_join_black.mpr ⟨n, rfl, hYn,
          Tree.redBlack_join_red.mpr ⟨hd, hred, hdn, hunc⟩⟩, ?_⟩⟩
      · rw [hfilter]
        exact bind_of_some hrun (bind_of_some hgrand' (bind_of_some hrun' rfl))
      · rw [Tree.isRed_join]
        exact hup

/-- One turn of the loop of `on_node_added`. -/
theorem exists_addedTurn {U : Tree Bool} (h : Reddened t p U x n) :
    (∃ t' T', addedStep ⟨t, some x⟩ = some ⟨t', none⟩ ∧
        t.Rearranges (p.plug U) t' T' ∧ T'.isRed = false ∧ ∃ n, T'.RedBlack n) ∨
      ∃ t' p' U' x' n', addedStep ⟨t, some x⟩ = some ⟨t', some x'⟩ ∧
        t.Rearranges (p.plug U) t' (p'.plug U') ∧ Reddened t' p' U' x' n' ∧
        p'.depth < p.depth := by
  cases p with
  | root =>
      obtain ⟨a, b, rfl, ha, hb⟩ := h.exists_join true
      have hx : t.rootNode = some x := h.holds.root
      refine Or.inl ⟨_, .join true a x false b, ?_,
        Rearranges.setMark (p := .root) (Rearranges.refl h.holds) false, rfl, n + 1,
        Tree.redBlack_join_black.mpr ⟨n, rfl, ha.2, hb.2⟩⟩
      unfold addedStep
      exact bind_of_some rfl (if_pos hx)
  | child s q mq sib up =>
      cases mq with
      | false =>
          have hx : t.rootNode ≠ some x := h.holds.rootNode_ne rfl h.root
          have hparent : t.parent x = some q := h.holds.parent_eq h.root
          have hq : t.isRed q = false := Holds.mark_join (p := up) h.holds
          refine Or.inl ⟨t, _, ?_, Rearranges.refl h.holds,
            Path.redBlack_plug.mpr ⟨n, h.redBlack, h.path⟩⟩
          unfold addedStep
          refine bind_of_some rfl ((if_neg hx).trans
            (bind_of_some hparent (if_pos ?_)))
          rw [isBlack, hq]
          rfl
      | true =>
          obtain ⟨-, hsib, hsibn, hup⟩ := h.path
          cases up with
          | root => exact absurd hup Bool.true_eq_false.mp
          | child s' g mg unc up =>
              cases mg with
              | true => exact absurd hup.1 Bool.true_eq_false.mp
              | false =>
                  refine (exists_addedTurn_red h).imp_right ?_
                  rintro ⟨t', U', hrun, hre, hU'⟩
                  refine ⟨t', up, U', g, n + 1, hrun, hre, hU', ?_⟩
                  simp only [Path.depth]
                  omega

theorem exists_addedLoop {U : Tree Bool} (h : Reddened t p U x n) {fuel : Nat}
    (hfuel : p.depth + 1 < fuel) :
    ∃ k T', loopUntil (fun k => some k.node.isNone) addedStep fuel ⟨t, some x⟩ = some k ∧
      t.Rearranges (p.plug U) k.tree T' ∧ T'.isRed = false ∧ ∃ n, T'.RedBlack n := by
  induction fuel generalizing t p U x n with
  | zero => omega
  | succ fuel ih =>
      rcases exists_addedTurn h with ⟨t', T', hrun, hre, hT'⟩ |
        ⟨t', p', U', x', n', hrun, hre, h', hdepth⟩
      · obtain ⟨fuel, rfl⟩ : ∃ k, fuel = k + 1 := ⟨fuel - 1, by omega⟩
        refine ⟨⟨t', none⟩, T', (loopUntil_of_go ?_ hrun).trans (loopUntil_of_stop ?_),
          hre, hT'⟩
        · rfl
        · rfl
      · obtain ⟨k, T', hrun', hre', hT'⟩ := ih h' (by omega)
        refine ⟨k, T', (loopUntil_of_go ?_ hrun).trans hrun', hre.trans hre', hT'⟩
        rfl

/-! ### Removal keeps the colors right -/

/-- The child of the sibling that is on its side becomes red. -/
theorem exists_removeCase5 {r : Bool} {k : Nat}
    (h : t.Holds (up.plug (.join r (.join r a x false b) q mq c)))
    (ha : a.RedBlack k) (hb : b.RedBlack k) (hred : a.isRed = true ∨ b.isRed = true) :
    ∃ t' y a' b', removeCase5 t q x false (!r) = some (t', y) ∧
      t.Rearranges (up.plug (.join r (.join r a x false b) q mq c)) t'
        (up.plug (.join r (.join r a' y false b') q mq c)) ∧
      a'.RedBlack k ∧ a'.isRed = true ∧ b'.RedBlack k := by
  have hx : t.Holds ((Path.child r q mq c up).plug (.join r a x false b)) := h
  obtain ⟨hxa, hxb⟩ := hx.isNodeRed_child
  have hBlack : t.isBlack x = true := by
    rw [isBlack, isRed, hx.mark_join]
    rfl
  by_cases haRed : a.isRed = true
  · refine ⟨t, x, a, b, ?_, Rearranges.refl h, ha, haRed, hb⟩
    rw [haRed] at hxa
    rw [removeCase5]
    cases r with
    | true =>
        have hleft : t.isNodeRed (t.leftChild x) = true := hxa
        rw [if_neg (by simp), if_neg (by simp [hleft])]
    | false =>
        have hright : t.isNodeRed (t.rightChild x) = true := hxa
        rw [if_neg (by simp [hright]), if_neg (by simp)]
  · have hbRed := hred.resolve_left haRed
    obtain ⟨y, hy⟩ : ∃ y, b.root = some y := by
      cases b with
      | nil => exact absurd hbRed Bool.false_ne_true
      | node l y m r => exact ⟨y, rfl⟩
    obtain ⟨e, m, f, rfl⟩ := Tree.eq_join (!r) hy
    rw [Tree.isRed_join] at hbRed
    subst hbRed
    obtain ⟨he, hf, hek, hfk⟩ := Tree.redBlack_join_red.mp hb
    have haBlack : a.isRed = false := by simpa using haRed
    rw [haBlack] at hxa
    rw [Tree.isRed_join] at hxb
    have hre := Rearranges.setMark (p := .child r q mq c up) (Rearranges.refl hx) true
    have hre' := hre.setMark_other false
    have hturn : LinkedTree.Holds ((t.setIsRed x true).setIsRed y false)
        ((Path.child r q mq c up).plug (.join (!r) (.join (!r) e y false f) x true a)) := by
      rw [Tree.join_not r (.join (!r) e y false f) a]
      exact hre'.holds
    obtain ⟨t', hrun, hre''⟩ := exists_rotate hturn
    have hre₂ : t.Rearranges (up.plug (.join r (.join r a x false (.join (!r) e y true f)) q mq c))
        t' (up.plug (.join r (.join r (.join (!r) f x true a) y false e) q mq c)) := by
      rw [Tree.join_not r (.join (!r) e y false f) a,
        Tree.join_not r e (.join (!r) f x true a)] at hre''
      exact hre'.trans hre''
    refine ⟨t', y, .join (!r) f x true a, e, ?_, hre₂,
      Tree.redBlack_join_red.mpr ⟨hf, haBlack, hfk, ha⟩, Tree.isRed_join, hek⟩
    have hchild : t.child (!r) x = some y := hx.child_join_not.trans hy
    have hq : t'.child r q = some y := hre₂.holds.child_join.trans (Tree.root_join _ _ _ _ _)
    rw [removeCase5]
    cases r with
    | true =>
        have hright : t.isNodeRed (t.rightChild x) = true := hxb
        have hleft : t.isNodeRed (t.leftChild x) = false := hxa
        rw [if_neg (by simp), if_pos (by simp [hright, hleft, hBlack])]
        exact bind_of_some hchild (bind_of_some hrun (bind_of_some hq rfl))
    | false =>
        have hleft : t.isNodeRed (t.leftChild x) = true := hxb
        have hright : t.isNodeRed (t.rightChild x) = false := hxa
        rw [if_pos (by simp [hright, hleft])]
        exact bind_of_some hchild (bind_of_some hrun (bind_of_some hq rfl))

theorem exists_removeCase6 {r : Bool}
    (h : t.Holds (up.plug (.join r (.join r a y false b) q mq c))) (ha : a.isRed = true) :
    ∃ t' e u f, a = .join true e u true f ∧ removeCase6 t q y (!r) = some t' ∧
      t.Rearranges (up.plug (.join r (.join r a y false b) q mq c)) t'
        (up.plug (.join r (.join true e u false f) y mq (.join r b q false c))) := by
  obtain ⟨u, hu⟩ : ∃ u, a.root = some u := by
    cases a with
    | nil => exact absurd ha Bool.false_ne_true
    | node l u m r => exact ⟨u, rfl⟩
  obtain ⟨e, m, f, rfl⟩ := Tree.eq_join true hu
  rw [Tree.isRed_join] at ha
  subst ha
  have hq : t.isRed q = mq := h.mark_join
  have hre := ((Rearranges.refl h).setMark_child mq).setMark false
  have hre' : t.Rearranges (up.plug (.join r (.join r (.join true e u true f) y false b) q mq c))
      ((((t.setIsRed y mq).setIsRed q false)).setIsRed u false)
      (up.plug (.join r (.join r (.join true e u false f) y mq b) q false c)) :=
    Rearranges.setMark_child (p := .child r q false c up) hre false
  obtain ⟨t', hrun, hre''⟩ := exists_rotate hre'.holds
  have hchild : ((t.setIsRed y mq).setIsRed q false).child r y = some u :=
    (Holds.child_join (p := .child r q false c up) hre.holds).trans (Tree.root_join _ _ _ _ _)
  refine ⟨t', e, u, f, rfl, ?_, hre'.trans hre''⟩
  rw [removeCase6, hq]
  cases r with
  | true => exact bind_of_some hchild hrun
  | false => exact bind_of_some hchild hrun

/-- The subtree `C` has lost one black node on every path. -/
structure Lightened (t : LinkedTree Bool) (p : Path Bool) (C : Tree Bool) (k : Nat) :
    Prop where
  holds : t.Holds (p.plug C)
  redBlack : C.RedBlack k
  isBlack : C.isRed = false
  path : p.RedBlack false (k + 1)

/-- The delete cases 3 to 6, for a black sibling. -/
theorem exists_removeCases {r : Bool} {k : Nat} {C : Tree Bool} (ch : Option Nat)
    (h : t.Holds (up.plug (.join r (.join r a x false b) q mq C)))
    (ha : a.RedBlack k) (hb : b.RedBlack k) (hC : C.RedBlack k)
    (hup : up.RedBlack mq (if mq then k + 1 else k + 2)) :
    (∃ t' T', removeCases t q x (!r) ch = some ⟨t', !r, none, ch⟩ ∧
        t.Rearranges (up.plug (.join r (.join r a x false b) q mq C)) t' T' ∧
        T'.isRed = false ∧ ∃ n, T'.RedBlack n) ∨
      mq = false ∧ ∃ t' side U',
        removeCases t q x (!r) ch = some ⟨t', side, up.parent, U'.root⟩ ∧
        (∀ i, up.parent = some i → side = up.isLeft) ∧
        t.Rearranges (up.plug (.join r (.join r a x false b) q mq C)) t' (up.plug U') ∧
        Lightened t' up U' (k + 1) := by
  have hx : t.Holds ((Path.child r q mq C up).plug (.join r a x false b)) := h
  have hxRed : t.isNodeRed (some x) = false := hx.mark_join
  have hq : t.isRed q = mq := h.mark_join
  have hchildren : (!t.isNodeRed (t.leftChild x)) = true ∧
      (!t.isNodeRed (t.rightChild x)) = true ↔ a.isRed = false ∧ b.isRed = false := by
    obtain ⟨hxa, hxb⟩ := hx.isNodeRed_child
    rw [← hxa, ← hxb]
    cases r
    · simp only [Bool.not_eq_true']
      exact and_comm
    · simp only [Bool.not_eq_true']
      exact Iff.rfl
  rw [removeCases, hxRed, isBlack, hq]
  by_cases hblack : a.isRed = false ∧ b.isRed = false
  · have hred : (Tree.join r a x true b).RedBlack k :=
      Tree.redBlack_join_red.mpr ⟨hblack.1, hblack.2, ha, hb⟩
    have hre := (Rearranges.refl h).setMark_child true
    cases mq with
    | false =>
        right
        have hroot : (Tree.join r (.join r a x true b) q false C).root = some q :=
          Tree.root_join _ _ _ _ _
        have hside := hre.holds.isLeftChildOf hroot
        refine ⟨rfl, t.setIsRed x true, up.parent.elim true fun p =>
            (t.setIsRed x true).leftChild p = some q,
          .join r (.join r a x true b) q false C, ?_, ?_, hre, hre.holds,
          Tree.redBlack_join_black.mpr ⟨k, rfl, hred, hC⟩, Tree.isRed_join, hup⟩
        · refine (if_pos ⟨rfl, rfl, hchildren.mpr hblack⟩).trans ?_
          rw [hroot, ← hre.holds.parent_eq hroot]
          rfl
        · intro i hi
          rw [← hside, hi, Bool.eq_iff_iff]
          simp only [Option.elim_some, isLeftChildOf, setIsRed, beq_iff_eq]
          exact decide_eq_true_iff
    | true =>
        left
        refine ⟨_, _, (if_neg ?_).trans (if_pos ⟨rfl, rfl, hchildren.mpr hblack⟩),
          hre.setMark false, Path.redBlack_plug.mpr ⟨k + 1,
            Tree.redBlack_join_black.mpr ⟨k, rfl, hred, hC⟩, ?_⟩⟩
        · simp
        · rw [Tree.isRed_join]
          exact Path.RedBlack.black hup
  · left
    have hsome : a.isRed = true ∨ b.isRed = true := by
      cases ha' : a.isRed <;> cases hb' : b.isRed <;> simp_all
    obtain ⟨t₁, y, a', b', hrun, hre, ha', haRed, hb'⟩ := exists_removeCase5 h ha hb hsome
    obtain ⟨t₂, e, u, f, rfl, hrun', hre'⟩ := exists_removeCase6 hre.holds haRed
    obtain ⟨he, hf, hek, hfk⟩ := Tree.redBlack_join_red.mp ha'
    have houter : (Tree.join true e u false f).RedBlack (k + 1) :=
      Tree.redBlack_join_black.mpr ⟨k, rfl, hek, hfk⟩
    have hinner : (Tree.join r b' q false C).RedBlack (k + 1) :=
      Tree.redBlack_join_black.mpr ⟨k, rfl, hb', hC⟩
    refine ⟨t₂, _, (if_neg ?_).trans ((if_neg ?_).trans ?_), hre.trans hre',
      Path.redBlack_plug.mpr ?_⟩
    · exact fun hall => hblack (hchildren.mp hall.2.2)
    · exact fun hall => hblack (hchildren.mp hall.2.2)
    · exact bind_of_some hrun (bind_of_some hrun' rfl)
    · rw [Tree.isRed_join]
      cases mq with
      | true => exact ⟨k + 1, Tree.redBlack_join_red.mpr
          ⟨Tree.isRed_join, Tree.isRed_join, houter, hinner⟩, hup⟩
      | false => exact ⟨k + 2, Tree.redBlack_join_black.mpr ⟨k + 1, rfl, houter, hinner⟩, hup⟩

theorem Holds.root_ne_rootNode {C : Tree Bool} (h : t.Holds (p.plug C)) {i : Nat}
    (hp : p.parent = some i) : C.root ≠ t.rootNode := by
  cases hC : C.root with
  | none =>
      obtain ⟨j, -, hj⟩ := Path.root_plug_mem hp C
      rw [h.root, hj]
      exact (Option.some_ne_none j).symm
  | some n => exact (h.rootNode_ne hp hC).symm

/-- One turn of the loop of `on_node_removed`. -/
theorem exists_removedTurn {k : Nat} {C : Tree Bool}
    (h : Lightened t (.child s q mq sib up) C k) :
    (∃ t' side ch T', removedStep ⟨t, s, some q, C.root⟩ = some ⟨t', side, none, ch⟩ ∧
        t.Rearranges ((Path.child s q mq sib up).plug C) t' T' ∧
        T'.isRed = false ∧ ∃ n, T'.RedBlack n) ∨
      ∃ t' side U', removedStep ⟨t, s, some q, C.root⟩ =
          some ⟨t', side, up.parent, U'.root⟩ ∧
        (∀ i, up.parent = some i → side = up.isLeft) ∧
        t.Rearranges ((Path.child s q mq sib up).plug C) t' (up.plug U') ∧
        Lightened t' up U' (k + 1) := by
  have hroot := Holds.root_ne_rootNode h.holds rfl
  have hq : t.Holds (up.plug (.join (!s) sib q mq C)) := by
    rw [Tree.join_not]
    exact h.holds
  have hsibling : (if s then t.rightChild q else t.leftChild q) = sib.root := by
    have hchild := hq.child_join
    cases s <;> exact hchild
  have hgo : ∀ {x}, sib.root = some x → ∀ u, (do
        let (t, sibling) ← (if t.isNodeRed (some x) then removeCase2 t q x s
          else some (t, x) : Option _)
        removeCases t q sibling s C.root) = some u →
      removedStep ⟨t, s, some q, C.root⟩ = some u := by
    intro x hx u hu
    unfold removedStep
    refine Option.bind_eq_some_iff.mpr ⟨q, rfl, (if_pos hroot).trans ?_⟩
    exact Option.bind_eq_some_iff.mpr ⟨x, hsibling.trans hx, hu⟩
  have hturn : mq = true ∧ sib.isRed = false ∧ sib.RedBlack (k + 1) ∧ up.RedBlack true (k + 1) ∨
      mq = false ∧ sib.RedBlack (k + 1) ∧ up.RedBlack false (k + 2) := by
    have hpath := h.path
    cases mq with
    | true => exact Or.inl ⟨rfl, hpath.2⟩
    | false => exact Or.inr ⟨rfl, hpath⟩
  by_cases hblack : sib.isRed = false
  · -- Case 2 does not apply.
    have hup : sib.RedBlack (k + 1) ∧ up.RedBlack mq (if mq then k + 1 else k + 2) := by
      rcases hturn with ⟨rfl, -, hsib, hup⟩ | ⟨rfl, hsib, hup⟩
      · exact ⟨hsib, hup⟩
      · exact ⟨hsib, hup⟩
    obtain ⟨a, x, b, rfl, ha, hb⟩ := hup.1.exists_join hblack (!s)
    have hx : t.isNodeRed (some x) = false :=
      Holds.mark_join (p := .child (!s) q mq C up) hq
    have hskip : ∀ u, removeCases t q x s C.root = some u →
        removedStep ⟨t, s, some q, C.root⟩ = some u := by
      intro u hu
      apply hgo (Tree.root_join _ _ _ _ _)
      rw [hx]
      exact hu
    have hcases := exists_removeCases C.root hq ha hb h.redBlack hup.2
    rw [Tree.join_not, Bool.not_not] at hcases
    rcases hcases with ⟨t', T', hrun, hre, hT'⟩ | ⟨-, t', side, U', hrun, hside, hre, hU'⟩
    · exact Or.inl ⟨t', s, C.root, T', hskip _ hrun, hre, hT'⟩
    · exact Or.inr ⟨t', side, U', hskip _ hrun, hside, hre, hU'⟩
  · -- After case 2 the parent is red.
    rcases hturn with ⟨-, hred, -⟩ | ⟨rfl, hsib, hup⟩
    · exact absurd hred hblack
    obtain ⟨x, hx⟩ : ∃ x, sib.root = some x := by
      cases sib with
      | nil => exact absurd rfl hblack
      | node l x m r => exact ⟨x, rfl⟩
    obtain ⟨a, m, b, rfl⟩ := Tree.eq_join (!s) hx
    obtain rfl : m = true := by
      simpa using hblack
    obtain ⟨ha, hb, hak, hbk⟩ := Tree.redBlack_join_red.mp hsib
    obtain ⟨c, y, d, rfl, hc, hd⟩ := hbk.exists_join hb (!s)
    have hxRed : t.isNodeRed (some x) = true :=
      Holds.mark_join (p := .child (!s) q false C up) hq
    have hpaint := ((Rearranges.refl hq).setMark true).setMark_child false
    obtain ⟨t', hrun, hre⟩ := exists_rotate hpaint.holds
    have hre' : t.Rearranges
        (up.plug (.join (!s) (.join (!s) a x true (.join (!s) c y false d)) q false C)) t'
        ((Path.child s x false a up).plug
          (.join (!s) (.join (!s) c y false d) q true C)) := by
      rw [Tree.join_not s a (.join (!s) (.join (!s) c y false d) q true C)] at hre
      exact hpaint.trans hre
    have hchild : t'.child (!s) q = some y :=
      hre'.holds.child_join.trans (Tree.root_join _ _ _ _ _)
    have hcase : removeCase2 t q x s = some (t', y) := by
      cases s with
      | true => exact Option.bind_eq_some_iff.mpr ⟨t', hrun,
          Option.bind_eq_some_iff.mpr ⟨y, hchild, rfl⟩⟩
      | false => exact Option.bind_eq_some_iff.mpr ⟨t', hrun,
          Option.bind_eq_some_iff.mpr ⟨y, hchild, rfl⟩⟩
    have hcases := exists_removeCases C.root hre'.holds hc hd h.redBlack ⟨hak, hup⟩
    rw [Bool.not_not] at hcases
    rcases hcases with ⟨t'', T', hrun', hre'', hT'⟩ | ⟨hfalse, -⟩
    · have hall := hre'.trans hre''
      rw [Tree.join_not s (.join (!s) a x true (.join (!s) c y false d)) C] at hall
      refine Or.inl ⟨t'', s, C.root, T', hgo (Tree.root_join _ _ _ _ _) _ ?_, hall, hT'⟩
      rw [hxRed, if_pos rfl]
      exact Option.bind_eq_some_iff.mpr ⟨_, hcase, hrun'⟩
    · exact absurd hfalse.symm Bool.false_ne_true

theorem exists_removedLoop {k : Nat} {C : Tree Bool} (h : Lightened t p C k) {side : Bool}
    (hside : ∀ i, p.parent = some i → side = p.isLeft) {fuel : Nat}
    (hfuel : p.depth < fuel) :
    ∃ n T', loopUntil (fun n => some n.parent.isNone) removedStep fuel
        ⟨t, side, p.parent, C.root⟩ = some n ∧
      t.Rearranges (p.plug C) n.tree T' ∧ T'.isRed = false ∧ ∃ n, T'.RedBlack n := by
  induction p generalizing t C k side fuel with
  | root =>
      obtain ⟨fuel, rfl⟩ : ∃ k, fuel = k + 1 := ⟨fuel - 1, by omega⟩
      exact ⟨_, _, loopUntil_of_stop rfl, Rearranges.refl h.holds, h.isBlack, k, h.redBlack⟩
  | child s q mq sib up ih =>
      obtain rfl : side = s := hside q rfl
      obtain ⟨fuel, rfl⟩ : ∃ k, fuel = k + 2 := by
        rw [Path.depth] at hfuel
        exact ⟨fuel - 2, by omega⟩
      rcases exists_removedTurn h with ⟨t', b, ch, T', hrun, hre, hT'⟩ |
        ⟨t', b, U', hrun, hb, hre, hU'⟩
      · refine ⟨_, T', (loopUntil_of_go ?_ hrun).trans (loopUntil_of_stop ?_), hre, hT'⟩
        · rfl
        · rfl
      · obtain ⟨n, T', hrun', hre', hT'⟩ := ih hU' hb
          (by simp only [Path.depth] at hfuel; omega : up.depth < fuel + 1)
        refine ⟨n, T', (loopUntil_of_go ?_ hrun).trans hrun', hre.trans hre', hT'⟩
        rfl

end RedBlackTree

/-- The root is black, no red node has a red child, and there are as many black
nodes on every path down. -/
def Tree.IsRedBlack (T : Tree Bool) : Prop := T.isRed = false ∧ ∃ n, T.RedBlack n

theorem Tree.IsRedBlack.height_le {T : Tree Bool} (h : T.IsRedBlack) :
    T.height ≤ 2 * Nat.log 2 (T.ids.length + 1) := by
  obtain ⟨hroot, n, hn⟩ := h
  have hheight := hn.height_le
  have hlog := Nat.le_log_of_pow_le Nat.one_lt_two hn.pow_le
  rw [hroot, if_neg Bool.false_ne_true] at hheight
  omega

open RedBlackTree in
/-- Red-black trees are balanced. -/
def redBlackBalancing : Balancing Bool where
  newMark := true
  onNodeAdded := RedBlackTree.onNodeAdded
  onRootNodeRemoved := RedBlackTree.onRootNodeRemoved
  onNodeRemoved := RedBlackTree.onNodeRemoved
  Balanced := Tree.IsRedBlack
  balanced_nil := ⟨rfl, 0, rfl⟩
  exists_added := by
    intro t p n hbalanced hholds
    obtain ⟨k, rfl, hp⟩ := Path.redBlack_plug.mp hbalanced
    have hfuel := hholds.depth_lt
    obtain ⟨u, T', hrun, hre, hT'⟩ := exists_addedLoop
      ⟨hholds, rfl, ⟨rfl, rfl, rfl, rfl⟩, rfl, hp⟩ (by omega : p.depth + 1 < t.created + 1)
    exact ⟨u.tree, T', bind_of_some hrun rfl, hre, hT'⟩
  exists_removed := by
    intro t isLeft b i n m mn sib c up hbalanced hholds hmark
    obtain ⟨k, hjoin, hp⟩ := Path.redBlack_plug.mp hbalanced
    rw [Tree.isRed_join] at hp
    have hchild : (if isLeft then t.leftChild i else t.rightChild i) = c.root := by
      have hc := Holds.child_join (p := up) hholds
      cases isLeft <;> exact hc
    have hn : t.isBlack n = !mn := by
      rw [isBlack, isRed, hmark]
    cases mn with
    | true =>
        obtain ⟨hc, -, hck, -⟩ := Tree.redBlack_join_red.mp hjoin
        refine ⟨t, _, ?_, Rearranges.refl hholds, Path.redBlack_plug.mpr ⟨k, hck, ?_⟩⟩
        · rw [RedBlackTree.onNodeRemoved, hn, if_neg (by decide)]
        · rw [hc]
          exact hp.black
    | false =>
        obtain ⟨k, rfl, hck, hnil⟩ := Tree.redBlack_join_black.mp hjoin
        have hfilter := hholds.filter_isRed
        rw [RedBlackTree.onNodeRemoved, hn, if_pos (by decide), hchild]
        cases hc : c.isRed with
        | true =>
            rw [hc, if_pos rfl] at hfilter
            cases c with
            | nil => exact absurd hc Bool.false_ne_true
            | node l x mx r =>
                obtain rfl : mx = true := hc
                have hre := (Rearranges.refl (show t.Holds ((Path.child isLeft i m sib up).plug
                  (.join true l x true r)) from hholds)).setMark false
                refine ⟨t.setIsRed x false, _, ?_, hre, Path.redBlack_plug.mpr
                  ⟨k + 1, Tree.redBlack_join_black.mpr ⟨k, rfl, hck.2.2.1, hck.2.2.2⟩, ?_⟩⟩
                · rw [hfilter]
                  rfl
                · rw [Tree.isRed_join]
                  exact hp
        | false =>
            rw [hc, if_neg Bool.false_ne_true] at hfilter
            obtain ⟨u, T', hrun, hre, hT'⟩ := exists_removedLoop ⟨hholds, hck, hc, hp⟩
              (fun j _ => rfl) hholds.depth_le
            refine ⟨u.tree, T', ?_, hre, hT'⟩
            rw [hfilter]
            exact bind_of_some hrun rfl
  exists_rootRemoved := by
    intro t n mn c hbalanced hc hholds
    obtain ⟨hmn, k, hk⟩ := hbalanced
    obtain rfl : mn = false := hmn
    obtain ⟨j, rfl, hcj, hnil⟩ := hk
    cases c with
    | nil => exact absurd rfl hc
    | node l x mx r =>
        obtain rfl : j = 0 := hnil
        have hroot : t.rootNode = some x := hholds.root
        have hjoin : t.Holds (Path.root.plug (.join true l x mx r)) := hholds
        have hx : t.isRed x = mx := hjoin.mark_join
        cases mx with
        | false =>
            obtain ⟨k, hk, -⟩ := hcj
            exact absurd hk.symm (Nat.succ_ne_zero k)
        | true =>
            refine ⟨t.setIsRed x false, .node l x false r, ?_,
              (Rearranges.refl hjoin).setMark false, rfl, 1, 0, rfl, hcj.2.2.1, hcj.2.2.2⟩
            refine bind_of_some hroot ?_
            rw [hx]
            rfl

end Gobo
