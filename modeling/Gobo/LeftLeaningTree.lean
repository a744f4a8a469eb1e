/-
Left-leaning red-black trees (`DS_LEFT_LEANING_RED_BLACK_TREE_CONTAINER`).  The
search for a node that is to be removed repaints and rotates on its way down;
`fix_up` puts the colors right on the way up.
-/
import Gobo.RedBlackTree

namespace Gobo

open LinkedTree

namespace LeftLeaningTree

/-! ### Basic operations -/

def flipColors (t : LinkedTree Bool) (aNode : Nat) : Option (LinkedTree Bool) := do
  let leftChild ← t.leftChild aNode
  let rightChild ← t.rightChild aNode
  let t := t.setIsRed aNode (!t.isRed aNode)
  let t := t.setIsRed leftChild (!t.isRed leftChild)
  return t.setIsRed rightChild (!t.isRed rightChild)

def setColorsAfterRotation (t : LinkedTree Bool) (aNode : Nat) :
    Option (LinkedTree Bool) := do
  let parent ← t.parent aNode
  return (t.setIsRed parent (t.isRed aNode)).setIsRed aNode true

/-- A rotation of `child` above `aNode`, followed by
`set_colors_after_rotation`. -/
def rotateColored (isLeft : Bool) (t : LinkedTree Bool) (child aNode : Nat) :
    Option (LinkedTree Bool) := do
  setColorsAfterRotation (← t.rotate isLeft child) aNode

/-- The same where the child is the red one of `aNode` on that side; the result
is the node on top. -/
def rotateRed (isLeft : Bool) (t : LinkedTree Bool) (aNode : Nat) :
    Option (LinkedTree Bool × Nat) := do
  let t ← rotateColored isLeft t (← t.child isLeft aNode) aNode
  return (t, ← t.parent aNode)

def moveRedLeft (t : LinkedTree Bool) (aNode : Nat) :
    Option (LinkedTree Bool × Nat) := do
  let node := (t.rightChild aNode).bind t.leftChild
  let t ← flipColors t aNode
  if t.isNodeRed node then
    let result ← node
    let t ← t.rotateRight result
    let t ← setColorsAfterRotation t (← t.rightChild result)
    let t ← t.rotateLeft result
    let t ← setColorsAfterRotation t (← t.leftChild result)
    return (← flipColors t result, result)
  else
    return (t, aNode)

def moveRedRight (t : LinkedTree Bool) (aNode : Nat) :
    Option (LinkedTree Bool × Nat) := do
  let node ← t.leftChild aNode
  let t ← flipColors t aNode
  if t.isNodeRed (t.leftChild node) then
    let t ← t.rotateRight node
    let t ← setColorsAfterRotation t (← t.rightChild node)
    return (← flipColors t node, node)
  else
    return (t, aNode)

/-- Is there a child that is black and has no red left child? -/
def isChildBare (t : LinkedTree Bool) (child : Option Nat) : Bool :=
  child.any fun c => !t.isRed c && !t.isNodeRed (t.leftChild c)

/-- The locals of the loops in `fix_up` and `walk_left`. -/
structure Walk where
  tree : LinkedTree Bool
  node : Option Nat

/-- One turn of the loop in `fix_up`. -/
def fixUpStep (w : Walk) : Option Walk := do
  let node ← w.node
  let (t, node) ← (if w.tree.isNodeRed (w.tree.rightChild node) then
    rotateRed false w.tree node else some (w.tree, node) : Option _)
  let (t, node) ← (if t.isNodeRed (t.leftChild node) ∧
      t.isNodeRed ((t.leftChild node).bind t.leftChild) then
    rotateRed true t node else some (t, node) : Option _)
  let t ← (if t.isNodeRed (t.leftChild node) ∧ t.isNodeRed (t.rightChild node) then
    flipColors t node else some t : Option _)
  return ⟨t, t.parent node⟩

def fixUp (t : LinkedTree Bool) (aNode aDestinationNode : Nat) :
    Option (LinkedTree Bool) := do
  let parent := t.parent aDestinationNode
  let w ← loopUntil (fun w => some (w.node == parent)) fixUpStep (t.created + 1)
    ⟨t, some aNode⟩
  return w.tree

/-- `fix_up` up to the root, which is painted black. -/
def fixUpToRoot (t : LinkedTree Bool) (aNode : Nat) : Option (LinkedTree Bool) := do
  let t ← fixUp t aNode (← t.rootNode)
  return t.setIsRed (← t.rootNode) false

/-- One turn of the loop in `walk_left`. -/
def walkLeftStep (w : Walk) : Option Walk := do
  let result ← w.node
  let (t, result) ← (if isChildBare w.tree (w.tree.leftChild result) then
    moveRedLeft w.tree result else some (w.tree, result) : Option _)
  return ⟨t, some (← t.leftChild result)⟩

def walkLeft (t : LinkedTree Bool) (aNode : Nat) : Option (LinkedTree Bool × Nat) := do
  let w ← loopUntil (fun w => w.node.map fun n => (w.tree.leftChild n).isNone)
    walkLeftStep (t.created + 1) ⟨t, some aNode⟩
  return (w.tree, ← w.node)

/-! ### Element change and removal -/

def onNodeAdded (t : LinkedTree Bool) (aNode : Nat) : Option (LinkedTree Bool) := do
  let root ← t.rootNode
  let t ← (if aNode ≠ root then fixUp t aNode root else some t : Option _)
  return t.setIsRed (← t.rootNode) false

def onNodeRemoved (t : LinkedTree Bool) (_aOldNode aNode : Nat) (_aWasLeftChild : Bool) :
    Option (LinkedTree Bool) :=
  fixUpToRoot t aNode

def successorForRemoval (t : LinkedTree Bool) (v : Nat) :
    Option (LinkedTree Bool × Nat) := do
  walkLeft t (← t.rightChild v)

section

variable {G K : Type}

def onNodeForRemovalNotFound (s : TreeContainer G K Bool) :
    Option (TreeContainer G K Bool) :=
  match s.rootNode with
  | none => some s
  | some _ => do
      let t ← fixUpToRoot s.toLinkedTree (← s.notFoundNode)
      return s.setTree t

/-- The locals of the loop in `search_node_for_removal`. -/
structure Search where
  tree : LinkedTree Bool
  foundNode : Option Nat
  previousNode : Option Nat
  equality : Bool

def isLessThan (gen : TreeGenerics G K) (k : K) (key : Option K) : Bool :=
  key.any fun key => gen.keyComparator.lessThan k key

def isEqual (gen : TreeGenerics G K) (k : K) (key : Option K) : Bool :=
  key.any fun key => gen.keyComparator.equal k key

/-- One turn of the loop in `search_node_for_removal`. -/
def searchStep (gen : TreeGenerics G K) (key : Nat → Option K) (k : K) (n : Search) :
    Option Search := do
  let found ← n.foundNode
  if isLessThan gen k (key found) then
    let (t, found) ← (if isChildBare n.tree (n.tree.leftChild found) then
      moveRedLeft n.tree found else some (n.tree, found) : Option _)
    return ⟨t, t.leftChild found, some found, false⟩
  else
    let (t, found) ← (if n.tree.isNodeRed (n.tree.leftChild found) then
      rotateRed true n.tree found else some (n.tree, found) : Option _)
    if isEqual gen k (key found) ∧ t.rightChild found = none then
      return ⟨t, some found, n.previousNode, true⟩
    else
      let (t, found) ← (if isChildBare t (t.rightChild found) then
        moveRedRight t found else some (t, found) : Option _)
      if isEqual gen k (key found) then
        return ⟨t, some found, n.previousNode, true⟩
      else
        return ⟨t, t.rightChild found, some found, false⟩

/-- `search_void_key_for_removal`: the tree, the node found and the result. -/
def searchVoidKey (s : TreeContainer G K Bool) (t : LinkedTree Bool) (root : Nat) :
    Option Search := do
  let (t, node) ← walkLeft t root
  if s.key node ≠ none then
    return ⟨t, none, s.firstNode, false⟩
  else
    return ⟨t, some node, none, false⟩

def searchNodeForRemoval (gen : TreeGenerics G K) (s : TreeContainer G K Bool)
    (aKey : Option K) : Option (TreeContainer G K Bool) :=
  match s.rootNode with
  | none => some s
  | some root => do
      let t := s.setIsRed root true
      let n ← (match aKey with
        | none => searchVoidKey s t root
        | some k => loopUntil (fun n => some (n.foundNode.isNone || n.equality))
            (searchStep gen s.key k) (s.created + 2) ⟨t, some root, none, false⟩)
      let t := if n.tree.isRed root ∧ n.foundNode ≠ some root then
        n.tree.setIsRed root false else n.tree
      return { s with
        toLinkedTree := t
        foundNode := n.foundNode
        notFoundNode := if n.foundNode = none then n.previousNode else s.notFoundNode }

def variant : TreeVariant G K Bool where
  newMark := true
  onNodeAdded := onNodeAdded
  onRootNodeRemoved := RedBlackTree.onRootNodeRemoved
  onNodeRemoved := onNodeRemoved
  searchNodeForRemoval := searchNodeForRemoval
  successorForRemoval := successorForRemoval
  onNodeForRemovalNotFound := onNodeForRemovalNotFound

end

end LeftLeaningTree

/-! ### Colors and black nodes -/

namespace Tree

/-- A red-black tree whose red nodes are left children. -/
def Leaning : Nat → Tree Bool → Prop
  | n, nil => n = 0
  | n, node l _ true r => l.isRed = false ∧ r.isRed = false ∧ l.Leaning n ∧ r.Leaning n
  | n, node l _ false r => ∃ k, n = k + 1 ∧ l.Leaning k ∧ r.isRed = false ∧ r.Leaning k

/-- How far a subtree is from one that may be put anywhere: a red root counts,
and so does a red left child of it. -/
def excess : Tree Bool → Nat
  | node l _ true _ => if l.isRed then 2 else 1
  | _ => 0

/-- Leaning but for a red left child of a red root. -/
def Near : Nat → Tree Bool → Prop
  | n, node l _ true r => l.Leaning n ∧ r.isRed = false ∧ r.Leaning n
  | n, T => T.Leaning n

def IsLeaning (T : Tree Bool) : Prop := T.isRed = false ∧ ∃ n, T.Leaning n

/-- No right child is red. -/
def NoRedRight : Tree Bool → Prop
  | nil => True
  | node l _ _ r => r.isRed = false ∧ l.NoRedRight ∧ r.NoRedRight

/-- A red right child goes on top. -/
def lean : Tree Bool → Tree Bool
  | node l i m (node c x true d) => node (node l i true c) x m d
  | T => T

/-- Of two red nodes in a row on the left, the upper one goes on top. -/
def split : Tree Bool → Tree Bool
  | node (node (node a z true b) x true d) i m r =>
      node (node a z true b) x m (node d i true r)
  | T => T

/-- Two red children become black. -/
def flip : Tree Bool → Tree Bool
  | node (node a x true b) i m (node c y true d) =>
      node (node a x false b) i (!m) (node c y false d)
  | T => T

/-- The left child of the root. -/
def left : Tree Bool → Tree Bool
  | nil => nil
  | node l _ _ _ => l

end Tree

namespace Path

/-- `fix_up` puts a tree in order that has `n` black nodes on every path and an
excess of at most `c` in this place. -/
def Accepts : Path Bool → Nat → Nat → Prop
  | root, _, _ => True
  | child _ _ true sib up, c, n =>
      c ≤ 1 ∧ sib.isRed = false ∧ sib.Leaning n ∧ up.Accepts (c + 1) n
  | child true _ false sib up, c, n =>
      sib.Leaning n ∧ up.Accepts (if sib.isRed then min c 1 else c - 1) (n + 1)
  | child false _ false sib up, c, n =>
      c ≤ 1 ∧ sib.Leaning n ∧ up.Accepts (if sib.isRed then c else 0) (n + 1)

end Path

namespace Tree

variable {T l r : Tree Bool} {i n : Nat}

theorem lean_of_black {m : Bool} (h : r.isRed = false) :
    (node l i m r).lean = node l i m r := by
  rcases r with _ | ⟨c, x, _ | _, d⟩
  · rfl
  · rfl
  · cases h

theorem split_of_black {m : Bool} (h : ¬ (l.isRed = true ∧ l.left.isRed = true)) :
    (node l i m r).split = node l i m r := by
  rcases l with _ | ⟨_ | ⟨a, z, _ | _, b⟩, x, _ | _, d⟩
  all_goals first | rfl | exact absurd ⟨rfl, rfl⟩ h

theorem flip_of_black {m : Bool} (h : ¬ (l.isRed = true ∧ r.isRed = true)) :
    (node l i m r).flip = node l i m r := by
  rcases l with _ | ⟨a, x, _ | _, b⟩ <;> rcases r with _ | ⟨c, y, _ | _, d⟩
  all_goals first | rfl | exact absurd ⟨rfl, rfl⟩ h

theorem Leaning.redBlack (h : T.Leaning n) : T.RedBlack n := by
  induction T generalizing n with
  | nil => exact h
  | node l i m r ihl ihr =>
      cases m with
      | true => exact ⟨h.1, h.2.1, ihl h.2.2.1, ihr h.2.2.2⟩
      | false =>
          obtain ⟨k, rfl, hl, -, hr⟩ := h
          exact ⟨k, rfl, ihl hl, ihr hr⟩

theorem Leaning.noRedRight (h : T.Leaning n) : T.NoRedRight := by
  induction T generalizing n with
  | nil => trivial
  | node l i m r ihl ihr =>
      cases m with
      | true => exact ⟨h.2.1, ihl h.2.2.1, ihr h.2.2.2⟩
      | false =>
          obtain ⟨k, rfl, hl, hred, hr⟩ := h
          exact ⟨hred, ihl hl, ihr hr⟩

theorem leaning_black : (node l i false r).Leaning (n + 1) ↔
    l.Leaning n ∧ r.isRed = false ∧ r.Leaning n := by
  constructor
  · rintro ⟨k, hk, h⟩
    obtain rfl := Nat.succ.inj hk
    exact h
  · intro h
    exact ⟨n, rfl, h⟩

theorem excess_le_one (h : T.Leaning n) : T.excess ≤ 1 := by
  cases T with
  | nil => exact Nat.zero_le _
  | node l i m r =>
      cases m with
      | true =>
          rw [excess, h.1]
          exact Nat.le_refl 1
      | false => exact Nat.zero_le _

theorem Leaning.near (h : T.Leaning n) : T.Near n := by
  cases T with
  | nil => exact h
  | node l i m r =>
      cases m with
      | true => exact ⟨h.2.2.1, h.2.1, h.2.2.2⟩
      | false => exact h

theorem Near.leaning (h : T.Near n) (hexcess : T.excess ≤ 1) : T.Leaning n := by
  cases T with
  | nil => exact h
  | node l i m r =>
      cases m with
      | true =>
          refine ⟨?_, h.2.1, h.1, h.2.2⟩
          cases hl : l.isRed with
          | true =>
              rw [excess, if_pos hl] at hexcess
              omega
          | false => rfl
      | false => exact h

/-- Painting the root black takes the excess away. -/
theorem Near.blacken {m : Bool} (h : (node l i m r).Near n) :
    ∃ k, (node l i false r).Leaning k := by
  cases m with
  | true => exact ⟨n + 1, leaning_black.mpr h⟩
  | false => exact ⟨n, h⟩

end Tree

namespace Path

variable {p up : Path Bool} {sib : Tree Bool} {s m : Bool} {i c c' n : Nat}

theorem Accepts.mono (h : p.Accepts c n) (hle : c' ≤ c) : p.Accepts c' n := by
  induction p generalizing c c' n with
  | root => trivial
  | child s i m sib up ih =>
      cases m with
      | true => exact ⟨Nat.le_trans hle h.1, h.2.1, h.2.2.1, ih h.2.2.2 (Nat.succ_le_succ hle)⟩
      | false =>
          cases s with
          | true =>
              refine ⟨h.1, ih h.2 ?_⟩
              split <;> omega
          | false =>
              refine ⟨Nat.le_trans hle h.1, h.2.1, ih h.2.2 ?_⟩
              split <;> omega

/-- What a path accepts depends on the path above only through what that
accepts. -/
theorem Accepts.congr {up' : Path Bool} (h : (child s i m sib up).Accepts c n)
    (hup : ∀ c n, up.Accepts c n → up'.Accepts c n) :
    (child s i m sib up').Accepts c n := by
  cases m with
  | true => exact ⟨h.1, h.2.1, h.2.2.1, hup _ _ h.2.2.2⟩
  | false =>
      cases s with
      | true => exact ⟨h.1, hup _ _ h.2⟩
      | false => exact ⟨h.1, h.2.1, hup _ _ h.2.2⟩

/-- A subtree of the given color with `n` black nodes on every path fits into a
leaning tree whose root is black. -/
def Leaning : Path Bool → Bool → Nat → Prop
  | root, red, _ => red = false
  | child _ _ true sib up, red, n =>
      red = false ∧ sib.isRed = false ∧ sib.Leaning n ∧ up.Leaning true n
  | child true _ false sib up, _, n =>
      sib.isRed = false ∧ sib.Leaning n ∧ up.Leaning false (n + 1)
  | child false _ false sib up, red, n =>
      red = false ∧ sib.Leaning n ∧ up.Leaning false (n + 1)

theorem leaning_plug {T : Tree Bool} (h : (p.plug T).IsLeaning) :
    ∃ n, T.Leaning n ∧ p.Leaning T.isRed n := by
  induction p generalizing T with
  | root =>
      obtain ⟨hred, n, hn⟩ := h
      exact ⟨n, hn, hred⟩
  | child s i m sib up ih =>
      obtain ⟨n, hjoin, hup⟩ := ih h
      rw [Tree.isRed_join] at hup
      cases m with
      | true =>
          cases s with
          | true => exact ⟨n, hjoin.2.2.1, hjoin.1, hjoin.2.1, hjoin.2.2.2, hup⟩
          | false => exact ⟨n, hjoin.2.2.2, hjoin.2.1, hjoin.1, hjoin.2.2.1, hup⟩
      | false =>
          cases s with
          | true =>
              obtain ⟨k, rfl, hT, hsib, hsibk⟩ := hjoin
              exact ⟨k, hT, hsib, hsibk, hup⟩
          | false =>
              obtain ⟨k, rfl, hsibk, hred, hT⟩ := hjoin
              exact ⟨k, hT, hred, hsibk, hup⟩

/-- A leaning tree accepts a red node where one is missing. -/
theorem Leaning.accepts {red : Bool} (h : p.Leaning red n) :
    p.Accepts (if red then 2 else 1) n := by
  induction p generalizing red n with
  | root => trivial
  | child s i m sib up ih =>
      cases m with
      | true =>
          obtain ⟨rfl, hred, hsib, hup⟩ := h
          exact ⟨Nat.le_refl 1, hred, hsib, ih hup⟩
      | false =>
          cases s with
          | true =>
              obtain ⟨hred, hsib, hup⟩ := h
              refine ⟨hsib, (ih hup).mono ?_⟩
              rw [hred]
              cases red <;> decide
          | false =>
              obtain ⟨rfl, hsib, hup⟩ := h
              refine ⟨Nat.le_refl 1, hsib, (ih hup).mono ?_⟩
              split <;> decide

end Path

/-- The subtree is put in order on the way up from its place. -/
def Path.Fits (p : Path Bool) (T : Tree Bool) : Prop :=
  ∃ n, T.Near n ∧ p.Accepts T.excess n

end Gobo
