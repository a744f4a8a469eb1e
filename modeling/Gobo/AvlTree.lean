/-
AVL trees (`DS_AVL_TREE_CONTAINER`).  The mark of a node is its balance; every
routine and its mirror image are one definition.
-/
import Gobo.TreeLaws

namespace Gobo

open Option LinkedTree

/-- The balance of a node whose child on the given side is the higher one. -/
def side (isLeft : Bool) : Int :=
  if isLeft then -1 else 1

namespace LinkedTree

def balance (t : LinkedTree Int) (i : Nat) : Int := t.mark i

def setBalance (t : LinkedTree Int) (i : Nat) (b : Int) : LinkedTree Int :=
  t.setMark i b

/-! ### Insertion -/

/-- The locals of the loop in `on_node_added`. -/
structure AvlInsertion where
  tree : LinkedTree Int
  child : Nat
  parent : Option Nat
  isLeftChild : Bool

def insertCase2 (t : LinkedTree Int) (aChild aParent : Nat) (aIsLeftChild : Bool) :
    Option (LinkedTree Int) := do
  let t ← (if aIsLeftChild then t.rotateRight aChild else t.rotateLeft aChild : Option _)
  return (t.setBalance aParent 0).setBalance aChild 0

/-- A double rotation of `a_child`. -/
def insertCase3 (isLeft : Bool) (t : LinkedTree Int) (aChild aParent : Nat) :
    Option (LinkedTree Int) := do
  let grandChild ← t.child (!isLeft) aChild
  let t ← (if isLeft then t.rotateLeftRight aChild else t.rotateRightLeft aChild :
    Option _)
  let t :=
    if t.balance grandChild = side isLeft then
      (t.setBalance aChild 0).setBalance aParent (-side isLeft)
    else if t.balance grandChild = -side isLeft then
      (t.setBalance aChild (side isLeft)).setBalance aParent 0
    else
      (t.setBalance aChild 0).setBalance aParent 0
  return t.setBalance grandChild 0

def insertCase3a (t : LinkedTree Int) (aChild aParent : Nat) :
    Option (LinkedTree Int) :=
  t.insertCase3 true aChild aParent

def insertCase3b (t : LinkedTree Int) (aChild aParent : Nat) :
    Option (LinkedTree Int) :=
  t.insertCase3 false aChild aParent

/-- One turn of the loop in `on_node_added`. -/
def avlAddedStep (n : AvlInsertion) : Option AvlInsertion := do
  let parent ← n.parent
  if n.tree.balance parent ≠ 0 then
    let t ← (if n.isLeftChild = decide (n.tree.balance parent = 1) then
        some (n.tree.setBalance parent 0)
      else if n.isLeftChild = decide (n.tree.balance n.child = -1) then
        n.tree.insertCase2 n.child parent n.isLeftChild
      else if n.isLeftChild then
        n.tree.insertCase3a n.child parent
      else
        n.tree.insertCase3b n.child parent : Option _)
    return { n with tree := t, parent := none }
  else
    -- The only case where the loop can not be left.
    let t := n.tree.setBalance parent (if n.isLeftChild then -1 else 1)
    return ⟨t, parent, t.parent parent, t.isLeftChildOf parent (t.parent parent)⟩

def avlOnNodeAdded (t : LinkedTree Int) (aNode : Nat) : Option (LinkedTree Int) := do
  let n ← loopUntil (fun n => some n.parent.isNone) avlAddedStep (t.created + 1)
    ⟨t, aNode, t.parent aNode, t.isLeftChildOf aNode (t.parent aNode)⟩
  return n.tree

/-! ### Removal -/

/-- The locals of the loop in `on_node_removed` that a turn hands to the next
one. -/
structure AvlRemoval where
  tree : LinkedTree Int
  parent : Option Nat
  isLeftChild : Bool

section

variable (t : LinkedTree Int)

def removeCase1 (aParent : Nat) (aIsLeftChild : Bool) : LinkedTree Int :=
  t.setBalance aParent (if aIsLeftChild then 1 else -1)

def removeCase2 (aChild : Nat) (aIsLeftChild : Bool) : Option (LinkedTree Int) :=
  if aIsLeftChild then do
    return (← t.rotateLeft aChild).setBalance aChild (-1)
  else do
    return (← t.rotateRight aChild).setBalance aChild 1

def removeCase3 (aChild aParent : Nat) (aIsLeftChild : Bool) :
    Option (LinkedTree Int) := do
  let t ← (if aIsLeftChild then t.rotateLeft aChild else t.rotateRight aChild : Option _)
  return (t.setBalance aParent 0).setBalance aChild 0

def removeCase4 (aChild : Nat) (aIsLeftChild : Bool) :
    Option (LinkedTree Int × Nat) :=
  if aIsLeftChild then do
    let grandChild ← t.leftChild aChild
    return (← t.rotateRightLeft aChild, grandChild)
  else do
    let grandChild ← t.rightChild aChild
    return (← t.rotateLeftRight aChild, grandChild)

def removeCase5 (aGrandChild aChild aParent : Nat)
    (aIsLeftChild : Bool) : LinkedTree Int :=
  if t.balance aGrandChild = 0 then
    (t.setBalance aParent 0).setBalance aChild 0
  else if aIsLeftChild = decide (t.balance aGrandChild = -1) then
    ((t.setBalance aParent 0).setBalance aGrandChild 0).setBalance aChild
      (if aIsLeftChild then 1 else -1)
  else
    ((t.setBalance aChild 0).setBalance aGrandChild 0).setBalance aParent
      (if aIsLeftChild then -1 else 1)

/-- Update the data for the next walk through the loop. -/
def avlNext (child : Nat) : AvlRemoval :=
  ⟨t, t.parent child, t.isLeftChildOf child (t.parent child)⟩

end

/-- One turn of the loop in `on_node_removed`. -/
def avlRemovedStep (n : AvlRemoval) : Option AvlRemoval := do
  let parent ← n.parent
  let balance := n.tree.balance parent
  let l_child := if n.isLeftChild then n.tree.rightChild parent
    else n.tree.leftChild parent
  if balance = 0 then
    return { n with
      tree := n.tree.removeCase1 parent n.isLeftChild
      parent := none }
  else if n.isLeftChild = decide (balance = 1) ∧
      (l_child.any fun child => n.tree.balance child = 0) = true then
    let child ← l_child
    return { n with tree := ← n.tree.removeCase2 child n.isLeftChild, parent := none }
  else if n.isLeftChild = decide (balance = -1) then
    return (n.tree.setBalance parent 0).avlNext parent
  else
    let child ← l_child
    if n.isLeftChild = decide (n.tree.balance child = 1) then
      return (← n.tree.removeCase3 child parent n.isLeftChild).avlNext child
    else
      let (t, grandChild) ← n.tree.removeCase4 child n.isLeftChild
      return (t.removeCase5 grandChild child parent n.isLeftChild).avlNext grandChild

def avlOnNodeRemoved (t : LinkedTree Int) (_aOldNode aNode : Nat) (aWasLeftChild : Bool) :
    Option (LinkedTree Int) := do
  let n ← loopUntil (fun n => some n.parent.isNone) avlRemovedStep (t.created + 1)
    ⟨t, some aNode, aWasLeftChild⟩
  return n.tree

end LinkedTree

/-! ### The balance of a tree -/

namespace Tree

/-- Every balance is the height of the right child less the height of the left
child, and at most one in absolute value. -/
def Avl : Tree Int → Prop
  | nil => True
  | node l _ b r => l.Avl ∧ r.Avl ∧ b = (r.height : Int) - l.height ∧ -1 ≤ b ∧ b ≤ 1

variable {c o : Tree Int} {s : Bool} {i : Nat} {b : Int}

theorem avl_join : (join s c i b o).Avl ↔ c.Avl ∧ o.Avl ∧
    side s * b = (c.height : Int) - o.height ∧ -1 ≤ b ∧ b ≤ 1 := by
  cases s
  · simp only [join_false, Avl, side, Bool.false_eq_true, if_false, Int.one_mul]
    tauto
  · simp only [join_true, Avl, side, if_true]
    refine and_congr_right fun _ => and_congr_right fun _ => and_congr_left fun _ => ?_
    omega

end Tree

namespace Path

/-- With a subtree of height `h` filled in, all balances above are right. -/
def Avl : Path Int → Nat → Prop
  | root, _ => True
  | child s _ b sib up, h => sib.Avl ∧ side s * b = (h : Int) - sib.height ∧
      -1 ≤ b ∧ b ≤ 1 ∧ up.Avl (max h sib.height + 1)

theorem avl_plug {p : Path Int} {T : Tree Int} :
    (p.plug T).Avl ↔ T.Avl ∧ p.Avl T.height := by
  induction p generalizing T with
  | root => exact (and_iff_left trivial).symm
  | child s i b sib up ih =>
      rw [plug_child, ih, Tree.avl_join, Tree.height_join, Avl]
      tauto

end Path

namespace LinkedTree

variable {t : LinkedTree Int} {p : Path Int} {a b c d : Tree Int} {s : Bool}
  {x q y : Nat} {mx mq my : Int}

/-! ### The cases -/

theorem exists_insertCase2 (h : t.Holds (p.plug (.join s (.join s a x mx b) q mq c))) :
    ∃ t', t.insertCase2 x q s = some t' ∧
      t.Rearranges (p.plug (.join s (.join s a x mx b) q mq c)) t'
        (p.plug (.join s a x 0 (.join s b q 0 c))) := by
  obtain ⟨t', hrun, hre⟩ := exists_rotate h
  refine ⟨_, ?_, (hre.setMark_other 0).setMark 0⟩
  exact bind_of_some (by cases s <;> exact hrun) rfl

theorem exists_insertCase3 (h : t.Holds (p.plug (.join s (.join s a x mx
      (.join s b y my c)) q mq d))) :
    ∃ t' bx bq, t.insertCase3 s x q = some t' ∧
      t.Rearranges (p.plug (.join s (.join s a x mx (.join s b y my c)) q mq d)) t'
        (p.plug (.join s (.join s a x bx b) y 0 (.join s c q bq d))) ∧
      (my = side s ∧ bx = 0 ∧ bq = -side s ∨ my = -side s ∧ bx = side s ∧ bq = 0 ∨
        my ≠ side s ∧ my ≠ -side s ∧ bx = 0 ∧ bq = 0) := by
  obtain ⟨t', hrun, hre⟩ := exists_rotateTwice h
  have hchild : t.child (!s) x = some y := by
    rw [Holds.child_join_not (p := .child s q mq d p) h, Tree.root_join]
  have hmark : t'.balance y = my := hre.holds.mark_join
  have hbody : ∀ u : LinkedTree Int,
      (if t'.balance y = side s then (t'.setBalance x 0).setBalance q (-side s)
        else if t'.balance y = -side s then (t'.setBalance x (side s)).setBalance q 0
        else (t'.setBalance x 0).setBalance q 0) = u →
      t.insertCase3 s x q = some (u.setBalance y 0) := by
    rintro u rfl
    exact bind_of_some hchild (bind_of_some (by cases s <;> exact hrun) rfl)
  rw [hmark] at hbody
  by_cases hside : my = side s
  · refine ⟨_, 0, -side s, hbody _ (if_pos hside), ?_, Or.inl ⟨hside, rfl, rfl⟩⟩
    exact ((hre.setMark_child 0).setMark_other (-side s)).setMark 0
  by_cases hother : my = -side s
  · refine ⟨_, side s, 0, hbody _ ((if_neg hside).trans (if_pos hother)), ?_,
      Or.inr (Or.inl ⟨hother, rfl, rfl⟩)⟩
    exact ((hre.setMark_child (side s)).setMark_other 0).setMark 0
  · refine ⟨_, 0, 0, hbody _ ((if_neg hside).trans (if_neg hother)), ?_,
      Or.inr (Or.inr ⟨hside, hother, rfl, rfl⟩)⟩
    exact ((hre.setMark_child 0).setMark_other 0).setMark 0

theorem exists_removeCase2
    (h : t.Holds (p.plug (.join (!s) (.join (!s) a x mx b) q mq c))) :
    ∃ t', t.removeCase2 x s = some t' ∧
      t.Rearranges (p.plug (.join (!s) (.join (!s) a x mx b) q mq c)) t'
        (p.plug (.join (!s) a x (side s) (.join (!s) b q mq c))) := by
  obtain ⟨t', hrun, hre⟩ := exists_rotate h
  refine ⟨_, ?_, hre.setMark (side s)⟩
  cases s with
  | true => exact bind_of_some hrun rfl
  | false => exact bind_of_some hrun rfl

theorem exists_removeCase3
    (h : t.Holds (p.plug (.join (!s) (.join (!s) a x mx b) q mq c))) :
    ∃ t', t.removeCase3 x q s = some t' ∧
      t.Rearranges (p.plug (.join (!s) (.join (!s) a x mx b) q mq c)) t'
        (p.plug (.join (!s) a x 0 (.join (!s) b q 0 c))) := by
  obtain ⟨t', hrun, hre⟩ := exists_rotate h
  refine ⟨_, ?_, (hre.setMark_other 0).setMark 0⟩
  exact bind_of_some (by cases s <;> exact hrun) rfl

theorem exists_removeCase4 (h : t.Holds (p.plug (.join (!s) (.join (!s) a x mx
      (.join (!s) b y my c)) q mq d))) :
    ∃ t', t.removeCase4 x s = some (t', y) ∧
      t.Rearranges (p.plug (.join (!s) (.join (!s) a x mx
        (.join (!s) b y my c)) q mq d)) t'
        (p.plug (.join (!s) (.join (!s) a x mx b) y my (.join (!s) c q mq d))) := by
  obtain ⟨t', hrun, hre⟩ := exists_rotateTwice h
  have hchild : t.child (!!s) x = some y := by
    rw [Holds.child_join_not (p := .child (!s) q mq d p) h, Tree.root_join]
  refine ⟨t', ?_, hre⟩
  cases s with
  | true => exact bind_eq_some_iff.mpr ⟨y, hchild,
      bind_eq_some_iff.mpr ⟨t', hrun, rfl⟩⟩
  | false => exact bind_eq_some_iff.mpr ⟨y, hchild,
      bind_eq_some_iff.mpr ⟨t', hrun, rfl⟩⟩

theorem exists_removeCase5 {t₀ : LinkedTree Int} {T₀ : Tree Int}
    (h : t₀.Rearranges T₀ t
      (p.plug (.join (!s) (.join (!s) a x mx b) y my (.join (!s) c q mq d))))
    (hy : -1 ≤ my ∧ my ≤ 1) :
    ∃ bx bq, t₀.Rearranges T₀ (t.removeCase5 y x q s)
        (p.plug (.join (!s) (.join (!s) a x bx b) y 0 (.join (!s) c q bq d))) ∧
      (my = 0 ∧ bx = 0 ∧ bq = 0 ∨ my = side s ∧ bx = -side s ∧ bq = 0 ∨
        my = -side s ∧ bx = 0 ∧ bq = side s) := by
  have hmark : t.balance y = my := h.holds.mark_join
  rw [removeCase5, hmark]
  by_cases hzero : my = 0
  · subst hzero
    rw [if_pos rfl]
    exact ⟨0, 0, (h.setMark_other 0).setMark_child 0, Or.inl ⟨rfl, rfl, rfl⟩⟩
  rw [if_neg hzero]
  by_cases hside : my = side s
  · rw [if_pos (by rw [hside]; cases s <;> rfl)]
    refine ⟨-side s, 0, ?_, Or.inr (Or.inl ⟨hside, rfl, rfl⟩)⟩
    have hre := ((h.setMark_other 0).setMark 0).setMark_child (-side s)
    cases s <;> exact hre
  · have hother : my = -side s := by
      cases s
      · simp only [side, Bool.false_eq_true, if_false] at hside ⊢
        omega
      · simp only [side, if_true] at hside ⊢
        omega
    rw [if_neg (by rw [hother]; cases s <;> decide)]
    refine ⟨0, side s, ?_, Or.inr (Or.inr ⟨hother, rfl, rfl⟩)⟩
    exact ((h.setMark_child 0).setMark 0).setMark_other (side s)

/-! ### The loops -/

theorem side_eq (s : Bool) : s = true ∧ side s = -1 ∨ s = false ∧ side s = 1 := by
  cases s
  · exact Or.inr ⟨rfl, rfl⟩
  · exact Or.inl ⟨rfl, rfl⟩

/-- The Boolean equalities of the loops compare a balance with a side. -/
theorem eq_decide_neg_one {b : Int} (s : Bool) (hb : b ≠ 0) (h₁ : -1 ≤ b) (h₂ : b ≤ 1) :
    s = decide (b = -1) ↔ b = side s := by
  cases s
  · rw [eq_comm, decide_eq_false_iff_not, show side false = 1 from rfl]
    constructor <;> omega
  · simp [side]

theorem eq_decide_one {b : Int} (s : Bool) (hb : b ≠ 0) (h₁ : -1 ≤ b) (h₂ : b ≤ 1) :
    s = decide (b = 1) ↔ b = -side s := by
  cases s
  · rw [eq_comm, decide_eq_false_iff_not, show side false = 1 from rfl]
    constructor <;> omega
  · simp [side]

theorem eq_neg_side {b : Int} {s : Bool} (hb : b ≠ 0) (h₁ : -1 ≤ b) (h₂ : b ≤ 1)
    (hs : b ≠ side s) : b = -side s := by
  rcases side_eq s with ⟨-, heq⟩ | ⟨-, heq⟩ <;> omega

theorem side_bounds (s : Bool) : -1 ≤ side s ∧ side s ≤ 1 := by
  cases s <;> decide

theorem side_mul_self (s : Bool) : side s * side s = 1 := by
  cases s <;> rfl

theorem side_mul_neg (s : Bool) : side s * -side s = -1 := by
  cases s <;> rfl

theorem side_not (s : Bool) : side (!s) = -side s := by
  cases s <;> rfl

/-- The cases after which the loop of `on_node_added` stops: the height of the
subtree is as it was before the insertion. -/
theorem exists_avlAddedStop {n i : Nat} {bn bi : Int} {up : Path Int} {o sib : Tree Int}
    (h : t.Holds (up.plug (.join s (.join s c n bn o) i bi sib)))
    (hU : (Tree.join s c n bn o).Avl) (hsib : sib.Avl)
    (hb : side s * bi = (max c.height o.height : Nat) - (sib.height : Int))
    (hb₁ : -1 ≤ bi) (hb₂ : bi ≤ 1) (hzero : bi ≠ 0)
    (hleaf : bn ≠ 0 ∨ c = .nil ∧ o = .nil) :
    ∃ t' U', (if s = decide (bi = 1) then some (t.setBalance i 0)
        else if s = decide (bn = -1) then t.insertCase2 n i s
        else if s then t.insertCase3a n i else t.insertCase3b n i) = some t' ∧
      t.Rearranges (up.plug (.join s (.join s c n bn o) i bi sib)) t' (up.plug U') ∧
      U'.Avl ∧ U'.height = max (max c.height o.height) sib.height + 1 := by
  obtain ⟨hc, ho, hbn, hbn₁, hbn₂⟩ := Tree.avl_join.mp hU
  by_cases hlight : s = decide (bi = 1)
  · rw [(eq_decide_one s hzero hb₁ hb₂).mp hlight, side_mul_neg] at hb
    refine ⟨_, .join s (.join s c n bn o) i 0 sib, if_pos hlight,
      (Rearranges.refl h).setMark 0, Tree.avl_join.mpr ⟨hU, hsib, ?_, by decide⟩, ?_⟩
    · rw [Tree.height_join]
      omega
    · rw [Tree.height_join, Tree.height_join]
      omega
  have hbi : bi = side s := by
    by_contra hne
    exact hlight ((eq_decide_one s hzero hb₁ hb₂).mpr (eq_neg_side hzero hb₁ hb₂ hne))
  rw [hbi, side_mul_self] at hb
  rw [if_neg hlight]
  have hbn' : bn ≠ 0 := by
    rcases hleaf with hbn' | ⟨rfl, rfl⟩
    · exact hbn'
    · simp only [Tree.height] at hb
      omega
  by_cases hsame : s = decide (bn = -1)
  · rw [(eq_decide_neg_one s hbn' hbn₁ hbn₂).mp hsame, side_mul_self] at hbn
    obtain ⟨t', hrun, hre⟩ := exists_insertCase2 h
    refine ⟨t', _, (if_pos hsame).trans hrun, hre, ?_, ?_⟩
    · refine Tree.avl_join.mpr ⟨hc, Tree.avl_join.mpr ⟨ho, hsib, ?_, by decide⟩, ?_,
        by decide⟩
      · omega
      · rw [Tree.height_join]
        omega
    · rw [Tree.height_join, Tree.height_join]
      omega
  · have hbn'' : bn = -side s := by
      apply eq_neg_side hbn' hbn₁ hbn₂
      exact fun heq => hsame ((eq_decide_neg_one s hbn' hbn₁ hbn₂).mpr heq)
    rw [hbn'', side_mul_neg] at hbn
    obtain ⟨y, hy⟩ : ∃ y, o.root = some y := by
      apply ne_none_iff_exists'.mp
      intro hnone
      rw [Tree.root_eq_none.mp hnone, Tree.height] at hbn
      omega
    obtain ⟨e, my, f, rfl⟩ := Tree.eq_join s hy
    obtain ⟨he, hf, hmy, hmy₁, hmy₂⟩ := Tree.avl_join.mp ho
    rw [Tree.height_join] at hbn hb
    obtain ⟨t', bx, bq, hrun, hre, hcases⟩ := exists_insertCase3 h
    refine ⟨t', _, (if_neg hsame).trans ?_, hre, ?_, ?_⟩
    · cases s <;> exact hrun
    · have hsums : -1 ≤ bx ∧ bx ≤ 1 ∧ -1 ≤ bq ∧ bq ≤ 1 ∧
          side s * bx = (c.height : Int) - e.height ∧
          side s * bq = (f.height : Int) - sib.height := by
        rcases hcases with ⟨hcase, rfl, rfl⟩ | ⟨hcase, rfl, rfl⟩ | ⟨hne, hne', rfl, rfl⟩
        · rw [hcase, side_mul_self] at hmy
          rw [side_mul_neg]
          omega
        · rw [hcase, side_mul_neg] at hmy
          rw [side_mul_self]
          omega
        · obtain rfl : my = 0 := by
            by_contra hzero'
            exact hne' (eq_neg_side hzero' hmy₁ hmy₂ hne)
          omega
      refine Tree.avl_join.mpr ⟨Tree.avl_join.mpr ⟨hc, he, hsums.2.2.2.2.1, hsums.1,
        hsums.2.1⟩, Tree.avl_join.mpr ⟨hf, hsib, hsums.2.2.2.2.2, hsums.2.2.1,
        hsums.2.2.2.1⟩, ?_, by decide⟩
      rw [Tree.height_join, Tree.height_join]
      omega
    · rw [Tree.height_join, Tree.height_join, Tree.height_join, Tree.height_join]
      omega

/-- The loop of `on_node_added`.  The subtree `U` has become higher by one; its
balance is not zero, unless it is the new leaf. -/
theorem exists_avlAddedLoop {U : Tree Int} {n : Nat} (h : t.Holds (p.plug U))
    (hroot : U.root = some n) (hU : U.Avl) (hp : p.Avl (U.height - 1))
    (hn : t.balance n ≠ 0 ∨ U = .node .nil n 0 .nil) {fuel : Nat}
    (hfuel : p.depth < fuel) :
    ∃ k T', loopUntil (fun k => some k.parent.isNone) avlAddedStep fuel
        ⟨t, n, p.parent, p.isLeft⟩ = some k ∧
      t.Rearranges (p.plug U) k.tree T' ∧ T'.Avl := by
  induction p generalizing t U n fuel with
  | root =>
      obtain ⟨fuel, rfl⟩ : ∃ k, fuel = k + 1 := ⟨fuel - 1, by omega⟩
      exact ⟨_, _, loopUntil_of_stop rfl, Rearranges.refl h, hU⟩
  | child s i b sib up ih =>
      obtain ⟨fuel, rfl⟩ : ∃ k, fuel = k + 2 := by
        rw [Path.depth] at hfuel
        exact ⟨fuel - 2, by omega⟩
      obtain ⟨hsib, hb, hb₁, hb₂, hup⟩ := hp
      obtain ⟨c, bn, o, rfl⟩ := Tree.eq_join s hroot
      have hbalance : t.balance i = b := Holds.mark_join h
      have hbalance' : t.balance n = bn := Holds.mark_join (p := .child s i b sib up) h
      have hleaf : bn ≠ 0 ∨ c = .nil ∧ o = .nil := by
        rw [hbalance'] at hn
        refine hn.imp_right fun hnode => ?_
        cases s
        · cases hnode
          exact ⟨rfl, rfl⟩
        · cases hnode
          exact ⟨rfl, rfl⟩
      obtain ⟨hc, ho, hbn, hbn₁, hbn₂⟩ := Tree.avl_join.mp hU
      rw [Tree.height_join, Nat.add_sub_cancel] at hb hup
      have hs := side_eq s
      have h' : t.Holds (up.plug (.join s (.join s c n bn o) i b sib)) := h
      by_cases hzero : b = 0
      · -- The parent becomes higher as well.
        let t₁ := t.setBalance i (side s)
        have hre : t.Rearranges (up.plug (.join s (.join s c n bn o) i b sib)) t₁
            (up.plug (.join s (.join s c n bn o) i (side s) sib)) :=
          (Rearranges.refl h').setMark (side s)
        have hsum : max (max c.height o.height) sib.height + 1 =
            (Tree.join s (.join s c n bn o) i (side s) sib).height - 1 := by
          rw [Tree.height_join, Tree.height_join]
          subst hzero
          omega
        obtain ⟨k, T', hrun, hre', hT'⟩ := @ih t₁
          (.join s (.join s c n bn o) i (side s) sib) i hre.holds
          (Tree.root_join _ _ _ _ _)
          (by
            refine Tree.avl_join.mpr ⟨hU, hsib, ?_, ?_⟩
            · rw [Tree.height_join]
              subst hzero
              rcases hs with ⟨-, hs⟩ | ⟨-, hs⟩ <;> rw [hs] at hb ⊢ <;> omega
            · omega)
          (hsum ▸ hup)
          (Or.inl (by
            rw [balance, Holds.mark_join hre.holds]
            omega))
          (fuel + 1) (by simp only [Path.depth] at hfuel; omega)
        refine ⟨k, T', (loopUntil_of_go ?_ ?_).trans hrun, hre.trans hre', hT'⟩
        · rfl
        · unfold avlAddedStep
          refine bind_of_some rfl ((if_neg ?_).trans ?_)
          · exact not_not_intro (hbalance.trans hzero)
          · have hparent : t₁.parent i = up.parent :=
              hre.holds.parent_eq (Tree.root_join _ _ _ _ _)
            have hside := hre.holds.isLeftChildOf (Tree.root_join _ _ _ _ _)
            show some (AvlInsertion.mk t₁ i (t₁.parent i)
              (t₁.isLeftChildOf i (t₁.parent i))) = _
            rw [hparent, hside]
      · -- The height becomes what it was before, and the loop stops.
        obtain ⟨t', U', hrun, hre, hU', hheight⟩ :=
          exists_avlAddedStop h' hU hsib hb hb₁ hb₂ hzero hleaf
        refine ⟨⟨t', n, none, s⟩, up.plug U', (loopUntil_of_go ?_ ?_).trans
          (loopUntil_of_stop ?_), hre, Path.avl_plug.mpr ⟨hU', hheight ▸ hup⟩⟩
        · rfl
        · unfold avlAddedStep
          refine bind_of_some rfl ((if_pos ?_).trans (bind_of_some (a := t') ?_ rfl))
          · rwa [hbalance]
          · rw [hbalance, hbalance']
            exact hrun
        · rfl

theorem Holds.avlNext {U : Tree Int} {n : Nat} (h : t.Holds (p.plug U))
    (hn : U.root = some n) : t.avlNext n = ⟨t, p.parent, p.isLeft⟩ := by
  rw [LinkedTree.avlNext, h.parent_eq hn, h.isLeftChildOf hn]

/-- One turn of the loop of `on_node_removed` at the root `i` of the subtree `T`: the subtree
becomes as high as it was before the removal and the loop stops, or it is lower by one. -/
def RemovedTurn (t : LinkedTree Int) (s : Bool) (i : Nat) (T : Tree Int) (up : Path Int)
    (height : Nat) : Prop :=
  ∃ t' U', t.Rearranges (up.plug T) t' (up.plug U') ∧ U'.Avl ∧
    (avlRemovedStep ⟨t, some i, s⟩ = some ⟨t', none, s⟩ ∧ U'.height = height + 1 ∨
      avlRemovedStep ⟨t, some i, s⟩ = some ⟨t', up.parent, up.isLeft⟩ ∧ U'.height = height)

section RemovedTurn

variable {U sib e f o : Tree Int} {i n : Nat} {bi bn : Int} {up : Path Int} {u : AvlRemoval}

theorem avlRemovedStep_of_ne_zero (h : t.Holds (up.plug (.join s U i bi sib))) (hzero : bi ≠ 0)
    (hu : (if s = decide (bi = 1) ∧
        (sib.root.any fun child => t.balance child = 0) = true then do
          let child ← sib.root
          return (⟨← t.removeCase2 child s, none, s⟩ : AvlRemoval)
      else if s = decide (bi = -1) then return (t.setBalance i 0).avlNext i
      else do
        let child ← sib.root
        if s = decide (t.balance child = 1) then
          return (← t.removeCase3 child i s).avlNext child
        else
          let (t, grandChild) ← t.removeCase4 child s
          return (t.removeCase5 grandChild child i s).avlNext grandChild) = some u) :
    avlRemovedStep ⟨t, some i, s⟩ = some u := by
  have hbalance : t.balance i = bi := h.mark_join
  have hchild : (if s then t.rightChild i else t.leftChild i) = sib.root := by
    rw [← h.child_join_not]
    cases s <;> rfl
  unfold avlRemovedStep
  refine bind_of_some rfl ((if_neg ?_).trans ?_)
  · rwa [hbalance]
  · simp only [hbalance, hchild]
    exact hu

theorem removedTurn_even (h : t.Holds (up.plug (.join s U i 0 sib))) (hU : U.Avl)
    (hsib : sib.Avl) (hb : U.height + 1 = sib.height) :
    RemovedTurn t s i (.join s U i 0 sib) up (max (U.height + 1) sib.height) := by
  have hbalance : t.balance i = 0 := h.mark_join
  refine ⟨_, .join s U i (-side s) sib, (Rearranges.refl h).setMark (-side s),
    Tree.avl_join.mpr ⟨hU, hsib, ?_, ?_⟩, Or.inl ⟨?_, ?_⟩⟩
  · rw [side_mul_neg]
    omega
  · have hbounds := side_bounds s
    omega
  · unfold avlRemovedStep
    refine bind_of_some rfl ((if_pos hbalance).trans ?_)
    cases s <;> rfl
  · rw [Tree.height_join]
    omega

/-- The other child is not higher. -/
theorem removedTurn_light (h : t.Holds (up.plug (.join s U i (side s) sib))) (hU : U.Avl)
    (hsib : sib.Avl) (hb : U.height = sib.height) :
    RemovedTurn t s i (.join s U i (side s) sib) up (max (U.height + 1) sib.height) := by
  have hre := (Rearranges.refl h).setMark 0
  refine ⟨_, .join s U i 0 sib, hre, Tree.avl_join.mpr ⟨hU, hsib, by omega, by decide⟩,
    Or.inr ⟨avlRemovedStep_of_ne_zero h (by cases s <;> decide) ?_, ?_⟩⟩
  · rw [if_neg fun hboth => absurd hboth.1 (by cases s <;> decide),
      if_pos (by cases s <;> decide)]
    exact congrArg some (hre.holds.avlNext (Tree.root_join _ _ _ _ _))
  · rw [Tree.height_join]
    omega

/-- The other child is higher, and its balance is not zero. -/
theorem avlRemovedStep_of_heavy
    (h : t.Holds (up.plug (.join (!s) (.join (!s) c n bn o) i (side (!s)) U))) (hbn : bn ≠ 0)
    (hu : (do
        if s = decide (bn = 1) then
          return (← t.removeCase3 n i s).avlNext n
        else
          let (t, grandChild) ← t.removeCase4 n s
          return (t.removeCase5 grandChild n i s).avlNext grandChild) = some u) :
    avlRemovedStep ⟨t, some i, s⟩ = some u := by
  have hbalance : t.balance n = bn := Holds.mark_join (p := .child (!s) i (side (!s)) U up) h
  rw [Tree.join_not] at h
  refine avlRemovedStep_of_ne_zero h (by cases s <;> decide) ?_
  rw [Tree.root_join, if_neg, if_neg (by cases s <;> decide)]
  · simp only [some_bind, hbalance]
    exact hu
  · rw [any_some, hbalance, decide_eq_true_eq]
    exact fun hboth => hbn hboth.2

theorem removedTurn_evenChild
    (h : t.Holds (up.plug (.join (!s) (.join (!s) c n 0 o) i (side (!s)) U)))
    (hsib : (Tree.join (!s) c n 0 o).Avl) (hU : U.Avl)
    (hb : (Tree.join (!s) c n 0 o).height = U.height + 2) :
    RemovedTurn t s i (.join (!s) (.join (!s) c n 0 o) i (side (!s)) U) up
      (Tree.join (!s) c n 0 o).height := by
  obtain ⟨hc, ho, hbn, -⟩ := Tree.avl_join.mp hsib
  have hbalance : t.balance n = 0 := Holds.mark_join (p := .child (!s) i (side (!s)) U up) h
  have hside : side s = -side (!s) := by rw [side_not, Int.neg_neg]
  obtain ⟨t', hrun, hre⟩ := exists_removeCase2 h
  rw [Tree.height_join] at hb ⊢
  refine ⟨t', _, hre, Tree.avl_join.mpr ⟨hc, Tree.avl_join.mpr ⟨ho, hU, ?_, side_bounds (!s)⟩,
    ?_, side_bounds s⟩, Or.inl ⟨?_, ?_⟩⟩
  · rw [side_mul_self]
    omega
  · rw [hside, side_mul_neg, Tree.height_join]
    omega
  · rw [Tree.join_not] at h
    refine avlRemovedStep_of_ne_zero h (by cases s <;> decide) ?_
    have hany : ((Tree.join (!s) c n 0 o).root.any fun child => t.balance child = 0) = true := by
      rw [Tree.root_join, any_some, hbalance]
      exact decide_eq_true rfl
    rw [if_pos ⟨by cases s <;> decide, hany⟩, Tree.root_join]
    exact bind_of_some rfl (bind_of_some hrun rfl)
  · rw [Tree.height_join, Tree.height_join]
    omega

/-- A single rotation. -/
theorem removedTurn_outer
    (h : t.Holds (up.plug (.join (!s) (.join (!s) c n (side (!s)) o) i (side (!s)) U)))
    (hsib : (Tree.join (!s) c n (side (!s)) o).Avl) (hU : U.Avl)
    (hb : (Tree.join (!s) c n (side (!s)) o).height = U.height + 2) :
    RemovedTurn t s i (.join (!s) (.join (!s) c n (side (!s)) o) i (side (!s)) U) up
      (Tree.join (!s) c n (side (!s)) o).height := by
  obtain ⟨hc, ho, hbn, -⟩ := Tree.avl_join.mp hsib
  rw [side_mul_self] at hbn
  obtain ⟨t', hrun, hre⟩ := exists_removeCase3 h
  rw [Tree.height_join] at hb ⊢
  refine ⟨t', _, hre, Tree.avl_join.mpr ⟨hc, Tree.avl_join.mpr ⟨ho, hU, ?_, by decide⟩,
    ?_, by decide⟩, Or.inr ⟨avlRemovedStep_of_heavy h (by cases s <;> decide) ?_, ?_⟩⟩
  · omega
  · rw [Tree.height_join]
    omega
  · refine (if_pos (by cases s <;> decide)).trans (bind_of_some hrun ?_)
    exact congrArg some (hre.holds.avlNext (Tree.root_join _ _ _ _ _))
  · rw [Tree.height_join, Tree.height_join]
    omega

/-- A double rotation. -/
theorem removedTurn_inner
    (h : t.Holds (up.plug (.join (!s) (.join (!s) c n (-side (!s))
      (.join (!s) e y my f)) i (side (!s)) U)))
    (hsib : (Tree.join (!s) c n (-side (!s)) (.join (!s) e y my f)).Avl) (hU : U.Avl)
    (hb : (Tree.join (!s) c n (-side (!s)) (.join (!s) e y my f)).height = U.height + 2) :
    RemovedTurn t s i (.join (!s) (.join (!s) c n (-side (!s)) (.join (!s) e y my f)) i
      (side (!s)) U) up (Tree.join (!s) c n (-side (!s)) (.join (!s) e y my f)).height := by
  obtain ⟨hc, ho, hbn, -⟩ := Tree.avl_join.mp hsib
  obtain ⟨he, hf, hmy, hmy₁, hmy₂⟩ := Tree.avl_join.mp ho
  rw [side_mul_neg, Tree.height_join] at hbn
  rw [Tree.height_join, Tree.height_join] at hb ⊢
  obtain ⟨t₁, hrun, hre₁⟩ := exists_removeCase4 h
  obtain ⟨bx, bq, hre, hcases⟩ := exists_removeCase5 hre₁ ⟨hmy₁, hmy₂⟩
  have hsums : -1 ≤ bx ∧ bx ≤ 1 ∧ -1 ≤ bq ∧ bq ≤ 1 ∧
      side (!s) * bx = (c.height : Int) - e.height ∧
      side (!s) * bq = (f.height : Int) - U.height := by
    have hside : side s = -side (!s) := by rw [side_not, Int.neg_neg]
    rw [hside, Int.neg_neg] at hcases
    rcases hcases with ⟨rfl, rfl, rfl⟩ | ⟨hcase, rfl, rfl⟩ | ⟨hcase, rfl, rfl⟩
    · omega
    · rw [hcase, side_mul_neg] at hmy
      rw [side_mul_self]
      omega
    · rw [hcase, side_mul_self] at hmy
      rw [side_mul_neg]
      omega
  refine ⟨_, _, hre, Tree.avl_join.mpr ⟨Tree.avl_join.mpr ⟨hc, he, hsums.2.2.2.2.1,
    hsums.1, hsums.2.1⟩, Tree.avl_join.mpr ⟨hf, hU, hsums.2.2.2.2.2, hsums.2.2.1,
    hsums.2.2.2.1⟩, ?_, by decide⟩,
    Or.inr ⟨avlRemovedStep_of_heavy h (by cases s <;> decide) ?_, ?_⟩⟩
  · rw [Tree.height_join, Tree.height_join]
    omega
  · refine (if_neg (by cases s <;> decide)).trans (bind_of_some hrun ?_)
    exact congrArg some (hre.holds.avlNext (Tree.root_join _ _ _ _ _))
  · rw [Tree.height_join, Tree.height_join, Tree.height_join]
    omega

/-- The other child is higher, so that it has a root, and where its inner child is the higher one,
so has this child. -/
theorem removedTurn_heavy (h : t.Holds (up.plug (.join s U i (-side s) sib))) (hU : U.Avl)
    (hsib : sib.Avl) (hb : sib.height = U.height + 2) :
    RemovedTurn t s i (.join s U i (-side s) sib) up sib.height := by
  obtain ⟨n, hn⟩ : ∃ n, sib.root = some n := by
    apply ne_none_iff_exists'.mp
    intro hnone
    rw [Tree.root_eq_none.mp hnone, Tree.height] at hb
    omega
  obtain ⟨c, bn, o, rfl⟩ := Tree.eq_join (!s) hn
  obtain ⟨-, -, hbn, hbn₁, hbn₂⟩ := Tree.avl_join.mp hsib
  rw [← Tree.join_not, ← side_not] at h ⊢
  by_cases hzero : bn = 0
  · subst hzero
    exact removedTurn_evenChild h hsib hU hb
  by_cases houter : bn = side (!s)
  · subst houter
    exact removedTurn_outer h hsib hU hb
  · obtain rfl : bn = -side (!s) := eq_neg_side hzero hbn₁ hbn₂ houter
    rw [side_mul_neg] at hbn
    obtain ⟨y, hy⟩ : ∃ y, o.root = some y := by
      apply ne_none_iff_exists'.mp
      intro hnone
      rw [Tree.root_eq_none.mp hnone, Tree.height] at hbn
      omega
    obtain ⟨e, my, f, rfl⟩ := Tree.eq_join (!s) hy
    exact removedTurn_inner h hsib hU hb

theorem removedTurn (h : t.Holds (up.plug (.join s U i bi sib))) (hU : U.Avl) (hsib : sib.Avl)
    (hb : side s * bi = (U.height + 1 : Nat) - (sib.height : Int)) (hb₁ : -1 ≤ bi)
    (hb₂ : bi ≤ 1) :
    RemovedTurn t s i (.join s U i bi sib) up (max (U.height + 1) sib.height) := by
  by_cases hzero : bi = 0
  · subst hzero
    exact removedTurn_even h hU hsib (by omega)
  by_cases hlight : bi = side s
  · subst hlight
    rw [side_mul_self] at hb
    exact removedTurn_light h hU hsib (by omega)
  · obtain rfl : bi = -side s := eq_neg_side hzero hb₁ hb₂ hlight
    rw [side_mul_neg] at hb
    rw [Nat.max_eq_right (by omega)]
    exact removedTurn_heavy h hU hsib (by omega)

end RemovedTurn

theorem exists_avlRemovedLoop {U : Tree Int} (h : t.Holds (p.plug U)) (hU : U.Avl)
    (hp : p.Avl (U.height + 1)) {fuel : Nat} (hfuel : p.depth < fuel) :
    ∃ k T', loopUntil (fun k => some k.parent.isNone) avlRemovedStep fuel
        ⟨t, p.parent, p.isLeft⟩ = some k ∧
      t.Rearranges (p.plug U) k.tree T' ∧ T'.Avl := by
  induction p generalizing t U fuel with
  | root =>
      obtain ⟨fuel, rfl⟩ : ∃ k, fuel = k + 1 := ⟨fuel - 1, by omega⟩
      exact ⟨_, _, loopUntil_of_stop rfl, Rearranges.refl h, hU⟩
  | child s i b sib up ih =>
      obtain ⟨fuel, rfl⟩ : ∃ k, fuel = k + 2 := by
        rw [Path.depth] at hfuel
        exact ⟨fuel - 2, by omega⟩
      obtain ⟨hsib, hb, hb₁, hb₂, hup⟩ := hp
      have h' : t.Holds (up.plug (.join s U i b sib)) := h
      obtain ⟨t', U', hre, hU', hturn⟩ := removedTurn h' hU hsib hb hb₁ hb₂
      rcases hturn with ⟨hrun, hheight⟩ | ⟨hrun, hheight⟩
      · refine ⟨_, _, (loopUntil_of_go ?_ hrun).trans (loopUntil_of_stop ?_), hre,
          Path.avl_plug.mpr ⟨hU', hheight ▸ hup⟩⟩
        · rfl
        · rfl
      · obtain ⟨k, T', hrun', hre', hT'⟩ := @ih t' U' hre.holds hU' (hheight ▸ hup)
          (fuel + 1) (by simp only [Path.depth] at hfuel; omega)
        refine ⟨k, T', (loopUntil_of_go ?_ hrun).trans hrun', hre.trans hre', hT'⟩
        rfl

end LinkedTree

/-- AVL trees are balanced. -/
def avlBalancing : Balancing Int where
  newMark := 0
  onNodeAdded := avlOnNodeAdded
  onRootNodeRemoved := some
  onNodeRemoved := avlOnNodeRemoved
  Balanced := Tree.Avl
  balanced_nil := trivial
  exists_added := by
    intro t p n hbalanced hholds
    obtain ⟨-, hp⟩ := Path.avl_plug.mp hbalanced
    obtain ⟨k, T', hrun, hre, hT'⟩ := exists_avlAddedLoop hholds rfl
      ⟨trivial, trivial, rfl, by decide⟩ hp (Or.inr rfl) hholds.depth_le
    refine ⟨k.tree, T', ?_, hre, hT'⟩
    rw [avlOnNodeAdded, hholds.parent_eq rfl, hholds.isLeftChildOf rfl]
    exact bind_of_some hrun rfl
  exists_removed := by
    intro t isLeft b i n m mn sib c up hbalanced hholds _
    obtain ⟨hjoin, hp⟩ := Path.avl_plug.mp hbalanced
    obtain ⟨hc, -⟩ := Tree.avl_join.mp hjoin
    rw [Tree.height_join, Tree.height, Nat.max_zero] at hp
    obtain ⟨k, T', hrun, hre, hT'⟩ := exists_avlRemovedLoop hholds hc hp
      hholds.depth_le
    exact ⟨k.tree, T', bind_of_some hrun rfl, hre, hT'⟩
  exists_rootRemoved := by
    intro t n mn c hbalanced _ hholds
    exact ⟨t, c, rfl, Rearranges.refl hholds, hbalanced.1⟩

end Gobo
