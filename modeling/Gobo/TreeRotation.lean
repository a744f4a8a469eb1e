/-
The rotations of `DS_BINARY_SEARCH_TREE_CONTAINER`.  A rotation and its mirror
image are one definition; `isLeft` is the side on which `a_node` is a child.
-/
import Gobo.LinkedTree

namespace Gobo

variable {M : Type}

namespace LinkedTree

/-- Whether `parent` is the left child of `grand_parent`. -/
def isLeftChildOf (t : LinkedTree M) (parent : Nat) (grandParent : Option Nat) : Bool :=
  grandParent.elim false fun g => t.leftChild g == some parent

/-- Make sure we have the correct `root_node`. -/
def correctRootNode (t : LinkedTree M) (parent aNode : Nat) : LinkedTree M :=
  if t.rootNode = some parent then { t with rootNode := some aNode } else t

def rotate (isLeft : Bool) (t : LinkedTree M) (aNode : Nat) :
    Option (LinkedTree M) := do
  let parent ← t.parent aNode
  let grandParent := t.parent parent
  let b := t.child (!isLeft) aNode
  let parentIsLeft := t.isLeftChildOf parent grandParent
  let t := t.setChildAbove parentIsLeft grandParent none
  let t := t.setChild isLeft parent none
  let t := t.setChild (!isLeft) aNode none
  -- Rebuild the tree.
  let t := t.setChildAbove parentIsLeft grandParent (some aNode)
  let t := t.setChild (!isLeft) aNode (some parent)
  let t := t.setChild isLeft parent b
  return t.correctRootNode parent aNode

def rotateRight (t : LinkedTree M) (aNode : Nat) : Option (LinkedTree M) :=
  t.rotate true aNode

def rotateLeft (t : LinkedTree M) (aNode : Nat) : Option (LinkedTree M) :=
  t.rotate false aNode

def rotateTwice (isLeft : Bool) (t : LinkedTree M) (aNode : Nat) :
    Option (LinkedTree M) := do
  let parent ← t.parent aNode
  let child ← t.child (!isLeft) aNode
  let grandParent := t.parent parent
  let b := t.leftChild child
  let c := t.rightChild child
  let parentIsLeft := t.isLeftChildOf parent grandParent
  let t := t.setChildAbove parentIsLeft grandParent none
  let t := t.setChild isLeft parent none
  let t := t.setChild (!isLeft) aNode none
  let t := t.setLeftChild child none
  let t := t.setRightChild child none
  -- Rebuild the tree.
  let t := t.setChildAbove parentIsLeft grandParent (some child)
  let t := t.setLeftChild child (some (if isLeft then aNode else parent))
  let t := t.setRightChild child (some (if isLeft then parent else aNode))
  let t := if isLeft then (t.setLeftChild parent c).setRightChild aNode b
    else (t.setRightChild parent b).setLeftChild aNode c
  return t.correctRootNode parent child

/-- `a_node` is the right child of its parent. -/
def rotateRightLeft (t : LinkedTree M) (aNode : Nat) : Option (LinkedTree M) :=
  t.rotateTwice false aNode

/-- `a_node` is the left child of its parent. -/
def rotateLeftRight (t : LinkedTree M) (aNode : Nat) : Option (LinkedTree M) :=
  t.rotateTwice true aNode

section

variable {t : LinkedTree M} {p : Path M} {a b c d : Tree M} {isLeft : Bool}
  {x q y : Nat} {mx mq my : M}

/-- The test for the left child finds the side of the path. -/
theorem Holds.isLeftChildOf {T : Tree M} (h : t.Holds (p.plug T)) {n : Nat}
    (hT : T.root = some n) : t.isLeftChildOf n p.parent = p.isLeft := by
  cases p with
  | root => rfl
  | child isLeft g m sib up =>
      have hlinks := links_join (show t.Holds (up.plug (.join isLeft T g m sib)) from h)
      have hnodup := h.nodup
      cases isLeft with
      | true => simp [isLeftChildOf, Path.parent, leftChild, hlinks,
          Links.withChild, Path.isLeft, hT]
      | false =>
          have hne : sib.root ≠ some n := by
            intro hsib
            rw [Path.ids_plug] at hnodup
            simp only [Path.before, List.nodup_append, List.mem_append] at hnodup
            exact hnodup.1.2.2 n (Or.inl (Or.inr (Tree.root_mem_ids hsib))) n
              (Tree.root_mem_ids hT) rfl
          simp [isLeftChildOf, Path.parent, leftChild, hlinks, Links.withChild,
            Path.isLeft, hne]

/-- Below the root there is no root. -/
theorem Holds.rootNode_ne {T : Tree M} (h : t.Holds (p.plug T)) {g n : Nat}
    (hparent : p.parent = some g) (hT : T.root = some n) : t.rootNode ≠ some n := by
  obtain ⟨j, hj, hroot⟩ := Path.root_plug_mem hparent T
  have hjn : j ≠ n := by
    rintro rfl
    have hnodup := h.nodup
    rw [Path.ids_plug] at hnodup
    have hmem := Tree.root_mem_ids hT
    simp only [List.nodup_append, List.mem_append] at hnodup hj
    rcases hj with hj | hj
    · exact hnodup.1.2.2 j hj j hmem rfl
    · exact hnodup.2.2 j (Or.inr hmem) j hj rfl
  rw [h.root, hroot]
  exact fun heq => hjn (Option.some.inj heq)

/-- The root after a rotation at `q`. -/
theorem Holds.correctRootNode {T T' : Tree M} {t' : LinkedTree M}
    (h : t.Holds (p.plug T)) (hq : T.root = some q) (hx : T'.root = some x)
    (hids : T'.ids = T.ids)
    (h' : Forest t'.links [p.plug T']) (hroot : t'.rootNode = t.rootNode)
    (hcreated : t'.created = t.created) :
    t.Rearranges (p.plug T) (t'.correctRootNode q x) (p.plug T') := by
  have hbelow : ∀ j ∈ (p.plug T').ids, j < t'.created := by
    intro j hj
    rw [hcreated]
    apply h.created
    rw [Path.mem_ids_plug] at hj ⊢
    rwa [hids] at hj
  have hids' := p.ids_plug_congr hids
  rw [LinkedTree.correctRootNode]
  cases hp : p with
  | root =>
      have hold : t'.rootNode = some q := by
        rw [hroot, h.root, hp, Path.plug_root, hq]
      rw [if_pos hold]
      exact ⟨hcreated, of_forest (t := { t' with rootNode := some x }) (hp ▸ h')
        hx.symm (hp ▸ hbelow), hids⟩
  | child s g m sib up =>
      have hparent : p.parent = some g := by rw [hp]; rfl
      have hold : t'.rootNode ≠ some q := by
        rw [hroot]
        exact h.rootNode_ne hparent hq
      rw [if_neg hold, ← hp]
      refine ⟨hcreated, of_forest h' ?_ hbelow, hids'⟩
      rw [hroot, h.root, Path.root_plug_of_parent hparent T T']

/-- A rotation moves `x` above its parent and keeps the in-order. -/
theorem exists_rotate
    (h : t.Holds (p.plug (.join isLeft (.join isLeft a x mx b) q mq c))) :
    ∃ t', t.rotate isLeft x = some t' ∧
      t.Rearranges (p.plug (.join isLeft (.join isLeft a x mx b) q mq c)) t'
        (p.plug (.join isLeft a x mx (.join isLeft b q mq c))) := by
  have hq := h.links_join
  have hx := Holds.links_join (p := Path.child isLeft q mq c p) h
  have hparent : t.parent x = some q := by
    rw [parent, hx]
    cases isLeft <;> rfl
  have hgrand : t.parent q = p.parent := by
    rw [parent, hq]
    cases isLeft <;> rfl
  have hb : t.child (!isLeft) x = b.root := by
    rw [child, hx, child_withChild_not]
    cases isLeft <;> rfl
  have hside := h.isLeftChildOf (Tree.root_join _ _ _ _ _)
  have h₁ := h.forest.detachPath
  have h₂ := h₁.detachRoot
  rw [← Tree.join_not isLeft b] at h₂
  have h₃ := h₂.detachRoot
  have h₄ := Forest.attachPath (p := p) (h₃.perm (show List.Perm _
    [.join (!isLeft) .nil x mx a, p.plug .nil, b, .join isLeft .nil q mq c] by
      classical grind))
  have h₅ := Forest.attach (h₄.perm (show List.Perm _
    [.join isLeft .nil q mq c, p.plug (.join (!isLeft) .nil x mx a), b] by
      classical grind))
  have h₆ := Forest.attach (p := Path.child (!isLeft) x mx a p) h₅.swap
  rw [Tree.root_join, Tree.root_join, Path.plug_child, Tree.join_not] at h₆
  refine ⟨_, ?_, h.correctRootNode (Tree.root_join _ _ _ _ _)
    (Tree.root_join _ _ _ _ _) ?_ h₆ ?_ ?_⟩
  · rw [rotate, hparent]
    simp only [Option.bind_eq_bind, Option.bind_some, hgrand, hb, hside]
    rfl
  · cases isLeft <;> simp
  · simp
  · simp

/-- The pieces that a double rotation takes a tree into, before it rebuilds
it. -/
theorem Holds.prepared (h : t.Holds (p.plug (.join isLeft (.join isLeft a x mx
      (.node b y my c)) q mq d))) :
    Forest (((((t.setChildAbove p.isLeft p.parent none).setChild isLeft q none).setChild
        (!isLeft) x none).setLeftChild y none).setRightChild y none).links
      [c, .node .nil y my .nil, b, .join isLeft a x mx .nil,
        .join isLeft .nil q mq d, p.plug .nil] := by
  have h₂ := h.forest.detachPath.detachRoot
  rw [← Tree.join_not isLeft (.node b y my c)] at h₂
  have h₃ := h₂.detachRoot
  rw [Tree.join_not, ← Tree.join_true] at h₃
  have h₄ := h₃.detachRoot.swap
  rw [Tree.join_true, ← Tree.join_false] at h₄
  exact h₄.detachRoot

/-- A double rotation moves `y` above `x` and `q` and keeps the in-order. -/
theorem exists_rotateTwice (h : t.Holds (p.plug (.join isLeft (.join isLeft a x mx
      (.join isLeft b y my c)) q mq d))) :
    ∃ t', t.rotateTwice isLeft x = some t' ∧
      t.Rearranges (p.plug (.join isLeft (.join isLeft a x mx
        (.join isLeft b y my c)) q mq d)) t'
        (p.plug (.join isLeft (.join isLeft a x mx b) y my
          (.join isLeft c q mq d))) := by
  have hq := h.links_join
  have hx := Holds.links_join (p := Path.child isLeft q mq d p) h
  have hparent : t.parent x = some q := by
    rw [parent, hx]
    cases isLeft <;> rfl
  have hgrand : t.parent q = p.parent := by
    rw [parent, hq]
    cases isLeft <;> rfl
  have hchild : t.child (!isLeft) x = some y := by
    rw [child, hx, child_withChild_not, Tree.root_join]
    cases isLeft <;> rfl
  have hside := h.isLeftChildOf (Tree.root_join _ _ _ _ _)
  cases isLeft with
  | true =>
      have hy : t.links y = ⟨some x, b.root, c.root, my⟩ := Holds.links
        (p := Path.child false x mx a (Path.child true q mq d p)) h
      have h₅ := h.prepared
      simp only [Tree.join_true] at h₅
      have h₆ := Forest.attachPath (p := p) (h₅.perm (show List.Perm _
        [.node .nil y my .nil, p.plug .nil, b, c, .node a x mx .nil, .node .nil q mq d] by
          classical grind))
      have h₇ := Forest.attachLeft (h₆.perm (show List.Perm _ [.node a x mx .nil,
        p.plug (.node .nil y my .nil), b, c, .node .nil q mq d] by
          classical grind))
      have h₈ := Forest.attachRight (h₇.perm (show List.Perm _ [.node .nil q mq d,
        p.plug (.node (.node a x mx .nil) y my .nil), b, c] by
          classical grind))
      have h₉ := Forest.attachLeft (o := d)
        (p := Path.child false y my (.node a x mx .nil) p) (h₈.perm (show List.Perm _ [c,
          p.plug (.node (.node a x mx .nil) y my (.node .nil q mq d)), b] by
          classical grind))
      have h₁₀ := Forest.attachRight (o := a)
        (p := Path.child true y my (.node c q mq d) p) h₉.swap
      refine ⟨_, ?_, h.correctRootNode (Tree.root_join _ _ _ _ _) rfl ?_ h₁₀ ?_ ?_⟩
      · rw [rotateTwice, hparent]
        simp only [Option.bind_eq_bind, Option.bind_some, hchild, hgrand, hside,
          leftChild, rightChild, hy]
        rfl
      · simp
      · simp [setLeftChild, setRightChild]
      · simp [setLeftChild, setRightChild]
  | false =>
      have hy : t.links y = ⟨some x, c.root, b.root, my⟩ := Holds.links
        (p := Path.child true x mx a (Path.child false q mq d p)) h
      have h₅ := @Holds.prepared M t p a c b d false x q y mx mq my h
      simp only [Tree.join_false] at h₅
      have h₆ := Forest.attachPath (p := p) (h₅.perm (show List.Perm _
        [.node .nil y my .nil, p.plug .nil, b, c, .node .nil x mx a, .node d q mq .nil] by
          classical grind))
      have h₇ := Forest.attachLeft (h₆.perm (show List.Perm _ [.node d q mq .nil,
        p.plug (.node .nil y my .nil), b, c, .node .nil x mx a] by
          classical grind))
      have h₈ := Forest.attachRight (h₇.perm (show List.Perm _ [.node .nil x mx a,
        p.plug (.node (.node d q mq .nil) y my .nil), b, c] by
          classical grind))
      have h₉ := Forest.attachRight (o := d)
        (p := Path.child true y my (.node .nil x mx a) p) (h₈.perm (show List.Perm _ [c,
          p.plug (.node (.node d q mq .nil) y my (.node .nil x mx a)), b] by
          classical grind))
      have h₁₀ := Forest.attachLeft (o := a)
        (p := Path.child false y my (.node d q mq c) p) h₉.swap
      refine ⟨_, ?_, h.correctRootNode (Tree.root_join _ _ _ _ _) rfl ?_ h₁₀ ?_ ?_⟩
      · rw [rotateTwice, hparent]
        simp only [Option.bind_eq_bind, Option.bind_some, hchild, hgrand, hside,
          leftChild, rightChild, hy]
        rfl
      · simp
      · simp [setLeftChild, setRightChild]
      · simp [setLeftChild, setRightChild]

end

end LinkedTree

end Gobo
