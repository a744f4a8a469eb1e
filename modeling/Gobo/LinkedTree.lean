/-
Trees of node objects that know their parent and both children.  Several such
trees, a forest, live side by side; setting one child takes a subtree out of
its tree or hangs a whole tree below a node.
-/
import Mathlib.Logic.Function.Basic
import Mathlib.Data.List.Perm.Subperm
import Gobo.Tree

namespace Gobo

open List

variable {M : Type}

/-- The fields of a node object that place it in a tree, and its mark. -/
structure Links (M : Type) where
  parent : Option Nat
  leftChild : Option Nat
  rightChild : Option Nat
  mark : M

namespace Links

def child (n : Links M) (isLeft : Bool) : Option Nat :=
  if isLeft then n.leftChild else n.rightChild

def withChild (n : Links M) (isLeft : Bool) (c : Option Nat) : Links M :=
  if isLeft then { n with leftChild := c } else { n with rightChild := c }

end Links

/-- The node objects created so far, numbered in the order of their creation,
and the root of the tree they are in. -/
structure LinkedTree (M : Type) where
  created : Nat
  links : Nat → Links M
  rootNode : Option Nat

namespace LinkedTree

def child (t : LinkedTree M) (isLeft : Bool) (i : Nat) : Option Nat :=
  (t.links i).child isLeft

def leftChild (t : LinkedTree M) (i : Nat) : Option Nat := (t.links i).leftChild

def rightChild (t : LinkedTree M) (i : Nat) : Option Nat := (t.links i).rightChild

def parent (t : LinkedTree M) (i : Nat) : Option Nat := (t.links i).parent

def mark (t : LinkedTree M) (i : Nat) : M := (t.links i).mark

def setLinks (t : LinkedTree M) (i : Nat) (n : Links M) : LinkedTree M :=
  { t with links := Function.update t.links i n }

def setParent (t : LinkedTree M) (i : Nat) (p : Option Nat) : LinkedTree M :=
  t.setLinks i { t.links i with parent := p }

def setMark (t : LinkedTree M) (i : Nat) (m : M) : LinkedTree M :=
  t.setLinks i { t.links i with mark := m }

/-- `set_left_child` and `set_right_child`: the current child will not any more
have `i` as parent. -/
def setChild (isLeft : Bool) (t : LinkedTree M) (i : Nat) (c : Option Nat) :
    LinkedTree M :=
  let t := (t.child isLeft i).elim t fun old => t.setParent old none
  let t := t.setLinks i ((t.links i).withChild isLeft c)
  c.elim t fun new => t.setParent new (some i)

def setLeftChild (t : LinkedTree M) (i : Nat) (c : Option Nat) : LinkedTree M :=
  t.setChild true i c

def setRightChild (t : LinkedTree M) (i : Nat) (c : Option Nat) : LinkedTree M :=
  t.setChild false i c

/-- Sets a child of the node above, when there is one. -/
def setChildAbove (isLeft : Bool) (t : LinkedTree M) (above c : Option Nat) :
    LinkedTree M :=
  above.elim t fun i => t.setChild isLeft i c

/-- The links at the nodes of a tree whose root has the given parent. -/
def Represents (links : Nat → Links M) : Option Nat → Tree M → Prop
  | _, .nil => True
  | p, .node l i m r =>
      links i = ⟨p, l.root, r.root, m⟩ ∧ Represents links (some i) l ∧
        Represents links (some i) r

/-- The links at the nodes above a subtree with the given root. -/
def Surrounds (links : Nat → Links M) : Path M → Option Nat → Prop
  | .root, _ => True
  | .child isLeft i m sib up, c =>
      links i = (Links.mk up.parent sib.root sib.root m).withChild isLeft c ∧
        Represents links (some i) sib ∧ Surrounds links up (some i)

/-- The node is linked to nothing. -/
def Isolated (links : Nat → Links M) (i : Nat) : Prop :=
  links i = ⟨none, none, none, (links i).mark⟩

/-- The linked nodes are those of disjoint trees. -/
structure Forest (links : Nat → Links M) (F : List (Tree M)) : Prop where
  nodup : (F.flatMap Tree.ids).Nodup
  represents : ∀ T ∈ F, Represents links none T
  isolated : ∀ i, (∀ T ∈ F, i ∉ T.ids) → Isolated links i

/-- The linked nodes are those of the tree `T`. -/
structure Holds (t : LinkedTree M) (T : Tree M) : Prop where
  nodup : T.ids.Nodup
  represents : Represents t.links none T
  isolated : ∀ i, i ∉ T.ids → Isolated t.links i
  root : t.rootNode = T.root
  created : ∀ i ∈ T.ids, i < t.created

section

variable {links links' : Nat → Links M} {T : Tree M} {p : Path M}

theorem Represents.congr {q : Option Nat} (h : Represents links q T)
    (heq : ∀ j ∈ T.ids, links' j = links j) : Represents links' q T := by
  induction T generalizing q with
  | nil => trivial
  | node l i m r ihl ihr =>
      refine ⟨?_, ihl h.2.1 ?_, ihr h.2.2 ?_⟩
      · rw [heq i (by simp)]
        exact h.1
      · intro j hj
        exact heq j (by simp [hj])
      · intro j hj
        exact heq j (by simp [hj])

/-- A subtree changes its parent at its root only. -/
theorem Represents.withParent {q q' : Option Nat} (h : Represents links q T)
    (hnodup : T.ids.Nodup)
    (hroot : ∀ j, T.root = some j → links' j = { links j with parent := q' })
    (heq : ∀ j ∈ T.ids, T.root ≠ some j → links' j = links j) :
    Represents links' q' T := by
  cases T with
  | nil => trivial
  | node l i m r =>
      rw [Tree.ids_node] at hnodup
      have hi : i ∉ l.ids ∧ i ∉ r.ids := by
        rw [nodup_append, nodup_cons] at hnodup
        exact ⟨fun hl => hnodup.2.2 i hl i (by simp) rfl, hnodup.2.1.1⟩
      refine ⟨?_, h.2.1.congr ?_, h.2.2.congr ?_⟩
      · rw [hroot i rfl, h.1]
      · intro j hj
        apply heq j (by simp [hj])
        intro hij
        exact hi.1 (Option.some.inj hij ▸ hj)
      · intro j hj
        apply heq j (by simp [hj])
        intro hij
        exact hi.2 (Option.some.inj hij ▸ hj)

theorem Represents.parent_eq {q : Option Nat} (h : Represents links q T) {i : Nat}
    (hi : T.root = some i) : (links i).parent = q := by
  cases T with
  | nil => exact absurd hi (by simp [Tree.root])
  | node l j m r =>
      obtain rfl : j = i := Option.some.inj hi
      rw [h.1]

theorem Surrounds.congr {c : Option Nat} (h : Surrounds links p c)
    (heq : ∀ j ∈ p.before ++ p.after, links' j = links j) :
    Surrounds links' p c := by
  induction p generalizing c with
  | root => trivial
  | child isLeft i m sib up ih =>
      have hmem : ∀ j, j = i ∨ j ∈ sib.ids ∨ j ∈ up.before ++ up.after →
          j ∈ (Path.child isLeft i m sib up).before ++
            (Path.child isLeft i m sib up).after := by
        intro j hj
        cases isLeft <;> simp only [Path.before, Path.after, mem_append,
          mem_cons, cons_append] at hj ⊢ <;> tauto
      refine ⟨?_, h.2.1.congr fun j hj => ?_, ih h.2.2 fun j hj => ?_⟩
      · rw [heq i (hmem i (Or.inl rfl))]
        exact h.1
      · exact heq j (hmem j (Or.inr (Or.inl hj)))
      · exact heq j (hmem j (Or.inr (Or.inr hj)))

theorem represents_join {q : Option Nat} {isLeft : Bool} {c o : Tree M} {i : Nat}
    {m : M} : Represents links q (.join isLeft c i m o) ↔
      links i = (Links.mk q o.root o.root m).withChild isLeft c.root ∧
        Represents links (some i) c ∧ Represents links (some i) o := by
  cases isLeft
  · exact and_congr_right fun _ => and_comm
  · exact Iff.rfl

/-- A tree is one of its subtrees and what surrounds it. -/
theorem represents_plug : Represents links none (p.plug T) ↔
    Surrounds links p T.root ∧ Represents links p.parent T := by
  induction p generalizing T with
  | root => exact (and_iff_right trivial).symm
  | child isLeft i m sib up ih =>
      rw [Path.plug_child, ih, represents_join, Tree.root_join]
      simp only [Surrounds, Path.parent]
      tauto

end

/-! ### Setting a child -/

section

variable (isLeft : Bool) (t : LinkedTree M) {i : Nat} {c : Option Nat}

@[simp] theorem setChild_created : (t.setChild isLeft i c).created = t.created := by
  simp only [setChild]
  cases c <;> cases t.child isLeft i <;> rfl

@[simp] theorem setChild_rootNode :
    (t.setChild isLeft i c).rootNode = t.rootNode := by
  simp only [setChild]
  cases c <;> cases t.child isLeft i <;> rfl

@[simp] theorem setChildAbove_created (above : Option Nat) :
    (t.setChildAbove isLeft above c).created = t.created := by
  cases above <;> simp [setChildAbove]

@[simp] theorem setChildAbove_rootNode (above : Option Nat) :
    (t.setChildAbove isLeft above c).rootNode = t.rootNode := by
  cases above <;> simp [setChildAbove]

theorem withChild_withChild (n : Links M) (c d : Option Nat) :
    (n.withChild isLeft c).withChild isLeft d = n.withChild isLeft d := by
  cases isLeft <;> rfl

@[simp] theorem child_withChild (n : Links M) (c : Option Nat) :
    (n.withChild isLeft c).child isLeft = c := by
  cases isLeft <;> rfl

@[simp] theorem child_withChild_not (n : Links M) (c : Option Nat) :
    (n.withChild isLeft c).child (!isLeft) = n.child (!isLeft) := by
  cases isLeft <;> rfl

/-- Setting a child is taking out the old one and then hanging in the new
one. -/
theorem setChild_setChild_none :
    (t.setChild isLeft i none).setChild isLeft i c = t.setChild isLeft i c := by
  have hchild : (t.setChild isLeft i none).child isLeft i = none := by
    simp [setChild, child, setLinks]
  unfold setChild at hchild ⊢
  simp only [Option.elim_none] at hchild ⊢
  rw [hchild]
  simp [setLinks, withChild_withChild]

variable {isLeft t}

theorem links_setChild_none_self (hne : t.child isLeft i ≠ some i) :
    (t.setChild isLeft i none).links i = (t.links i).withChild isLeft none := by
  unfold setChild
  cases hold : t.child isLeft i with
  | none => simp [setLinks]
  | some old =>
      have hio : i ≠ old := by
        rintro rfl
        exact hne hold
      simp [setLinks, setParent, hio]

theorem links_setChild_none_of_ne {j : Nat} (hj : j ≠ i)
    (hold : t.child isLeft i ≠ some j) :
    (t.setChild isLeft i none).links j = t.links j := by
  unfold setChild
  cases hchild : t.child isLeft i with
  | none => simp [setLinks, hj]
  | some old =>
      have hjo : j ≠ old := by
        rintro rfl
        exact hold hchild
      simp [setLinks, setParent, hj, hjo]

theorem links_setChild_none_child {j : Nat} (hj : j ≠ i)
    (hold : t.child isLeft i = some j) :
    (t.setChild isLeft i none).links j = { t.links j with parent := none } := by
  simp [setChild, hold, setLinks, setParent, hj]

theorem links_setChild_self {j : Nat} (hold : t.child isLeft i = none) (hj : j ≠ i) :
    (t.setChild isLeft i (some j)).links i =
      (t.links i).withChild isLeft (some j) := by
  simp [setChild, hold, setLinks, setParent, hj.symm]

theorem links_setChild_child {j : Nat} (hold : t.child isLeft i = none) (hj : j ≠ i) :
    (t.setChild isLeft i (some j)).links j =
      { t.links j with parent := some i } := by
  simp [setChild, hold, setLinks, setParent, hj]

theorem links_setChild_of_ne {j k : Nat} (hold : t.child isLeft i = none)
    (hki : k ≠ i) (hkj : k ≠ j) :
    (t.setChild isLeft i (some j)).links k = t.links k := by
  simp [setChild, hold, setLinks, setParent, hki, hkj]

end

/-! ### Forests -/

/-- A subtree may be exchanged when its parent alone has changed. -/
theorem Represents.exchange {links links' : Nat → Links M} {T U o : Tree M}
    {p : Path M} {isLeft : Bool} {i : Nat} {m : M}
    (h : Represents links none (p.plug (.join isLeft T i m o)))
    (hi : links' i = (links i).withChild isLeft U.root)
    (hframe : ∀ j, j ∈ o.ids ∨ j ∈ p.before ++ p.after → links' j = links j)
    (hU : Represents links' (some i) U) :
    Represents links' none (p.plug (.join isLeft U i m o)) := by
  obtain ⟨hsurrounds, hjoin⟩ := represents_plug.mp h
  obtain ⟨hlinks, -, ho⟩ := represents_join.mp hjoin
  rw [Tree.root_join] at hsurrounds
  refine represents_plug.mpr ⟨?_, represents_join.mpr ⟨?_, hU, ?_⟩⟩
  · rw [Tree.root_join]
    exact hsurrounds.congr fun j hj => hframe j (Or.inr hj)
  · rw [hi, hlinks, withChild_withChild]
  · exact ho.congr fun j hj => hframe j (Or.inl hj)

namespace Forest

variable {links : Nat → Links M} {F : List (Tree M)} {T U o : Tree M} {p : Path M}
  {isLeft : Bool} {i : Nat} {m : M} {t : LinkedTree M}

theorem perm {F' : List (Tree M)} (h : Forest links F) (hperm : F.Perm F') :
    Forest links F' :=
  ⟨(hperm.flatMap_right Tree.ids).nodup_iff.mp h.nodup,
    fun T hT => h.represents T (hperm.mem_iff.mpr hT),
    fun i hi => h.isolated i fun T hT => hi T (hperm.mem_iff.mp hT)⟩

theorem swap (h : Forest links (T :: U :: F)) : Forest links (U :: T :: F) :=
  h.perm (List.Perm.swap U T F)

theorem nil_cons (h : Forest links F) : Forest links (.nil :: F) :=
  ⟨by simpa using h.nodup, forall_mem_cons.mpr ⟨trivial, h.represents⟩,
    fun i hi => h.isolated i (forall_mem_cons.mp hi).2⟩

/-- A tree without links is left out. -/
theorem tail (h : Forest links (T :: F)) (hT : ∀ i ∈ T.ids, Isolated links i) :
    Forest links F := by
  refine ⟨?_, fun U hU => h.represents U (mem_cons_of_mem T hU), ?_⟩
  · have hnodup := h.nodup
    rw [flatMap_cons, nodup_append] at hnodup
    exact hnodup.2.1
  · intro i hi
    by_cases hmem : i ∈ T.ids
    · exact hT i hmem
    · exact h.isolated i (forall_mem_cons.mpr ⟨hmem, hi⟩)

theorem nil_tail (h : Forest links (.nil :: F)) : Forest links F := h.tail (by simp)

/-- A node that is a tree by itself is left out. -/
theorem node_tail (h : Forest links (.node .nil i m .nil :: F)) : Forest links F := by
  apply h.tail
  intro j hj
  obtain rfl := mem_singleton.mp hj
  have hlinks := (h.represents _ mem_cons_self).1
  rw [Isolated, hlinks]
  rfl

/-- A node without links is a tree by itself. -/
theorem cons_node (h : Forest links F) (hlinks : links i = ⟨none, none, none, m⟩)
    (hnew : ∀ T ∈ F, i ∉ T.ids) : Forest links (.node .nil i m .nil :: F) := by
  refine ⟨?_, forall_mem_cons.mpr ⟨⟨hlinks, trivial, trivial⟩, h.represents⟩,
    fun j hj => h.isolated j (forall_mem_cons.mp hj).2⟩
  rw [flatMap_cons]
  refine nodup_cons.mpr ⟨?_, h.nodup⟩
  intro hi
  obtain ⟨T, hT, hiT⟩ := mem_flatMap.mp hi
  exact hnew T hT hiT

/-- What is separate when a tree and a place for it are. -/
theorem separate {ids : List Nat}
    (hnodup : (T.ids ++ ((p.plug (.join isLeft .nil i m o)).ids ++ ids)).Nodup) :
    i ∉ T.ids ∧ ∀ j, (j ∈ o.ids ∨ j ∈ p.before ++ p.after) ∨ j ∈ ids →
      j ≠ i ∧ j ∉ T.ids := by
  rw [Path.ids_plug] at hnodup
  simp only [mem_append]
  cases isLeft <;> simp only [Tree.join_false, Tree.join_true, Tree.ids_node,
    Tree.ids_nil, nodup_append, nodup_cons, mem_append,
    mem_cons, nil_append] at hnodup <;> grind

/-- Taking a subtree out. -/
theorem detach (h : Forest t.links (p.plug (.join isLeft T i m o) :: F)) :
    Forest (t.setChild isLeft i none).links
      (T :: p.plug (.join isLeft .nil i m o) :: F) := by
  have hperm := (p.ids_plug_join_perm isLeft T o i m).append_right
    (F.flatMap Tree.ids)
  have hnodup : (T.ids ++ ((p.plug (.join isLeft .nil i m o)).ids ++
      F.flatMap Tree.ids)).Nodup := by
    rw [← append_assoc]
    exact hperm.nodup_iff.mp h.nodup
  obtain ⟨hi, hseparate⟩ := separate hnodup
  have hwhole : Represents t.links none (p.plug (.join isLeft T i m o)) :=
    h.represents _ mem_cons_self
  obtain ⟨hlinks, hT, -⟩ := represents_join.mp (represents_plug.mp hwhole).2
  have hchild : t.child isLeft i = T.root := by
    rw [child, hlinks, child_withChild]
  have hframe : ∀ j, j ≠ i → j ∉ T.ids →
      (t.setChild isLeft i none).links j = t.links j := by
    intro j hji hjT
    apply links_setChild_none_of_ne hji
    intro hold
    exact hjT (Tree.root_mem_ids (hchild ▸ hold))
  refine ⟨hnodup, forall_mem_cons.mpr ⟨?_, forall_mem_cons.mpr ⟨?_, ?_⟩⟩, ?_⟩
  · apply hT.withParent (nodup_append.mp hnodup).1
    · intro j hj
      apply links_setChild_none_child
      · rintro rfl
        exact hi (Tree.root_mem_ids hj)
      · rw [hchild, hj]
    · intro j hj hroot
      apply links_setChild_none_of_ne
      · rintro rfl
        exact hi hj
      · rwa [hchild]
  · apply hwhole.exchange
    · apply links_setChild_none_self
      rw [hchild]
      intro hroot
      exact hi (Tree.root_mem_ids hroot)
    · intro j hj
      have hne := hseparate j (Or.inl hj)
      exact hframe j hne.1 hne.2
    · trivial
  · intro U hU
    apply (h.represents U (mem_cons_of_mem _ hU)).congr
    intro j hj
    have hne := hseparate j (Or.inr (mem_flatMap.mpr ⟨U, hU, hj⟩))
    exact hframe j hne.1 hne.2
  · intro j hj
    obtain ⟨hjT, hjp, hjF⟩ := by
      simpa only [forall_mem_cons] using hj
    have hjp' := p.mem_ids_plug_join.not.mp hjp
    rw [Isolated, hframe j (fun heq => hjp' (Or.inr (Or.inl heq))) hjT]
    apply h.isolated j
    refine forall_mem_cons.mpr ⟨?_, hjF⟩
    rw [Path.mem_ids_plug_join]
    rintro (hmem | hmem)
    · exact hjT hmem
    · exact hjp' (Or.inr hmem)

/-- Hanging a tree below a node. -/
theorem attach (h : Forest t.links (T :: p.plug (.join isLeft .nil i m o) :: F)) :
    Forest (t.setChild isLeft i T.root).links
      (p.plug (.join isLeft T i m o) :: F) := by
  have hperm := (p.ids_plug_join_perm isLeft T o i m).append_right
    (F.flatMap Tree.ids)
  have hnodup : (T.ids ++ ((p.plug (.join isLeft .nil i m o)).ids ++
      F.flatMap Tree.ids)).Nodup := h.nodup
  obtain ⟨hi, hseparate⟩ := separate hnodup
  have hwhole : Represents t.links none (p.plug (.join isLeft .nil i m o)) :=
    h.represents _ (by simp)
  obtain ⟨hlinks, -, -⟩ := represents_join.mp (represents_plug.mp hwhole).2
  have hchild : t.child isLeft i = none := by
    rw [child, hlinks, child_withChild]
    rfl
  have hT : Represents t.links none T := h.represents T mem_cons_self
  have hroot : ∀ j, T.root = some j → j ≠ i := by
    rintro j hj rfl
    exact hi (Tree.root_mem_ids hj)
  have hframe : ∀ j, j ≠ i → T.root ≠ some j →
      (t.setChild isLeft i T.root).links j = t.links j := by
    intro j hji hjT
    cases hT' : T.root with
    | none =>
        apply links_setChild_none_of_ne hji
        rw [hchild]
        exact (Option.some_ne_none j).symm
    | some c =>
        apply links_setChild_of_ne hchild hji
        rintro rfl
        exact hjT hT'
  have hframe' : ∀ j, j ≠ i → j ∉ T.ids →
      (t.setChild isLeft i T.root).links j = t.links j := by
    intro j hji hjT
    exact hframe j hji fun hr => hjT (Tree.root_mem_ids hr)
  refine ⟨?_, forall_mem_cons.mpr ⟨?_, ?_⟩, ?_⟩
  · rw [← append_assoc] at hnodup
    exact hperm.nodup_iff.mpr hnodup
  · apply hwhole.exchange
    · cases hT' : T.root with
      | none =>
          apply links_setChild_none_self
          rw [hchild]
          exact (Option.some_ne_none i).symm
      | some c => exact links_setChild_self hchild (hroot c hT')
    · intro j hj
      have hne := hseparate j (Or.inl hj)
      exact hframe' j hne.1 hne.2
    · apply hT.withParent (nodup_append.mp hnodup).1
      · intro j hj
        rw [hj]
        exact links_setChild_child hchild (hroot j hj)
      · intro j hj hr
        apply hframe j _ hr
        rintro rfl
        exact hi hj
  · intro U hU
    apply (h.represents U (by simp [hU])).congr
    intro j hj
    have hne := hseparate j (Or.inr (mem_flatMap.mpr ⟨U, hU, hj⟩))
    exact hframe' j hne.1 hne.2
  · intro j hj
    obtain ⟨hjp, hjF⟩ := forall_mem_cons.mp hj
    have hjp' := Path.mem_ids_plug_join.not.mp hjp
    have hjT : j ∉ T.ids := fun hmem => hjp' (Or.inl hmem)
    rw [Isolated, hframe' j (fun heq => hjp' (Or.inr (Or.inl heq))) hjT]
    apply h.isolated j
    refine forall_mem_cons.mpr ⟨hjT, forall_mem_cons.mpr ⟨?_, hjF⟩⟩
    rw [Path.mem_ids_plug_join]
    rintro (hmem | hmem)
    · exact absurd hmem not_mem_nil
    · exact hjp' (Or.inr hmem)

theorem attachLeft (h : Forest t.links (T :: p.plug (.node .nil i m o) :: F)) :
    Forest (t.setLeftChild i T.root).links (p.plug (.node T i m o) :: F) :=
  show Forest (t.setChild true i T.root).links (p.plug (.join true T i m o) :: F) from
    attach h

theorem attachRight (h : Forest t.links (T :: p.plug (.node o i m .nil) :: F)) :
    Forest (t.setRightChild i T.root).links (p.plug (.node o i m T) :: F) :=
  show Forest (t.setChild false i T.root).links (p.plug (.join false T i m o) :: F) from
    attach h

/-- Exchanging a subtree for another tree. -/
theorem replace (h : Forest t.links (T :: p.plug (.join isLeft U i m o) :: F)) :
    Forest (t.setChild isLeft i T.root).links
      (p.plug (.join isLeft T i m o) :: U :: F) := by
  rw [← setChild_setChild_none]
  apply attach
  have hdetached := h.swap.detach
  exact hdetached.perm (by classical grind)

/-- Taking out a child of a root. -/
theorem detachRoot (h : Forest t.links (.join isLeft T i m o :: F)) :
    Forest (t.setChild isLeft i none).links (T :: .join isLeft .nil i m o :: F) :=
  detach (p := .root) h

/-- Taking a subtree out, whatever is above it. -/
theorem detachPath (h : Forest t.links (p.plug T :: F)) :
    Forest (t.setChildAbove p.isLeft p.parent none).links
      (T :: p.plug .nil :: F) := by
  cases p with
  | root => exact h.nil_cons.swap
  | child isLeft i m sib up => exact h.detach

/-- Hanging a tree in, whatever is above it. -/
theorem attachPath (h : Forest t.links (T :: p.plug .nil :: F)) :
    Forest (t.setChildAbove p.isLeft p.parent T.root).links (p.plug T :: F) := by
  cases p with
  | root => exact h.swap.nil_tail
  | child isLeft i m sib up => exact h.attach

end Forest

namespace Holds

variable {t : LinkedTree M} {T l r : Tree M} {p : Path M} {i : Nat} {m : M}

theorem forest (h : t.Holds T) : Forest t.links [T] :=
  ⟨by simpa using h.nodup, by simpa using h.represents,
    fun i hi => h.isolated i (hi T mem_cons_self)⟩

theorem of_forest (h : Forest t.links [T]) (hroot : t.rootNode = T.root)
    (hcreated : ∀ j ∈ T.ids, j < t.created) : t.Holds T :=
  ⟨by simpa using h.nodup, h.represents T mem_cons_self,
    fun i hi => h.isolated i (by simpa using hi), hroot, hcreated⟩

/-- The fields of a node of the tree. -/
theorem links (h : t.Holds (p.plug (.node l i m r))) :
    t.links i = ⟨p.parent, l.root, r.root, m⟩ :=
  (represents_plug.mp h.represents).2.1

section

variable {isLeft : Bool} {c o : Tree M} (h : t.Holds (p.plug (.join isLeft c i m o)))

include h

theorem links_join :
    t.links i = (Links.mk p.parent o.root o.root m).withChild isLeft c.root :=
  (represents_join.mp (represents_plug.mp h.represents).2).1

theorem mark_join : t.mark i = m := by
  rw [mark, h.links_join]
  cases isLeft <;> rfl

theorem child_join : t.child isLeft i = c.root := by
  rw [child, h.links_join, child_withChild]

theorem child_join_not : t.child (!isLeft) i = o.root := by
  rw [child, h.links_join, child_withChild_not]
  cases isLeft <;> rfl

end

theorem parent_eq {U : Tree M} (h : t.Holds (p.plug U)) (hi : U.root = some i) :
    t.parent i = p.parent :=
  (represents_plug.mp h.represents).2.parent_eq hi

theorem setMark (h : t.Holds (p.plug (.node l i m r))) (m' : M) :
    (t.setMark i m').Holds (p.plug (.node l i m' r)) := by
  have hlinks := h.links
  have hids : (p.plug (.node l i m' r)).ids = (p.plug (.node l i m r)).ids :=
    p.ids_plug_congr rfl
  have hframe : ∀ j, j ≠ i → (t.setMark i m').links j = t.links j :=
    fun j hj => Function.update_of_ne hj _ _
  have hnodup := h.nodup
  rw [Path.ids_plug] at hnodup
  simp only [Tree.ids_node, nodup_append, nodup_cons, mem_append, mem_cons] at hnodup
  obtain ⟨hsurrounds, -, hl, hr⟩ := represents_plug.mp h.represents
  refine ⟨hids ▸ h.nodup, represents_plug.mpr ⟨?_, ?_, ?_, ?_⟩, ?_, ?_, hids ▸ h.created⟩
  · refine hsurrounds.congr fun j hj => hframe j ?_
    rintro rfl
    rw [mem_append] at hj
    grind
  · exact (Function.update_self _ _ _).trans (by rw [hlinks])
  · refine hl.congr fun j hj => hframe j ?_
    rintro rfl
    grind
  · refine hr.congr fun j hj => hframe j ?_
    rintro rfl
    grind
  · intro j hj
    have hji : j ≠ i := by
      rintro rfl
      exact hj (by simp [Path.mem_ids_plug])
    rw [hids] at hj
    rw [Isolated, hframe j hji]
    exact h.isolated j hj
  · rw [show (t.setMark i m').rootNode = t.rootNode from rfl, h.root]
    exact p.root_plug rfl

theorem setMark_join {isLeft : Bool} {c o : Tree M}
    (h : t.Holds (p.plug (.join isLeft c i m o))) (m' : M) :
    (t.setMark i m').Holds (p.plug (.join isLeft c i m' o)) := by
  cases isLeft
  · exact setMark (l := o) (r := c) h m'
  · exact setMark (l := c) (r := o) h m'

theorem length_le (h : t.Holds T) : T.ids.length ≤ t.created := by
  have hsub : T.ids ⊆ range t.created :=
    fun j hj => mem_range.mpr (h.created j hj)
  simpa using (subperm_of_subset h.nodup hsub).length_le

theorem height_le {U : Tree M} (h : t.Holds (p.plug U)) : U.height ≤ t.created := by
  have hlength := h.length_le
  have hheight := U.height_le
  rw [Path.ids_plug] at hlength
  simp only [length_append] at hlength
  omega

theorem depth_le {U : Tree M} (h : t.Holds (p.plug U)) : p.depth < t.created + 1 := by
  have hlength := h.length_le
  have hdepth := p.depth_le
  rw [Path.ids_plug] at hlength
  simp only [length_append] at hlength hdepth
  omega

/-- The way up from a node is shorter than the number of objects. -/
theorem depth_lt (h : t.Holds (p.plug (.node l i m r))) : p.depth < t.created := by
  have hlength := h.length_le
  have hdepth := p.depth_le
  rw [Path.ids_plug] at hlength
  simp only [length_append, Tree.ids_node, length_cons] at hlength hdepth
  omega

end Holds

/-- `t'` has the nodes of `t` in the same order, in a tree of another shape. -/
structure Rearranges (t : LinkedTree M) (T : Tree M) (t' : LinkedTree M) (T' : Tree M) :
    Prop where
  created : t'.created = t.created
  holds : t'.Holds T'
  ids : T'.ids = T.ids

namespace Rearranges

variable {t t' t'' : LinkedTree M} {T T' T'' : Tree M}

theorem refl (h : t.Holds T) : Rearranges t T t T := ⟨rfl, h, rfl⟩

theorem trans (h : Rearranges t T t' T') (h' : Rearranges t' T' t'' T'') :
    Rearranges t T t'' T'' :=
  ⟨h'.created.trans h.created, h'.holds, h'.ids.trans h.ids⟩

theorem setMark {p : Path M} {isLeft : Bool} {c o : Tree M} {i : Nat} {m : M}
    (h : Rearranges t T t' (p.plug (.join isLeft c i m o))) (m' : M) :
    Rearranges t T (t'.setMark i m') (p.plug (.join isLeft c i m' o)) := by
  refine ⟨h.created, h.holds.setMark_join m', ?_⟩
  rw [← h.ids]
  apply p.ids_plug_congr
  cases isLeft <;> rfl

/-- Setting the mark of a child of the root of a subtree. -/
theorem setMark_child {p : Path M} {isLeft s : Bool} {a b c : Tree M} {x y : Nat}
    {m n : M} (h : Rearranges t T t' (p.plug (.join s (.join isLeft a x m b) y n c)))
    (m' : M) : Rearranges t T (t'.setMark x m')
      (p.plug (.join s (.join isLeft a x m' b) y n c)) :=
  Rearranges.setMark (p := .child s y n c p) h m'

/-- Setting the mark of the other child. -/
theorem setMark_other {p : Path M} {isLeft s : Bool} {a b c : Tree M} {x y : Nat}
    {m n : M} (h : Rearranges t T t' (p.plug (.join s c y n (.join isLeft a x m b))))
    (m' : M) : Rearranges t T (t'.setMark x m')
      (p.plug (.join s c y n (.join isLeft a x m' b))) := by
  rw [← Tree.join_not] at h ⊢
  exact h.setMark_child m'

end Rearranges

/-! ### Creating, adding and removing a node -/

section

variable {t : LinkedTree M} {T c o sib : Tree M} {p up : Path M} {isLeft b : Bool}
  {i n : Nat} {m mn : M}

/-- A node object without parent and children. -/
def newNode (t : LinkedTree M) (m : M) : LinkedTree M :=
  { t with
    created := t.created + 1
    links := Function.update t.links t.created ⟨none, none, none, m⟩ }

theorem Holds.newNode (h : t.Holds T) (m : M) : (t.newNode m).Holds T := by
  have hne : ∀ j ∈ T.ids, j ≠ t.created := by
    intro j hj heq
    exact Nat.lt_irrefl _ (heq ▸ h.created j hj)
  refine ⟨h.nodup, ?_, ?_, h.root, fun j hj => Nat.lt_succ_of_lt (h.created j hj)⟩
  · exact h.represents.congr fun j hj => Function.update_of_ne (hne j hj) _ _
  · intro j hj
    by_cases hjn : j = t.created
    · rw [hjn, Isolated]
      simp [LinkedTree.newNode]
    · have hlinks : (t.newNode m).links j = t.links j := Function.update_of_ne hjn _ _
      rw [Isolated, hlinks]
      exact h.isolated j hj

@[simp] theorem setChild_mark (j : Nat) (c : Option Nat) :
    (t.setChild isLeft i c).mark j = t.mark j := by
  have hparent : ∀ (t : LinkedTree M) (k : Nat) (q : Option Nat),
      (t.setParent k q).mark j = t.mark j := by
    intro t k q
    by_cases hj : j = k
    · subst hj
      simp [mark, setParent, setLinks]
    · simp [mark, setParent, setLinks, hj]
  have hlinks : ∀ (t : LinkedTree M) (d : Option Nat),
      (t.setLinks i ((t.links i).withChild isLeft d)).mark j = t.mark j := by
    intro t d
    by_cases hj : j = i
    · subst hj
      cases isLeft <;> simp [mark, setLinks, Links.withChild]
    · simp [mark, setLinks, hj]
  unfold setChild
  cases c <;> cases t.child isLeft i <;> simp [hparent, hlinks]

/-- A new node is hung below a node that has no child on that side. -/
theorem Holds.addChild (h : t.Holds (p.plug (.join isLeft .nil i m o)))
    (hlinks : t.links n = ⟨none, none, none, mn⟩)
    (hn : n ∉ (p.plug (.join isLeft .nil i m o)).ids) (hcreated : n < t.created) :
    (t.setChild isLeft i (some n)).Holds
      (p.plug (.join isLeft (.node .nil n mn .nil) i m o)) := by
  have hforest := (h.forest.cons_node hlinks (by simpa using hn)).attach
  refine of_forest hforest ?_ ?_
  · rw [setChild_rootNode, h.root]
    apply Path.root_plug
    rw [Tree.root_join, Tree.root_join]
  · intro j hj
    rw [setChild_created]
    rcases Path.mem_ids_plug_join.mp hj with hj | hj
    · obtain rfl := mem_singleton.mp hj
      exact hcreated
    · exact h.created j (Path.mem_ids_plug_join.mpr (Or.inr hj))

/-- A new node becomes the root. -/
theorem Holds.addRoot (h : t.Holds .nil) (hlinks : t.links n = ⟨none, none, none, mn⟩)
    (hcreated : n < t.created) :
    LinkedTree.Holds { t with rootNode := some n } (.node .nil n mn .nil) := by
  have hforest := (h.forest.cons_node hlinks (by simp)).swap.nil_tail
  refine of_forest (t := { t with rootNode := some n }) hforest rfl ?_
  intro j hj
  obtain rfl := mem_singleton.mp hj
  exact hcreated

/-- A node without children is taken out. -/
theorem Holds.removeLeaf
    (h : t.Holds ((Path.child isLeft i m sib up).plug (.node .nil n mn .nil))) :
    (t.setChild isLeft i none).Holds ((Path.child isLeft i m sib up).plug .nil) := by
  refine of_forest h.forest.detach.node_tail ?_ ?_
  · rw [setChild_rootNode, h.root]
    exact Path.root_plug_of_parent rfl _ _
  · intro j hj
    rw [setChild_created]
    apply h.created j
    rw [Path.mem_ids_plug] at hj ⊢
    exact Or.inr (hj.resolve_left not_mem_nil)

/-- A node with one child is taken out and the child takes its place. -/
theorem Holds.removeNode
    (h : t.Holds ((Path.child isLeft i m sib up).plug (.join b c n mn .nil))) :
    ((t.setChild b n none).setChild isLeft i c.root).Holds
      ((Path.child isLeft i m sib up).plug c) := by
  have hdetached := h.forest.detach
  rw [Tree.join_nil, Path.plug_child] at hdetached
  refine of_forest hdetached.replace.swap.node_tail ?_ ?_
  · rw [setChild_rootNode, setChild_rootNode, h.root]
    exact Path.root_plug_of_parent rfl _ _
  · intro j hj
    rw [setChild_created, setChild_created]
    apply h.created j
    rw [Path.mem_ids_plug] at hj ⊢
    rw [Tree.mem_ids_join]
    tauto

end

end LinkedTree

end Gobo
