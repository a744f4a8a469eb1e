/-
Going down to a node that is to be removed.  Where the search stands, the node is
red or has a red left child, and the path above accepts what is below.
-/
import Gobo.LeftLeaningFixUp

namespace Gobo

open List LinkedTree

/-- The node `j` is above, and it is the root or black. -/
def Path.Keeps (j : Nat) : Path Bool → Prop
  | root => False
  | child _ i m _ up => i = j ∧ (m = false ∨ up = root) ∨ up.Keeps j

namespace LeftLeaningTree

/-- A red node may be taken out of the subtree. -/
structure Descends (p : Path Bool) (U : Tree Bool) : Prop where
  red : U.isRed = true ∨ U.left.isRed = true
  fits : p.Fits U

/-- A black node whose right child is red: the search goes to the right. -/
def Slanted (p : Path Bool) : Tree Bool → Prop
  | .node l _ false r => l.isRed = false ∧ r.isRed = true ∧
      ∃ n, l.Leaning n ∧ r.Leaning n ∧ p.Accepts 0 (n + 1)
  | _ => False

/-- The root of the subtree can be removed: itself if it is a leaf, or else its
successor. -/
def Ready (p : Path Bool) : Tree Bool → Prop
  | .nil => False
  | .node l i m r => (r = .nil → l = .nil ∧ p.Accepts 0 0) ∧
      (r ≠ .nil → Descends (.child false i m l p) r)

variable {t : LinkedTree Bool} {p q up : Path Bool} {a b c d l r sib T U : Tree Bool}
  {s : Bool} {i j x y n k : Nat} {m mx my : Bool}

/-! ### Moving a red node -/

theorem isChildBare_iff (h : t.Holds (p.plug U)) :
    isChildBare t U.root = true ↔ U ≠ .nil ∧ U.isRed = false ∧ U.left.isRed = false := by
  cases U with
  | nil => simp [isChildBare, Tree.root]
  | node l i m r =>
      have hi : t.isRed i = m := by
        rw [LinkedTree.isRed, mark, h.links]
      have hl := (isNodeRed_children h).1
      simp [isChildBare, Tree.root, hi, hl, Tree.isRed, Tree.left]

theorem exists_moveRedLeft
    (h : t.Holds (p.plug (.node (.node a x false b) i true (.node c y false d))))
    (hc : c.isRed = false) :
    ∃ t', moveRedLeft t i = some (t', i) ∧
      t.Rearranges (p.plug (.node (.node a x false b) i true (.node c y false d))) t'
        (p.plug (.node (.node a x true b) i false (.node c y true d))) := by
  obtain ⟨t', hrun, hre⟩ := exists_flipColors h
  have hright : t.rightChild i = some y := by
    rw [rightChild, h.links]
    rfl
  have hleft : t.leftChild y = c.root := by
    rw [leftChild, Holds.links (p := .child false i true (.node a x false b) p) h]
  have hnode : t'.isNodeRed c.root = false := by
    rw [← hc]
    exact Holds.isNodeRed (p := .child true y true d
      (.child false i false (.node a x true b) p)) hre.holds
  refine ⟨t', ?_, hre⟩
  refine bind_of_some hrun ?_
  rw [hright, Option.bind_some, hleft, hnode]
  rfl

/-- The red child of the right child goes on top. -/
theorem exists_moveRedLeft_rotated {e f : Tree Bool} {z : Nat}
    (h : t.Holds (p.plug (.node (.node a x false b) i true
      (.node (.node e z true f) y false d)))) :
    ∃ t', moveRedLeft t i = some (t', z) ∧
      t.Rearranges (p.plug (.node (.node a x false b) i true
          (.node (.node e z true f) y false d))) t'
        (p.plug (.node (.node (.node a x true b) i false e) z true (.node f y false d))) := by
  obtain ⟨t₁, hflip, hre₁⟩ := exists_flipColors h
  have hright : t.rightChild i = some y := by
    rw [rightChild, h.links]
    rfl
  have hleft : t.leftChild y = some z := by
    rw [leftChild, Holds.links (p := .child false i true (.node a x false b) p) h]
    rfl
  have hnode : t₁.isNodeRed (some z) = true :=
    Holds.isNodeRed (p := .child true y true d
      (.child false i false (.node a x true b) p)) (U := .node e z true f) hre₁.holds
  obtain ⟨t₂, t₃, hrotate, hchild, hcolors, hre₂⟩ :=
    @exists_rotateColored t₁ (.child false i false (.node a x true b) p) e f d true y z true
      hre₁.holds
  obtain ⟨t₄, t₅, hrotate', hchild', hcolors', hre₃⟩ :=
    @exists_rotateColored t₃ p (.node f y true d) e (.node a x true b) false i z false
      hre₂.holds
  obtain ⟨t₆, hflip', hre₄⟩ := exists_flipColors hre₃.holds
  refine ⟨t₆, ?_, ((hre₁.trans hre₂).trans hre₃).trans hre₄⟩
  refine bind_of_some hflip ?_
  rw [hright, Option.bind_some, hleft, hnode]
  exact bind_of_some hrotate (bind_of_some hchild (bind_of_some hcolors
    (bind_of_some hrotate' (bind_of_some hchild'
    (bind_of_some hcolors'
    (bind_of_some hflip' rfl))))))

theorem exists_moveRedRight
    (h : t.Holds (p.plug (.node (.node a x false b) i true (.node c y false d))))
    (ha : a.isRed = false) :
    ∃ t', moveRedRight t i = some (t', i) ∧
      t.Rearranges (p.plug (.node (.node a x false b) i true (.node c y false d))) t'
        (p.plug (.node (.node a x true b) i false (.node c y true d))) := by
  obtain ⟨t', hrun, hre⟩ := exists_flipColors h
  have hleft : t.leftChild i = some x := by
    rw [leftChild, h.links]
    rfl
  have hnode : t'.isNodeRed (t'.leftChild x) = false := by
    rw [← ha]
    exact (isNodeRed_children (p := .child true i false (.node c y true d) p) hre.holds).1
  refine ⟨t', ?_, hre⟩
  refine bind_of_some hleft (bind_of_some hrun ?_)
  rw [hnode]
  rfl

/-- The left child goes on top, as it has a red child. -/
theorem exists_moveRedRight_rotated {e f : Tree Bool} {z : Nat}
    (h : t.Holds (p.plug (.node (.node (.node e z true f) x false b) i true
      (.node c y false d)))) :
    ∃ t', moveRedRight t i = some (t', x) ∧
      t.Rearranges (p.plug (.node (.node (.node e z true f) x false b) i true
          (.node c y false d))) t'
        (p.plug (.node (.node e z false f) x true (.node b i false (.node c y true d)))) := by
  obtain ⟨t₁, hflip, hre₁⟩ := exists_flipColors h
  have hleft : t.leftChild i = some x := by
    rw [leftChild, h.links]
    rfl
  have hnode : t₁.isNodeRed (t₁.leftChild x) = true :=
    (isNodeRed_children (p := .child true i false (.node c y true d) p) hre₁.holds).1
  obtain ⟨t₂, t₃, hrotate, hchild, hcolors, hre₂⟩ :=
    @exists_rotateColored t₁ p (.node e z true f) b (.node c y true d) true i x false
      hre₁.holds
  obtain ⟨t₄, hflip', hre₃⟩ := exists_flipColors hre₂.holds
  refine ⟨t₄, ?_, (hre₁.trans hre₂).trans hre₃⟩
  refine bind_of_some hleft (bind_of_some hflip ?_)
  rw [hnode]
  exact bind_of_some hrotate (bind_of_some hchild (bind_of_some hcolors
      (bind_of_some hflip' rfl)))

/-! ### One step down -/

/-- Black nodes below a black node: it can be seen what is in it. -/
theorem exists_black (h : T.Leaning n) (hred : T.isRed = false) (hT : T ≠ .nil) :
    ∃ k a x b, n = k + 1 ∧ T = .node a x false b ∧ a.Leaning k ∧ b.isRed = false ∧
      b.Leaning k := by
  rcases T with _ | ⟨a, x, _ | _, b⟩
  · exact absurd rfl hT
  · obtain ⟨k, rfl, hrest⟩ := h
    exact ⟨k, a, x, b, rfl, rfl, hrest⟩
  · cases hred

theorem ne_nil_of_leaning (h : T.Leaning (n + 1)) : T ≠ .nil := by
  rintro rfl
  exact Nat.succ_ne_zero n h

/-- One step to the left.  Either the node `i` is left behind, or it comes below
the node `j` and the step has to be made again. -/
structure StepsLeft (p : Path Bool) (l : Tree Bool) (i : Nat) (m : Bool) (r : Tree Bool)
    (j : Nat) (mj : Bool) (sib U' : Tree Bool) : Prop where
  fits : (Path.child true j mj sib p).Fits U'
  nil : U' = .nil → l = .nil
  descends : U' ≠ .nil → Descends (.child true j mj sib p) U'
  after : ∀ y ∈ j :: sib.ids, y ∈ i :: r.ids
  behind : j = i ∧ (m = false → mj = false) ∨
    ∃ l' r', U' = .node l' i false r'

theorem excess_red_eq (h : l.Leaning n) : (Tree.node l i true r).excess = l.excess + 1 := by
  have hle := Tree.excess_le_one h
  by_cases hl : l.isRed = true
  · have hone := one_le_excess hl
    rw [Tree.excess, if_pos hl]
    omega
  · rw [Tree.excess, if_neg hl, excess_eq_zero (Bool.eq_false_iff.mpr hl)]

theorem fits_left (h : p.Fits (.node l i m r)) : (Path.child true i m r p).Fits l := by
  obtain ⟨n, hnear, haccepts⟩ := h
  cases m with
  | true =>
      rw [excess_red_eq hnear.1] at haccepts
      exact ⟨n, hnear.1.near, Tree.excess_le_one hnear.1, hnear.2.1, hnear.2.2, haccepts⟩
  | false =>
      obtain ⟨k, rfl, hl, hr, hrk⟩ := hnear
      refine ⟨k, hl.near, hrk, haccepts.mono ?_⟩
      have hle := Tree.excess_le_one hl
      rw [hr, if_neg Bool.false_ne_true]
      omega

theorem fits_right (h : p.Fits (.node l i m r)) (hl : m = true → l.isRed = false) :
    (Path.child false i m l p).Fits r := by
  obtain ⟨n, hnear, haccepts⟩ := h
  cases m with
  | true =>
      rw [excess_red_eq hnear.1, excess_eq_zero (hl rfl)] at haccepts
      refine ⟨n, hnear.2.2.near, ?_⟩
      rw [excess_eq_zero hnear.2.1]
      exact ⟨Nat.zero_le 1, hl rfl, hnear.1, haccepts⟩
  | false =>
      obtain ⟨k, rfl, hlk, hr, hrk⟩ := hnear
      refine ⟨k, hrk.near, ?_⟩
      rw [excess_eq_zero hr]
      exact ⟨Nat.zero_le 1, hlk, haccepts.mono (by split <;> exact Nat.zero_le _)⟩

/-- The step to the left where both children of a red node are black, and the left
one bare. -/
theorem exists_stepLeft_bare (h : t.Holds (p.plug (.node l i true r)))
    (hfits : p.Fits (.node l i true r)) (hl : l ≠ .nil) (hred : l.isRed = false)
    (hleft : l.left.isRed = false) :
    ∃ t' j mj sib U', moveRedLeft t i = some (t', j) ∧
      t.Rearranges (p.plug (.node l i true r)) t' ((Path.child true j mj sib p).plug U') ∧
      StepsLeft p l i true r j mj sib U' := by
  obtain ⟨n, ⟨hln, hr, hrn⟩, haccepts⟩ := hfits
  rw [excess_red_eq hln, excess_eq_zero hred] at haccepts
  obtain ⟨k, a, x, b, rfl, rfl, ha, hb, hbk⟩ := exists_black hln hred hl
  obtain ⟨k', c, y, d, hk, rfl, hc, hd, hdk⟩ := exists_black hrn hr (ne_nil_of_leaning hrn)
  obtain rfl := Nat.succ.inj hk
  have hx : (Tree.node a x true b).Leaning k := ⟨hleft, hb, ha, hbk⟩
  by_cases hcred : c.isRed = true
  · obtain ⟨e, z, f, rfl⟩ := exists_red hcred
    obtain ⟨he, hf, hek, hfk⟩ := hc
    obtain ⟨t', hrun, hre⟩ := exists_moveRedLeft_rotated h
    have hi : (Tree.node (.node a x true b) i false e).Leaning (k + 1) :=
      Tree.leaning_black.mpr ⟨hx, he, hek⟩
    have hfits' : (Path.child true z true (.node f y false d) p).Fits
        (.node (.node a x true b) i false e) :=
      ⟨k + 1, hi.near, Nat.zero_le 1, rfl, Tree.leaning_black.mpr ⟨hfk, hd, hdk⟩, haccepts⟩
    refine ⟨t', z, true, .node f y false d, _, hrun, hre, hfits',
      (fun h => nomatch h), fun _ => ⟨Or.inr rfl, hfits'⟩, ?_, Or.inr ⟨_, _, rfl⟩⟩
    intro w hw
    simp only [mem_cons, Tree.ids_node, mem_append] at hw ⊢
    tauto
  · have hcblack := Bool.eq_false_iff.mpr hcred
    obtain ⟨t', hrun, hre⟩ := exists_moveRedLeft h hcblack
    have hfits' : (Path.child true i false (.node c y true d) p).Fits (.node a x true b) := by
      refine ⟨k, hx.near, ⟨hcblack, hd, hc, hdk⟩, haccepts.mono ?_⟩
      exact Nat.min_le_right _ _
    exact ⟨t', i, false, .node c y true d, _, hrun, hre, hfits',
      (fun h => nomatch h), fun _ => ⟨Or.inl rfl, hfits'⟩, fun _ hw => hw,
        Or.inl ⟨rfl, fun _ => rfl⟩⟩

theorem exists_stepLeft (h : t.Holds (p.plug (.node l i m r)))
    (hd : Descends p (.node l i m r)) :
    ∃ t' j mj sib U', (if isChildBare t (t.leftChild i) then moveRedLeft t i
        else some (t, i)) = some (t', j) ∧
      t.Rearranges (p.plug (.node l i m r)) t' ((Path.child true j mj sib p).plug U') ∧
      StepsLeft p l i m r j mj sib U' := by
  have hleft : t.leftChild i = l.root := by rw [leftChild, h.links]
  have hbare := isChildBare_iff (p := .child true i m r p) h
  rw [hleft]
  by_cases hchild : isChildBare t l.root = true
  · obtain ⟨hl, hred, hleftRed⟩ := hbare.mp hchild
    obtain rfl : m = true := by
      rcases hd.red with hm | hl'
      · exact hm
      · rw [show (Tree.node l i m r).left = l from rfl, hred] at hl'
        cases hl'
    obtain ⟨t', j, mj, sib, U', hrun, hre, hsteps⟩ :=
      exists_stepLeft_bare h hd.fits hl hred hleftRed
    exact ⟨t', j, mj, sib, U', (if_pos hchild).trans hrun, hre, hsteps⟩
  · have hfits := fits_left hd.fits
    refine ⟨t, i, m, r, l, if_neg hchild, Rearranges.refl h, hfits, id, fun hl => ⟨?_, hfits⟩,
      fun _ hy => hy, Or.inl ⟨rfl, id⟩⟩
    by_contra hnot
    rw [not_or, Bool.not_eq_true, Bool.not_eq_true] at hnot
    exact hchild (hbare.mpr ⟨hl, hnot⟩)

/-! ### A step to the right -/

/-- A red left child goes on top before a step to the right. -/
theorem exists_turnRight (h : t.Holds (p.plug (.node l i m r)))
    (hd : Descends p (.node l i m r)) (hl : l.isRed = true) :
    ∃ t' x mx a b, rotateRed true t i = some (t', x) ∧
      t.Rearranges (p.plug (.node l i m r)) t'
        ((Path.child false x mx a p).plug (.node b i true r)) ∧
      Descends (.child false x mx a p) (.node b i true r) ∧ b.isRed = false ∧
      ∀ y ∈ a.ids ++ [x], y ∈ l.ids := by
  obtain ⟨-, n, hnear, haccepts⟩ := hd
  obtain ⟨a, x, b, rfl⟩ := exists_red hl
  obtain ⟨t', hrun, hre⟩ := exists_rotateRed (s := true) (p := p) h
  refine ⟨t', x, m, a, b, hrun, hre, ⟨Or.inl rfl, ?_⟩, ?_, ?_⟩
  · cases m with
    | true =>
        obtain ⟨⟨ha, hb, han, hbn⟩, hr, hrn⟩ := hnear
        refine ⟨n, ⟨hbn, hr, hrn⟩, ?_⟩
        rw [excess_red_eq hbn, excess_eq_zero hb]
        exact ⟨Nat.le_refl 1, ha, han, haccepts⟩
    | false =>
        obtain ⟨k, rfl, ⟨ha, hb, hak, hbk⟩, hr, hrk⟩ := hnear
        refine ⟨k, ⟨hbk, hr, hrk⟩, ?_⟩
        rw [excess_red_eq hbk, excess_eq_zero hb]
        refine ⟨Nat.le_refl 1, hak, ?_⟩
        rw [ha]
        exact haccepts
  · cases m with
    | true => exact hnear.1.2.1
    | false =>
        obtain ⟨k, rfl, hlk, -⟩ := hnear
        exact hlk.2.1
  · intro y hy
    simp only [Tree.ids_node, mem_append, mem_cons] at hy ⊢
    tauto

/-- What is left of a subtree when the search goes on to the right: the node `i`
is left behind, or it comes below the node `j` with a red right child. -/
inductive StepsRight (p : Path Bool) (l : Tree Bool) (i : Nat) (m : Bool) (r : Tree Bool) :
    Nat → Tree Bool → Prop
  | behind {l' r' : Tree Bool} {m' : Bool} : l'.ids = l.ids → (r' = .nil ↔ r = .nil) →
      Ready p (.node l' i m' r') → (Path.child false i m' l' p).Fits r' →
      (m' = false ∨ m' = m ∧ (r = .nil ∨ r.left.isRed = true)) →
      StepsRight p l i m r i (.node l' i m' r')
  | below {j : Nat} {a b r' : Tree Bool} : (∀ y ∈ a.ids ++ [j], y ∈ l.ids) →
      Slanted (.child false j true a p) (.node b i false r') →
      StepsRight p l i m r j (.node a j true (.node b i false r'))

theorem ready_of_fits (hr : r ≠ .nil) (hred : r.isRed = true ∨ r.left.isRed = true)
    (hfits : (Path.child false i m l p).Fits r) : Ready p (.node l i m r) :=
  ⟨fun h => absurd h hr, fun _ => ⟨hred, hfits⟩⟩

/-- The step to the right where both children of a red node are black, and the
right one bare. -/
theorem exists_stepRight_bare (h : t.Holds (p.plug (.node l i true r)))
    (hfits : p.Fits (.node l i true r)) (hred : l.isRed = false) (hr : r ≠ .nil)
    (hleft : r.left.isRed = false) :
    ∃ t' j T', moveRedRight t i = some (t', j) ∧
      t.Rearranges (p.plug (.node l i true r)) t' (p.plug T') ∧
      StepsRight p l i true r j T' := by
  obtain ⟨n, ⟨hln, hrred, hrn⟩, haccepts⟩ := hfits
  rw [excess_red_eq hln, excess_eq_zero hred] at haccepts
  obtain ⟨k, c, y, d, rfl, rfl, hc, hd, hdk⟩ := exists_black hrn hrred hr
  obtain ⟨k', a, x, b, hk, rfl, ha, hb, hbk⟩ := exists_black hln hred (ne_nil_of_leaning hln)
  obtain rfl := Nat.succ.inj hk
  have hy : (Tree.node c y true d).Leaning k := ⟨hleft, hd, hc, hdk⟩
  by_cases hared : a.isRed = true
  · obtain ⟨e, z, f, rfl⟩ := exists_red hared
    obtain ⟨he, hf, hek, hfk⟩ := ha
    obtain ⟨t', hrun, hre⟩ := exists_moveRedRight_rotated h
    refine ⟨t', x, _, hrun, hre, .below ?_ ⟨hb, rfl, k, hbk, hy, Nat.zero_le 1, rfl,
      Tree.leaning_black.mpr ⟨hek, hf, hfk⟩, haccepts⟩⟩
    intro w hw
    simp only [Tree.ids_node, mem_append, mem_cons] at hw ⊢
    tauto
  · have hablack := Bool.eq_false_iff.mpr hared
    obtain ⟨t', hrun, hre⟩ := exists_moveRedRight h hablack
    have hfits' : (Path.child false i false (.node a x true b) p).Fits (.node c y true d) :=
      ⟨k, hy.near, Tree.excess_le_one hy, ⟨hablack, hb, ha, hbk⟩,
        haccepts.mono (Tree.excess_le_one hy)⟩
    exact ⟨t', i, _, hrun, hre, .behind rfl ⟨(fun h => nomatch h), (fun h => nomatch h)⟩
      (ready_of_fits (fun h => nomatch h) (Or.inl rfl) hfits') hfits' (Or.inl rfl)⟩

theorem exists_stepRight (h : t.Holds (p.plug (.node l i m r)))
    (hU : Descends p (.node l i m r) ∨ Slanted p (.node l i m r)) (hl : l.isRed = false) :
    ∃ t' j T', (if isChildBare t (t.rightChild i) then moveRedRight t i
        else some (t, i)) = some (t', j) ∧
      t.Rearranges (p.plug (.node l i m r)) t' (p.plug T') ∧
      StepsRight p l i m r j T' := by
  have hright : t.rightChild i = r.root := by rw [rightChild, h.links]
  have hbare := isChildBare_iff (p := .child false i m l p) h
  rw [hright]
  rcases hU with hd | hslanted
  · obtain rfl : m = true := by
      rcases hd.red with hm | hl'
      · exact hm
      · rw [show (Tree.node l i m r).left = l from rfl, hl] at hl'
        cases hl'
    by_cases hchild : isChildBare t r.root = true
    · obtain ⟨hr, -, hleftRed⟩ := hbare.mp hchild
      obtain ⟨t', j, T', hrun, hre, hsteps⟩ := exists_stepRight_bare h hd.fits hl hr hleftRed
      exact ⟨t', j, T', (if_pos hchild).trans hrun, hre, hsteps⟩
    · have hfits := fits_right hd.fits fun _ => hl
      obtain ⟨n, ⟨hln, hrred, hrn⟩, haccepts⟩ := hd.fits
      have hor : r = .nil ∨ r.left.isRed = true := by
        by_contra hnot
        rw [not_or, Bool.not_eq_true] at hnot
        exact hchild (hbare.mpr ⟨hnot.1, hrred, hnot.2⟩)
      refine ⟨t, i, _, if_neg hchild, Rearranges.refl h, .behind rfl Iff.rfl ⟨?_, ?_⟩ hfits
        (Or.inr ⟨rfl, hor⟩)⟩
      · rintro rfl
        obtain rfl : n = 0 := hrn
        refine ⟨?_, haccepts.mono (Nat.zero_le _)⟩
        by_contra hne
        obtain ⟨k, -, -, -, hk, -⟩ := exists_black hln hl hne
        exact Nat.succ_ne_zero k hk.symm
      · exact fun hr => ⟨Or.inr (hor.resolve_left hr), hfits⟩
  · cases m with
    | true => exact hslanted.elim
    | false =>
        obtain ⟨-, hrred, n, hln, hrn, haccepts⟩ := hslanted
        have hr : r ≠ .nil := by
          rintro rfl
          cases hrred
        have hchild : ¬ isChildBare t r.root = true := by
          intro hchild
          have hblack := (hbare.mp hchild).2.1
          rw [hrred] at hblack
          cases hblack
        have hfits : (Path.child false i false l p).Fits r := by
          refine ⟨n, hrn.near, Tree.excess_le_one hrn, hln, ?_⟩
          rw [hl]
          exact haccepts
        exact ⟨t, i, _, if_neg hchild, Rearranges.refl h, .behind rfl Iff.rfl
          (ready_of_fits hr (Or.inl hrred) hfits) hfits (Or.inl rfl)⟩

/-! ### Painting the old root -/

/-- The old root is painted black where it is the root or black. -/
theorem exists_paint (h : t.Holds (p.plug U)) (hj : p.Keeps j) (hred : t.isRed j = true) :
    ∃ p' : Path Bool, t.Rearranges (p.plug U) (t.setIsRed j false) (p'.plug U) ∧
      (∀ c n, p.Accepts c n → p'.Accepts c n) ∧ p'.parent = p.parent := by
  induction p generalizing U with
  | root => exact hj.elim
  | child s i m sib up ih =>
      have hup : t.Holds (up.plug (.join s U i m sib)) := h
      have hmark : t.isRed i = m := hup.mark_join
      rcases hj with ⟨rfl, hor⟩ | hj
      · obtain rfl : m = true := hmark.symm.trans hred
        obtain rfl : up = .root := hor.resolve_left fun h => nomatch h
        refine ⟨.child s i false sib .root, (Rearranges.refl hup).setMark false, ?_, rfl⟩
        rintro c n ⟨hle, -, hsib, -⟩
        cases s with
        | true => exact ⟨hsib, trivial⟩
        | false => exact ⟨hle, hsib, trivial⟩
      · obtain ⟨up', hre, haccepts, hparent⟩ := ih hup hj
        exact ⟨.child s i m sib up', hre, fun c n hc => hc.congr haccepts, rfl⟩

theorem Fits.congr {p' : Path Bool} (h : p.Fits U)
    (haccepts : ∀ c n, p.Accepts c n → p'.Accepts c n) : p'.Fits U := by
  obtain ⟨n, hnear, hn⟩ := h
  exact ⟨n, hnear, haccepts _ _ hn⟩

theorem Ready.congr {p' : Path Bool} (h : Ready p U)
    (haccepts : ∀ c n, p.Accepts c n → p'.Accepts c n) : Ready p' U := by
  cases U with
  | nil => exact h
  | node l i m r =>
      refine ⟨fun hr => ⟨(h.1 hr).1, haccepts _ _ (h.1 hr).2⟩, fun hr => ?_⟩
      exact ⟨(h.2 hr).red, Fits.congr (h.2 hr).fits fun c n hc => hc.congr haccepts⟩

/-! ### Walking to the left -/

/-- The node `j` is kept above, or the walk is at it. -/
def KeepsLeft (j : Nat) (p : Path Bool) (U : Tree Bool) : Prop :=
  p.Keeps j ∨ ∃ l m r, U = .node l j m r ∧ (p = .root ∨ m = false)

theorem StepsLeft.keepsLeft {mj : Bool} {x : Nat} (h : StepsLeft p l i m r j mj sib U)
    (hx : KeepsLeft x p (.node l i m r)) :
    KeepsLeft x (.child true j mj sib p) U := by
  rcases hx with hx | ⟨l, m, r, heq, hx⟩
  · exact Or.inl (Or.inr hx)
  · cases heq
    rcases h.behind with ⟨rfl, hmj⟩ | ⟨l', r', rfl⟩
    · refine Or.inl (Or.inl ⟨rfl, ?_⟩)
      rcases hx with hx | hx
      · exact Or.inr hx
      · exact Or.inl (hmj hx)
    · exact Or.inr ⟨l', false, r', rfl, Or.inr rfl⟩

theorem exists_walkLeftLoop (h : t.Holds (p.plug U)) (hd : Descends p U)
    (hi : U.root = some i) {fuel : Nat} (hfuel : U.ids.length < fuel) :
    ∃ t' j q, loopUntil (fun w => w.node.map fun n => (w.tree.leftChild n).isNone)
        walkLeftStep fuel ⟨t, some i⟩ = some ⟨t', some j⟩ ∧
      t.Rearranges (p.plug U) t' (q.plug (.node .nil j true .nil)) ∧
      q.Accepts 1 0 ∧ q.before = p.before ∧
      ∀ x, KeepsLeft x p U → KeepsLeft x q (.node .nil j true .nil) := by
  induction fuel generalizing t p U i with
  | zero => exact absurd hfuel (Nat.not_lt_zero _)
  | succ fuel ih =>
      obtain ⟨l, m, r, rfl⟩ := Tree.eq_join true hi
      have hleft : t.leftChild i = l.root := h.child_join
      by_cases hl : l = .nil
      · subst hl
        obtain ⟨hred, n, hnear, haccepts⟩ := hd
        obtain rfl : m = true := hred.resolve_right fun h => nomatch h
        obtain ⟨hn, hr, hrn⟩ := hnear
        obtain rfl : n = 0 := hn
        obtain rfl : r = .nil := by
          by_contra hne
          obtain ⟨k, -, -, -, hk, -⟩ := exists_black hrn hr hne
          exact Nat.succ_ne_zero k hk.symm
        refine ⟨t, i, p, loopUntil_of_stop ?_, Rearranges.refl h, haccepts, rfl,
          fun _ hx => hx⟩
        show some (t.leftChild i).isNone = some true
        rw [hleft]
        rfl
      · obtain ⟨t₁, j, mj, sib, U', hrun, hre, hsteps⟩ := exists_stepLeft h hd
        have hU' : U' ≠ .nil := fun hnil => hl (hsteps.nil hnil)
        obtain ⟨i', hi'⟩ : ∃ i', U'.root = some i' := by
          cases U' with
          | nil => exact absurd rfl hU'
          | node l' i' m' r' => exact ⟨i', rfl⟩
        have hshort : U'.ids.length < (Tree.node l i m r).ids.length := by
          have hids := congrArg length hre.ids
          rw [Path.plug_child, Path.ids_plug, Path.ids_plug] at hids
          simp only [Tree.join_true, Tree.ids_node, length_append,
            length_cons] at hids ⊢
          omega
        obtain ⟨t', j', q, hloop, hre', haccepts, hbefore, hkeeps⟩ :=
          ih hre.holds (hsteps.descends hU') hi' (by
            rw [Tree.join_true] at hfuel
            omega)
        have hchild : t₁.leftChild j = some i' :=
          (Holds.child_join (p := p) hre.holds).trans hi'
        refine ⟨t', j', q, (loopUntil_of_go ?_ ?_).trans hloop, hre.trans hre', haccepts,
          hbefore, fun x hx => hkeeps x (hsteps.keepsLeft hx)⟩
        · show some (t.leftChild i).isNone = some false
          rw [hleft]
          cases l with
          | nil => exact absurd rfl hl
          | node => rfl
        · unfold walkLeftStep
          exact bind_of_some rfl (bind_of_some hrun (bind_of_some hchild rfl))

theorem exists_walkLeft (h : t.Holds (p.plug U)) (hd : Descends p U)
    (hi : U.root = some i) :
    ∃ t' j q, walkLeft t i = some (t', j) ∧
      t.Rearranges (p.plug U) t' (q.plug (.node .nil j true .nil)) ∧
      q.Accepts 1 0 ∧ q.before = p.before ∧
      ∀ x, KeepsLeft x p U → KeepsLeft x q (.node .nil j true .nil) := by
  have hlength : U.ids.length < t.created + 1 := by
    have hle := h.length_le
    rw [Path.ids_plug, length_append, length_append] at hle
    omega
  obtain ⟨t', j, q, hloop, hrest⟩ := exists_walkLeftLoop h hd hi hlength
  exact ⟨t', j, q, bind_of_some hloop rfl, hrest⟩

end LeftLeaningTree

end Gobo
