/-
`fix_up`: on the way up from a place that accepts the subtree put there, every
turn leaves a subtree that the place above accepts.
-/
import Gobo.LeftLeaningTree

namespace Gobo

open LinkedTree

namespace LeftLeaningTree

variable {t : LinkedTree Bool} {p up : Path Bool} {a b c d l r sib T : Tree Bool}
  {s : Bool} {i x y n k : Nat} {m mx my : Bool}

/-! ### Basic operations -/

theorem exists_flipColors
    (h : t.Holds (p.plug (.node (.node a x mx b) i m (.node c y my d)))) :
    ∃ t', flipColors t i = some t' ∧
      t.Rearranges (p.plug (.node (.node a x mx b) i m (.node c y my d))) t'
        (p.plug (.node (.node a x (!mx) b) i (!m) (.node c y (!my) d))) := by
  have hi := @Rearranges.setMark Bool t t _ p true (.join true a x mx b)
    (.join true c y my d) i m (Rearranges.refl h) (!m)
  have hx := hi.setMark_child (!mx)
  have hy := hx.setMark_other (!my)
  refine ⟨_, ?_, hy⟩
  have hleft : t.leftChild i = some x := by
    rw [leftChild, h.links]
    rfl
  have hright : t.rightChild i = some y := by
    rw [rightChild, h.links]
    rfl
  have hredi : t.isRed i = m := by
    rw [LinkedTree.isRed, mark, h.links]
  have hredx : (t.setIsRed i (!m)).isRed x = mx :=
    Holds.mark_join (p := .child true i (!m) (.join true c y my d) p) hi.holds
  have hredy : ((t.setIsRed i (!m)).setIsRed x (!mx)).isRed y = my :=
    Holds.mark_join (p := .child false i (!m) (.join true a x (!mx) b) p) hx.holds
  rw [flipColors, hleft, hright]
  simp only [some_bind, hredi, hredx, hredy]
  rfl

/-- A rotation and the colors after it. -/
theorem exists_rotateColored
    (h : t.Holds (p.plug (.join s (.join s a x true b) i m c))) :
    ∃ t₁ t', t.rotate s x = some t₁ ∧ t₁.child (!s) x = some i ∧
      setColorsAfterRotation t₁ i = some t' ∧
      t.Rearranges (p.plug (.join s (.join s a x true b) i m c)) t'
        (p.plug (.join s a x m (.join s b i true c))) := by
  obtain ⟨t₁, hrun, hre⟩ := exists_rotate h
  have hholds := hre.holds
  have hchild : t₁.child (!s) x = some i :=
    hholds.child_join_not.trans (Tree.root_join _ _ _ _ _)
  rw [← Tree.join_not] at hholds
  have hparent : t₁.parent i = some x :=
    Holds.parent_eq (p := .child (!s) x true a p) hholds (Tree.root_join _ _ _ _ _)
  have hred : t₁.isRed i = m := Holds.mark_join (p := .child (!s) x true a p) hholds
  refine ⟨t₁, _, hrun, hchild, ?_, (hre.setMark m).setMark_other true⟩
  rw [setColorsAfterRotation, hparent, hred]
  rfl

theorem exists_rotateRed (h : t.Holds (p.plug (.join s (.join s a x true b) i m c))) :
    ∃ t', rotateRed s t i = some (t', x) ∧
      t.Rearranges (p.plug (.join s (.join s a x true b) i m c)) t'
        (p.plug (.join s a x m (.join s b i true c))) := by
  obtain ⟨t₁, t', hrotate, -, hcolors, hre⟩ := exists_rotateColored h
  have hchild : t.child s i = some x := h.child_join.trans (Tree.root_join _ _ _ _ _)
  have hparent : t'.parent i = some x := by
    have hholds := hre.holds
    rw [← Tree.join_not] at hholds
    exact Holds.parent_eq (p := .child (!s) x m a p) hholds (Tree.root_join _ _ _ _ _)
  refine ⟨t', ?_, hre⟩
  exact bind_of_some hchild (bind_of_some (bind_of_some hrotate hcolors)
    (bind_of_some hparent rfl))

/-! ### One turn of `fix_up` -/

theorem isNodeRed_children (h : t.Holds (p.plug (.node l i m r))) :
    t.isNodeRed (t.leftChild i) = l.isRed ∧ t.isNodeRed (t.rightChild i) = r.isRed :=
  Holds.isNodeRed_child (s := true) h

theorem isNodeRed_leftLeft (h : t.Holds (p.plug (.node l i m r))) :
    t.isNodeRed ((t.leftChild i).bind t.leftChild) = l.left.isRed := by
  have hleft : t.leftChild i = l.root := by rw [leftChild, h.links]
  rw [hleft]
  cases l with
  | nil => rfl
  | node ll j mj lr =>
      exact (isNodeRed_children (p := .child true i m r p) (l := ll) (i := j) h).1

section

variable (h : t.Holds (p.plug T)) (hi : T.root = some i)

include h hi

/-- A red right child goes on top. -/
theorem exists_lean :
    ∃ t' j, (if t.isNodeRed (t.rightChild i) then rotateRed false t i else some (t, i)) =
        some (t', j) ∧ T.lean.root = some j ∧ t.Rearranges (p.plug T) t' (p.plug T.lean) := by
  obtain ⟨l, m, r, rfl⟩ := Tree.eq_join true hi
  rw [(isNodeRed_children h).2]
  by_cases hr : r.isRed = true
  · rw [if_pos hr]
    cases r with
    | nil => cases hr
    | node c x mx d =>
        obtain rfl : mx = true := hr
        obtain ⟨t', hrun, hre⟩ := exists_rotateRed (s := false) (a := d) (b := c) (c := l) h
        exact ⟨t', x, hrun, rfl, hre⟩
  · have hlean : (Tree.join true l i m r).lean = .join true l i m r :=
      Tree.lean_of_black (Bool.eq_false_iff.mpr hr)
    rw [if_neg hr, hlean]
    exact ⟨t, i, rfl, rfl, Rearranges.refl h⟩

/-- Of two red nodes in a row on the left, the upper one goes on top. -/
theorem exists_split :
    ∃ t' j, (if t.isNodeRed (t.leftChild i) ∧
          t.isNodeRed ((t.leftChild i).bind t.leftChild) then rotateRed true t i
        else some (t, i)) = some (t', j) ∧ T.split.root = some j ∧
      t.Rearranges (p.plug T) t' (p.plug T.split) := by
  obtain ⟨l, m, r, rfl⟩ := Tree.eq_join true hi
  rw [(isNodeRed_children h).1, isNodeRed_leftLeft h]
  by_cases hl : l.isRed = true ∧ l.left.isRed = true
  · rw [if_pos hl]
    rcases l with _ | ⟨_ | ⟨a, z, mz, b⟩, x, mx, d⟩
    · cases hl.1
    · cases hl.2
    · obtain rfl : mx = true := hl.1
      obtain rfl : mz = true := hl.2
      obtain ⟨t', hrun, hre⟩ := exists_rotateRed (s := true) (b := d) (c := r) h
      exact ⟨t', x, hrun, rfl, hre⟩
  · have hsplit : (Tree.join true l i m r).split = .join true l i m r :=
      Tree.split_of_black hl
    rw [if_neg hl, hsplit]
    exact ⟨t, i, rfl, rfl, Rearranges.refl h⟩

/-- Two red children become black. -/
theorem exists_flip :
    ∃ t', (if t.isNodeRed (t.leftChild i) ∧ t.isNodeRed (t.rightChild i) then
        flipColors t i else some t) = some t' ∧ T.flip.root = some i ∧
      t.Rearranges (p.plug T) t' (p.plug T.flip) := by
  obtain ⟨l, m, r, rfl⟩ := Tree.eq_join true hi
  rw [(isNodeRed_children h).1, (isNodeRed_children h).2]
  by_cases hboth : l.isRed = true ∧ r.isRed = true
  · rw [if_pos hboth]
    rcases l with _ | ⟨a, x, mx, b⟩
    · cases hboth.1
    · rcases r with _ | ⟨c, y, my, d⟩
      · cases hboth.2
      · obtain rfl : mx = true := hboth.1
        obtain rfl : my = true := hboth.2
        obtain ⟨t', hrun, hre⟩ := exists_flipColors h
        exact ⟨t', hrun, rfl, hre⟩
  · have hflip : (Tree.join true l i m r).flip = .join true l i m r :=
      Tree.flip_of_black hboth
    rw [if_neg hboth, hflip]
    exact ⟨t, rfl, rfl, Rearranges.refl h⟩

theorem exists_fixUpStep :
    ∃ t', fixUpStep ⟨t, some i⟩ = some ⟨t', p.parent⟩ ∧
      t.Rearranges (p.plug T) t' (p.plug T.lean.split.flip) := by
  obtain ⟨t₁, j₁, hrun₁, hroot₁, hre₁⟩ := exists_lean h hi
  obtain ⟨t₂, j₂, hrun₂, hroot₂, hre₂⟩ := exists_split hre₁.holds hroot₁
  obtain ⟨t₃, hrun₃, hroot₃, hre₃⟩ := exists_flip hre₂.holds hroot₂
  refine ⟨t₃, ?_, (hre₁.trans hre₂).trans hre₃⟩
  unfold fixUpStep
  refine bind_of_some rfl (bind_of_some hrun₁
    (bind_of_some hrun₂ (bind_of_some hrun₃ ?_)))
  exact congrArg (fun q => some (Walk.mk t₃ q)) (hre₃.holds.parent_eq hroot₃)

end

theorem excess_red_le : (Tree.node l i true r).excess ≤ l.excess + 1 := by
  rcases l with _ | ⟨a, x, _ | _, b⟩
  · exact Nat.le_refl 1
  · exact Nat.le_refl 1
  · show 2 ≤ (if a.isRed then 2 else 1) + 1
    split <;> omega

theorem excess_eq_zero (h : T.isRed = false) : T.excess = 0 := by
  rcases T with _ | ⟨a, x, _ | _, b⟩
  · rfl
  · rfl
  · cases h

theorem one_le_excess (h : T.isRed = true) : 1 ≤ T.excess := by
  rcases T with _ | ⟨a, x, _ | _, b⟩
  · cases h
  · cases h
  · show 1 ≤ if a.isRed then 2 else 1
    split <;> omega

theorem exists_red (h : T.isRed = true) : ∃ a x b, T = .node a x true b := by
  rcases T with _ | ⟨a, x, _ | _, b⟩
  · cases h
  · cases h
  · exact ⟨a, x, b, rfl⟩

/-- Nothing has to be done where the right child is black and the left one has
no excess. -/
theorem split_flip_eq_self (hr : r.isRed = false) (hl : l.excess ≤ 1) :
    (Tree.node l i m r).split.flip = .node l i m r := by
  rw [Tree.split_of_black, Tree.flip_of_black]
  · rintro ⟨-, hred⟩
    rw [hr] at hred
    cases hred
  · rintro ⟨hred, hleft⟩
    obtain ⟨a, x, b, rfl⟩ := exists_red hred
    have hexcess : (if a.isRed then 2 else 1) ≤ 1 := hl
    rw [if_pos (show a.isRed = true from hleft)] at hexcess
    omega

/-- A black node with two red children hands its color down. -/
theorem fits_of_flip (hl : (Tree.node a x true b).Near n) (hr : (Tree.node c y true d).Near n)
    (hup : up.Accepts k (n + 1)) (hk : 1 ≤ k) :
    up.Fits (.node (.node a x false b) i true (.node c y false d)) :=
  ⟨n + 1, ⟨Tree.leaning_black.mpr hl, rfl, Tree.leaning_black.mpr hr⟩, hup.mono hk⟩

theorem fits_of_black (hl : l.Leaning n) (hr : r.isRed = false) (hrn : r.Leaning n)
    (hup : up.Accepts k (n + 1)) : up.Fits (.node l i false r) :=
  ⟨n + 1, Tree.Leaning.near (Tree.leaning_black.mpr ⟨hl, hr, hrn⟩), hup.mono (Nat.zero_le k)⟩

/-- One turn of `fix_up` at a red node. -/
theorem fits_step_red (h : (Path.child s i true sib up).Fits T) :
    up.Fits (Tree.join s T i true sib).lean.split.flip := by
  obtain ⟨n, hnear, hle, hred, hsib, hup⟩ := h
  have hT := hnear.leaning hle
  cases s with
  | true =>
      rw [Tree.join_true, Tree.lean_of_black hred, split_flip_eq_self hred hle]
      exact ⟨n, ⟨hT, hred, hsib⟩, hup.mono excess_red_le⟩
  | false =>
      rw [Tree.join_false]
      by_cases hTred : T.isRed = true
      · obtain ⟨a, x, b, rfl⟩ := exists_red hTred
        obtain ⟨ha, hb, han, hbn⟩ := hT
        have hleft : (Tree.node sib i true a).Leaning n := ⟨hred, ha, hsib, han⟩
        have heq : (Tree.node sib i true (.node a x true b)).lean.split.flip =
            .node (.node sib i true a) x true b :=
          split_flip_eq_self hb (Tree.excess_le_one hleft)
        rw [heq]
        refine ⟨n, ⟨hleft, hb, hbn⟩, hup.mono ?_⟩
        have hone := one_le_excess hTred
        exact Nat.succ_le_succ hone
      · have hTblack := Bool.eq_false_iff.mpr hTred
        rw [Tree.lean_of_black hTblack,
          split_flip_eq_self hTblack (excess_eq_zero hred ▸ Nat.zero_le 1)]
        refine ⟨n, ⟨hsib, hTblack, hT⟩, hup.mono ?_⟩
        rw [Tree.excess, hred]
        exact Nat.le_add_left _ _

/-- One turn of `fix_up` at a black node, coming from the left. -/
theorem fits_step_left (h : (Path.child true i false sib up).Fits T) :
    up.Fits (Tree.node T i false sib).lean.split.flip := by
  obtain ⟨n, hnear, hsib, hup⟩ := h
  by_cases hred : sib.isRed = true
  · rw [if_pos hred] at hup
    obtain ⟨a, x, b, rfl⟩ := exists_red hred
    obtain ⟨ha, hb, han, hbn⟩ := hsib
    by_cases hTred : T.isRed = true
    · obtain ⟨e, y, f, rfl⟩ := exists_red hTred
      have hone := one_le_excess hTred
      exact fits_of_flip hnear ⟨han, hb, hbn⟩ hup (Nat.le_min.mpr ⟨hone, Nat.le_refl 1⟩)
    · have hTblack := Bool.eq_false_iff.mpr hTred
      have hT := hnear.leaning (excess_eq_zero hTblack ▸ Nat.zero_le 1)
      have hleft : (Tree.node T i true a).Leaning n := ⟨hTblack, ha, hT, han⟩
      have heq : (Tree.node T i false (.node a x true b)).lean.split.flip =
          .node (.node T i true a) x false b :=
        split_flip_eq_self hb (Tree.excess_le_one hleft)
      rw [heq]
      exact fits_of_black hleft hb hbn hup
  · have hblack := Bool.eq_false_iff.mpr hred
    rw [if_neg hred] at hup
    rw [Tree.lean_of_black hblack]
    by_cases hexcess : T.excess ≤ 1
    · rw [split_flip_eq_self hblack hexcess]
      exact fits_of_black (hnear.leaning hexcess) hblack hsib hup
    · rcases T with _ | ⟨_ | ⟨a, z, mz, b⟩, x, _ | _, d⟩
      · exact absurd (Nat.zero_le 1) hexcess
      · exact absurd (Nat.zero_le 1) hexcess
      · exact absurd (Nat.le_refl 1) hexcess
      · exact absurd (Nat.zero_le 1) hexcess
      · cases mz with
        | false => exact absurd (Nat.le_refl 1) hexcess
        | true =>
            exact fits_of_flip hnear.1.near ⟨hnear.2.2, hblack, hsib⟩ hup (Nat.le_refl 1)

/-- One turn of `fix_up` at a black node, coming from the right. -/
theorem fits_step_right (h : (Path.child false i false sib up).Fits T) :
    up.Fits (Tree.node sib i false T).lean.split.flip := by
  obtain ⟨n, hnear, hle, hsib, hup⟩ := h
  have hT := hnear.leaning hle
  by_cases hTred : T.isRed = true
  · have hone := one_le_excess hTred
    obtain ⟨a, x, b, rfl⟩ := exists_red hTred
    obtain ⟨ha, hb, han, hbn⟩ := hT
    by_cases hred : sib.isRed = true
    · rw [if_pos hred] at hup
      obtain ⟨e, y, f, rfl⟩ := exists_red hred
      exact fits_of_flip hsib.near hnear hup hone
    · have hleft : (Tree.node sib i true a).Leaning n :=
        ⟨Bool.eq_false_iff.mpr hred, ha, hsib, han⟩
      have heq : (Tree.node sib i false (.node a x true b)).lean.split.flip =
          .node (.node sib i true a) x false b :=
        split_flip_eq_self hb (Tree.excess_le_one hleft)
      rw [heq]
      exact fits_of_black hleft hb hbn hup
  · have hTblack := Bool.eq_false_iff.mpr hTred
    rw [Tree.lean_of_black hTblack, split_flip_eq_self hTblack (Tree.excess_le_one hsib)]
    exact fits_of_black hsib hTblack hT hup

/-- One turn of `fix_up` hands a subtree to the place above that it accepts. -/
theorem fits_step (h : (Path.child s i m sib up).Fits T) :
    up.Fits (Tree.join s T i m sib).lean.split.flip := by
  cases m with
  | true => exact fits_step_red h
  | false =>
      cases s with
      | true => exact fits_step_left h
      | false => exact fits_step_right h

/-! ### The whole way up -/

theorem exists_fixUpLoop (h : t.Holds (p.plug T)) (hfits : p.Fits T) {fuel : Nat}
    (hfuel : p.depth < fuel) :
    ∃ t' T', loopUntil (fun w => some (w.node == none)) fixUpStep fuel ⟨t, p.parent⟩ =
        some ⟨t', none⟩ ∧ t.Rearranges (p.plug T) t' T' ∧ ∃ n, T'.Near n := by
  induction p generalizing t T fuel with
  | root =>
      obtain ⟨fuel, rfl⟩ := Nat.exists_eq_succ_of_ne_zero (Nat.ne_of_gt hfuel)
      obtain ⟨n, hnear, -⟩ := hfits
      exact ⟨t, T, loopUntil_of_stop rfl, Rearranges.refl h, n, hnear⟩
  | child s i m sib up ih =>
      obtain ⟨fuel, rfl⟩ := Nat.exists_eq_succ_of_ne_zero
        (Nat.ne_of_gt (Nat.zero_lt_of_lt hfuel))
      obtain ⟨t₁, hstep, hre⟩ := exists_fixUpStep (p := up) h (Tree.root_join _ _ _ _ _)
      obtain ⟨t', T', hrun, hre', hT'⟩ := ih hre.holds (fits_step hfits)
        (Nat.lt_of_succ_lt_succ hfuel)
      refine ⟨t', T', (loopUntil_of_go ?_ hstep).trans hrun, hre.trans hre', hT'⟩
      rfl

/-- After `fix_up` the root is painted black. -/
theorem exists_fixUp (h : t.Holds ((Path.child s i m sib up).plug T))
    (hfits : (Path.child s i m sib up).Fits T) {root : Nat} (hroot : t.rootNode = some root) :
    ∃ t₁ root' T', fixUp t i root = some t₁ ∧ t₁.rootNode = some root' ∧
      t.Rearranges ((Path.child s i m sib up).plug T) (t₁.setIsRed root' false) T' ∧
      T'.IsLeaning := by
  have hparent : t.parent root = none := by
    have hholds : t.Holds (Path.root.plug ((Path.child s i m sib up).plug T)) := h
    exact hholds.parent_eq (h.root.symm.trans hroot)
  obtain ⟨t₁, T₁, hrun, hre, n, hnear⟩ := exists_fixUpLoop h hfits h.depth_le
  cases T₁ with
  | nil =>
      have hmem : i ∈ ((Path.child s i m sib up).plug T).ids := by
        simp [Path.mem_ids_plug_join]
      rw [← hre.ids] at hmem
      exact absurd hmem List.not_mem_nil
  | node l j mj r =>
      have hpaint := @Rearranges.setMark Bool t t₁ _ .root true l r j mj hre false
      obtain ⟨k, hk⟩ := hnear.blacken
      refine ⟨t₁, j, _, ?_, hre.holds.root, hpaint, rfl, k, hk⟩
      rw [fixUp, hparent]
      exact bind_of_some hrun rfl

theorem exists_fixUpToRoot (h : t.Holds ((Path.child s i m sib up).plug T))
    (hfits : (Path.child s i m sib up).Fits T) :
    ∃ t' T', fixUpToRoot t i = some t' ∧
      t.Rearranges ((Path.child s i m sib up).plug T) t' T' ∧ T'.IsLeaning := by
  obtain ⟨root, -, hroot⟩ := Path.root_plug_mem (p := .child s i m sib up) rfl T
  obtain ⟨t₁, root', T', hrun, hroot', hre, hT'⟩ := exists_fixUp h hfits (h.root.trans hroot)
  refine ⟨_, T', ?_, hre, hT'⟩
  exact bind_of_some (h.root.trans hroot)
    (bind_of_some hrun (bind_of_some hroot' rfl))

/-- A new node is put in order from itself upwards. -/
theorem exists_onNodeAdded (hleaning : (p.plug .nil).IsLeaning)
    (h : t.Holds (p.plug (.node .nil n true .nil))) :
    ∃ t' T', onNodeAdded t n = some t' ∧
      t.Rearranges (p.plug (.node .nil n true .nil)) t' T' ∧ T'.IsLeaning := by
  obtain ⟨k, rfl, hp⟩ := Path.leaning_plug hleaning
  cases p with
  | root =>
      have hroot : t.rootNode = some n := h.root
      have hpaint := @Rearranges.setMark Bool t t _ .root true .nil .nil n true
        (Rearranges.refl h) false
      refine ⟨_, _, ?_, hpaint, rfl, 1, 0, rfl, rfl, rfl, rfl⟩
      refine bind_of_some hroot (bind_of_some (a := t) ?_ (bind_of_some hroot rfl))
      exact if_neg (not_not_intro rfl)
  | child s i m sib up =>
      have hfits : (Path.child true n true .nil (.child s i m sib up)).Fits .nil :=
        ⟨0, rfl, Nat.zero_le 1, rfl, rfl, hp.accepts⟩
      obtain ⟨root, hmem, hroot⟩ := Path.root_plug_mem (p := .child s i m sib up) rfl
        (.node .nil n true .nil)
      have hne : n ≠ root := by
        rintro rfl
        exact h.rootNode_ne rfl rfl (h.root.trans hroot)
      obtain ⟨t₁, root', T', hrun, hroot', hre, hT'⟩ :=
        @exists_fixUp t (.child s i m sib up) .nil .nil true n true h hfits root
          (h.root.trans hroot)
      refine ⟨_, T', ?_, hre, hT'⟩
      refine bind_of_some (h.root.trans hroot) (bind_of_some ((if_pos hne).trans hrun)
          (bind_of_some hroot' rfl))

end LeftLeaningTree

end Gobo
