/-
Searching a left-leaning tree for a node that is to be removed, and what this
leaves of the colors.  The old root is remembered; it is painted black at the
end, which is right unless it was demoted on the way.
-/
import Gobo.LeftLeaningSearch

namespace Gobo

open Option List LinkedTree

namespace LeftLeaningTree

variable {G K : Type} {gen : TreeGenerics G K} {key : Nat → Option K} {k : K}
  {t : LinkedTree Bool} {p q : Path Bool} {l r T U : Tree Bool} {i x : Nat} {m : Bool}

theorem isLessThan_eq (k : K) (o : Option K) :
    isLessThan gen k o = gen.order.lessThan (some k) o := by
  cases o <;> rfl

theorem isEqual_eq (k : K) (o : Option K) :
    isEqual gen k o = gen.order.equal (some k) o := by
  cases o <;> rfl

/-- The subtree where the search for `k` goes on. -/
def Standing (gen : TreeGenerics G K) (key : Nat → Option K) (k : K) (p : Path Bool) :
    Tree Bool → Prop
  | .nil => p.Fits .nil
  | .node l i m r => Descends p (.node l i m r) ∨
      Slanted p (.node l i m r) ∧ gen.order.lessThan (some k) (key i) = false

/-- The node `x` is kept above, or the search is at it and will keep it or find
it. -/
def KeepsKey (gen : TreeGenerics G K) (key : Nat → Option K) (k : K) (x : Nat)
    (p : Path Bool) (U : Tree Bool) : Prop :=
  p.Keeps x ∨ ∃ l m r, U = .node l x m r ∧
    (p = .root ∧ (l.isRed = true → gen.order.lessThan (key x) (some k) = true →
        r ≠ .nil ∧ r.left.isRed = false) ∨
      m = false ∧ (gen.order.lessThan (some k) (key x) = true ∨ l.isRed = false) ∨
      gen.order.lessThan (some k) (key x) = false ∧ l.isRed = false ∧
        (gen.order.equal (some k) (key x) = true ∨ r ≠ .nil ∧ r.left.isRed = false))

/-- The search has stopped at the node `i`. -/
structure Stops (gen : TreeGenerics G K) (key : Nat → Option K) (k : K)
    (t : LinkedTree Bool) (p : Path Bool) (U : Tree Bool) (i : Nat) (n : Search) :
    Prop where
  equality : n.equality = true
  foundNode : n.foundNode = some i
  equal : gen.order.equal (some k) (key i) = true
  rearranges : ∃ T, t.Rearranges (p.plug U) n.tree (p.plug T) ∧ T.root = some i ∧ Ready p T

/-- The search goes on in a smaller subtree. -/
structure GoesOn (gen : TreeGenerics G K) (key : Nat → Option K) (k : K)
    (t : LinkedTree Bool) (p : Path Bool) (U : Tree Bool) (n : Search) (q : Path Bool)
    (U' : Tree Bool) : Prop where
  equality : n.equality = false
  foundNode : n.foundNode = U'.root
  previous : q.parent = n.previousNode ∧ n.previousNode ≠ none
  rearranges : t.Rearranges (p.plug U) n.tree (q.plug U')
  smaller : U'.ids.length < U.ids.length
  between : TreeContainer.Between gen key (some k) q.before q.after
  standing : Standing gen key k q U'
  keeps : ∀ x, KeepsKey gen key k x p U → KeepsKey gen key k x q U'

theorem smaller_of_rearranges {s : Bool} {j : Nat} {mj : Bool} {sib U' : Tree Bool}
    {t' : LinkedTree Bool}
    (h : t.Rearranges (p.plug U) t' ((Path.child s j mj sib p).plug U')) :
    U'.ids.length < U.ids.length := by
  have hids := congrArg length h.ids
  rw [Path.plug_child, Path.ids_plug, Path.ids_plug] at hids
  cases s <;> simp only [Tree.join_true, Tree.join_false, Tree.ids_node,
    length_append, length_cons] at hids <;> omega

/-- A turn of the search that does not go to the left.  A node without a right
child is tested twice, with the same result. -/
theorem searchStep_of_not_less {t₁ t₂ : LinkedTree Bool} {j₁ j₂ : Nat}
    (hless : gen.order.lessThan (some k) (key i) = false)
    (hturn : (if t.isNodeRed (t.leftChild i) then rotateRed true t i else some (t, i)) =
      some (t₁, j₁))
    (hmove : (if isChildBare t₁ (t₁.rightChild j₁) then moveRedRight t₁ j₁
      else some (t₁, j₁)) = some (t₂, j₂)) (prev : Option Nat) :
    searchStep gen key k ⟨t, some i, prev, false⟩ =
      if gen.order.equal (some k) (key j₂) then some ⟨t₂, some j₂, prev, true⟩
      else some ⟨t₂, t₂.rightChild j₂, some j₂, false⟩ := by
  have hnot : ¬ isLessThan gen k (key i) = true := by
    rw [isLessThan_eq, hless]
    exact Bool.false_ne_true
  unfold searchStep
  simp only [some_bind, if_neg hnot, hturn]
  by_cases hleaf : isEqual gen k (key j₁) = true ∧ t₁.rightChild j₁ = none
  · rw [hleaf.2] at hmove
    obtain ⟨rfl, rfl⟩ := Prod.mk.inj
      (some.inj ((if_neg Bool.false_ne_true).symm.trans hmove))
    rw [if_pos hleaf, ← isEqual_eq, if_pos hleaf.1]
    rfl
  · rw [if_neg hleaf, hmove, some_bind, ← isEqual_eq]
    rfl

/-- A step to the left. -/
theorem exists_searchStep_left (h : t.Holds (p.plug (.node l i m r)))
    (hsorted : TreeContainer.SortedIds gen key (p.plug (.node l i m r)).ids)
    (hbetween : TreeContainer.Between gen key (some k) p.before p.after)
    (hd : Descends p (.node l i m r))
    (hless : gen.order.lessThan (some k) (key i) = true) (prev : Option Nat) :
    ∃ n q U', searchStep gen key k ⟨t, some i, prev, false⟩ = some n ∧
      GoesOn gen key k t p (.node l i m r) n q U' := by
  obtain ⟨t', j, mj, sib, U', hrun, hre, hsteps⟩ := exists_stepLeft h hd
  have hchild : t'.leftChild j = U'.root := Holds.child_join (p := p) hre.holds
  refine ⟨⟨t', U'.root, some j, false⟩, _, U', ?_, rfl, rfl, ⟨rfl, some_ne_none j⟩,
    hre, smaller_of_rearranges hre, ⟨hbetween.before, ?_⟩, ?_, ?_⟩
  · unfold searchStep
    refine bind_of_some rfl ((if_pos ?_).trans (bind_of_some hrun ?_))
    · rw [isLessThan_eq, hless]
    · exact congrArg (fun c => some (Search.mk t' c (some j) false)) hchild
  · have hright := (hbetween.left hsorted hless).after
    intro y hy
    rcases mem_append.mp (show y ∈ (j :: sib.ids) ++ p.after from hy) with hy | hy
    · apply hright
      rcases mem_cons.mp (hsteps.after y hy) with rfl | hy
      · simp [Path.after]
      · simp [Path.after, hy]
    · exact hbetween.after y hy
  · cases U' with
    | nil => exact hsteps.fits
    | node l' i' m' r' => exact Or.inl (hsteps.descends fun h => by cases h)
  · rintro x (hx | ⟨l, m, r, heq, hx⟩)
    · exact Or.inl (Or.inr hx)
    · cases heq
      rcases hsteps.behind with ⟨rfl, hmj⟩ | ⟨l', r', rfl⟩
      · refine Or.inl (Or.inl ⟨rfl, ?_⟩)
        rcases hx with hx | hx | hx
        · exact Or.inr hx.1
        · exact Or.inl (hmj hx.1)
        · rw [hless] at hx
          cases hx.1
      · exact Or.inr ⟨l', false, r', rfl, Or.inr (Or.inl ⟨rfl, Or.inl hless⟩)⟩

/-- The keys of the left subtree are less than `k`. -/
theorem less_left (hsorted : TreeContainer.SortedIds gen key (p.plug (.node l i m r)).ids)
    (hless : gen.order.lessThan (some k) (key i) = false) :
    ∀ y ∈ l.ids, gen.order.lessThan (key y) (some k) = true := by
  intro y hy
  have hyi : gen.order.lessThan (key y) (key i) = true := by
    rw [TreeContainer.SortedIds, Path.ids_plug, Tree.ids_node, ← append_assoc,
      append_assoc] at hsorted
    exact (pairwise_append.mp hsorted).2.2 y (mem_append_right _ hy) i (by simp)
  rcases gen.order.total _ (some k) _ hyi with hyk | hki
  · exact hyk
  · rw [hless] at hki
    cases hki

section

variable (h : t.Holds (p.plug (.node l i m r)))
variable (hsorted : TreeContainer.SortedIds gen key (p.plug (.node l i m r)).ids)
variable (hbetween : TreeContainer.Between gen key (some k) p.before p.after)

include h hsorted hbetween

/-- A step to the right that brings a red left child on top. -/
theorem exists_searchStep_turn (hd : Descends p (.node l i m r)) (hl : l.isRed = true)
    (hless : gen.order.lessThan (some k) (key i) = false) (prev : Option Nat) :
    ∃ n q U', searchStep gen key k ⟨t, some i, prev, false⟩ = some n ∧
      GoesOn gen key k t p (.node l i m r) n q U' := by
  obtain ⟨t', x, mx, a, b, hrun, hre, hd', hb, hmem⟩ := exists_turnRight h hd hl
  have hleft := less_left hsorted hless
  have hchild : t'.rightChild x = some i :=
    show t'.child false x = some i from Holds.child_join (p := p) hre.holds
  have hxk : gen.order.lessThan (key x) (some k) = true :=
    hleft x (hmem x (mem_append_right _ (mem_singleton_self x)))
  have hequal : gen.order.equal (some k) (key x) = false := Comparator.equal_of_greater hxk
  have hbare : isChildBare t' (some i) = false := by
    have hiff := isChildBare_iff (p := .child false x mx a p) hre.holds
    rw [← Bool.not_eq_true]
    intro hbare
    cases (hiff.mp hbare).2.1
  refine ⟨⟨t', some i, some x, false⟩, .child false x mx a p, .node b i true r, ?_, rfl, rfl,
    ⟨rfl, some_ne_none x⟩, hre, smaller_of_rearranges hre, ⟨?_, hbetween.after⟩,
    Or.inl hd', ?_⟩
  · have hnode : t.isNodeRed (t.leftChild i) = true := (isNodeRed_children h).1.trans hl
    have hskip : (if isChildBare t' (t'.rightChild x) then moveRedRight t' x
        else some (t', x)) = some (t', x) := by
      rw [hchild, hbare]
      rfl
    rw [searchStep_of_not_less hless ((if_pos hnode).trans hrun) hskip, hequal, hchild]
    rfl
  · intro y hy
    rcases mem_append.mp (show y ∈ (p.before ++ a.ids) ++ [x] from hy) with hy | hy
    · rcases mem_append.mp hy with hy | hy
      · exact hbetween.before y hy
      · exact hleft y (hmem y (mem_append_left _ hy))
    · obtain rfl := mem_singleton.mp hy
      exact hxk
  · rintro x' (hx | ⟨l, m, r, heq, hx⟩)
    · exact Or.inl (Or.inr hx)
    · cases heq
      rw [hless, hl] at hx
      rcases hx with hx | hx | hx
      · refine Or.inr ⟨b, true, r, rfl, Or.inr (Or.inr ⟨hless, hb, ?_⟩)⟩
        cases hgreater : gen.order.lessThan (key i) (some k) with
        | true => exact Or.inr (hx.2 rfl hgreater)
        | false => exact Or.inl (Comparator.equal_iff.mpr ⟨hless, hgreater⟩)
      · rcases hx.2 with hx | hx <;> cases hx
      · cases hx.2.1

/-- A step to the right from a node without a red left child: it is the node
looked for, or the search goes on. -/
theorem exists_searchStep_right
    (hU : Descends p (.node l i m r) ∨ Slanted p (.node l i m r)) (hl : l.isRed = false)
    (hless : gen.order.lessThan (some k) (key i) = false) (prev : Option Nat) :
    ∃ n, searchStep gen key k ⟨t, some i, prev, false⟩ = some n ∧
      (Stops gen key k t p (.node l i m r) i n ∨
        ∃ q U', GoesOn gen key k t p (.node l i m r) n q U') := by
  obtain ⟨t', j, T', hrun, hre, hsteps⟩ := exists_stepRight h hU hl
  have hleft := less_left hsorted hless
  have hnode : ¬ t.isNodeRed (t.leftChild i) = true := by
    rw [(isNodeRed_children h).1, hl]
    exact Bool.false_ne_true
  have hstep := searchStep_of_not_less hless (if_neg hnode) hrun prev
  cases hsteps with
  | @behind l' r' m' hl' hr' hready hfits hm' =>
      by_cases hequal : gen.order.equal (some k) (key i) = true
      · exact ⟨_, hstep.trans (if_pos hequal), Or.inl ⟨rfl, rfl, hequal, _, hre, rfl, hready⟩⟩
      have hgreater : gen.order.lessThan (key i) (some k) = true := by
        by_contra hnot
        exact hequal (Comparator.equal_iff.mpr ⟨hless, by simpa using hnot⟩)
      have hre' : t.Rearranges (p.plug (.node l i m r)) t'
          ((Path.child false i m' l' p).plug r') := hre
      have hchild : t'.rightChild i = r'.root :=
        show t'.child false i = r'.root from Holds.child_join (p := p) hre'.holds
      refine ⟨_, hstep.trans (if_neg hequal), Or.inr ⟨.child false i m' l' p, r', rfl, hchild,
        ⟨rfl, some_ne_none i⟩, hre', smaller_of_rearranges hre',
        ⟨?_, hbetween.after⟩, ?_, ?_⟩⟩
      · intro y hy
        apply (hbetween.right hsorted hgreater).before
        rw [Path.before, hl'] at hy
        exact hy
      · cases r' with
        | nil => exact hfits
        | node rl ri rm rr => exact Or.inl (hready.2 fun h => by cases h)
      · rintro x (hx | ⟨l, m, r, heq, hx⟩)
        · exact Or.inl (Or.inr hx)
        · cases heq
          refine Or.inl (Or.inl ⟨rfl, ?_⟩)
          rcases hx with hx | hx | hx
          · exact Or.inr hx.1
          · exact Or.inl (hm'.elim id fun h => h.1.trans hx.1)
          · refine Or.inl (hm'.resolve_right ?_)
            rintro ⟨-, hor⟩
            have hblack := hx.2.2.resolve_left hequal
            rcases hor with hor | hor
            · exact hblack.1 hor
            · rw [hblack.2] at hor
              cases hor
  | @below j a b r' hmem hslanted =>
      have hjk : gen.order.lessThan (key j) (some k) = true :=
        hleft j (hmem j (mem_append_right _ (mem_singleton_self j)))
      have hequal : ¬ gen.order.equal (some k) (key j) = true := by
        rw [Comparator.equal_of_greater hjk]
        exact Bool.false_ne_true
      have hre' : t.Rearranges (p.plug (.node l i m r)) t'
          ((Path.child false j true a p).plug (.node b i false r')) := hre
      have hchild : t'.rightChild j = some i :=
        show t'.child false j = some i from Holds.child_join (p := p) hre'.holds
      refine ⟨_, hstep.trans (if_neg hequal), Or.inr ⟨.child false j true a p,
        .node b i false r', rfl, hchild, ⟨rfl, some_ne_none j⟩, hre',
        smaller_of_rearranges hre', ⟨?_, hbetween.after⟩, Or.inr ⟨hslanted, hless⟩, ?_⟩⟩
      · intro y hy
        rcases mem_append.mp (show y ∈ (p.before ++ a.ids) ++ [j] from hy) with hy | hy
        · rcases mem_append.mp hy with hy | hy
          · exact hbetween.before y hy
          · exact hleft y (hmem y (mem_append_left _ hy))
        · obtain rfl := mem_singleton.mp hy
          exact hjk
      · rintro x (hx | ⟨l, m, r, heq, hx⟩)
        · exact Or.inl (Or.inr hx)
        · cases heq
          exact Or.inr ⟨b, false, r', rfl, Or.inr (Or.inl ⟨rfl, Or.inr hslanted.1⟩)⟩

/-- One turn of the search, wherever it stands. -/
theorem exists_searchStep (hstanding : Standing gen key k p (.node l i m r)) (prev : Option Nat) :
    ∃ n, searchStep gen key k ⟨t, some i, prev, false⟩ = some n ∧
      (Stops gen key k t p (.node l i m r) i n ∨
        ∃ q U', GoesOn gen key k t p (.node l i m r) n q U') := by
  rcases hstanding with hd | ⟨hslanted, hless⟩
  · cases hless : gen.order.lessThan (some k) (key i) with
    | true =>
        obtain ⟨n, q, U', hrun, hgoes⟩ :=
          exists_searchStep_left h hsorted hbetween hd hless prev
        exact ⟨n, hrun, Or.inr ⟨q, U', hgoes⟩⟩
    | false =>
        cases hl : l.isRed with
        | true =>
            obtain ⟨n, q, U', hrun, hgoes⟩ :=
              exists_searchStep_turn h hsorted hbetween hd hl hless prev
            exact ⟨n, hrun, Or.inr ⟨q, U', hgoes⟩⟩
        | false =>
            exact exists_searchStep_right h hsorted hbetween (Or.inl hd) hl hless prev
  · cases m with
    | true => exact hslanted.elim
    | false =>
        exact exists_searchStep_right h hsorted hbetween (Or.inr hslanted) hslanted.1 hless
          prev

end

/-! ### The whole search -/

/-- What the search has found, and that the node `x` is kept. -/
structure Found (gen : TreeGenerics G K) (key : Nat → Option K) (k : Option K)
    (q : Path Bool) (T : Tree Bool) (n : Search) : Prop where
  foundNode : n.foundNode = T.root
  ready : T ≠ .nil → Ready q T
  equal : ∀ i, T.root = some i → gen.order.equal k (key i) = true
  fits : T = .nil → q.Fits .nil ∧ q.parent = n.previousNode ∧ n.previousNode ≠ none
  absent : T = .nil → ∀ y ∈ q.before ++ q.after, gen.order.equal k (key y) = false

theorem exists_searchLoop (h : t.Holds (p.plug U))
    (hsorted : TreeContainer.SortedIds gen key (p.plug U).ids)
    (hbetween : TreeContainer.Between gen key (some k) p.before p.after)
    (hstanding : Standing gen key k p U) {prev : Option Nat}
    (hprev : U = .nil → p.parent = prev ∧ prev ≠ none) {fuel : Nat}
    (hfuel : U.ids.length + 1 < fuel) :
    ∃ n q T, loopUntil (fun n => some (n.foundNode.isNone || n.equality))
        (searchStep gen key k) fuel ⟨t, U.root, prev, false⟩ = some n ∧
      t.Rearranges (p.plug U) n.tree (q.plug T) ∧ Found gen key (some k) q T n ∧
      ∀ x, KeepsKey gen key k x p U → q.Keeps x ∨ T.root = some x := by
  induction fuel generalizing t p U prev with
  | zero => exact absurd hfuel (Nat.not_lt_zero _)
  | succ fuel ih =>
      cases U with
      | nil =>
          refine ⟨_, p, .nil, loopUntil_of_stop rfl, Rearranges.refl h,
            ⟨rfl, fun h => absurd rfl h, (fun i hi => nomatch hi), fun _ => ⟨hstanding, hprev rfl⟩,
              fun _ => hbetween.absent⟩, ?_⟩
          rintro x (hx | ⟨l, m, r, heq, -⟩)
          · exact Or.inl hx
          · cases heq
      | node l i m r =>
          obtain ⟨n, hstep, hn⟩ := exists_searchStep h hsorted hbetween hstanding prev
          rcases hn with hstop | ⟨q, U', hgoes⟩
          · obtain ⟨fuel, rfl⟩ := Nat.exists_eq_succ_of_ne_zero (by omega : fuel ≠ 0)
            obtain ⟨T, hre, hT, hready⟩ := hstop.rearranges
            have hne : T ≠ .nil := by
              rintro rfl
              cases hT
            refine ⟨n, p, T, (loopUntil_of_go ?_ hstep).trans (loopUntil_of_stop ?_), hre,
              ⟨hstop.foundNode.trans hT.symm, fun _ => hready, ?_, fun h => absurd h hne,
                fun h => absurd h hne⟩, ?_⟩
            · rfl
            · rw [hstop.equality, Bool.or_true]
            · intro j hj
              obtain rfl := some.inj (hT.symm.trans hj)
              exact hstop.equal
            · rintro x (hx | ⟨l, m, r, heq, -⟩)
              · exact Or.inl hx
              · cases heq
                exact Or.inr hT
          · have hnext : n = ⟨n.tree, U'.root, n.previousNode, false⟩ := by
              rw [← hgoes.foundNode, ← hgoes.equality]
            have hsmaller := hgoes.smaller
            obtain ⟨n', q', T, hrun, hre, hfound, hkeeps⟩ := ih hgoes.rearranges.holds
              (hgoes.rearranges.ids ▸ hsorted) hgoes.between hgoes.standing
              (fun _ => hgoes.previous) (by omega)
            refine ⟨n', q', T, (loopUntil_of_go ?_ hstep).trans ?_,
              hgoes.rearranges.trans hre, hfound, fun x hx => hkeeps x (hgoes.keeps x hx)⟩
            · rfl
            · rw [hnext]
              exact hrun

/-! ### The container -/

/-- The search for the key would bring the left child of the root above it while
the root is red, and leave the root behind like this. -/
def demotesRoot (gen : TreeGenerics G K) (s : TreeContainer G K Bool) (aKey : Option K) :
    Bool :=
  match s.rootNode, aKey with
  | some root, some k =>
      s.isNodeRed (s.leftChild root) && gen.order.lessThan (s.key root) (some k) &&
        ((s.rightChild root).isNone || s.isNodeRed ((s.rightChild root).bind s.leftChild))
  | _, _ => false

section

variable {s : TreeContainer G K Bool} {aKey : Option K}

theorem descends_root (hred : r.isRed = false) {n : Nat}
    (hn : (Tree.node l i false r).Leaning n) : Descends .root (.node l i true r) := by
  obtain ⟨k, -, hl, -, hr⟩ := hn
  exact ⟨Or.inl rfl, k, ⟨hl, hred, hr⟩, trivial⟩

theorem keepsKey_root (hs : s.Holds (.node l i m r)) (k : K)
    (hkeeps : demotesRoot gen s (some k) = false) :
    KeepsKey gen s.key k i .root (.node l i true r) := by
  refine Or.inr ⟨l, true, r, rfl, Or.inl ⟨rfl, ?_⟩⟩
  intro hl hless
  have hchildren := isNodeRed_children (p := .root) hs
  have hroot : s.rootNode = some i := hs.root
  have hright : s.rightChild i = r.root := by
    rw [rightChild, Holds.links (p := .root) hs]
  unfold demotesRoot at hkeeps
  rw [hroot] at hkeeps
  simp only [hchildren.1, hl, hless, Bool.true_and, Bool.or_eq_false_iff, hright] at hkeeps
  cases r with
  | nil => cases hkeeps.1
  | node rl j mj rr =>
      refine ⟨(fun h => nomatch h), ?_⟩
      rw [← hkeeps.2]
      exact ((isNodeRed_children (p := .child false i m l .root) hs).1).symm

/-- The walk to the least key. -/
theorem exists_searchVoidKey {t : LinkedTree Bool}
    (hs : TreeContainer.Sound gen s (.node l i m r))
    (ht : s.Rearranges (.node l i m r) t (.node l i true r))
    (hd : Descends .root (.node l i true r)) :
    ∃ n q T, searchVoidKey s t i = some n ∧
      t.Rearranges (.node l i true r) n.tree (q.plug T) ∧ Found gen s.key none q T n ∧
      (q.Keeps i ∨ T.root = some i) := by
  obtain ⟨t', j, q, hrun, hre, haccepts, hbefore, hkeeps⟩ :=
    exists_walkLeft (p := .root) ht.holds hd rfl
  have hids : (Tree.node l i m r).ids = j :: q.after := by
    rw [← ht.ids, ← Path.plug_root (.node l i true r), ← hre.ids, Path.ids_plug, hbefore]
    simp [Path.before]
  by_cases hkey : s.key j = none
  · refine ⟨⟨t', some j, none, false⟩, q, .node .nil j true .nil, ?_, hre, ⟨rfl, fun _ =>
      ⟨fun _ => ⟨rfl, haccepts.mono (Nat.zero_le 1)⟩, fun h => absurd rfl h⟩, ?_,
      (fun h => by cases h), (fun h => by cases h)⟩, ?_⟩
    · rw [searchVoidKey, hrun]
      exact if_neg (not_not_intro hkey)
    · intro x hx
      obtain rfl := some.inj hx
      rw [hkey]
      exact Comparator.equal_refl none
    · rcases hkeeps i (Or.inr ⟨l, true, r, rfl, Or.inl rfl⟩) with hx | ⟨l', m', r', heq, -⟩
      · exact Or.inl hx
      · cases heq
        exact Or.inr rfl
  · have hfirst : s.firstNode = some j := by
      rw [hs.first, hids]
      rfl
    refine ⟨⟨t', none, s.firstNode, false⟩, .child true j true .nil q, .nil, ?_, hre, ⟨rfl,
      fun h => absurd rfl h, (fun x hx => by cases hx), fun _ => ⟨?_, hfirst.symm, ?_⟩, ?_⟩, ?_⟩
    · rw [searchVoidKey, hrun]
      exact if_pos hkey
    · exact ⟨0, rfl, Nat.zero_le 1, rfl, rfl, haccepts⟩
    · rw [hfirst]
      exact some_ne_none j
    · intro _ y hy
      apply Comparator.equal_of_less
      apply TreeContainer.less_of_ne_none
      apply hs.key_ne_none hids hkey
      rw [hids]
      have hy' : y ∈ q.before ++ (j :: q.after) := hy
      rwa [hbefore] at hy'
    · rcases hkeeps i (Or.inr ⟨l, true, r, rfl, Or.inl rfl⟩) with hx | ⟨l', m', r', heq, hx⟩
      · exact Or.inl (Or.inr hx)
      · cases heq
        exact Or.inl (Or.inl ⟨rfl, Or.inr (hx.resolve_right fun h => by cases h)⟩)

theorem Found.congr {k : Option K} {n : Search} {q' : Path Bool}
    (h : Found gen key k q T n) (haccepts : ∀ c n, q.Accepts c n → q'.Accepts c n)
    (hparent : q'.parent = q.parent) (hids : (q'.plug T).ids = (q.plug T).ids) :
    Found gen key k q' T n where
  foundNode := h.foundNode
  ready := fun hT => (h.ready hT).congr haccepts
  equal := h.equal
  fits := fun hT => ⟨Fits.congr (h.fits hT).1 haccepts, hparent.trans (h.fits hT).2.1,
    (h.fits hT).2.2⟩
  absent := by
    rintro rfl y hy
    apply h.absent rfl
    rw [Path.ids_plug, Path.ids_plug] at hids
    simp only [Tree.ids_nil, append_nil] at hids
    exact hids ▸ hy

/-- The search leaves a tree in which the node found is ready, or the place where
none was found is one from which the tree is put in order. -/
theorem exists_searchNodeForRemoval (hs : TreeContainer.Sound gen s (.node l i m r))
    (hT : (Tree.node l i m r).IsLeaning) (hkeeps : demotesRoot gen s aKey = false) :
    ∃ t' n q T, searchNodeForRemoval gen s aKey = some { s with
        toLinkedTree := t'
        foundNode := n.foundNode
        notFoundNode := if n.foundNode = none then n.previousNode else s.notFoundNode } ∧
      s.Rearranges (.node l i m r) t' (q.plug T) ∧ Found gen s.key aKey q T n := by
  obtain ⟨hm, k₀, hleaning⟩ := hT
  obtain rfl : m = false := hm
  have hroot : s.rootNode = some i := hs.holds.root
  have hred : r.isRed = false := by
    obtain ⟨-, -, -, hr, -⟩ := hleaning
    exact hr
  have hd := descends_root hred hleaning
  have hs' : s.toLinkedTree.Rearranges (.node l i false r) s.toLinkedTree
      (Path.root.plug (.join true l i false r)) := Rearranges.refl hs.holds
  have ht : s.Rearranges (.node l i false r) (s.setIsRed i true) (.node l i true r) :=
    hs'.setMark true
  obtain ⟨n, q, T, hrun, hre, hfound, hor⟩ : ∃ n q T,
      aKey.elim (searchVoidKey s (s.setIsRed i true) i) (fun k =>
        loopUntil (fun n => some (n.foundNode.isNone || n.equality)) (searchStep gen s.key k)
          (s.created + 2) ⟨s.setIsRed i true, some i, none, false⟩) = some n ∧
      (s.setIsRed i true).Rearranges (.node l i true r) n.tree (q.plug T) ∧
      Found gen s.key aKey q T n ∧ (q.Keeps i ∨ T.root = some i) := by
    cases aKey with
    | none => exact exists_searchVoidKey hs ht hd
    | some k =>
        have hlength := hs.holds.length_le
        rw [← ht.ids] at hlength
        have hprev : Tree.node l i true r = .nil →
            (Path.root : Path Bool).parent = none ∧ (none : Option Nat) ≠ none :=
              fun h => by cases h
        obtain ⟨n, q, T, hrun, hre, hfound, hkeep⟩ := exists_searchLoop (k := k) (p := .root)
          ht.holds (ht.ids ▸ hs.sorted) ⟨by simp [Path.before], by simp [Path.after]⟩ (Or.inl hd)
          hprev (by omega : (Tree.node l i true r).ids.length + 1 < s.created + 2)
        exact ⟨n, q, T, hrun, hre, hfound, hkeep i (keepsKey_root hs.holds k hkeeps)⟩
  -- The old root is painted.
  obtain ⟨q', hpaint, haccepts, hparent⟩ : ∃ q' : Path Bool,
      n.tree.Rearranges (q.plug T) (if n.tree.isRed i ∧ n.foundNode ≠ some i then
        n.tree.setIsRed i false else n.tree) (q'.plug T) ∧
      (∀ c n, q.Accepts c n → q'.Accepts c n) ∧ q'.parent = q.parent := by
    by_cases hpaint : n.tree.isRed i = true ∧ n.foundNode ≠ some i
    · rw [if_pos hpaint]
      exact exists_paint hre.holds
        (hor.resolve_right fun hi => hpaint.2 (hfound.foundNode.trans hi)) hpaint.1
    · rw [if_neg hpaint]
      exact ⟨q, Rearranges.refl hre.holds, fun _ _ h => h, rfl⟩
  refine ⟨_, n, q', T, ?_, (ht.trans hre).trans hpaint,
    hfound.congr haccepts hparent hpaint.ids⟩
  rw [searchNodeForRemoval, hroot]
  refine bind_of_some (a := n) ?_ rfl
  cases aKey <;> exact hrun

end

/-- What the routines of left-leaning trees guarantee, where the search does not
demote the root. -/
def laws (gen : TreeGenerics G K) : TreeLaws gen (variant : TreeVariant G K Bool) where
  Balanced := Tree.IsLeaning
  Ready := Ready
  Removable := fun p T => ∃ i m, T = .node .nil i m .nil ∧ p.Accepts 0 0
  CanSearch := fun s _ aKey => demotesRoot gen s aKey = false
  balanced_nil := ⟨rfl, 0, rfl⟩
  exists_added := exists_onNodeAdded
  removable_of_ready := by
    intro p l i m h
    obtain ⟨rfl, haccepts⟩ := h.1 rfl
    exact ⟨i, m, rfl, haccepts⟩
  exists_removed := by
    intro t isLeft b i n m mn sib c up hremovable hholds _
    obtain ⟨j, mj, heq, haccepts⟩ := hremovable
    obtain rfl : c = .nil := by
      cases b
      · exact (Tree.node.inj heq).2.2.2
      · exact (Tree.node.inj heq).1
    exact exists_fixUpToRoot hholds ⟨0, rfl, haccepts⟩
  exists_rootRemoved := by
    intro t n mn c hremovable hc _
    obtain ⟨j, mj, heq, -⟩ := hremovable
    exact absurd (Tree.node.inj heq).1 hc
  exists_successor := by
    intro t p l r i m hready hr hholds
    obtain ⟨n, hn⟩ : ∃ n, r.root = some n :=
      ne_none_iff_exists'.mp fun h => hr (Tree.root_eq_none.mp h)
    obtain ⟨t', j, q, hrun, hre, haccepts, hbefore, -⟩ :=
      exists_walkLeft (p := .child false i m l p) hholds (hready.2 hr) hn
    have hchild : t.rightChild i = some n := by
      rw [rightChild, Holds.links hholds, hn]
    exact ⟨t', j, q, true, .nil, p.before ++ l.ids,
      bind_of_some hchild hrun, hre, hbefore,
      j, true, rfl, haccepts.mono (Nat.zero_le 1)⟩
  exists_search := by
    intro s T aKey hs hT hkeeps
    cases T with
    | nil =>
        have hroot : s.rootNode = none := hs.holds.root
        have hnone : s.foundNode = none := by
          by_contra hne
          obtain ⟨i, hi⟩ := ne_none_iff_exists'.mp hne
          exact absurd (hs.found i hi) not_mem_nil
        refine ⟨s.toLinkedTree, .nil, none, s.notFoundNode, ?_, Rearranges.refl hs.holds,
          fun i hi => absurd hi not_mem_nil, (fun i hi => nomatch hi), fun _ =>
          ⟨s.toLinkedTree, .nil, ?_, Rearranges.refl hs.holds, rfl, 0, rfl⟩⟩
        · show searchNodeForRemoval gen s aKey = _
          have hsame : s = { s with foundNode := none } := by rw [← hnone]
          rw [searchNodeForRemoval, hroot]
          exact congrArg some hsame
        · show onNodeForRemovalNotFound _ = _
          rw [onNodeForRemovalNotFound, hroot]
    | node l i m r =>
        obtain ⟨t', n, q, T, hrun, hre, hfound⟩ :=
          exists_searchNodeForRemoval hs hT hkeeps
        refine ⟨t', q.plug T, n.foundNode, _, hrun, hre, ?_, ?_, ?_⟩
        · rw [hfound.foundNode]
          cases hroot : T.root with
          | some j =>
              refine ⟨?_, hfound.equal j hroot⟩
              rw [← hre.ids, Path.mem_ids_plug]
              exact Or.inl (Tree.root_mem_ids hroot)
          | none =>
              obtain rfl := Tree.root_eq_none.mp hroot
              intro y hy
              apply hfound.absent rfl
              rw [← hre.ids, Path.ids_plug] at hy
              simpa using hy
        · intro j hj
          rw [hfound.foundNode] at hj
          obtain ⟨l', m', r', rfl⟩ := Tree.eq_join true hj
          exact ⟨q, l', m', r', rfl, hfound.ready fun h => nomatch h⟩
        · intro hnone
          obtain rfl := Tree.root_eq_none.mp (hfound.foundNode.symm.trans hnone)
          obtain ⟨hfits, hparent, hprevious⟩ := hfound.fits rfl
          cases q with
          | root => exact absurd hparent.symm hprevious
          | child s' j mj sib up =>
              obtain ⟨t'', T'', hfix, hre', hT''⟩ := exists_fixUpToRoot hre.holds hfits
              refine ⟨t'', T'', ?_, hre', hT''⟩
              obtain ⟨root, -, hroot⟩ := Path.root_plug_mem (p := .child s' j mj sib up) rfl
                .nil
              have hroot' : t'.rootNode = some root := hre.holds.root.trans hroot
              show onNodeForRemovalNotFound _ = _
              rw [onNodeForRemovalNotFound, hroot', if_pos hnone, ← hparent]
              exact bind_of_some rfl (bind_of_some hfix rfl)

end LeftLeaningTree

end Gobo
