/-
Taking an item out of a binary search tree.
-/
import Gobo.TreeCursors
import Gobo.TreeInsertion

namespace Gobo

open List LinkedTree

variable {G K M : Type} {gen : TreeGenerics G K} {V : TreeVariant G K M}

namespace TreeContainer

variable {s : TreeContainer G K M} {T : Tree M}

/-- `s'` is `s` without the pair at `i`; the object that is left out of the tree
is `old`, and the cursors on it have to go to `new`. -/
structure Unlinks (L : TreeLaws gen V) (s : TreeContainer G K M) (T : Tree M) (i : Nat)
    (s' : TreeContainer G K M) (T' : Tree M) (old : Nat) (new : Option Nat) : Prop where
  ordered : Ordered gen s' T'
  balanced : L.Balanced T'
  pairs : ∃ front back, T.ids = front ++ i :: back ∧
    s'.pairs T' = (front ++ back).map fun j => (s.key j, s.item j)
  kept : ∀ j ∈ T.ids, j ≠ old → j ∈ T'.ids
  new : ∀ j, new = some j → j ∈ T'.ids
  cursors : s'.cursors = s.cursors
  count : s'.count = s.count

section

variable {L : TreeLaws gen V} {T' : Tree M} {front back : List Nat} {i : Nat}

section

variable (hs : Ordered gen s T) (hids : T.ids = front ++ i :: back)

include hs hids

theorem Ordered.first_iff :
    some i = s.firstNode ↔ front = [] := by
  have hnodup := hs.holds.nodup
  rw [hs.first, hids] at *
  cases front with
  | nil => simp
  | cons j front =>
      have hne : i ≠ j := by
        rintro rfl
        simp at hnodup
      simp [hne]

theorem Ordered.last_iff :
    some i = s.lastNode ↔ back = [] := by
  have hnodup := hs.holds.nodup
  rw [hs.last, hids] at *
  rcases eq_nil_or_concat' back with rfl | ⟨init, j, rfl⟩
  · simp
  · have hne : i ≠ j := by
      rintro rfl
      rw [nodup_append, nodup_cons] at hnodup
      simp at hnodup
    rw [append_cons, ← append_assoc, getLast?_concat]
    simp [hne]

/-- A node leaves the tree, and the other ones keep their keys and items. -/
theorem Unlinks.of_kept
    {s' : TreeContainer G K M} (hholds : s'.Holds T') (hids' : T'.ids = front ++ back)
    (hkey : s'.key = s.key) (hitem : s'.item = s.item)
    (hfirst : s'.firstNode = if some i = s.firstNode then back.head? else s.firstNode)
    (hlast : s'.lastNode = if some i = s.lastNode then front.getLast? else s.lastNode)
    (hcursors : s'.cursors = s.cursors) (hcount : s'.count = s.count)
    (hT' : L.Balanced T') : Unlinks L s T i s' T' i back.head? := by
  have hsub : T'.ids.Sublist T.ids := by
    rw [hids, hids']
    exact List.Sublist.append_left (sublist_cons_self i back) front
  refine ⟨⟨hholds, ?_, ?_, ?_, ?_⟩, hT', ⟨front, back, hids, ?_⟩, ?_, ?_, hcursors, hcount⟩
  · rw [hkey]
    exact hs.sorted.sublist hsub
  · rw [hkey, hitem]
    exact fun f hf j hj => hs.keyed f hf j (hsub.mem hj)
  · rw [hfirst, hids']
    by_cases hfront : front = []
    · rw [if_pos ((hs.first_iff hids).mpr hfront), hfront]
      rfl
    · rw [if_neg (fun h => hfront ((hs.first_iff hids).mp h)), hs.first, hids,
        head?_append_of_ne_nil _ hfront, head?_append_of_ne_nil _ hfront]
  · rw [hlast, hids']
    by_cases hback : back = []
    · rw [if_pos ((hs.last_iff hids).mpr hback), hback, append_nil]
    · rw [if_neg (fun h => hback ((hs.last_iff hids).mp h)), hs.last, hids,
        getLast?_append_of_ne_nil _ hback,
        getLast?_append_of_ne_nil _ (cons_ne_nil i back),
        getLast?_cons_of_ne_nil hback]
  · rw [TreeContainer.pairs, hids', hkey, hitem]
  · intro j hj hne
    rw [hids, mem_append, mem_cons] at hj
    rw [hids', mem_append]
    tauto
  · intro j hj
    rw [hids', mem_append]
    exact Or.inr (mem_of_mem_head? hj)

end

theorem ite_setFirstNode (c : Prop) [Decidable c] (f : Option Nat) :
    (if c then { s with firstNode := f } else s) =
      { s with firstNode := if c then f else s.firstNode } := by
  split <;> rfl

theorem ite_setLastNode (c : Prop) [Decidable c] (l : Option Nat) :
    (if c then { s with lastNode := l } else s) =
      { s with lastNode := if c then l else s.lastNode } := by
  split <;> rfl

end

section

variable {L : TreeLaws gen V} {p : Path M} {l : Tree M} {i : Nat} {m : M}

theorem exists_removeChildlessNode
    (hs : Ordered gen s (p.plug (.node .nil i m .nil)))
    (hready : L.Removable p (.node .nil i m .nil)) :
    ∃ s' T' new, s.removeChildlessNode V i = some (s', new) ∧
      Unlinks L s (p.plug (.node .nil i m .nil)) i s' T' i new := by
  have hlinks := hs.holds.links
  have hids : (p.plug (.node .nil i m .nil)).ids = p.before ++ i :: p.after := by
    rw [Path.ids_plug]
    simp
  cases p with
  | root =>
      have hparent : s.parent i = none := by
        rw [parent, hlinks]
        rfl
      refine ⟨{ s with rootNode := none, firstNode := none, lastNode := none }, .nil,
        none, ?_, ?_⟩
      · rw [removeChildlessNode, hparent]
        rfl
      · have hholds : LinkedTree.Holds { s.toLinkedTree with rootNode := none } .nil :=
          Holds.of_forest hs.holds.forest.nil_cons.swap.node_tail rfl (by simp)
        refine Unlinks.of_kept hs hids hholds rfl rfl rfl ?_ ?_ rfl rfl L.balanced_nil
        · exact (if_pos ((hs.first_iff hids).mpr rfl)).symm
        · exact (if_pos ((hs.last_iff hids).mpr rfl)).symm
  | child isLeft q mq sib up =>
      have hparent : s.parent i = some q := by
        rw [parent, hlinks]
        rfl
      have hids' : ((Path.child isLeft q mq sib up).plug .nil).ids =
          (Path.child isLeft q mq sib up).before ++
            (Path.child isLeft q mq sib up).after := by
        rw [Path.ids_plug]
        simp
      have hmark : (s.setChild isLeft q none).mark i = m := by
        rw [setChild_mark, mark, hlinks]
      obtain ⟨t', T', hrun, hre, hT'⟩ := L.exists_removed (b := true) hready
        hs.holds.removeLeaf hmark
      have hsuccessor := hs.holds.successor hids
      cases isLeft with
      | true =>
          have hleft : s.leftChild q = some i := hs.holds.child_eq rfl
          refine ⟨{ s with
            toLinkedTree := t'
            firstNode := if some i = s.firstNode then some q else s.firstNode },
            T', some q, ?_, ?_⟩
          · rw [removeChildlessNode, hparent]
            simp only [hleft, if_true, ite_setFirstNode]
            refine bind_of_some (a := some q) ?_
              (bind_of_some hrun rfl)
            rw [hsuccessor]
            exact ite_self _
          · refine Unlinks.of_kept hs hids hre.holds (hre.ids.trans hids') rfl rfl rfl ?_
              rfl rfl hT'
            rw [if_neg fun h => cons_ne_nil _ _ ((hs.last_iff hids).mp h)]
      | false =>
          have hleft : s.leftChild q ≠ some i := hs.holds.child_not_ne rfl
          refine ⟨{ s with
            toLinkedTree := t'
            lastNode := if some i = s.lastNode then some q else s.lastNode },
            T', up.after.head?, ?_, ?_⟩
          · rw [removeChildlessNode, hparent]
            simp only [if_neg hleft, ite_setLastNode]
            refine bind_of_some (a := up.after.head?) ?_
              (bind_of_some hrun rfl)
            by_cases hlast : some i = s.lastNode
            · have hafter : up.after = [] := (hs.last_iff hids).mp hlast
              rw [if_pos hlast, hafter]
              rfl
            · rw [if_neg hlast]
              exact hsuccessor
          · refine Unlinks.of_kept hs hids hre.holds (hre.ids.trans hids') rfl rfl ?_ ?_
              rfl rfl hT'
            · refine (if_neg fun h => ?_).symm
              exact append_ne_nil_of_right_ne_nil _ (cons_ne_nil q [])
                ((hs.first_iff hids).mp h)
            · show (if _ then _ else _) = if _ then (up.before ++ sib.ids ++ [q]).getLast?
                else _
              rw [getLast?_concat]

theorem exists_removeNodeWithLeftChild
    (hs : Ordered gen s (p.plug (.node l i m .nil))) (hl : l ≠ .nil)
    (hready : L.Removable p (.node l i m .nil)) :
    ∃ s' T' new, s.removeNodeWithLeftChild V i = some (s', new) ∧
      Unlinks L s (p.plug (.node l i m .nil)) i s' T' i new := by
  have hlinks := hs.holds.links
  have hids : (p.plug (.node l i m .nil)).ids = (p.before ++ l.ids) ++ i :: p.after := by
    rw [Path.ids_plug]
    simp
  have hids' : (p.plug l).ids = (p.before ++ l.ids) ++ p.after := Path.ids_plug p l
  have hfront : p.before ++ l.ids ≠ [] := by
    apply append_ne_nil_of_right_ne_nil
    intro hnil
    cases l with
    | nil => exact hl rfl
    | node => simp at hnil
  have hfirst : some i ≠ s.firstNode := fun h => hfront ((hs.first_iff hids).mp h)
  have hchild : s.leftChild i = l.root := by
    rw [leftChild, hlinks]
  have hresult : (if some i = s.lastNode then some none else s.successor i) =
      some p.after.head? := by
    rw [hs.holds.successor hids]
    by_cases hlast : some i = s.lastNode
    · rw [if_pos hlast, (hs.last_iff hids).mp hlast]
      rfl
    · rw [if_neg hlast]
  have hlastNode : (if some i = s.lastNode then s.predecessor i else some s.lastNode) =
      some (if some i = s.lastNode then (p.before ++ l.ids).getLast? else s.lastNode) := by
    rw [hs.holds.predecessor hids]
    split <;> rfl
  have hcut : Forest (s.setChild true i none).links [l, p.plug (.node .nil i m .nil)] :=
    @Forest.detach M [] l .nil p true i m s.toLinkedTree hs.holds.forest
  have hcutTree := hcut.represents _ (mem_cons_of_mem l mem_cons_self)
  have hcutParent : (s.setLeftChild i none).parent i = p.parent :=
    (represents_plug.mp hcutTree).2.parent_eq rfl
  -- What is known of the result does not depend on where the node was.
  suffices ∃ t' T', (p.plug l).ids = T'.ids ∧ LinkedTree.Holds t' T' ∧ L.Balanced T' ∧
      s.removeNodeWithLeftChild V i = some ({ s with
        toLinkedTree := t'
        lastNode := if some i = s.lastNode then (p.before ++ l.ids).getLast?
          else s.lastNode }, p.after.head?) by
    obtain ⟨t', T', hsame, hholds, hT', hrun⟩ := this
    refine ⟨_, T', _, hrun, ?_⟩
    exact Unlinks.of_kept hs hids hholds (hsame.symm.trans hids') rfl rfl
      (if_neg hfirst).symm rfl rfl rfl hT'
  cases p with
  | root =>
      have hholds : LinkedTree.Holds { s.setChild true i none with rootNode := l.root } l := by
        refine Holds.of_forest hcut.swap.node_tail rfl ?_
        intro j hj
        exact (setChild_created true s.toLinkedTree).symm ▸ hs.holds.created j (by simp [hj])
      obtain ⟨t', T', hrun, hre, hT'⟩ := L.exists_rootRemoved hready hl hholds
      refine ⟨t', T', hre.ids.symm, hre.holds, hT', ?_⟩
      rw [removeNodeWithLeftChild]
      refine bind_of_some hresult
        (bind_of_some hlastNode ?_)
      simp only [setTree, hcutParent, hchild]
      exact bind_of_some hrun rfl
  | child isLeft q mq sib up =>
      have hmark : ((s.setChild true i none).setChild isLeft q l.root).mark i = m := by
        rw [setChild_mark, setChild_mark, mark, hlinks]
      obtain ⟨t', T', hrun, hre, hT'⟩ := L.exists_removed (b := true) hready
        (Holds.removeNode (b := true) hs.holds) hmark
      refine ⟨t', T', hre.ids.symm, hre.holds, hT', ?_⟩
      rw [removeNodeWithLeftChild]
      refine bind_of_some hresult
        (bind_of_some hlastNode ?_)
      have hq : (s.setChild true i none).links q =
          (Links.mk up.parent sib.root sib.root mq).withChild isLeft (some i) :=
        (represents_plug.mp hcutTree).1.1
      simp only [setTree, hcutParent, hchild]
      cases isLeft with
      | true =>
          have hleft : (s.setLeftChild i none).leftChild q = some i := by
            rw [leftChild, setLeftChild, hq]
            rfl
          refine (if_pos hleft).trans ?_
          exact bind_of_some hrun rfl
      | false =>
          have hleft : (s.setLeftChild i none).leftChild q ≠ some i := by
            have hne : s.leftChild q ≠ some i := hs.holds.child_not_ne rfl
            rw [leftChild, Holds.links_join hs.holds] at hne
            rw [leftChild, setLeftChild, hq]
            exact hne
          refine (if_neg hleft).trans ?_
          exact bind_of_some hrun rfl

end

section

variable {L : TreeLaws gen V} {p q : Path M} {l r rj : Tree M} {i j : Nat} {m mj : M}
  {front : List Nat}

theorem sortedIds_iff {key : Nat → Option K} {ids : List Nat} : SortedIds gen key ids ↔
    (ids.map key).Pairwise fun a b => gen.order.lessThan a b = true := by
  rw [SortedIds, pairwise_map]

/-- The pair of `j` goes to `i`, the node before it. -/
theorem Ordered.copy (hs : Ordered gen s T) {back : List Nat}
    (hids : T.ids = front ++ i :: j :: back) {s' : TreeContainer G K M} {T' : Tree M}
    (hholds : s'.Holds T') (hids' : T'.ids = front ++ i :: back)
    (hkey : s'.key = Function.update s.key i (s.key j))
    (hitem : s'.item = Function.update s.item i (s.item j))
    (hfirst : s'.firstNode = s.firstNode)
    (hlast : s'.lastNode = if some j = s.lastNode then some i else s.lastNode) :
    Ordered gen s' T' ∧
      s'.pairs T' = (front ++ j :: back).map fun x => (s.key x, s.item x) := by
  have hnodup := hs.holds.nodup
  have hsorted := hs.sorted
  have hkeyed := hs.keyed
  rw [hids] at hnodup hsorted hkeyed
  have hne : ∀ x, x ∈ front ∨ x ∈ back → x ≠ i := by
    rintro x hx rfl
    rw [nodup_append, nodup_cons, mem_cons, not_or] at hnodup
    rcases hx with hx | hx
    · exact hnodup.2.2 x hx x mem_cons_self rfl
    · exact hnodup.2.1.1.2 hx
  have hkey' : ∀ x, x ∈ front ∨ x ∈ back → s'.key x = s.key x ∧ s'.item x = s.item x := by
    intro x hx
    rw [hkey, hitem]
    exact ⟨Function.update_of_ne (hne x hx) _ _, Function.update_of_ne (hne x hx) _ _⟩
  have hi : s'.key i = s.key j ∧ s'.item i = s.item j := by
    rw [hkey, hitem]
    exact ⟨Function.update_self _ _ _, Function.update_self _ _ _⟩
  refine ⟨⟨hholds, ?_, ?_, ?_, ?_⟩, ?_⟩
  · have hshort : SortedIds gen s.key (front ++ j :: back) :=
      hsorted.sublist (List.Sublist.append_left (sublist_cons_self i _) front)
    rw [sortedIds_iff] at hshort ⊢
    rw [hids', map_append, map_cons, hi.1,
      map_congr_left fun x hx => (hkey' x (Or.inl hx)).1,
      map_congr_left fun x hx => (hkey' x (Or.inr hx)).1]
    rwa [map_append, map_cons] at hshort
  · intro f hf x hx
    rw [hids', mem_append, mem_cons] at hx
    rcases hx with hx | rfl | hx
    · rw [(hkey' x (Or.inl hx)).1, (hkey' x (Or.inl hx)).2]
      exact hkeyed f hf x (by simp [hx])
    · rw [hi.1, hi.2]
      exact hkeyed f hf j (by simp)
    · rw [(hkey' x (Or.inr hx)).1, (hkey' x (Or.inr hx)).2]
      exact hkeyed f hf x (by simp [hx])
  · rw [hfirst, hs.first, hids, hids']
    cases front <;> rfl
  · rw [append_cons] at hids
    have hlast_iff := hs.last_iff hids
    rw [hlast, hids']
    by_cases hback : back = []
    · rw [if_pos (hlast_iff.mpr hback), hback, getLast?_concat]
    · rw [if_neg (fun h => hback (hlast_iff.mp h)), hs.last, hids,
        getLast?_append_of_ne_nil _ (cons_ne_nil j back),
        getLast?_append_of_ne_nil _ (cons_ne_nil i back),
        getLast?_cons_of_ne_nil hback, getLast?_cons_of_ne_nil hback]
  · rw [pairs, hids', map_append, map_cons, hi.1, hi.2,
      pairs_congr fun x hx => hkey' x (Or.inl hx),
      pairs_congr fun x hx => hkey' x (Or.inr hx), map_append, map_cons]

theorem exists_removeSuccessorNode (hs : Ordered gen s (q.plug (.node .nil j mj rj)))
    (hbefore : q.before = front ++ [i]) (hready : L.Removable q (.node .nil j mj rj)) :
    ∃ s' T', (s.copyItemAndKeyTo j i).removeSuccessorNode V j = some s' ∧
      Unlinks L s (q.plug (.node .nil j mj rj)) i s' T' j (some i) := by
  have hlinks := hs.holds.links
  have hids : (q.plug (.node .nil j mj rj)).ids =
      front ++ i :: j :: (rj.ids ++ q.after) := by
    rw [Path.ids_plug, hbefore]
    simp
  have hids' : (q.plug rj).ids = front ++ i :: (rj.ids ++ q.after) := by
    rw [Path.ids_plug, hbefore]
    simp
  cases q with
  | root =>
      rw [Path.before] at hbefore
      exact absurd hbefore.symm (by simp)
  | child isLeft par mp sib up =>
      have hparent : s.parent j = some par := by
        rw [parent, hlinks]
        rfl
      have hchild : s.rightChild j = rj.root := by
        rw [rightChild, hlinks]
      have hcut : Forest (s.setChild false j none).links
          [rj, (Path.child isLeft par mp sib up).plug (.node .nil j mj .nil)] :=
        @Forest.detach M [] rj .nil (.child isLeft par mp sib up) false j mj
          s.toLinkedTree hs.holds.forest
      have hcutTree := hcut.represents _ (mem_cons_of_mem rj mem_cons_self)
      have hpar : (s.setChild false j none).links par =
          (Links.mk up.parent sib.root sib.root mp).withChild isLeft (some j) :=
        (represents_plug.mp hcutTree).1.1
      have hmark : ((s.setChild false j none).setChild isLeft par rj.root).mark j = mj := by
        rw [setChild_mark, setChild_mark, mark, hlinks]
      obtain ⟨t', T', hrun, hre, hT'⟩ := L.exists_removed (b := false) hready
        (Holds.removeNode (b := false) hs.holds) hmark
      have hlast_iff := hs.last_iff ((hids.trans (append_cons _ _ _)))
      have hlastNode : (if isLeft = false ∧ some j = s.lastNode then some par
          else s.lastNode) = if some j = s.lastNode then some i else s.lastNode := by
        by_cases hlast : some j = s.lastNode
        · have hafter := hlast_iff.mp hlast
          cases isLeft with
          | true => simp [Path.after] at hafter
          | false =>
              obtain rfl : par = i := by
                simpa using (append_inj' hbefore rfl).2
              simp [hlast]
        · simp [hlast]
      let s' : TreeContainer G K M := { s.copyItemAndKeyTo j i with
        toLinkedTree := t'
        lastNode := if isLeft = false ∧ some j = s.lastNode then some par
          else s.lastNode }
      refine ⟨s', T', ?_, ?_⟩
      · rw [removeSuccessorNode]
        refine bind_of_some hparent ?_
        simp only [setTree, copyItemAndKeyTo, hchild]
        cases isLeft with
        | true =>
            have hleft : (s.setRightChild j none).leftChild par = some j := by
              rw [leftChild, setRightChild, hpar]
              rfl
            refine (if_pos hleft).trans ?_
            exact bind_of_some hrun (by simp [s', copyItemAndKeyTo])
        | false =>
            have hleft : (s.setRightChild j none).leftChild par ≠ some j := by
              have hne : s.leftChild par ≠ some j := hs.holds.child_not_ne rfl
              rw [leftChild, Holds.links_join hs.holds] at hne
              rw [leftChild, setRightChild, hpar]
              exact hne
            refine (if_neg hleft).trans ?_
            by_cases hlast : some j = s.lastNode
            · simp only [eq_true hlast, if_true]
              exact bind_of_some hrun (by simp [s', copyItemAndKeyTo, hlast])
            · simp only [eq_false hlast, if_false]
              exact bind_of_some hrun (by simp [s', copyItemAndKeyTo, hlast])
      · have hholds : s'.Holds T' := hre.holds
        obtain ⟨hordered, hpairs⟩ :=
          hs.copy hids hholds (hre.ids.trans hids') rfl rfl rfl hlastNode
        refine ⟨hordered, hT', ⟨front, _, hids, hpairs⟩, ?_, ?_, rfl, rfl⟩
        · intro x hx hne
          rw [hids] at hx
          rw [hre.ids, hids']
          simp only [mem_append, mem_cons] at hx ⊢
          tauto
        · intro x hx
          obtain rfl := Option.some.inj hx
          rw [hre.ids, hids']
          simp

theorem exists_unlinkNode (hs : Ordered gen s (p.plug (.node l i m r)))
    (hready : L.Ready p (.node l i m r)) :
    ∃ s' T' old new, s.unlinkNode V i = some (s', old, new) ∧
      Unlinks L s (p.plug (.node l i m r)) i s' T' old new := by
  have hright : s.rightChild i = r.root := by
    rw [rightChild, hs.holds.links]
  have hleft : s.leftChild i = l.root := by
    rw [leftChild, hs.holds.links]
  cases r with
  | nil =>
      have hright : s.rightChild i = none := hright
      cases l with
      | nil =>
          have hleft : s.leftChild i = none := hleft
          obtain ⟨s', T', new, hrun, h⟩ :=
            exists_removeChildlessNode (V := V) hs (L.removable_of_ready hready)
          refine ⟨s', T', i, new, ?_, h⟩
          rw [unlinkNode, if_pos hright]
          exact bind_of_some ((if_pos hleft).trans hrun) rfl
      | node =>
          obtain ⟨s', T', new, hrun, h⟩ :=
            exists_removeNodeWithLeftChild (V := V) hs (by simp) (L.removable_of_ready hready)
          refine ⟨s', T', i, new, ?_, h⟩
          rw [unlinkNode, if_pos hright]
          refine bind_of_some ((if_neg ?_).trans hrun) rfl
          rw [hleft]
          exact Option.some_ne_none _
  | node rl k rm rr =>
      obtain ⟨t', j, q, mj, rj, front, hrun, hre, hbefore, hready'⟩ :=
        L.exists_successor hready (by simp) hs.holds
      obtain ⟨s', T', hrun', h⟩ :=
        exists_removeSuccessorNode (V := V) (hs.rearrange hre) hbefore hready'
      refine ⟨s', T', j, some i, ?_, h.ordered, h.balanced, ?_, ?_, h.new, h.cursors,
        h.count⟩
      · rw [unlinkNode, if_neg]
        · exact bind_of_some hrun
            (bind_of_some hrun' rfl)
        · rw [hright]
          exact Option.some_ne_none _
      · rw [← hre.ids]
        exact h.pairs
      · rw [← hre.ids]
        exact h.kept

end

section

variable {L : TreeLaws gen V} {p : Path M} {l r : Tree M} {i : Nat} {m : M}

/-- `s'` is `s` without the pair at `i`; its cursors are where its nodes are. -/
structure RemovesNode (L : TreeLaws gen V) (s : TreeContainer G K M) (T : Tree M)
    (i : Nat) (s' : TreeContainer G K M) (T' : Tree M) : Prop where
  ordered : Ordered gen s' T'
  balanced : L.Balanced T'
  pairs : ∃ front back, T.ids = front ++ i :: back ∧
    s'.pairs T' = (front ++ back).map fun j => (s.key j, s.item j)
  count : s'.count = T'.ids.length
  cursors : ∃ cs, Registered s'.cursors cs
  tracked : Tracked s.cursors T.ids → Tracked s'.cursors T'.ids
  internal : s'.cursors.internalCursor = s.cursors.internalCursor
  total : s'.cursors.cursorCount = s.cursors.cursorCount

theorem Unlinks.length {s' : TreeContainer G K M} {T' : Tree M} {old : Nat}
    {new : Option Nat} (h : Unlinks L s T i s' T' old new) :
    T'.ids.length + 1 = T.ids.length := by
  obtain ⟨front, back, hids, hpairs⟩ := h.pairs
  have hlength := congrArg List.length hpairs
  simp only [TreeContainer.pairs, List.length_map, List.length_append] at hlength
  rw [hlength, hids]
  simp only [List.length_append, List.length_cons]
  omega

theorem exists_removeNode (hs : Sound gen s (p.plug (.node l i m r)))
    (hready : L.Ready p (.node l i m r)) :
    ∃ s' T', s.removeNode V i = some s' ∧
      RemovesNode L s (p.plug (.node l i m r)) i s' T' := by
  obtain ⟨cs, hcs⟩ := hs.cursors
  have hcount := hs.count
  by_cases hone : s.count = 1
  · obtain ⟨t, hrun, hmoves⟩ := hcs.exists_moveAllCursorsAfter
    have hordered : Ordered gen { s with cursors := t, count := s.count - 1 }
        (p.plug (.node l i m r)) := ⟨hs.holds, hs.sorted, hs.keyed, hs.first, hs.last⟩
    obtain ⟨s', T', old, new, hunlink, h⟩ := exists_unlinkNode (V := V) hordered hready
    have hlength := h.length
    have hzero : s'.count = 0 := by
      rw [h.count]
      show s.count - 1 = 0
      omega
    refine ⟨s', T', ?_, h.ordered, h.balanced, h.pairs, ?_, ?_, ?_, ?_, ?_⟩
    · rw [removeNode]
      refine bind_of_some ((if_pos hone).trans hrun)
        (bind_of_some hunlink ?_)
      exact if_neg (not_not_intro hzero)
    · rw [hzero]
      omega
    · rw [h.cursors]
      exact hmoves.registered hcs
    · rw [h.cursors]
      exact fun ht => hmoves.tracked hcs.listed ht nofun nofun
    · rw [h.cursors]
      exact hmoves.internal
    · rw [h.cursors]
      exact hmoves.total
  · have hordered : Ordered gen { s with count := s.count - 1 }
        (p.plug (.node l i m r)) := ⟨hs.holds, hs.sorted, hs.keyed, hs.first, hs.last⟩
    obtain ⟨s', T', old, new, hunlink, h⟩ := exists_unlinkNode (V := V) hordered hready
    have hlength := h.length
    have hcount' : s'.count = T'.ids.length := by
      rw [h.count]
      show s.count - 1 = _
      omega
    have hne : s'.count ≠ 0 := by
      omega
    have hcursors : s'.cursors = s.cursors := h.cursors
    -- The cursors on the object left out go where its pair has gone.
    obtain ⟨t, q, hmove, hmoves, hq⟩ : ∃ t q,
        new.elim (s'.moveCursorsAfter old) (s'.moveAllCursors old) =
          some { s' with cursors := t } ∧
        Moves s.cursors cs (fun p => p.position == some old) q t ∧
        ∀ j, q.position = some j → new = some j := by
      rw [← hcursors] at hcs ⊢
      cases new with
      | some n =>
          obtain ⟨t, hrun, hmoves⟩ := s'.exists_moveAllCursors hcs.listed old n
          exact ⟨t, .on n, hrun, hmoves, fun j hj => hj⟩
      | none =>
          obtain ⟨t, hrun, hmoves⟩ := hcs.exists_moveCursorsAfter old
          exact ⟨t, .after, hrun, hmoves, nofun⟩
    refine ⟨{ s' with cursors := t }, T', ?_, ?_, h.balanced, h.pairs, hcount', ?_, ?_,
      hmoves.internal, hmoves.total⟩
    · rw [removeNode]
      refine bind_of_some (if_neg hone)
        (bind_of_some hunlink ?_)
      refine (if_pos hne).trans ?_
      cases new <;> exact hmove
    · exact ⟨h.ordered.holds, h.ordered.sorted, h.ordered.keyed, h.ordered.first,
        h.ordered.last⟩
    · exact hmoves.registered hcs
    · intro ht
      apply hmoves.tracked hcs.listed ht
      · exact fun j hj => h.new j (hq j hj)
      · intro j hj hhit
        apply h.kept j hj
        rintro rfl
        simp at hhit

/-- `s'` is `s` without the pair of the key `k`, if it has one. -/
structure Removes (L : TreeLaws gen V) (s : TreeContainer G K M) (T : Tree M)
    (k : Option K) (s' : TreeContainer G K M) (T' : Tree M) : Prop where
  sound : Sound gen s' T'
  balanced : L.Balanced T'
  pairs : s'.pairs T' = SortedMap.erase gen.order k (s.pairs T)
  tracked : Tracked s.cursors T.ids → Tracked s'.cursors T'.ids
  internal : s'.cursors.internalCursor = s.cursors.internalCursor
  total : s'.cursors.cursorCount = s.cursors.cursorCount

/-- The keys around a node differ from every key that equals its key. -/
theorem SortedIds.absent_around {key : Nat → Option K} {front back : List Nat}
    {k : Option K} (h : SortedIds gen key (front ++ i :: back))
    (hk : gen.order.equal k (key i) = true) :
    ∀ j, j ∈ front ∨ j ∈ back → gen.order.equal k (key j) = false := by
  obtain ⟨-, hback, hfront⟩ := pairwise_append.mp h
  rintro j (hj | hj)
  · exact Comparator.equal_of_greater (Comparator.less_of_less_of_equal
      (hfront j hj i mem_cons_self) (Comparator.equal_symm hk))
  · exact Comparator.equal_of_less (Comparator.less_of_equal_of_less hk
      ((pairwise_cons.mp hback).1 j hj))

theorem exists_remove (hs : Sound gen s T) (hT : L.Balanced T) {k : Option K}
    (hk : L.CanSearch s T k) :
    ∃ s' T', s.remove gen V k = some s' ∧ Removes L s T k s' T' := by
  obtain ⟨t', T', found, notFound, hsearch, hre, hlocates, hfound, hnotFound⟩ :=
    L.exists_search hs hT hk
  obtain ⟨cs, hcs⟩ := hs.cursors
  cases found with
  | none =>
      obtain ⟨t'', T'', hrun, hre', hT''⟩ := hnotFound rfl
      refine ⟨{ s with
        toLinkedTree := t'', foundNode := none, notFoundNode := notFound }, T'', ?_, ?_, hT'',
        ?_, fun h => h.mono fun i hi => (hre'.ids.trans hre.ids).symm ▸ hi, rfl, rfl⟩
      · rw [remove]
        exact bind_of_some hsearch
          (bind_of_some hrun rfl)
      · have hids := hre'.ids.trans hre.ids
        have hall := (hs.rearrange hre).rearrange hre'
        exact ⟨⟨hall.holds, hall.sorted, hall.keyed, hall.first, hall.last⟩, hall.count,
          by simp, cs, hcs⟩
      · rw [SortedMap.erase_of_absent]
        · rw [pairs, hre'.ids, hre.ids]
          rfl
        · intro q hq
          obtain ⟨j, hj, rfl⟩ := mem_map.mp hq
          exact hlocates j hj
  | some i =>
      obtain ⟨p, l, m, r, rfl, hready⟩ := hfound i rfl
      have hsound : Sound gen { s with
          toLinkedTree := t', foundNode := some i, notFoundNode := notFound }
          (p.plug (.node l i m r)) := by
        have hall := hs.rearrange hre
        refine ⟨⟨hall.holds, hall.sorted, hall.keyed, hall.first, hall.last⟩, hall.count,
          ?_, hall.cursors⟩
        intro j hj
        obtain rfl := Option.some.inj hj
        simp [Path.mem_ids_plug]
      obtain ⟨s', T', hrun, h⟩ := exists_removeNode (V := V) hsound hready
      refine ⟨s'.unsetFoundNode, T', ?_, ⟨⟨h.ordered.holds, h.ordered.sorted,
        h.ordered.keyed, h.ordered.first, h.ordered.last⟩, h.count, ?_, h.cursors⟩,
        h.balanced, ?_, fun ht => h.tracked (hre.ids ▸ ht), h.internal, h.total⟩
      · rw [remove]
        exact bind_of_some hsearch
          (bind_of_some hrun rfl)
      · intro j hj
        cases hj
      · obtain ⟨front, back, hids, hpairs⟩ := h.pairs
        rw [hre.ids] at hids
        have hsorted := hs.sorted
        rw [hids] at hsorted
        have habsent := hsorted.absent_around hlocates.2
        have hpairs' : s'.unsetFoundNode.pairs T' =
            (front ++ back).map fun j => (s.key j, s.item j) := hpairs
        rw [hpairs', pairs, hids, map_append, map_append, map_cons,
          SortedMap.erase_at _ hlocates.2]
        · intro q hq
          obtain ⟨j, hj, rfl⟩ := mem_map.mp hq
          exact habsent j (Or.inr hj)
        · intro q hq
          obtain ⟨j, hj, rfl⟩ := mem_map.mp hq
          exact habsent j (Or.inl hj)

end

end TreeContainer

end Gobo
