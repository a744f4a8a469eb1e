/-
What a variant of binary search trees has to guarantee: the routines that it
effects or redefines keep the in-order list and restore its own notion of
balance.
-/
import Gobo.TreeInvariant

namespace Gobo

open LinkedTree

variable {G K M : Type}

/-- `Balanced` is true between two calls.  `Ready p T` is true when the root of
`T` was found for removal, and `Removable p T` when it is about to be taken out,
as it has one child at most. -/
structure TreeLaws (gen : TreeGenerics G K) (V : TreeVariant G K M) where
  Balanced : Tree M → Prop
  Ready : Path M → Tree M → Prop
  Removable : Path M → Tree M → Prop
  CanSearch : TreeContainer G K M → Tree M → Option K → Prop
  balanced_nil : Balanced .nil
  exists_added : ∀ {t : LinkedTree M} {p : Path M} {n : Nat},
    Balanced (p.plug .nil) → t.Holds (p.plug (.node .nil n V.newMark .nil)) →
    ∃ t' T', V.onNodeAdded t n = some t' ∧
      t.Rearranges (p.plug (.node .nil n V.newMark .nil)) t' T' ∧ Balanced T'
  removable_of_ready : ∀ {p : Path M} {l : Tree M} {i : Nat} {m : M},
    Ready p (.node l i m .nil) → Removable p (.node l i m .nil)
  exists_removed : ∀ {t : LinkedTree M} {isLeft b : Bool} {i n : Nat} {m mn : M}
    {sib c : Tree M} {up : Path M},
    Removable (.child isLeft i m sib up) (.join b c n mn .nil) →
    t.Holds ((Path.child isLeft i m sib up).plug c) → t.mark n = mn →
    ∃ t' T', V.onNodeRemoved t n i isLeft = some t' ∧
      t.Rearranges ((Path.child isLeft i m sib up).plug c) t' T' ∧ Balanced T'
  exists_rootRemoved : ∀ {t : LinkedTree M} {n : Nat} {mn : M} {c : Tree M},
    Removable .root (.node c n mn .nil) → c ≠ .nil → t.Holds c →
    ∃ t' T', V.onRootNodeRemoved t = some t' ∧ t.Rearranges c t' T' ∧ Balanced T'
  exists_successor : ∀ {t : LinkedTree M} {p : Path M} {l r : Tree M} {i : Nat} {m : M},
    Ready p (.node l i m r) → r ≠ .nil → t.Holds (p.plug (.node l i m r)) →
    ∃ (t' : LinkedTree M) (j : Nat) (q : Path M) (mj : M) (rj : Tree M)
      (front : List Nat),
      V.successorForRemoval t i = some (t', j) ∧
      t.Rearranges (p.plug (.node l i m r)) t' (q.plug (.node .nil j mj rj)) ∧
      q.before = front ++ [i] ∧ Removable q (.node .nil j mj rj)
  exists_search : ∀ {s : TreeContainer G K M} {T : Tree M} {k : Option K},
    s.Sound gen T → Balanced T → CanSearch s T k →
    ∃ t' T' found notFound, V.searchNodeForRemoval gen s k = some { s with
        toLinkedTree := t', foundNode := found, notFoundNode := notFound } ∧
      s.Rearranges T t' T' ∧ TreeContainer.Locates gen s.key T k found ∧
      (∀ i, found = some i → ∃ p l m r, T' = p.plug (.node l i m r) ∧
        Ready p (.node l i m r)) ∧
      (found = none → ∃ t'' T'', V.onNodeForRemovalNotFound { s with
          toLinkedTree := t', foundNode := none, notFoundNode := notFound } =
        some { s with
          toLinkedTree := t'', foundNode := none, notFoundNode := notFound } ∧
        t'.Rearranges T' t'' T'' ∧ Balanced T'')

/-- Variants that keep `search_node_for_removal` as it is, with what their own
routines guarantee. -/
structure Balancing (M : Type) where
  newMark : M
  onNodeAdded : LinkedTree M → Nat → Option (LinkedTree M)
  onRootNodeRemoved : LinkedTree M → Option (LinkedTree M)
  onNodeRemoved : LinkedTree M → Nat → Nat → Bool → Option (LinkedTree M)
  Balanced : Tree M → Prop
  balanced_nil : Balanced .nil
  exists_added : ∀ {t : LinkedTree M} {p : Path M} {n : Nat},
    Balanced (p.plug .nil) → t.Holds (p.plug (.node .nil n newMark .nil)) →
    ∃ t' T', onNodeAdded t n = some t' ∧
      t.Rearranges (p.plug (.node .nil n newMark .nil)) t' T' ∧ Balanced T'
  exists_removed : ∀ {t : LinkedTree M} {isLeft b : Bool} {i n : Nat} {m mn : M}
    {sib c : Tree M} {up : Path M},
    Balanced ((Path.child isLeft i m sib up).plug (.join b c n mn .nil)) →
    t.Holds ((Path.child isLeft i m sib up).plug c) → t.mark n = mn →
    ∃ t' T', onNodeRemoved t n i isLeft = some t' ∧
      t.Rearranges ((Path.child isLeft i m sib up).plug c) t' T' ∧ Balanced T'
  exists_rootRemoved : ∀ {t : LinkedTree M} {n : Nat} {mn : M} {c : Tree M},
    Balanced (.node c n mn .nil) → c ≠ .nil → t.Holds c →
    ∃ t' T', onRootNodeRemoved t = some t' ∧ t.Rearranges c t' T' ∧ Balanced T'

namespace Balancing

variable (B : Balancing M) (gen : TreeGenerics G K)

def variant : TreeVariant G K M :=
  TreeVariant.make B.newMark B.onNodeAdded B.onRootNodeRemoved B.onNodeRemoved

def laws : TreeLaws gen (B.variant : TreeVariant G K M) where
  Balanced := B.Balanced
  Ready := fun p T => B.Balanced (p.plug T)
  Removable := fun p T => B.Balanced (p.plug T)
  CanSearch := fun _ _ _ => True
  balanced_nil := B.balanced_nil
  removable_of_ready := id
  exists_added := B.exists_added
  exists_removed := B.exists_removed
  exists_rootRemoved := B.exists_rootRemoved
  exists_successor := by
    intro t p l r i m hready hr hholds
    obtain ⟨n, hn⟩ : ∃ n, r.root = some n :=
      Option.ne_none_iff_exists'.mp fun h => hr (Tree.root_eq_none.mp h)
    obtain ⟨j, q, mj, rj, hrun, hplug, -, hbefore⟩ :=
      Holds.outermost (p := .child false i m l p) (U := r) (s := false) hholds hn
    have hchild : t.rightChild i = some n := by
      rw [rightChild, Holds.links hholds, hn]
    refine ⟨t, j, q, mj, rj, p.before ++ l.ids, ?_, ?_, ?_, ?_⟩
    · show ((t.rightChild i).bind fun c => (t.outermost true c).bind fun d =>
        some (t, d)) = some (t, j)
      rw [hchild, Option.bind_some]
      exact bind_of_some hrun rfl
    · exact hplug ▸ Rearranges.refl hholds
    · exact List.reverse_injective hbefore
    · exact hplug ▸ hready
  exists_search := by
    intro s T k hs hT _
    obtain ⟨found, hrun, hfound⟩ := hs.exists_searchNode k
    refine ⟨s.toLinkedTree, T, found, s.notFoundNode, hrun, Rearranges.refl hs.holds,
      hfound, ?_, ?_⟩
    · rintro i rfl
      obtain ⟨p, l, r, m, rfl⟩ := Path.exists_plug hfound.1
      exact ⟨p, l, m, r, rfl, hT⟩
    · rintro rfl
      exact ⟨s.toLinkedTree, T, rfl, Rearranges.refl hs.holds, hT⟩

end Balancing

end Gobo
