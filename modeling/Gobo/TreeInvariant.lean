/-
The invariant of binary search trees, whatever the variant: the linked nodes
are a tree, its keys are sorted, and the attributes of the container agree with
its in-order list.
-/
import Gobo.TreeSearch

namespace Gobo

open List

variable {G K M : Type} {gen : TreeGenerics G K}

namespace TreeContainer

/-- The cursors `cs` are registered; each of them but the internal one is on a
node. -/
structure Registered (t : Traversal TreePosition) (cs : List Nat) : Prop where
  listed : t.Listed cs
  onNode : ∀ c ∈ cs, c ≠ t.internalCursor → (t.position c).position ≠ none

/-- The nodes are the tree `T` in the order of their keys. -/
structure Ordered (gen : TreeGenerics G K) (s : TreeContainer G K M) (T : Tree M) :
    Prop where
  holds : s.Holds T
  sorted : SortedIds gen s.key T.ids
  keyed : ∀ f, gen.keyOfItem = some f → ∀ i ∈ T.ids, s.key i = f (s.item i)
  first : s.firstNode = T.ids.head?
  last : s.lastNode = T.ids.getLast?

structure Sound (gen : TreeGenerics G K) (s : TreeContainer G K M) (T : Tree M) : Prop
    extends Ordered gen s T where
  count : s.count = T.ids.length
  found : ∀ i, s.foundNode = some i → i ∈ T.ids
  cursors : ∃ cs, Registered s.cursors cs

/-- The pairs in in-order. -/
def pairs (s : TreeContainer G K M) (T : Tree M) : List (Option K × G) :=
  T.ids.map fun i => (s.key i, s.item i)

section

variable {s : TreeContainer G K M} {T : Tree M}

/-- Only the first node can have Void as key. -/
theorem Sound.key_ne_none (hs : Sound gen s T) {f : Nat} {rest : List Nat}
    (hids : T.ids = f :: rest) (hf : s.key f ≠ none) : ∀ i ∈ T.ids, s.key i ≠ none := by
  intro i hi hnone
  obtain ⟨front, back, hsplit⟩ := append_of_mem hi
  have hsorted := hs.sorted
  rw [hsplit] at hsorted
  obtain rfl := key_none_iff hsorted hnone
  rw [hids] at hsplit
  obtain rfl := (cons.inj hsplit).1
  exact hf hnone

theorem less_of_ne_none {k : Option K} (hk : k ≠ none) :
    gen.order.lessThan none k = true := by
  cases k with
  | none => exact absurd rfl hk
  | some k => rfl

theorem Sound.exists_searchNode (hs : Sound gen s T) (k : Option K) :
    ∃ f, s.searchNode gen k = some { s with foundNode := f } ∧
      Locates gen s.key T k f := by
  cases k with
  | none =>
      refine ⟨_, rfl, ?_⟩
      rw [hs.first]
      cases hids : T.ids with
      | nil =>
          intro i hi
          rw [hids] at hi
          exact absurd hi not_mem_nil
      | cons f rest =>
          by_cases hf : s.key f = none
          · simp only [head?_cons, hf, Option.isNone_none, Option.filter_some,
              if_true]
            refine ⟨by rw [hids]; exact mem_cons_self, ?_⟩
            rw [hf]
            exact Comparator.equal_refl none
          · have hf' : (s.key f).isNone = false := by
              simpa [Option.isSome_iff_ne_none] using hf
            simp only [head?_cons, Option.filter_some, hf', Bool.false_eq_true,
              if_false]
            intro i hi
            exact Comparator.equal_of_less
              (less_of_ne_none (hs.key_ne_none hids hf i hi))
  | some k =>
      by_cases hcached : s.isFound gen k = true
      · refine ⟨s.foundNode, ?_, ?_⟩
        · rw [searchNode, if_pos hcached]
        · cases hfound : s.foundNode with
          | none => simp [isFound, hfound] at hcached
          | some i =>
              cases hi : s.key i with
              | none => simp [isFound, hfound, hi] at hcached
              | some l =>
                  refine ⟨hs.found i hfound, ?_⟩
                  rw [hi]
                  have hequal : gen.keyComparator.equal k l = true := by
                    simpa [isFound, hfound, hi] using hcached
                  exact hequal
      · have hheight : T.height + 1 < s.created + 2 := by
          have hle := LinkedTree.Holds.height_le (p := .root) hs.holds
          omega
        obtain ⟨n, hrun, hn⟩ := exists_searchLoop hs.holds hs.sorted k (p := .root) rfl
          ⟨by simp [Path.before], by simp [Path.after]⟩ hheight
        refine ⟨n.foundNode, ?_, hn⟩
        rw [searchNode, if_neg hcached, hs.holds.root, hrun]
        rfl

/-- The first node has no left child. -/
theorem Sound.exists_first (hs : Sound gen s T) (hT : T ≠ .nil) :
    ∃ (f : Nat) (q : Path M) (m : M) (o : Tree M), s.firstNode = some f ∧
      T = q.plug (.node .nil f m o) ∧ q.before = [] := by
  cases hids : T.ids with
  | nil =>
      exfalso
      cases T with
      | nil => exact hT rfl
      | node l i m r => simp at hids
  | cons f rest =>
      obtain ⟨q, l, r, m, rfl⟩ := Path.exists_plug (T := T) (i := f) (by simp [hids])
      have hsplit : (q.plug (.node l f m r)).ids = [] ++ f :: rest := hids
      obtain ⟨hfront, -⟩ := hs.holds.split_eq hsplit
      obtain ⟨hbefore, hl⟩ := append_eq_nil_iff.mp hfront
      cases l with
      | nil => exact ⟨f, q, m, r, by rw [hs.first, hids]; rfl, rfl, hbefore⟩
      | node => simp at hl

theorem Sound.exists_searchInsertPosition (hs : Sound gen s T) (hT : T ≠ .nil)
    (k : Option K) : ∃ (node : Nat) (exact isLeft : Bool),
      s.searchInsertPosition gen k = some { s with
        foundNode := some node
        exactInsertPositionFound := exact
        insertPositionIsLeft := isLeft } ∧
      InsertPlace gen s.key T k node exact isLeft := by
  cases k with
  | none =>
      obtain ⟨f, q, m, o, hfirst, hplug, hbefore⟩ := hs.exists_first hT
      refine ⟨f, (s.key f).isNone, _, by rw [searchInsertPosition, hfirst]; rfl, ?_⟩
      have hmem : f ∈ T.ids := by
        rw [hplug]
        simp [Path.mem_ids_plug]
      by_cases hf : s.key f = none
      · rw [InsertPlace, hf]
        exact ⟨hmem, Comparator.equal_refl none⟩
      · have hf' : (s.key f).isNone = false := by
          simpa [Option.isSome_iff_ne_none] using hf
        rw [InsertPlace, hf']
        refine ⟨q, m, o, hplug, ?_, ?_⟩
        · intro i hi
          have hnil : i ∈ q.before := hi
          rw [hbefore] at hnil
          exact absurd hnil not_mem_nil
        · intro i hi
          apply less_of_ne_none
          have hids : T.ids = f :: (o.ids ++ q.after) := by
            rw [hplug, Path.ids_plug, hbefore]
            simp
          apply hs.key_ne_none hids hf
          rw [hids]
          exact hi
  | some k =>
      cases T with
      | nil => exact absurd rfl hT
      | node l i m r =>
          have hheight : (Tree.node l i m r).height < s.created + 2 := by
            have hle := LinkedTree.Holds.height_le (p := .root) hs.holds
            omega
          obtain ⟨n, hrun, hn⟩ := exists_insertLoop hs.holds hs.sorted k (p := .root)
            rfl ⟨by simp [Path.before], by simp [Path.after]⟩ hheight rfl
            s.insertPositionIsLeft
          refine ⟨n.node, _, _, ?_, hn⟩
          rw [searchInsertPosition, hs.holds.root]
          simp only [Tree.root, some_bind, hrun]
          rfl

end

end TreeContainer

end Gobo
