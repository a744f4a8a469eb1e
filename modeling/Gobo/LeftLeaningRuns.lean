/-
Runs of left-leaning red-black trees: every removal that does not demote the
root keeps the colors right, and a removal that does may break them.
-/
import Gobo.LeftLeaningRemoval
import Gobo.TreeRuns

namespace Gobo

namespace TreeContainer

open LinkedTree

variable {G K : Type}

/-- The root is not demoted by the search for a key that is to be removed. -/
def KeepsRoot (gen : TreeGenerics G K) (s : TreeContainer G K Bool) :
    TreeCommand G K → Prop
  | .remove k => LeftLeaningTree.demotesRoot gen s k = false
  | _ => True

instance (gen : TreeGenerics G K) (s : TreeContainer G K Bool) (c : TreeCommand G K) :
    Decidable (KeepsRoot gen s c) :=
  TreeCommand.casesOn (motive := fun c => Decidable (KeepsRoot gen s c)) c
    (fun _ _ => instDecidableTrue) (fun _ _ => instDecidableTrue)
    (fun k => instDecidableEqBool (LeftLeaningTree.demotesRoot gen s k) false)
    fun _ => instDecidableTrue

/-- After every permitted run in which no removal demotes the root, the root is
black, no red node has a red child, no right child is red, all paths down have as
many black nodes, and the pairs are those that the commands mean. -/
theorem run_leftLeaning [Inhabited G] (gen : TreeGenerics G K) {cs : List (TreeCommand G K)}
    (hcs : Permitted (exec gen LeftLeaningTree.variant)
      (fun s c => Pre gen s c ∧ KeepsRoot gen s c) make cs) :
    ∃ s T, runAll (exec gen LeftLeaningTree.variant) make cs = some s ∧
      s.Holds T ∧ T.isRed = false ∧ T.NoRedRed ∧ T.NoRedRight ∧
      (∃ n, ∀ m ∈ T.blackCounts, m = n) ∧
      s.pairs T = cs.foldl (SortedMap.next gen) [] := by
  have hrun : ∃ s, runAll (exec gen LeftLeaningTree.variant) make cs = some s ∧
      Represents (LeftLeaningTree.laws gen) s (cs.foldl (SortedMap.next gen) []) := by
    refine run_simulates _ _ ?_ ⟨.nil, sound_make gen, ⟨rfl, 0, rfl⟩, rfl⟩ hcs
    rintro s _ c ⟨T, hs, hT, rfl⟩ ⟨hpre, hkeeps⟩
    obtain ⟨s', T', hrun, hs', hT', hpairs, -⟩ :=
      exists_exec (L := LeftLeaningTree.laws gen) hs hT hpre fun k hk => by
        subst hk
        exact hkeeps
    exact ⟨s', hrun, T', hs', hT', hpairs⟩
  obtain ⟨s, hrun, T, hs, ⟨hred, n, hn⟩, hpairs⟩ := hrun
  obtain ⟨hredRed, hblack⟩ := T.redBlack_iff.mp hn.redBlack
  exact ⟨s, T, hrun, hs.holds, hred, hredRed, hn.noRedRight, ⟨n, hblack⟩, hpairs⟩

theorem run_leftLeaning_three :
    ∃ s T, runAll (exec natTable LeftLeaningTree.variant) make
        [.internalPut 10 (some 1), .internalPut 20 (some 2), .internalPut 30 (some 3),
          .remove (some 3), .remove none] = some s ∧
      s.Holds T ∧ T.NoRedRed ∧ T.NoRedRight ∧
      s.pairs T = [(some 1, 10), (some 2, 20)] := by
  obtain ⟨s, T, hrun, hT, -, hred, hright, -, hpairs⟩ := @run_leftLeaning Nat Nat _ natTable
    [.internalPut 10 (some 1), .internalPut 20 (some 2), .internalPut 30 (some 3),
      .remove (some 3), .remove none] (by decide +kernel)
  exact ⟨s, T, hrun, hT, hred, hright, hpairs⟩

/-- After the keys 2 and 1 are put in, the removal of the absent key 3 leaves a
tree with more black nodes on the right than on the left. -/
theorem remove_demotes_root : ¬ ∀ cs : List (TreeCommand Nat Nat),
      Permitted (exec natTable LeftLeaningTree.variant) (Pre natTable) make cs →
      ∃ s T, runAll (exec natTable LeftLeaningTree.variant) make cs = some s ∧
        s.Holds T ∧ T.isRed = false ∧ T.NoRedRed ∧ T.NoRedRight ∧
        (∃ n, ∀ m ∈ T.blackCounts, m = n) ∧
        s.pairs T = cs.foldl (SortedMap.next natTable) [] := by
  intro hall
  obtain ⟨s, T, hrun, hT, -, -, -, ⟨n, hn⟩, -⟩ := hall
    [.internalPut 20 (some 2), .internalPut 10 (some 1), .remove (some 3)] (by decide)
  have hfields : (runAll (exec natTable LeftLeaningTree.variant) make
      [.internalPut 20 (some 2), .internalPut 10 (some 1), .remove (some 3)]).map
      (fun s => ([s.rootNode, s.leftChild 1, s.rightChild 1, s.leftChild 0, s.rightChild 0],
        [s.mark 1, s.mark 0])) =
      some ([some 1, none, some 0, none, none], [false, false]) := by decide
  rw [hrun] at hfields
  simp only [Option.map_some, Option.some.injEq, Prod.mk.injEq, List.cons.injEq, leftChild,
    rightChild, mark, and_true] at hfields
  obtain ⟨⟨hroot, hleft₁, hright₁, hleft₀, hright₀⟩, hmark₁, hmark₀⟩ := hfields
  obtain ⟨l, m, r, rfl⟩ := Tree.eq_join true (hT.root.symm.trans hroot)
  rw [Holds.links (p := .root) hT] at hleft₁ hright₁ hmark₁
  obtain rfl := Tree.root_eq_none.mp hleft₁
  obtain rfl : m = false := hmark₁
  obtain ⟨l', m', r', rfl⟩ := Tree.eq_join true hright₁
  rw [Holds.links (p := .child false 1 false .nil .root) hT] at hleft₀ hright₀ hmark₀
  obtain rfl := Tree.root_eq_none.mp hleft₀
  obtain rfl := Tree.root_eq_none.mp hright₀
  obtain rfl : m' = false := hmark₀
  have hone := hn 1 (by decide)
  have htwo := hn 2 (by decide)
  omega

end TreeContainer

end Gobo
