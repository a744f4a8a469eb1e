/-
Runs of a binary search tree: whatever the variant, every sequence of commands
acts on the sorted map that the tree stands for.
-/
import Gobo.AvlTree
import Gobo.RedBlackTree
import Gobo.Runs
import Gobo.TreeRemoval
import Mathlib.Data.Nat.Fib.Basic

namespace Gobo

open List LinkedTree

variable {G K M : Type}

/-- The routines of a container that change it or search it. -/
inductive TreeCommand (G K : Type) where
  | internalPut (v : G) (k : Option K)
  | internalPutNew (v : G) (k : Option K)
  | remove (k : Option K)
  | searchNode (k : Option K)

/-- The sorted map after a command.  An equal key is exchanged with its item in
a set, where the item is the key, and kept in a table. -/
def SortedMap.next (gen : TreeGenerics G K) (m : List (Option K × G)) :
    TreeCommand G K → List (Option K × G)
  | .internalPut v k => insert gen.order gen.keyOfItem.isSome k v m
  | .internalPutNew v k => insert gen.order gen.keyOfItem.isSome k v m
  | .remove k => erase gen.order k m
  | .searchNode _ => m

/-- Going from `start` from one node to its successor visits `ids`. -/
def LinkedTree.Traverses (t : LinkedTree M) : List Nat → Option Nat → Prop
  | [], start => start = none
  | v :: rest, start =>
      start = some v ∧ ∃ next, t.successor v = some next ∧ t.Traverses rest next

theorem LinkedTree.Holds.traverses {t : LinkedTree M} {T : Tree M} (h : t.Holds T)
    {front back : List Nat} (hids : T.ids = front ++ back) :
    t.Traverses back back.head? := by
  induction back generalizing front with
  | nil => rfl
  | cons v back ih =>
      have hsuccessor := h.successor hids
      rw [append_cons] at hids
      exact ⟨rfl, back.head?, hsuccessor, ih hids⟩

/-- Trees that are not balanced: the routines do nothing. -/
def plainBalancing : Balancing Unit where
  newMark := ()
  onNodeAdded := fun t _ => some t
  onRootNodeRemoved := some
  onNodeRemoved := fun t _ _ _ => some t
  Balanced := fun _ => True
  balanced_nil := trivial
  exists_added := fun _ h => ⟨_, _, rfl, Rearranges.refl h, trivial⟩
  exists_removed := fun _ h _ => ⟨_, _, rfl, Rearranges.refl h, trivial⟩
  exists_rootRemoved := fun _ _ h => ⟨_, _, rfl, Rearranges.refl h, trivial⟩

/-- An AVL tree of some height has at least as many nodes as a Fibonacci tree. -/
theorem Tree.Avl.fib_le {T : Tree Int} (h : T.Avl) : Nat.fib (T.height + 2) ≤ T.ids.length + 1 := by
  induction T with
  | nil => exact Nat.le_refl 1
  | node l i b r ihl ihr =>
      obtain ⟨hl, hr, hb, hlow, hhigh⟩ := h
      have hlength : (Tree.node l i b r).ids.length = l.ids.length + r.ids.length + 1 := by
        rw [Tree.ids_node, length_append, length_cons, Nat.add_assoc]
      have hheight : Nat.fib ((Tree.node l i b r).height + 2) =
          Nat.fib (max l.height r.height + 1) + Nat.fib (max l.height r.height + 2) :=
        Nat.fib_add_two
      -- One child has the greater height, the other one at least one less.
      have hlower : max l.height r.height + 1 ≤ l.height + 2 ∧
          max l.height r.height + 1 ≤ r.height + 2 := by omega
      have hleft := (Nat.fib_mono hlower.1).trans (ihl hl)
      have hright := (Nat.fib_mono hlower.2).trans (ihr hr)
      rw [hheight, hlength]
      rcases Nat.le_total l.height r.height with hle | hle
      · rw [max_eq_right hle] at hleft ⊢
        have := ihr hr
        omega
      · rw [max_eq_left hle] at hright ⊢
        have := ihl hl
        omega

namespace TreeContainer

variable {gen : TreeGenerics G K} {V : TreeVariant G K M}

/-- The state after a command. -/
def exec (gen : TreeGenerics G K) (V : TreeVariant G K M) (s : TreeContainer G K M) :
    TreeCommand G K → Option (TreeContainer G K M)
  | .internalPut v k => s.internalPut gen V v k
  | .internalPutNew v k => s.internalPutNew gen V v k
  | .remove k => s.remove gen V k
  | .searchNode k => s.searchNode gen k

/-- The answer that `has_key` would give, without the effect of calling it. -/
def Has (gen : TreeGenerics G K) (s : TreeContainer G K M) (k : Option K) : Prop :=
  (s.hasKey gen k).map Prod.fst = some true

/-- The documented preconditions; a set gives its items as their own keys. -/
def Pre (gen : TreeGenerics G K) (s : TreeContainer G K M) : TreeCommand G K → Prop
  | .internalPut v k => Agrees gen v k
  | .internalPutNew v k => Agrees gen v k ∧ ¬ s.Has gen k
  | .remove _ => True
  | .searchNode _ => True

instance [DecidableEq K] (v : G) (k : Option K) : Decidable (Agrees gen v k) :=
  match h : gen.keyOfItem with
  | none => isTrue fun f hf => by rw [h] at hf; cases hf
  | some f => decidable_of_iff (k = f v)
      ⟨fun heq g hg => by rw [h] at hg; cases hg; exact heq, fun hall => hall f h⟩

instance (s : TreeContainer G K M) (k : Option K) : Decidable (s.Has gen k) :=
  inferInstanceAs (Decidable (_ = _))

instance [DecidableEq K] (s : TreeContainer G K M) (c : TreeCommand G K) :
    Decidable (s.Pre gen c) := by
  cases c <;> unfold Pre <;> infer_instance

/-- `m` is the sorted map that the container stands for. -/
def Represents (L : TreeLaws gen V) (s : TreeContainer G K M)
    (m : List (Option K × G)) : Prop :=
  ∃ T, Sound gen s T ∧ L.Balanced T ∧ s.pairs T = m

section

variable {L : TreeLaws gen V} {s : TreeContainer G K M} {T : Tree M} {k : Option K}

theorem Sound.has_iff (hs : Sound gen s T) :
    s.Has gen k ↔ ∃ i ∈ T.ids, gen.order.equal k (s.key i) = true := by
  by_cases hroot : s.rootNode = none
  · obtain rfl := eq_nil_of_rootNode hs hroot
    rw [Has, hasKey, if_pos hroot]
    simp
  · obtain ⟨found, hrun, hfound⟩ := hs.exists_searchNode k
    rw [Has, hasKey, if_neg hroot, hrun]
    cases found with
    | none =>
        refine iff_of_false (by simp) ?_
        rintro ⟨i, hi, hequal⟩
        rw [hfound i hi] at hequal
        exact Bool.false_ne_true hequal
    | some i => exact iff_of_true rfl ⟨i, hfound⟩

theorem Sound.absent_of_not_has (hs : Sound gen s T) (hk : ¬ s.Has gen k) :
    ∀ i ∈ T.ids, gen.order.equal k (s.key i) = false := by
  intro i hi
  by_contra hequal
  exact hk (hs.has_iff.mpr ⟨i, hi, by simpa using hequal⟩)

/-- Only the position found changes in a search. -/
theorem Sound.setFoundNode (hs : Sound gen s T) {found : Option Nat}
    (hfound : Locates gen s.key T k found) : Sound gen { s with foundNode := found } T where
  toOrdered := ⟨hs.holds, hs.sorted, hs.keyed, hs.first, hs.last⟩
  count := hs.count
  found := by
    rintro i hi
    obtain rfl : found = some i := hi
    exact hfound.1
  cursors := hs.cursors

/-- What every command does to a sound and balanced tree. -/
theorem exists_exec (hs : Sound gen s T) (hT : L.Balanced T) {c : TreeCommand G K}
    (hpre : s.Pre gen c) (hsearch : ∀ k, c = .remove k → L.CanSearch s T k) :
    ∃ s' T', s.exec gen V c = some s' ∧ Sound gen s' T' ∧ L.Balanced T' ∧
      s'.pairs T' = SortedMap.next gen (s.pairs T) c ∧
      (Tracked s.cursors T.ids → Tracked s'.cursors T'.ids) ∧
      s'.cursors.cursorCount = s.cursors.cursorCount := by
  cases c with
  | internalPut v k =>
      obtain ⟨s', T', hrun, h⟩ := exists_internalPut (V := V) (L := L) hs hT hpre
      refine ⟨s', T', hrun, h.sound, h.balanced, h.pairs, ?_, by rw [h.cursors]⟩
      intro ht
      rw [h.cursors]
      exact ht.mono h.grows
  | internalPutNew v k =>
      obtain ⟨s', T', hrun, h⟩ := exists_internalPutNew (V := V) (L := L) hs hT hpre.1
        (hs.absent_of_not_has hpre.2)
      refine ⟨s', T', hrun, h.sound, h.balanced, h.pairs, ?_, by rw [h.cursors]⟩
      intro ht
      rw [h.cursors]
      exact ht.mono h.grows
  | remove k =>
      obtain ⟨s', T', hrun, h⟩ := exists_remove (V := V) (L := L) hs hT (hsearch k rfl)
      exact ⟨s', T', hrun, h.sound, h.balanced, h.pairs, h.tracked, h.total⟩
  | searchNode k =>
      obtain ⟨found, hrun, hfound⟩ := hs.exists_searchNode k
      exact ⟨_, T, hrun, hs.setFoundNode hfound, hT, rfl, id, rfl⟩

/-- The container is the sorted map `m`: its nodes in the order of `successor`
hold the pairs of `m`, and only the key asked for is found. -/
structure IsSortedMap (gen : TreeGenerics G K) (s : TreeContainer G K M)
    (m : List (Option K × G)) : Prop where
  sorted : SortedMap.Sorted gen.order m
  traversal : ∃ ids, s.Traverses ids s.firstNode ∧ ids.Nodup ∧
    ids.map (fun i => (s.key i, s.item i)) = m ∧ s.lastNode = ids.getLast? ∧
    ∀ v ∈ ids, ∀ w, s.successor v = some (some w) → s.predecessor w = some (some v)
  count : s.count = m.length
  search : ∀ k, ∃ found, s.searchNode gen k = some { s with foundNode := found } ∧
    found.map s.item = SortedMap.lookup gen.order k m ∧
    ∀ i, found = some i → gen.order.equal k (s.key i) = true

theorem Sound.predecessor_successor (hs : Sound gen s T) {v w : Nat} (hv : v ∈ T.ids)
    (hw : s.successor v = some (some w)) : s.predecessor w = some (some v) := by
  obtain ⟨front, back, hids⟩ := append_of_mem hv
  have hsuccessor := hs.holds.successor hids
  rw [hw] at hsuccessor
  cases back with
  | nil => cases hsuccessor
  | cons x back =>
      obtain rfl : w = x := Option.some.inj (Option.some.inj hsuccessor)
      rw [append_cons] at hids
      rw [hs.holds.predecessor hids, getLast?_concat]

theorem Sound.lookup_eq (hs : Sound gen s T) {found : Option Nat}
    (hfound : Locates gen s.key T k found) :
    found.map s.item = SortedMap.lookup gen.order k (s.pairs T) := by
  cases found with
  | none =>
      refine (SortedMap.lookup_of_absent ?_).symm
      rintro _ hp
      obtain ⟨i, hi, rfl⟩ := mem_map.mp hp
      exact hfound i hi
  | some i =>
      obtain ⟨front, back, hids⟩ := append_of_mem hfound.1
      have haround := SortedIds.absent_around (hids ▸ hs.sorted) hfound.2
      rw [pairs, hids, map_append, map_cons]
      refine (SortedMap.lookup_at ?_ hfound.2).symm
      rintro _ hp
      obtain ⟨j, hj, rfl⟩ := mem_map.mp hp
      exact haround j (Or.inl hj)

theorem Sound.isSortedMap (hs : Sound gen s T) : IsSortedMap gen s (s.pairs T) where
  sorted := pairwise_map.mpr hs.sorted
  traversal := ⟨T.ids, by
    rw [hs.first]
    exact @Holds.traverses M s.toLinkedTree T hs.holds [] T.ids rfl, hs.holds.nodup, rfl, hs.last,
    fun v hv w hw => hs.predecessor_successor hv hw⟩
  count := by rw [hs.count, pairs, length_map]
  search := by
    intro k
    obtain ⟨found, hrun, hfound⟩ := hs.exists_searchNode k
    refine ⟨found, hrun, hs.lookup_eq hfound, ?_⟩
    rintro i rfl
    exact hfound.2

end

/-! ### Runs -/

section

variable [Inhabited G] [Inhabited M]

theorem sound_make (gen : TreeGenerics G K) : Sound gen (make : TreeContainer G K M) .nil where
  holds := ⟨nodup_nil, trivial, fun _ _ => rfl, rfl, by simp⟩
  sorted := List.Pairwise.nil
  keyed := by simp
  first := rfl
  last := rfl
  count := rfl
  found := by simp [make]
  cursors := by
    refine ⟨[0], ⟨⟨rfl, rfl⟩, ?_⟩, ?_⟩
    · intro c hc
      obtain rfl := mem_singleton.mp hc
      exact Nat.one_pos
    · intro c hc hne
      exact absurd (mem_singleton.mp hc) hne

/-- Every permitted run of a tree that keeps itself balanced ends, and does to
the pairs what the commands mean. -/
theorem run_represents (B : Balancing M) (gen : TreeGenerics G K)
    {cs : List (TreeCommand G K)}
    (hcs : Permitted (exec gen B.variant) (Pre gen) make cs) :
    ∃ s, runAll (exec gen B.variant) make cs = some s ∧
      Represents (B.laws gen) s (cs.foldl (SortedMap.next gen) []) := by
  refine run_simulates _ _ ?_ ⟨.nil, sound_make gen, B.balanced_nil, rfl⟩ hcs
  rintro s _ c ⟨T, hs, hT, rfl⟩ hpre
  obtain ⟨s', T', hrun, hs', hT', hpairs, -⟩ :=
    exists_exec (V := B.variant) (L := B.laws gen) hs hT hpre fun _ _ => trivial
  exact ⟨s', hrun, T', hs', hT', hpairs⟩

/-- Whatever the variant, the tree is the sorted map that the commands mean. -/
theorem run_isSortedMap (B : Balancing M) (gen : TreeGenerics G K)
    {cs : List (TreeCommand G K)}
    (hcs : Permitted (exec gen B.variant) (Pre gen) make cs) :
    ∃ s, runAll (exec gen B.variant) make cs = some s ∧
      IsSortedMap gen s (cs.foldl (SortedMap.next gen) []) := by
  obtain ⟨s, hrun, T, hs, -, hpairs⟩ := run_represents B gen hcs
  exact ⟨s, hrun, hpairs ▸ hs.isSortedMap⟩

end

/-! ### Natural numbers as keys -/

def natOrder : Comparator Nat where
  lessThan a b := decide (a < b)
  irrefl := by simp
  trans a b c := by simpa using Nat.lt_trans
  total a b c := by
    simp only [decide_eq_true_eq]
    omega

/-- A table and a set. -/
def natTable : TreeGenerics Nat Nat := ⟨natOrder, none⟩

def natSet : TreeGenerics Nat Nat := ⟨natOrder, some some⟩

theorem run_isSortedMap_variants :
    (∃ s, runAll (exec natTable plainBalancing.variant) make
        [.internalPut 10 none, .internalPutNew 20 (some 2), .searchNode (some 2),
          .internalPutNew 30 (some 3), .remove (some 2)] = some s ∧
      IsSortedMap natTable s [(none, 10), (some 3, 30)]) ∧
    (∃ s, runAll (exec natSet avlBalancing.variant) make
        [.internalPut 3 (some 3), .internalPut 2 (some 2), .internalPut 1 (some 1),
          .remove (some 3)] = some s ∧
      IsSortedMap natSet s [(some 1, 1), (some 2, 2)]) ∧
    ∃ s, runAll (exec natTable redBlackBalancing.variant) make
        [.internalPut 10 (some 1), .internalPut 20 (some 2), .internalPut 30 (some 3),
          .remove (some 2), .internalPut 40 (some 1)] = some s ∧
      IsSortedMap natTable s [(some 1, 40), (some 3, 30)] :=
  ⟨run_isSortedMap plainBalancing natTable (by decide),
    run_isSortedMap avlBalancing natSet (by decide),
    run_isSortedMap redBlackBalancing natTable (by decide)⟩

/-! ### Balance -/

section

variable [Inhabited G] (gen : TreeGenerics G K) {cs : List (TreeCommand G K)}

/-- After every permitted run of an AVL tree every balance is right and small. -/
theorem run_avl (hcs : Permitted (exec gen avlBalancing.variant) (Pre gen) make cs) :
    ∃ s T, runAll (exec gen avlBalancing.variant) make cs = some s ∧
      s.Holds T ∧ T.Avl ∧ SortedMap.Sorted gen.order (s.pairs T) ∧
      s.pairs T = cs.foldl (SortedMap.next gen) [] := by
  obtain ⟨s, hrun, T, hs, hT, hpairs⟩ := run_represents avlBalancing gen hcs
  exact ⟨s, T, hrun, hs.holds, hT, hs.isSortedMap.sorted, hpairs⟩

theorem run_avl_rotations :
    ∃ s T, runAll (exec natTable avlBalancing.variant) make
        [.internalPut 30 (some 3), .internalPut 10 (some 1), .internalPut 20 (some 2),
          .internalPut 40 (some 4), .remove (some 1)] = some s ∧
      s.Holds T ∧ T.Avl ∧ s.pairs T = [(some 2, 20), (some 3, 30), (some 4, 40)] := by
  obtain ⟨s, T, hrun, hT, havl, -, hpairs⟩ := @run_avl Nat Nat _ natTable
    [.internalPut 30 (some 3), .internalPut 10 (some 1), .internalPut 20 (some 2),
      .internalPut 40 (some 4), .remove (some 1)] (by decide)
  exact ⟨s, T, hrun, hT, havl, hpairs⟩

/-- After every permitted run of an AVL tree with `n` items, the loop of `search_node` ends after
`turns` turns if the Fibonacci number of `turns + 2` is greater than `n + 1`, whatever the key. -/
theorem run_avl_search (hcs : Permitted (exec gen avlBalancing.variant) (Pre gen) make cs) :
    ∃ s, runAll (exec gen avlBalancing.variant) make cs = some s ∧
      ∀ (k : K) (turns : Nat), s.count + 1 < (Nat.fib (turns + 2) : Int) →
        ∃ n, loopUntil (fun n => some (n.foundNode.isNone || n.equality)) (s.searchNodeStep gen k)
            (turns + 1) ⟨s.rootNode, false⟩ = some n ∧
          n.foundNode.map s.item =
            SortedMap.lookup gen.order (some k) (cs.foldl (SortedMap.next gen) []) := by
  obtain ⟨s, hrun, T, hs, hT, hpairs⟩ := run_represents avlBalancing gen hcs
  refine ⟨s, hrun, fun k turns hturns => ?_⟩
  have hlow : T.height < turns := by
    by_contra hge
    have hfib := (Nat.fib_mono (by omega : turns + 2 ≤ T.height + 2)).trans hT.fib_le
    have hcount := hs.count
    omega
  obtain ⟨n, hsearch, hn⟩ := exists_searchLoop hs.holds hs.sorted k (p := .root) rfl
    ⟨by simp [Path.before], by simp [Path.after]⟩ (by omega : T.height + 1 < turns + 1)
  rw [← hs.holds.root] at hsearch
  exact ⟨n, hsearch, hpairs ▸ hs.lookup_eq hn⟩

theorem run_avl_search_two :
    ∃ s, runAll (exec natTable avlBalancing.variant) make
        [.internalPut 30 (some 3), .internalPut 10 (some 1)] = some s ∧
      ∀ (k turns : Nat), s.count + 1 < (Nat.fib (turns + 2) : Int) →
        ∃ n, loopUntil (fun n => some (n.foundNode.isNone || n.equality))
            (s.searchNodeStep natTable k) (turns + 1) ⟨s.rootNode, false⟩ = some n ∧
          n.foundNode.map s.item =
            SortedMap.lookup natOrder.withBottom (some k) [(some 1, 10), (some 3, 30)] :=
  run_avl_search natTable (by decide)

/-- Every permitted run of a red-black tree ends, so the siblings it asks for
exist; then the root is black, no red node has a red child, all paths down have
as many black nodes, and the height is logarithmic. -/
theorem run_redBlack (hcs : Permitted (exec gen redBlackBalancing.variant) (Pre gen) make cs) :
    ∃ s T, runAll (exec gen redBlackBalancing.variant) make cs = some s ∧
      s.Holds T ∧ T.isRed = false ∧ T.NoRedRed ∧
      (∃ n, ∀ m ∈ T.blackCounts, m = n) ∧
      (T.ids.length : Int) = s.count ∧
      T.height ≤ 2 * Nat.log 2 (T.ids.length + 1) := by
  obtain ⟨s, hrun, T, hs, hT, -⟩ := run_represents redBlackBalancing gen hcs
  obtain ⟨n, hn⟩ := hT.2
  obtain ⟨hred, hblack⟩ := T.redBlack_iff.mp hn
  exact ⟨s, T, hrun, hs.holds, hT.1, hred, ⟨n, hblack⟩, hs.count.symm, hT.height_le⟩

end

theorem run_redBlack_recolouring :
    ∃ s T, runAll (exec natTable redBlackBalancing.variant) make
        [.internalPut 10 (some 1), .internalPut 20 (some 2), .internalPut 30 (some 3),
          .internalPut 40 (some 4), .remove (some 1)] = some s ∧
      s.Holds T ∧ T.NoRedRed := by
  obtain ⟨s, T, hrun, hT, -, hred, -⟩ := @run_redBlack Nat Nat _ natTable
    [.internalPut 10 (some 1), .internalPut 20 (some 2), .internalPut 30 (some 3),
      .internalPut 40 (some 4), .remove (some 1)] (by decide)
  exact ⟨s, T, hrun, hT, hred⟩

end TreeContainer

end Gobo
