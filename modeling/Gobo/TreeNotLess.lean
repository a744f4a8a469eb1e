/-
The search of a binary search tree for the greatest key that is not greater than
a key and whose item satisfies a predicate.
-/
import Gobo.TreeRuns

namespace Gobo

open List

variable {G K M : Type} {gen : TreeGenerics G K}

/-- The nodes on the way down that turns left where `goesLeft`. -/
def Tree.wayDown (goesLeft : Nat → Bool) : Tree M → List Nat
  | nil => []
  | node l i _ r => i :: if goesLeft i then l.wayDown goesLeft else r.wayDown goesLeft

/-- Where the way down turns right, the nodes are in in-order. -/
theorem Tree.wayDown_sublist (goesLeft : Nat → Bool) (T : Tree M) :
    ((T.wayDown goesLeft).filter fun i => !goesLeft i).Sublist T.ids := by
  induction T with
  | nil => exact List.Sublist.refl []
  | node l i m r ihl ihr =>
      rw [wayDown, ids_node]
      by_cases hi : goesLeft i = true
      · rw [if_pos hi, filter_cons_of_neg (by simp [hi])]
        exact ihl.trans (sublist_append_left _ _)
      · rw [if_neg hi, filter_cons_of_pos (by simpa using hi)]
        exact (ihr.cons_cons i).trans (sublist_append_right _ _)

namespace TreeContainer

/-- Is the key less than that of a node?  Void is less than every other key. -/
def keyIsLess (gen : TreeGenerics G K) : Option K → Option K → Bool
  | none, nodeKey => nodeKey.isSome
  | some _, none => false
  | some k, some nodeKey => gen.keyComparator.lessThan k nodeKey

/-- The locals of `search_not_less`. -/
structure NotLessSearch where
  node : Option Nat
  result : Option Nat

/-- Is there no predicate, or does it hold of the item? -/
def satisfies (s : TreeContainer G K M) (p : Option (G → Bool)) (i : Nat) : Bool :=
  p.all fun f => f (s.item i)

section

variable (gen : TreeGenerics G K) (s : TreeContainer G K M) (k : Option K) (p : Option (G → Bool))

/-- One turn of the loop in `search_not_less`. -/
def notLessTurn (n : NotLessSearch) : Option NotLessSearch := do
  let node ← n.node
  if keyIsLess gen k (s.key node) then
    return ⟨s.leftChild node, n.result⟩
  else
    return ⟨s.rightChild node, if s.satisfies p node then some node else n.result⟩

def searchNotLess : Option (Option Nat) := do
  let n ← loopUntil (fun n => some n.node.isNone) (s.notLessTurn gen k p) (s.created + 1)
    ⟨s.rootNode, none⟩
  return n.result

/-- The nodes that the search is about. -/
def Fits (i : Nat) : Prop :=
  gen.order.lessThan k (s.key i) = false ∧ s.satisfies p i = true

end

instance (s : TreeContainer G K M) (k : Option K) (p : Option (G → Bool)) :
    DecidablePred (s.Fits gen k p) :=
  fun _ => inferInstanceAs (Decidable (_ ∧ _))

/-- The result is the node with the greatest key among those. -/
def IsGreatestFitting (gen : TreeGenerics G K) (s : TreeContainer G K M) (T : Tree M)
    (k : Option K) (p : Option (G → Bool)) : Option Nat → Prop
  | some i => i ∈ T.ids ∧ s.Fits gen k p i ∧
      ∀ j ∈ T.ids, s.Fits gen k p j → gen.order.lessThan (s.key i) (s.key j) = false
  | none => ∀ i ∈ T.ids, ¬s.Fits gen k p i

section

variable {s : TreeContainer G K M} {T : Tree M} {k : Option K} {p : Option (G → Bool)}

theorem keyIsLess_eq (k l : Option K) : keyIsLess gen k l = gen.order.lessThan k l := by
  cases k <;> cases l <;> rfl

/-- Where the search turns left. -/
def turnsLeft (gen : TreeGenerics G K) (s : TreeContainer G K M) (k : Option K) (i : Nat) : Bool :=
  gen.order.lessThan k (s.key i)

theorem SortedIds.less_or_eq {key : Nat → Option K} {ids : List Nat} {i j : Nat}
    (h : SortedIds gen key ids) (hi : i ∈ ids) (hj : j ∈ ids) :
    i = j ∨ gen.order.lessThan (key i) (key j) = true ∨
      gen.order.lessThan (key j) (key i) = true := by
  obtain ⟨front, back, rfl⟩ := append_of_mem hi
  obtain ⟨-, hback, hfront⟩ := pairwise_append.mp h
  rcases mem_append.mp hj with hmem | hmem
  · exact Or.inr (Or.inr (hfront j hmem i mem_cons_self))
  · rcases mem_cons.mp hmem with rfl | hmem
    · exact Or.inl rfl
    · exact Or.inr (Or.inl ((pairwise_cons.mp hback).1 j hmem))

theorem getLast?_cons_or (l : List Nat) (i : Nat) :
    (i :: l).getLast? = l.getLast?.or (some i) := by
  rw [getLast?_cons]
  cases l.getLast? <;> rfl

/-- The search keeps the last node on its way down that fits. -/
theorem searchNotLess_loop (hT : s.Holds T) {q : Path M} {U : Tree M} (hplug : q.plug U = T)
    (r : Option Nat) {fuel : Nat} (hfuel : U.height < fuel) :
    loopUntil (fun n => some n.node.isNone) (s.notLessTurn gen k p) fuel ⟨U.root, r⟩ =
      some ⟨none, (((U.wayDown (turnsLeft gen s k)).filter fun i =>
        decide (s.Fits gen k p i)).getLast?).or r⟩ := by
  induction U generalizing q r fuel with
  | nil =>
      obtain ⟨fuel, rfl⟩ := Nat.exists_eq_add_of_lt hfuel
      exact loopUntil_of_stop rfl
  | node l i m o ihl iho =>
      obtain ⟨fuel, rfl⟩ : ∃ n, fuel = n + 1 := ⟨fuel - 1, by omega⟩
      have hheight : max l.height o.height < fuel := by
        simp only [Tree.height] at hfuel
        omega
      have hlinks := LinkedTree.Holds.links (hplug ▸ hT)
      have hturn : s.notLessTurn gen k p ⟨some i, r⟩ =
          if turnsLeft gen s k i then some ⟨s.leftChild i, r⟩
          else some ⟨s.rightChild i, if s.satisfies p i then some i else r⟩ := by
        unfold notLessTurn turnsLeft
        rw [← keyIsLess_eq]
        rfl
      by_cases hi : turnsLeft gen s k i = true
      · have hnot : ¬s.Fits gen k p i := fun h => Bool.false_ne_true (h.1.symm.trans hi)
        rw [if_pos hi, LinkedTree.leftChild, hlinks] at hturn
        refine (loopUntil_of_go ?_ hturn).trans ?_
        · rfl
        rw [Tree.wayDown, if_pos hi, filter_cons_of_neg (by simpa using hnot)]
        exact ihl (q := .child true i m o q) hplug r (by omega)
      · have hge : gen.order.lessThan k (s.key i) = false := Bool.eq_false_iff.mpr hi
        rw [if_neg hi, LinkedTree.rightChild, hlinks] at hturn
        refine (loopUntil_of_go ?_ hturn).trans ?_
        · rfl
        rw [Tree.wayDown, if_neg hi]
        by_cases hp : s.satisfies p i = true
        · have hfits : s.Fits gen k p i := ⟨hge, hp⟩
          rw [if_pos hp, filter_cons_of_pos (by simpa using hfits), getLast?_cons_or,
            Option.or_assoc]
          exact iho (q := .child false i m l q) hplug (some i) (by omega)
        · rw [if_neg hp, filter_cons_of_neg (by
            simpa using fun h : s.Fits gen k p i => hp h.2)]
          exact iho (q := .child false i m l q) hplug r (by omega)

/-- Every node that fits is on the way down, or has a less key than another one
that fits and is there. -/
def MissesNothing (gen : TreeGenerics G K) (s : TreeContainer G K M) (T : Tree M)
    (k : Option K) (p : Option (G → Bool)) : Prop :=
  ∀ j ∈ T.ids, s.Fits gen k p j → j ∈ T.wayDown (turnsLeft gen s k) ∨
    ∃ i ∈ T.wayDown (turnsLeft gen s k), s.Fits gen k p i ∧
      gen.order.lessThan (s.key j) (s.key i) = true

/-- The nodes on the way down that fit. -/
def fitting (gen : TreeGenerics G K) (s : TreeContainer G K M) (T : Tree M) (k : Option K)
    (p : Option (G → Bool)) : List Nat :=
  (T.wayDown (turnsLeft gen s k)).filter fun i => decide (s.Fits gen k p i)

theorem mem_fitting {i : Nat} : i ∈ s.fitting gen T k p ↔
    i ∈ T.wayDown (turnsLeft gen s k) ∧ s.Fits gen k p i := by
  rw [fitting, mem_filter, decide_eq_true_iff]

theorem fitting_sublist : (s.fitting gen T k p).Sublist T.ids := by
  refine List.Sublist.trans ?_ (T.wayDown_sublist (turnsLeft gen s k))
  refine monotone_filter_right _ fun i hi => ?_
  rw [turnsLeft, (of_decide_eq_true hi).1]
  rfl

theorem searchNotLess_eq (hT : s.Holds T) :
    s.searchNotLess gen k p = some (s.fitting gen T k p).getLast? := by
  have hheight : T.height < s.created + 1 :=
    Nat.lt_succ_of_le (LinkedTree.Holds.height_le (p := .root) hT)
  have hloop : loopUntil (fun n => some n.node.isNone) (s.notLessTurn gen k p) (s.created + 1)
      ⟨T.root, none⟩ = some ⟨none, (s.fitting gen T k p).getLast?.or none⟩ :=
    searchNotLess_loop hT (q := .root) rfl none hheight
  unfold searchNotLess
  rw [hT.root, hloop, Option.or_none]
  rfl

/-- The search finds the greatest of the nodes exactly if it misses nothing. -/
theorem searchNotLess_iff (hs : s.Ordered gen T) :
    (∃ r, s.searchNotLess gen k p = some r ∧ s.IsGreatestFitting gen T k p r) ↔
      s.MissesNothing gen T k p := by
  rw [searchNotLess_eq hs.holds]
  have hsorted : SortedIds gen s.key (s.fitting gen T k p) := hs.sorted.sublist fitting_sublist
  constructor
  · rintro ⟨r, hr, hgreatest⟩ j hj hfits
    obtain rfl := Option.some.inj hr
    cases hlast : (s.fitting gen T k p).getLast? with
    | none =>
        rw [hlast] at hgreatest
        exact absurd hfits (hgreatest j hj)
    | some i =>
        rw [hlast] at hgreatest
        obtain ⟨hi, hfits', hmax⟩ := hgreatest
        have hway := (mem_fitting.mp (mem_of_getLast? hlast)).1
        rcases hs.sorted.less_or_eq hj hi with rfl | hless | hgreater
        · exact Or.inl hway
        · exact Or.inr ⟨i, hway, hfits', hless⟩
        · exact absurd (hgreater.symm.trans (hmax j hj hfits)) (by simp)
  · intro hmisses
    refine ⟨_, rfl, ?_⟩
    cases hlast : (s.fitting gen T k p).getLast? with
    | none =>
        have hnil : s.fitting gen T k p = [] := getLast?_eq_none_iff.mp hlast
        intro j hj hfits
        have hmem : ∀ i, i ∉ s.fitting gen T k p := fun i => hnil ▸ not_mem_nil
        rcases hmisses j hj hfits with hway | ⟨i, hway, hfits', -⟩
        · exact hmem j (mem_fitting.mpr ⟨hway, hfits⟩)
        · exact hmem i (mem_fitting.mpr ⟨hway, hfits'⟩)
    | some i =>
        obtain ⟨hway, hfits⟩ := mem_fitting.mp (mem_of_getLast? hlast)
        have hmax : ∀ j ∈ s.fitting gen T k p,
            gen.order.lessThan (s.key i) (s.key j) = false := by
          intro j hj
          obtain ⟨front, hsplit⟩ := getLast?_eq_some_iff.mp hlast
          rw [hsplit] at hj hsorted
          rcases mem_append.mp hj with hmem | hmem
          · exact gen.order.asymm
              ((pairwise_append.mp hsorted).2.2 j hmem i mem_cons_self)
          · rw [mem_singleton.mp hmem]
            exact gen.order.irrefl _
        refine ⟨fitting_sublist.subset (mem_fitting.mpr ⟨hway, hfits⟩), hfits, ?_⟩
        intro j hj hfits'
        rcases hmisses j hj hfits' with hway' | ⟨m, hway', hfits'', hless⟩
        · exact hmax j (mem_fitting.mpr ⟨hway', hfits'⟩)
        · by_contra hgreater
          have htrans := gen.order.trans _ _ _ (Bool.of_not_eq_false hgreater) hless
          rw [hmax m (mem_fitting.mpr ⟨hway', hfits''⟩)] at htrans
          exact Bool.false_ne_true htrans

/-- Without a predicate nothing is missed. -/
theorem missesNothing_of_sorted (hs : SortedIds gen s.key T.ids) :
    s.MissesNothing gen T k none := by
  induction T with
  | nil => exact fun j hj => absurd hj not_mem_nil
  | node l i m r ihl ihr =>
      rw [Tree.ids_node] at hs
      obtain ⟨hl, hir, hcross⟩ := pairwise_append.mp hs
      obtain ⟨hi, hr⟩ := pairwise_cons.mp hir
      intro j hj hfits
      rw [Tree.wayDown]
      by_cases hturn : turnsLeft gen s k i = true
      · rw [if_pos hturn]
        have hless : ∀ m ∈ i :: r.ids, gen.order.lessThan k (s.key m) = true := by
          intro m hm
          rcases mem_cons.mp hm with rfl | hm
          · exact hturn
          · exact gen.order.trans _ _ _ hturn (hi m hm)
        have hjl : j ∈ l.ids := by
          rcases mem_append.mp hj with hmem | hmem
          · exact hmem
          · exact absurd (hfits.1.symm.trans (hless j hmem)) Bool.false_ne_true
        rcases ihl hl j hjl hfits with hway | ⟨m, hway, hrest⟩
        · exact Or.inl (mem_cons_of_mem i hway)
        · exact Or.inr ⟨m, mem_cons_of_mem i hway, hrest⟩
      · rw [if_neg hturn]
        rcases mem_append.mp hj with hmem | hmem
        · refine Or.inr ⟨i, mem_cons_self, ⟨Bool.eq_false_iff.mpr hturn, rfl⟩, ?_⟩
          exact hcross j hmem i mem_cons_self
        · rcases mem_cons.mp hmem with rfl | hmem
          · exact Or.inl mem_cons_self
          · rcases ihr hr j hmem hfits with hway | ⟨m, hway, hrest⟩
            · exact Or.inl (mem_cons_of_mem i hway)
            · exact Or.inr ⟨m, mem_cons_of_mem i hway, hrest⟩

end

/-- A tree with the key 5, and the key 3 below it. -/
theorem searchNotLess_greatest :
    ∃ s T, runAll (exec natTable plainBalancing.variant) make
        [.internalPut 5 (some 5), .internalPut 3 (some 3)] = some s ∧ s.Ordered natTable T ∧
      ∃ r, s.searchNotLess natTable (some 4) none = some r ∧
        s.IsGreatestFitting natTable T (some 4) none r := by
  have hpermitted : Permitted (exec natTable plainBalancing.variant) (Pre natTable) make
      [.internalPut 5 (some 5), .internalPut 3 (some 3)] := by decide
  obtain ⟨s, hrun, T, hs, -⟩ := run_represents plainBalancing natTable hpermitted
  exact ⟨s, T, hrun, hs.toOrdered,
    (searchNotLess_iff hs.toOrdered).mpr (missesNothing_of_sorted hs.sorted)⟩

/-- Of the keys that are not greater than 5 only that on the left has the item 3. -/
theorem searchNotLess_misses_left :
    ∃ s T, runAll (exec natTable plainBalancing.variant) make
        [.internalPut 5 (some 5), .internalPut 3 (some 3)] = some s ∧ s.Ordered natTable T ∧
      ¬∃ r, s.searchNotLess natTable (some 5) (some fun v => v == 3) = some r ∧
        s.IsGreatestFitting natTable T (some 5) (some fun v => v == 3) r := by
  have hpermitted : Permitted (exec natTable plainBalancing.variant) (Pre natTable) make
      [.internalPut 5 (some 5), .internalPut 3 (some 3)] := by decide
  obtain ⟨s, hrun, T, hs, -, hpairs⟩ := run_represents plainBalancing natTable hpermitted
  have hnone : ∀ s, runAll (exec natTable plainBalancing.variant) make
      [.internalPut 5 (some 5), .internalPut 3 (some 3)] = some s →
      s.searchNotLess natTable (some 5) (some fun v => v == 3) = some none := by
    rintro s ⟨⟩
    rfl
  refine ⟨s, T, hrun, hs.toOrdered, ?_⟩
  rintro ⟨r, hr, hgreatest⟩
  obtain rfl := Option.some.inj ((hnone s hrun).symm.trans hr)
  have hmem : (some 3, 3) ∈ s.pairs T := by
    rw [hpairs]
    decide
  obtain ⟨i, hi, hpair⟩ := mem_map.mp hmem
  refine hgreatest i hi ⟨?_, ?_⟩
  · rw [show s.key i = some 3 from congrArg Prod.fst hpair]
    rfl
  · rw [satisfies, show s.item i = 3 from congrArg Prod.snd hpair]
    rfl

end TreeContainer

end Gobo
