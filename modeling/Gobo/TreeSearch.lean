/-
Searching a binary search tree: the loops go down towards the place of a key.
-/
import Gobo.TreeWalk

namespace Gobo

open List

variable {G K M : Type} {gen : TreeGenerics G K}

/-- The order of the keys, with Void below every other key. -/
def TreeGenerics.order (gen : TreeGenerics G K) : Comparator (Option K) :=
  gen.keyComparator.withBottom

namespace TreeContainer

/-- Strictly increasing keys. -/
def SortedIds (gen : TreeGenerics G K) (key : Nat → Option K) (ids : List Nat) :
    Prop :=
  ids.Pairwise fun i j => gen.order.lessThan (key i) (key j) = true

/-- The place of the key `k` is between the nodes before and after. -/
structure Between (gen : TreeGenerics G K) (key : Nat → Option K) (k : Option K)
    (before after : List Nat) : Prop where
  before : ∀ i ∈ before, gen.order.lessThan (key i) k = true
  after : ∀ i ∈ after, gen.order.lessThan k (key i) = true

section

variable {key : Nat → Option K} {k : Option K} {p : Path M} {l r : Tree M} {i : Nat}
  {m : M}

theorem Between.left (h : Between gen key k p.before p.after)
    (hsorted : SortedIds gen key (p.plug (.node l i m r)).ids)
    (hk : gen.order.lessThan k (key i) = true) :
    Between gen key k (Path.child true i m r p).before
      (Path.child true i m r p).after := by
  refine ⟨h.before, ?_⟩
  have hi : ∀ j ∈ r.ids ++ p.after, gen.order.lessThan (key i) (key j) = true := by
    rw [SortedIds, Path.ids_plug, Tree.ids_node, append_assoc, append_assoc,
      cons_append] at hsorted
    exact (pairwise_cons.mp
      (pairwise_append.mp (pairwise_append.mp hsorted).2.1).2.1).1
  intro j hj
  rcases mem_cons.mp hj with rfl | hj
  · exact hk
  · exact gen.order.trans _ _ _ hk (hi j hj)

theorem Between.right (h : Between gen key k p.before p.after)
    (hsorted : SortedIds gen key (p.plug (.node l i m r)).ids)
    (hk : gen.order.lessThan (key i) k = true) :
    Between gen key k (Path.child false i m l p).before
      (Path.child false i m l p).after := by
  refine ⟨?_, h.after⟩
  have hi : ∀ j ∈ p.before ++ l.ids, gen.order.lessThan (key j) (key i) = true := by
    rw [SortedIds, Path.ids_plug, Tree.ids_node, ← append_assoc,
      append_assoc] at hsorted
    intro j hj
    exact (pairwise_append.mp hsorted).2.2 j hj i (by simp)
  intro j hj
  rcases mem_append.mp hj with hj | hj
  · exact gen.order.trans _ _ _ (hi j hj) hk
  · obtain rfl := mem_singleton.mp hj
    exact hk

/-- Every key of a tree with the place of `k` outside it is different from `k`. -/
theorem Between.absent {before after : List Nat}
    (h : Between gen key k before after) :
    ∀ i ∈ before ++ after, gen.order.equal k (key i) = false := by
  intro i hi
  rcases mem_append.mp hi with hi | hi
  · exact Comparator.equal_of_greater (h.before i hi)
  · exact Comparator.equal_of_less (h.after i hi)

end

section

variable {s : TreeContainer G K M} {T : Tree M}

/-- What `search_node` looks for. -/
def Locates (gen : TreeGenerics G K) (key : Nat → Option K) (T : Tree M)
    (k : Option K) : Option Nat → Prop
  | some i => i ∈ T.ids ∧ gen.order.equal k (key i) = true
  | none => ∀ i ∈ T.ids, gen.order.equal k (key i) = false

/-- One turn of the loop in `search_node` at a node. -/
theorem searchNodeStep_eq (s : TreeContainer G K M) (k : K) (i : Nat) (b : Bool) :
    s.searchNodeStep gen k ⟨some i, b⟩ = some
      (if gen.order.lessThan (some k) (s.key i) then ⟨s.leftChild i, false⟩
      else if gen.order.lessThan (s.key i) (some k) then ⟨s.rightChild i, false⟩
      else ⟨some i, true⟩) := by
  rw [searchNodeStep]
  cases hk : s.key i with
  | none => simp [TreeGenerics.order, Comparator.withBottom, hk]
  | some l =>
      simp only [TreeGenerics.order, Comparator.withBottom, some_bind, hk]
      by_cases hkl : gen.keyComparator.lessThan k l = true
      · simp [hkl]
      · by_cases hlk : gen.keyComparator.lessThan l k = true
        · simp [hkl, hlk]
        · simp [hkl, hlk]

theorem exists_searchLoop (hT : s.Holds T) (hsorted : SortedIds gen s.key T.ids) (k : K)
    {p : Path M} {U : Tree M} (hplug : p.plug U = T)
    (hp : Between gen s.key (some k) p.before p.after) {fuel : Nat}
    (hfuel : U.height + 1 < fuel) :
    ∃ n, loopUntil (fun n => some (n.foundNode.isNone || n.equality))
        (s.searchNodeStep gen k) fuel ⟨U.root, false⟩ = some n ∧
      Locates gen s.key T (some k) n.foundNode := by
  induction U generalizing p fuel with
  | nil =>
      obtain ⟨fuel, rfl⟩ : ∃ n, fuel = n + 1 := ⟨fuel - 1, by omega⟩
      refine ⟨_, loopUntil_of_stop rfl, ?_⟩
      intro i hi
      apply hp.absent
      rwa [← hplug, Path.ids_plug, Tree.ids_nil, append_nil] at hi
  | node l i m r ihl ihr =>
      obtain ⟨fuel, rfl⟩ : ∃ n, fuel = n + 1 := ⟨fuel - 1, by omega⟩
      have hheight : max l.height r.height + 1 < fuel := by
        simp only [Tree.height] at hfuel
        omega
      have hlinks := LinkedTree.Holds.links (hplug ▸ hT)
      have hsorted' := hplug ▸ hsorted
      by_cases hki : gen.order.lessThan (some k) (s.key i) = true
      · obtain ⟨n, hrun, hn⟩ := ihl hplug (hp.left hsorted' hki)
          (by omega : l.height + 1 < fuel)
        refine ⟨n, (loopUntil_of_go ?_ ?_).trans hrun, hn⟩
        · rfl
        · rw [Tree.root, searchNodeStep_eq, if_pos hki, LinkedTree.leftChild, hlinks]
      by_cases hik : gen.order.lessThan (s.key i) (some k) = true
      · obtain ⟨n, hrun, hn⟩ := ihr hplug (hp.right hsorted' hik)
          (by omega : r.height + 1 < fuel)
        refine ⟨n, (loopUntil_of_go ?_ ?_).trans hrun, hn⟩
        · rfl
        · rw [Tree.root, searchNodeStep_eq, if_neg hki, if_pos hik,
            LinkedTree.rightChild, hlinks]
      · obtain ⟨fuel, rfl⟩ : ∃ n, fuel = n + 1 := ⟨fuel - 1, by omega⟩
        refine ⟨⟨some i, true⟩, (loopUntil_of_go ?_ ?_).trans
          (loopUntil_of_stop ?_), ?_, ?_⟩
        · rfl
        · rw [Tree.root, searchNodeStep_eq, if_neg hki, if_neg hik]
        · rfl
        · rw [← hplug]
          simp [Path.mem_ids_plug]
        · exact Comparator.equal_iff.mpr ⟨by simpa using hki, by simpa using hik⟩

/-- The node of the least key is the first one, and only it may have Void as
key. -/
theorem key_none_iff {front back : List Nat} {i : Nat}
    (hsorted : SortedIds gen s.key (front ++ i :: back)) (hi : s.key i = none) :
    front = [] := by
  cases front with
  | nil => rfl
  | cons j front =>
      have hless := (pairwise_append.mp hsorted).2.2 j mem_cons_self i mem_cons_self
      rw [hi] at hless
      cases hj : s.key j <;> simp [TreeGenerics.order, Comparator.withBottom, hj] at hless

/-- What `search_insert_position` finds: the node with an equal key, or the node
below which the key has its place, and on which side. -/
def InsertPlace (gen : TreeGenerics G K) (key : Nat → Option K) (T : Tree M)
    (k : Option K) (node : Nat) (exact isLeft : Bool) : Prop :=
  if exact then node ∈ T.ids ∧ gen.order.equal k (key node) = true
  else ∃ (q : Path M) (m : M) (o : Tree M), T = q.plug (.join isLeft .nil node m o) ∧
    Between gen key k (Path.child isLeft node m o q).before
      (Path.child isLeft node m o q).after

theorem searchInsertStep_eq (s : TreeContainer G K M) (k : K) (n : InsertSearch) :
    s.searchInsertStep gen k n =
      if gen.order.lessThan (some k) (s.key n.node) then n.descend true s
      else if gen.order.lessThan (s.key n.node) (some k) then n.descend false s
      else { n with exactInsertPositionFound := true, stop := true } := by
  rw [searchInsertStep]
  cases hk : s.key n.node with
  | none => simp [TreeGenerics.order, Comparator.withBottom]
  | some l => rfl

theorem exists_insertLoop (hT : s.Holds T) (hsorted : SortedIds gen s.key T.ids) (k : K)
    {p : Path M} {U : Tree M} (hplug : p.plug U = T)
    (hp : Between gen s.key (some k) p.before p.after) {fuel : Nat}
    (hfuel : U.height < fuel) {i : Nat} (hi : U.root = some i) (b : Bool) :
    ∃ n, loopUntil (fun n => some n.stop)
        (fun n => some (s.searchInsertStep gen k n)) fuel ⟨i, false, false, b⟩ = some n ∧
      InsertPlace gen s.key T (some k) n.node n.exactInsertPositionFound
        n.insertPositionIsLeft := by
  induction fuel generalizing p U i with
  | zero => omega
  | succ fuel ih =>
      cases U with
      | nil => exact absurd hi (by simp [Tree.root])
      | node l j m r =>
          obtain rfl : j = i := Option.some.inj hi
          have hsorted' := hplug ▸ hsorted
          have hheight : max l.height r.height < fuel := by
            simp only [Tree.height] at hfuel
            omega
          have hdescend : ∀ (isLeft : Bool) (c o : Tree M),
              Tree.node l j m r = .join isLeft c j m o →
              Between gen s.key (some k) (Path.child isLeft j m o p).before
                (Path.child isLeft j m o p).after →
              s.searchInsertStep gen k ⟨j, false, false, b⟩ =
                InsertSearch.descend isLeft s ⟨j, false, false, b⟩ →
              ∃ n, loopUntil (fun n => some n.stop)
                  (fun n => some (s.searchInsertStep gen k n)) (fuel + 1)
                  ⟨j, false, false, b⟩ = some n ∧
                InsertPlace gen s.key T (some k) n.node n.exactInsertPositionFound
                  n.insertPositionIsLeft := by
            intro isLeft c o hjoin hbetween hstep
            have hplug' : (Path.child isLeft j m o p).plug c = T := by
              rw [Path.plug_child, ← hjoin, hplug]
            have hchild : s.child isLeft j = c.root := by
              rw [LinkedTree.child, LinkedTree.Holds.links_join (hplug' ▸ hT),
                LinkedTree.child_withChild]
            rw [InsertSearch.descend] at hstep
            cases hc : c.root with
            | none =>
                obtain rfl := Tree.root_eq_none.mp hc
                rw [hchild, hc] at hstep
                obtain ⟨fuel, rfl⟩ : ∃ n, fuel = n + 1 := ⟨fuel - 1, by omega⟩
                refine ⟨⟨j, true, false, isLeft⟩, (loopUntil_of_go ?_ ?_).trans
                  (loopUntil_of_stop ?_), ?_⟩
                · rfl
                · exact congrArg some hstep
                · rfl
                · exact ⟨p, m, o, hplug'.symm, hbetween⟩
            | some n =>
                rw [hchild, hc] at hstep
                have hcheight : c.height < fuel := by
                  have hjoin' := congrArg Tree.height hjoin
                  rw [Tree.height_join, Tree.height] at hjoin'
                  omega
                obtain ⟨n', hrun, hn'⟩ := ih hplug' hbetween hcheight hc
                refine ⟨n', (loopUntil_of_go ?_ ?_).trans hrun, hn'⟩
                · rfl
                · exact congrArg some hstep
          by_cases hki : gen.order.lessThan (some k) (s.key j) = true
          · apply hdescend true l r rfl (hp.left hsorted' hki)
            rw [searchInsertStep_eq, if_pos hki]
          by_cases hik : gen.order.lessThan (s.key j) (some k) = true
          · apply hdescend false r l rfl (hp.right hsorted' hik)
            rw [searchInsertStep_eq, if_neg hki, if_pos hik]
          · obtain ⟨fuel, rfl⟩ : ∃ n, fuel = n + 1 := ⟨fuel - 1, by omega⟩
            refine ⟨⟨j, true, true, b⟩, (loopUntil_of_go ?_ ?_).trans
              (loopUntil_of_stop ?_), ?_, ?_⟩
            · rfl
            · rw [searchInsertStep_eq, if_neg hki, if_neg hik]
            · rfl
            · rw [← hplug]
              simp [Path.mem_ids_plug]
            · exact Comparator.equal_iff.mpr ⟨by simpa using hki, by simpa using hik⟩

end

end TreeContainer

end Gobo
