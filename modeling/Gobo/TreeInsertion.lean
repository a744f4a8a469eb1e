/-
Putting an item into a binary search tree.
-/
import Gobo.TreeLaws

namespace Gobo

open List Function LinkedTree

variable {G K M : Type} {gen : TreeGenerics G K} {V : TreeVariant G K M}

namespace TreeContainer

variable {s : TreeContainer G K M} {T T' : Tree M}

/-- Balancing keeps what is known about a container. -/
theorem Ordered.rearrange (hs : Ordered gen s T) {t' : LinkedTree M}
    (h : s.Rearranges T t' T') : Ordered gen (s.setTree t') T' where
  holds := h.holds
  sorted := by
    rw [h.ids]
    exact hs.sorted
  keyed := by
    rw [h.ids]
    exact hs.keyed
  first := by
    rw [h.ids]
    exact hs.first
  last := by
    rw [h.ids]
    exact hs.last

theorem Sound.rearrange (hs : Sound gen s T) {t' : LinkedTree M}
    (h : s.Rearranges T t' T') : Sound gen (s.setTree t') T' where
  toOrdered := hs.toOrdered.rearrange h
  count := by
    rw [h.ids]
    exact hs.count
  found := by
    rw [h.ids]
    exact hs.found
  cursors := by
    exact hs.cursors

theorem created_notMem (hs : s.Holds T) : s.created ∉ T.ids :=
  fun hmem => Nat.lt_irrefl _ (hs.created _ hmem)

theorem pairs_congr {s' : TreeContainer G K M} {ids : List Nat}
    (h : ∀ i ∈ ids, s'.key i = s.key i ∧ s'.item i = s.item i) :
    ids.map (fun i => (s'.key i, s'.item i)) =
      ids.map fun i => (s.key i, s.item i) := by
  apply map_congr_left
  intro i hi
  rw [(h i hi).1, (h i hi).2]

theorem newTreeNode_key (s : TreeContainer G K M) (v : G) (k : Option K) {i : Nat}
    (hi : i ≠ s.created) : (s.newTreeNode V v k).key i = s.key i :=
  update_of_ne hi _ _

theorem newTreeNode_item (s : TreeContainer G K M) (v : G) (k : Option K) {i : Nat}
    (hi : i ≠ s.created) : (s.newTreeNode V v k).item i = s.item i :=
  update_of_ne hi _ _

/-- A new node object does not change the tree. -/
theorem Sound.newTreeNode (hs : Sound gen s T) (v : G) (k : Option K) :
    Sound gen (s.newTreeNode V v k) T := by
  have hne : ∀ i ∈ T.ids, i ≠ s.created := by
    rintro i hi rfl
    exact created_notMem hs.holds hi
  refine ⟨⟨hs.holds.newNode V.newMark, ?_, ?_, hs.first, hs.last⟩, hs.count, hs.found, ?_⟩
  · apply List.Pairwise.imp_of_mem _ hs.sorted
    intro i j hi hj hij
    rwa [newTreeNode_key s v k (hne i hi), newTreeNode_key s v k (hne j hj)]
  · intro f hf i hi
    rw [newTreeNode_key s v k (hne i hi), newTreeNode_item s v k (hne i hi)]
    exact hs.keyed f hf i hi
  · exact hs.cursors

/-! ### Adding a node -/

theorem addChild_eq (s : TreeContainer G K M) (isLeft : Bool) (node new : Nat) :
    s.addChild isLeft node new = { s with
      toLinkedTree := s.setChild isLeft node (some new)
      firstNode := if isLeft = true ∧ some node = s.firstNode then some new
        else s.firstNode
      lastNode := if isLeft = false ∧ some node = s.lastNode then some new
        else s.lastNode } := by
  cases isLeft
  · simp only [addChild, Bool.false_eq_true, if_false, false_and, true_and]
    by_cases h : some node = s.lastNode
    · simp [setTree, h]
    · simp [setTree, h]
  · simp only [addChild, if_true, true_and, Bool.true_eq_false, false_and, if_false]
    by_cases h : some node = s.firstNode
    · simp [setTree, h]
    · simp [setTree, h]

section

variable {q : Path M} {isLeft : Bool} {node new : Nat} {m mn : M} {o : Tree M}

theorem ids_split (q : Path M) (isLeft : Bool) (c o : Tree M) (node : Nat) (m : M) :
    (q.plug (.join isLeft c node m o)).ids =
      (Path.child isLeft node m o q).before ++ c.ids ++
        (Path.child isLeft node m o q).after :=
  Path.ids_plug (.child isLeft node m o q) c

theorem head?_addChild (hnodup : (q.plug (.join isLeft .nil node m o)).ids.Nodup) :
    (if isLeft = true ∧ some node = (q.plug (.join isLeft .nil node m o)).ids.head?
      then some new else (q.plug (.join isLeft .nil node m o)).ids.head?) =
    (q.plug (.join isLeft (.node .nil new mn .nil) node m o)).ids.head? := by
  rw [ids_split] at hnodup ⊢
  rw [ids_split]
  cases isLeft with
  | true =>
      simp only [Path.before, Path.after, Tree.ids_nil, Tree.ids_node] at hnodup ⊢
      cases hq : q.before with
      | nil => simp
      | cons j js =>
          rw [hq] at hnodup
          have hne : node ≠ j := by
            rintro rfl
            simp at hnodup
          simp [hne]
  | false =>
      rw [if_neg (by simp)]
      simp only [Path.before, Path.after]
      cases q.before with
      | nil => cases o.ids <;> simp
      | cons j js => simp

theorem getLast?_addChild (hnodup : (q.plug (.join isLeft .nil node m o)).ids.Nodup) :
    (if isLeft = false ∧ some node = (q.plug (.join isLeft .nil node m o)).ids.getLast?
      then some new else (q.plug (.join isLeft .nil node m o)).ids.getLast?) =
    (q.plug (.join isLeft (.node .nil new mn .nil) node m o)).ids.getLast? := by
  rw [ids_split] at hnodup ⊢
  rw [ids_split]
  cases isLeft with
  | false =>
      simp only [Path.before, Path.after, Tree.ids_nil, Tree.ids_node] at hnodup ⊢
      rcases eq_nil_or_concat q.after with hq | ⟨js, j, hq⟩
      · simp [hq]
      · rw [hq] at hnodup ⊢
        have hne : node ≠ j := by
          rintro rfl
          simp [nodup_append] at hnodup
        simp [hne, getLast?_append, getLast?_cons]
  | true =>
      simp only [Path.before, Path.after]
      rcases eq_nil_or_concat q.after with hq | ⟨js, j, hq⟩
      · simp [hq, getLast?_append, getLast?_cons]
      · simp [hq, getLast?_append, getLast?_cons]

/-- Hanging a new node at the place of its key. -/
theorem Sound.addChild (hs : Sound gen s (q.plug (.join isLeft .nil node m o)))
    (hnew : new ∉ (q.plug (.join isLeft .nil node m o)).ids) (hcreated : new < s.created)
    (hlinks : s.links new = ⟨none, none, none, mn⟩)
    (hbetween : Between gen s.key (s.key new) (Path.child isLeft node m o q).before
      (Path.child isLeft node m o q).after)
    (hkeyed : ∀ f, gen.keyOfItem = some f → s.key new = f (s.item new)) :
    Sound gen { s.addChild isLeft node new with
        count := (s.addChild isLeft node new).count + 1 }
      (q.plug (.join isLeft (.node .nil new mn .nil) node m o)) := by
  have hids : (q.plug (.join isLeft (.node .nil new mn .nil) node m o)).ids =
      (Path.child isLeft node m o q).before ++
        new :: (Path.child isLeft node m o q).after := by
    rw [ids_split]
    simp
  have hids' : (q.plug (.join isLeft .nil node m o)).ids =
      (Path.child isLeft node m o q).before ++
        (Path.child isLeft node m o q).after := by
    rw [ids_split]
    simp
  have hmem : ∀ i, i ∈ (q.plug (.join isLeft (.node .nil new mn .nil) node m o)).ids →
      i = new ∨ i ∈ (q.plug (.join isLeft .nil node m o)).ids := by
    intro i hi
    rw [hids] at hi
    rw [hids']
    simp only [mem_append, mem_cons] at hi ⊢
    tauto
  have hsub : ∀ i ∈ (q.plug (.join isLeft .nil node m o)).ids,
      i ∈ (q.plug (.join isLeft (.node .nil new mn .nil) node m o)).ids := by
    intro i hi
    rw [hids'] at hi
    rw [hids]
    simp only [mem_append, mem_cons] at hi ⊢
    tauto
  rw [addChild_eq]
  refine ⟨⟨hs.holds.addChild hlinks hnew hcreated, ?_, ?_, ?_, ?_⟩, ?_, ?_, ?_⟩
  · have hsorted := hs.sorted
    rw [SortedIds, hids'] at hsorted
    rw [SortedIds, hids]
    obtain ⟨hbefore, hafter, hacross⟩ := pairwise_append.mp hsorted
    refine pairwise_append.mpr ⟨hbefore,
      pairwise_cons.mpr ⟨hbetween.after, hafter⟩, ?_⟩
    intro i hi j hj
    rcases mem_cons.mp hj with rfl | hj
    · exact hbetween.before i hi
    · exact hacross i hi j hj
  · intro f hf i hi
    rcases hmem i hi with rfl | hi
    · exact hkeyed f hf
    · exact hs.keyed f hf i hi
  · show (if _ then _ else _) = _
    rw [hs.first]
    exact head?_addChild hs.holds.nodup
  · show (if _ then _ else _) = _
    rw [hs.last]
    exact getLast?_addChild hs.holds.nodup
  · show s.count + 1 = _
    rw [hs.count, hids, hids']
    simp only [length_append, length_cons]
    omega
  · intro i hi
    exact hsub i (hs.found i hi)
  · exact hs.cursors

end

/-- The key given with an item agrees with it, where items have keys. -/
def Agrees (gen : TreeGenerics G K) (v : G) (k : Option K) : Prop :=
  ∀ f, gen.keyOfItem = some f → k = f v

/-- `s'` is `s` with `v` stored for `k`. -/
structure Stores (L : TreeLaws gen V) (s : TreeContainer G K M) (T : Tree M) (v : G)
    (k : Option K) (s' : TreeContainer G K M) (T' : Tree M) : Prop where
  sound : Sound gen s' T'
  balanced : L.Balanced T'
  pairs : s'.pairs T' =
    SortedMap.insert gen.order gen.keyOfItem.isSome k v (s.pairs T)
  cursors : s'.cursors = s.cursors
  grows : ∀ i ∈ T.ids, i ∈ T'.ids

section

variable {L : TreeLaws gen V} {v : G} {k : Option K}

/-- A place between two parts of a list is one between their pairs. -/
theorem Between.insert {before after : List Nat} (h : Between gen s.key k before after)
    (renew : Bool) :
    SortedMap.insert gen.order renew k v
        ((before ++ after).map fun i => (s.key i, s.item i)) =
      before.map (fun i => (s.key i, s.item i)) ++
        (k, v) :: after.map fun i => (s.key i, s.item i) := by
  rw [map_append]
  apply SortedMap.insert_between
  · intro p hp
    obtain ⟨i, hi, rfl⟩ := mem_map.mp hp
    exact h.before i hi
  · intro p hp
    obtain ⟨i, hi, rfl⟩ := mem_map.mp hp
    exact h.after i hi

theorem exists_addNode (hs : Sound gen s T) (hT : L.Balanced T) (hk : Agrees gen v k)
    {node : Nat} {isLeft : Bool} (hplace : InsertPlace gen s.key T k node false isLeft) :
    ∃ t' T', V.onNodeAdded
        ((s.newTreeNode V v k).addChild isLeft node s.created).toLinkedTree s.created =
          some t' ∧
      Stores L s T v k (({ (s.newTreeNode V v k).addChild isLeft node s.created with
          count := ((s.newTreeNode V v k).addChild isLeft node s.created).count + 1 } :
            TreeContainer G K M).setTree t') T' := by
  obtain ⟨q, m, o, rfl, hbetween⟩ := hplace
  have hnew := created_notMem hs.holds
  have hkey : (s.newTreeNode V v k).key s.created = k := update_self _ _ _
  have hitem : (s.newTreeNode V v k).item s.created = v := update_self _ _ _
  have hold : ∀ i ∈ (q.plug (.join isLeft .nil node m o)).ids,
      (s.newTreeNode V v k).key i = s.key i ∧
        (s.newTreeNode V v k).item i = s.item i := by
    intro i hi
    have hne : i ≠ s.created := by
      rintro rfl
      exact hnew hi
    exact ⟨newTreeNode_key s v k hne, newTreeNode_item s v k hne⟩
  have hids : ∀ i, i ∈ (Path.child isLeft node m o q).before ∨
      i ∈ (Path.child isLeft node m o q).after →
      i ∈ (q.plug (.join isLeft .nil node m o)).ids := by
    intro i hi
    rw [ids_split]
    simpa using hi
  have hsound := (hs.newTreeNode (V := V) v k).addChild hnew (Nat.lt_succ_self s.created)
    (show (s.newTreeNode V v k).links s.created = ⟨none, none, none, V.newMark⟩ from
      update_self _ _ _) (by
      rw [hkey]
      refine ⟨fun i hi => ?_, fun i hi => ?_⟩
      · rw [(hold i (hids i (Or.inl hi))).1]
        exact hbetween.before i hi
      · rw [(hold i (hids i (Or.inr hi))).1]
        exact hbetween.after i hi) (by
      rw [hkey, hitem]
      exact hk)
  obtain ⟨t', T', hrun, hrearranges, hT'⟩ := L.exists_added
    (p := .child isLeft node m o q) hT hsound.holds
  refine ⟨t', T', hrun, hsound.rearrange hrearranges, hT', ?_, ?_, ?_⟩
  · rw [pairs, hrearranges.ids, pairs]
    have hsplit : ((Path.child isLeft node m o q).plug
        (.node .nil s.created V.newMark .nil)).ids =
        (Path.child isLeft node m o q).before ++
          s.created :: (Path.child isLeft node m o q).after := by
      rw [Path.ids_plug]
      simp
    have hsplit' : (q.plug (.join isLeft .nil node m o)).ids =
        (Path.child isLeft node m o q).before ++
          (Path.child isLeft node m o q).after := by
      rw [ids_split]
      simp
    rw [hsplit', hbetween.insert, hsplit, addChild_eq]
    show map (fun i => ((s.newTreeNode V v k).key i, (s.newTreeNode V v k).item i))
      _ = _
    rw [map_append, map_cons, hkey, hitem,
      pairs_congr fun i hi => hold i (hids i (Or.inl hi)),
      pairs_congr fun i hi => hold i (hids i (Or.inr hi))]
  · rw [addChild_eq]
    rfl
  · intro i hi
    rw [hrearranges.ids, Path.plug_child, ids_split]
    rw [ids_split] at hi
    simp only [mem_append] at hi ⊢
    tauto

theorem eq_nil_of_rootNode (hs : Sound gen s T) (hroot : s.rootNode = none) : T = .nil :=
  Tree.root_eq_none.mp (hs.holds.root.symm.trans hroot)

theorem exists_addRoot (hs : Sound gen s .nil) (hk : Agrees gen v k) {n : Int}
    (hn : n = 1) :
    ∃ t' T', V.onNodeAdded
        { (s.newTreeNode V v k).toLinkedTree with rootNode := some s.created } s.created =
          some t' ∧
      Stores L s .nil v k (({ s.newTreeNode V v k with
          rootNode := some s.created
          firstNode := some s.created
          lastNode := some s.created
          count := n } : TreeContainer G K M).setTree t') T' := by
  have hkey : (s.newTreeNode V v k).key s.created = k := update_self _ _ _
  have hitem : (s.newTreeNode V v k).item s.created = v := update_self _ _ _
  have hholds := (hs.holds.newNode V.newMark).addRoot (n := s.created)
    (update_self _ _ _) (Nat.lt_succ_self s.created)
  have hsound : Sound gen { s.newTreeNode V v k with
      rootNode := some s.created
      firstNode := some s.created
      lastNode := some s.created
      count := n } (.node .nil s.created V.newMark .nil) := by
    refine ⟨⟨hholds, pairwise_singleton _ _, ?_, rfl, rfl⟩, hn, ?_, ?_⟩
    · intro f hf i hi
      obtain rfl := mem_singleton.mp hi
      exact hkey.trans ((hk f hf).trans (congrArg f hitem.symm))
    · intro i hi
      exact absurd (hs.found i hi) not_mem_nil
    · exact hs.cursors
  obtain ⟨t', T', hrun, hrearranges, hT'⟩ :=
    L.exists_added (p := .root) L.balanced_nil hsound.holds
  refine ⟨t', T', hrun, hsound.rearrange hrearranges, hT', ?_, rfl, by simp⟩
  rw [pairs, hrearranges.ids]
  show [((s.newTreeNode V v k).key s.created, (s.newTreeNode V v k).item s.created)] = _
  rw [hkey, hitem]
  rfl

/-- Storing an item for a key that is there. -/
theorem stores_setItem (hs : Sound gen s T) (hT : L.Balanced T) (hk : Agrees gen v k)
    {node : Nat} (hnode : node ∈ T.ids) (hequal : gen.order.equal k (s.key node) = true) :
    Stores L s T v k (s.setItem gen node v) T := by
  have hkey : ∀ i, gen.order.equal ((s.setItem gen node v).key i) (s.key i) = true := by
    intro i
    rw [setItem]
    cases hf : gen.keyOfItem with
    | none => exact Comparator.equal_refl _
    | some f =>
        by_cases hi : i = node
        · subst hi
          show gen.order.equal (update s.key i (f v) i) _ = true
          rw [update_self, ← hk f hf]
          exact hequal
        · show gen.order.equal (update s.key node (f v) i) _ = true
          rw [update_of_ne hi]
          exact Comparator.equal_refl _
  have hnodeKey : (s.setItem gen node v).key node =
      if gen.keyOfItem.isSome then k else s.key node := by
    rw [setItem]
    cases hf : gen.keyOfItem with
    | none => rfl
    | some f => simp [hk f hf]
  have hold : ∀ i, i ≠ node → (s.setItem gen node v).key i = s.key i ∧
      (s.setItem gen node v).item i = s.item i := by
    intro i hi
    rw [setItem]
    refine ⟨?_, update_of_ne hi _ _⟩
    cases gen.keyOfItem with
    | none => rfl
    | some f => exact update_of_ne hi _ _
  have hitem : (s.setItem gen node v).item node = v := update_self _ _ _
  refine ⟨⟨⟨hs.holds, ?_, ?_, hs.first, hs.last⟩, hs.count, hs.found, hs.cursors⟩,
    hT, ?_, rfl, fun i hi => hi⟩
  · refine hs.sorted.imp fun {i j} hij => ?_
    exact Comparator.less_of_equal_of_less (hkey i)
      (Comparator.less_of_less_of_equal hij (Comparator.equal_symm (hkey j)))
  · intro f hf i hi
    by_cases hin : i = node
    · subst hin
      rw [hnodeKey, hitem, hf]
      exact hk f hf
    · rw [(hold i hin).1, (hold i hin).2]
      exact hs.keyed f hf i hi
  · obtain ⟨front, back, hids⟩ := append_of_mem hnode
    have hnodup := hs.holds.nodup
    have hsorted := hs.sorted
    rw [hids] at hnodup hsorted
    have hfront : ∀ i ∈ front, i ≠ node := fun i hi =>
      (nodup_append.mp hnodup).2.2 i hi node mem_cons_self
    have hback : ∀ i ∈ back, i ≠ node := by
      rintro i hi rfl
      exact (nodup_cons.mp (nodup_append.mp hnodup).2.1).1 hi
    rw [pairs, pairs, hids, map_append, map_cons, map_append,
      map_cons, SortedMap.insert_at _ hequal, hnodeKey, hitem,
      pairs_congr fun i hi => hold i (hfront i hi),
      pairs_congr fun i hi => hold i (hback i hi)]
    intro p hp
    obtain ⟨i, hi, rfl⟩ := mem_map.mp hp
    exact Comparator.less_of_less_of_equal
      ((pairwise_append.mp hsorted).2.2 i hi node mem_cons_self)
      (Comparator.equal_symm hequal)

/-- What is remembered from a search does not matter. -/
theorem Sound.setFound (hs : Sound gen s T) {node : Nat} (hnode : node ∈ T.ids)
    (exact isLeft : Bool) : Sound gen { s with
      foundNode := some node
      exactInsertPositionFound := exact
      insertPositionIsLeft := isLeft } T := by
  refine ⟨⟨hs.holds, hs.sorted, hs.keyed, hs.first, hs.last⟩, hs.count, ?_, ?_⟩
  · intro i hi
    obtain rfl := Option.some.inj hi
    exact hnode
  · exact hs.cursors

theorem InsertPlace.mem {key : Nat → Option K} {node : Nat} {exact isLeft : Bool}
    (h : InsertPlace gen key T k node exact isLeft) : node ∈ T.ids := by
  cases exact with
  | true => exact h.1
  | false =>
      obtain ⟨q, m, o, rfl, -⟩ := h
      simp [Path.mem_ids_plug, Tree.mem_ids_join]

theorem exists_internalPut (hs : Sound gen s T) (hT : L.Balanced T)
    (hk : Agrees gen v k) : ∃ s' T', s.internalPut gen V v k = some s' ∧
      Stores L s T v k s' T' := by
  by_cases hroot : s.rootNode = none
  · obtain rfl := eq_nil_of_rootNode hs hroot
    obtain ⟨t', T', hrun, hstores⟩ := exists_addRoot (V := V) (L := L) hs hk rfl
    refine ⟨_, T', ?_, hstores⟩
    rw [internalPut, if_pos hroot]
    exact bind_of_some hrun rfl
  · have hne : T ≠ .nil := by
      rintro rfl
      exact hroot hs.holds.root
    obtain ⟨node, exact, isLeft, hsearch, hplace⟩ := hs.exists_searchInsertPosition hne k
    have hfound := hs.setFound hplace.mem exact isLeft
    cases exact with
    | true =>
        have hstores := stores_setItem hfound hT hk hplace.1 hplace.2
        refine ⟨_, T, ?_, hstores.sound, hT, hstores.pairs, rfl, hstores.grows⟩
        rw [internalPut, if_neg hroot, hsearch]
        rfl
    | false =>
        obtain ⟨t', T', hrun, hstores⟩ := exists_addNode (V := V) hfound hT hk hplace
        refine ⟨_, T', ?_, hstores.sound, hstores.balanced, hstores.pairs,
          hstores.cursors, hstores.grows⟩
        rw [internalPut, if_neg hroot, hsearch]
        refine bind_of_some rfl
          (bind_of_some rfl ((if_neg Bool.false_ne_true).trans ?_))
        exact bind_of_some hrun rfl

/-- A place only depends on the keys in the tree. -/
theorem InsertPlace.congr {key key' : Nat → Option K} {node : Nat}
    {exact isLeft : Bool} (h : InsertPlace gen key T k node exact isLeft)
    (hkey : ∀ i ∈ T.ids, key' i = key i) :
    InsertPlace gen key' T k node exact isLeft := by
  cases exact with
  | true =>
      refine ⟨h.1, ?_⟩
      rw [hkey node h.1]
      exact h.2
  | false =>
      obtain ⟨q, m, o, rfl, hbetween⟩ := h
      have hids : ∀ i, i ∈ (Path.child isLeft node m o q).before ∨
          i ∈ (Path.child isLeft node m o q).after →
          key' i = key i := by
        intro i hi
        apply hkey
        rw [ids_split]
        simpa using hi
      refine ⟨q, m, o, rfl, fun i hi => ?_, fun i hi => ?_⟩
      · rw [hids i (Or.inl hi)]
        exact hbetween.before i hi
      · rw [hids i (Or.inr hi)]
        exact hbetween.after i hi

theorem exists_internalPutNew (hs : Sound gen s T) (hT : L.Balanced T)
    (hk : Agrees gen v k) (habsent : ∀ i ∈ T.ids, gen.order.equal k (s.key i) = false) :
    ∃ s' T', s.internalPutNew gen V v k = some s' ∧ Stores L s T v k s' T' := by
  by_cases hroot : s.rootNode = none
  · obtain rfl := eq_nil_of_rootNode hs hroot
    have hcount : s.count + 1 = 1 := by
      rw [hs.count]
      rfl
    obtain ⟨t', T', hrun, hstores⟩ := exists_addRoot (V := V) (L := L) hs hk hcount
    have hroot' : (s.newTreeNode V v k).rootNode = none := hroot
    refine ⟨_, T', ?_, hstores⟩
    rw [internalPutNew, if_pos hroot']
    exact bind_of_some rfl (bind_of_some hrun rfl)
  · have hne : T ≠ .nil := by
      rintro rfl
      exact hroot hs.holds.root
    obtain ⟨node, exact, isLeft, hsearch, hplace⟩ :=
      (hs.newTreeNode (V := V) v k).exists_searchInsertPosition hne k
    have hplace' : InsertPlace gen s.key T k node exact isLeft := by
      apply hplace.congr
      intro i hi
      refine (newTreeNode_key s v k ?_).symm
      rintro rfl
      exact created_notMem hs.holds hi
    have hfound := hs.setFound hplace.mem exact isLeft
    have hroot' : (s.newTreeNode V v k).rootNode ≠ none := hroot
    cases exact with
    | true => exact absurd (habsent node hplace'.1) (by rw [hplace'.2]; simp)
    | false =>
        obtain ⟨t', T', hrun, hstores⟩ := exists_addNode (V := V) hfound hT hk hplace'
        refine ⟨_, T', ?_, hstores.sound, hstores.balanced, hstores.pairs,
          hstores.cursors, hstores.grows⟩
        rw [internalPutNew, if_neg hroot']
        exact bind_of_some (bind_of_some hsearch (bind_of_some rfl rfl))
          (bind_of_some hrun rfl)

end

end TreeContainer

end Gobo
