/-
The relations that a topological sorter records: the lists of successors hold them by
index, and the counts are those of the predecessors.
-/
import Gobo.TopologicalCycle

namespace Gobo

open Function List

/-- The cells of the lists, which do not share any. -/
structure Linkables.Linked (h : Linkables) (lists : List (List Nat)) : Prop where
  chain : ∀ cells ∈ lists, Chain h.right cells.head? cells
  disjoint : lists.Pairwise List.Disjoint
  created : ∀ cells ∈ lists, ∀ c ∈ cells, c < h.created

theorem Linkables.Linked.perm {h : Linkables} {lists lists' : List (List Nat)} (hl : h.Linked lists)
    (hperm : lists.Perm lists') : h.Linked lists' :=
  ⟨fun cells hcells => hl.chain cells (hperm.mem_iff.mpr hcells),
    (hperm.pairwise_iff disjoint_symm).mp hl.disjoint,
    fun cells hcells => hl.created cells (hperm.mem_iff.mpr hcells)⟩

theorem Linkables.Linked.of_cons {h : Linkables} {lists : List (List Nat)} {cells : List Nat}
    (hl : h.Linked (cells :: lists)) : h.Linked lists :=
  ⟨fun l hmem => hl.chain l (mem_cons_of_mem cells hmem), (pairwise_cons.mp hl.disjoint).2,
    fun l hmem => hl.created l (mem_cons_of_mem cells hmem)⟩

/-- The cells of the other lists. -/
theorem Linkables.Linked.other {h : Linkables} {done todo : List (List Nat)} {cells : List Nat}
    (hl : h.Linked (done ++ cells :: todo)) :
    ∀ l ∈ done ++ todo, ∀ c ∈ l, c < h.created ∧ c ∉ cells := by
  intro l hlmem c hc
  have hl := hl.perm perm_middle
  obtain ⟨hapart, -⟩ := pairwise_cons.mp hl.disjoint
  exact ⟨hl.created l (mem_cons_of_mem cells hlmem) c hc, fun hcells => hapart l hlmem hcells hc⟩

/-- One of the lists is changed, without the cells of the other ones. -/
theorem Linkables.Linked.change {h h' : Linkables} {done todo : List (List Nat)}
    {cells cells' : List Nat} (hl : h.Linked (done ++ cells :: todo))
    (hcreated : h.created ≤ h'.created)
    (hsame : ∀ c < h.created, c ∉ cells → h'.right c = h.right c)
    (hchain : Chain h'.right cells'.head? cells')
    (hcells : ∀ c ∈ cells', c < h'.created ∧ (c ∈ cells ∨ h.created ≤ c)) :
    h'.Linked (done ++ cells' :: todo) := by
  have hperm : (done ++ cells :: todo).Perm (cells :: (done ++ todo)) := perm_middle
  have hperm' : (done ++ cells' :: todo).Perm (cells' :: (done ++ todo)) := perm_middle
  obtain ⟨-, hpairs⟩ := pairwise_cons.mp (hl.perm hperm).disjoint
  have hother := hl.other
  refine ⟨fun l hlmem => ?_, ?_, fun l hlmem c hc => ?_⟩
  · rcases mem_cons.mp (hperm'.mem_iff.mp hlmem) with rfl | hlmem
    · exact hchain
    · have hmem : l ∈ done ++ cells :: todo := hperm.mem_iff.mpr (mem_cons_of_mem cells hlmem)
      exact (hl.chain l hmem).congr fun c hc =>
        hsame c (hother l hlmem c hc).1 (hother l hlmem c hc).2
  · refine (hperm'.pairwise_iff disjoint_symm).mpr (pairwise_cons.mpr ⟨?_, hpairs⟩)
    intro l hlmem c hc hcl
    obtain ⟨hlt, hnot⟩ := hother l hlmem c hcl
    rcases (hcells c hc).2 with hin | hge
    · exact hnot hin
    · omega
  · rcases mem_cons.mp (hperm'.mem_iff.mp hlmem) with rfl | hlmem
    · exact (hcells c hc).1
    · exact Nat.lt_of_lt_of_le (hother l hlmem c hc).1 hcreated

namespace TopologicalSorter

variable {G : Type} {s : TopologicalSorter G} {lists : List (List Nat)}

/-- The sorter has the lists of successors `lists`. -/
structure Holds (s : TopologicalSorter G) (lists : List (List Nat)) : Prop where
  nodup : s.items.Nodup
  length_eq : lists.length = s.count
  successors_eq : s.successors = lists.map head?
  linked : s.cells.Linked lists
  counts_eq : s.counts = tally s.count fun j =>
    (((lists.flatten.map s.cells.item).count ((j : Int) + 1) : Nat) : Int)
  index : ∀ c ∈ lists.flatten, ∃ j < s.count, s.cells.item c = j + 1

section

variable (s : TopologicalSorter G) (lists : List (List Nat))

/-- The item at the index `i` is recorded to be before the one at `j`. -/
def Successor (i j : Nat) : Prop :=
  ∃ cells, lists[i]? = some cells ∧ (j : Int) + 1 ∈ cells.map s.cells.item

/-- The relation of the items that is recorded by the lists. -/
def Records (u v : G) : Prop :=
  ∃ i j, s.items[i]? = some u ∧ s.items[j]? = some v ∧ s.Successor lists i j

/-- The indexes of the successors of an item. -/
def successorsOf (i : Nat) : List Nat :=
  (lists[i]?.getD []).map fun c => (s.cells.item c - 1).toNat

end

theorem Holds.map_successorsOf (h : s.Holds lists) {i : Nat} {cells : List Nat}
    (hcells : lists[i]? = some cells) :
    (s.successorsOf lists i).map (fun j : Nat => (j : Int) + 1) = cells.map s.cells.item := by
  rw [successorsOf, hcells, Option.getD_some, map_map]
  refine map_congr_left fun c hc => ?_
  obtain ⟨j, -, hitem⟩ :=
    h.index c (mem_flatten.mpr ⟨cells, mem_of_getElem? hcells, hc⟩)
  rw [comp_apply, hitem]
  omega

theorem Holds.mem_successorsOf (h : s.Holds lists) {i j : Nat} :
    j ∈ s.successorsOf lists i ↔ s.Successor lists i j := by
  rw [Successor]
  cases hcells : lists[i]? with
  | none =>
      rw [successorsOf, hcells]
      exact iff_of_false not_mem_nil fun ⟨_, heq, _⟩ => nomatch heq
  | some cells =>
      rw [← mem_map_of_injective (f := fun j : Nat => (j : Int) + 1)
        fun i j (heq : (i : Int) + 1 = j + 1) => by omega, h.map_successorsOf hcells]
      constructor
      · exact fun hmem => ⟨cells, rfl, hmem⟩
      · rintro ⟨_, heq, hmem⟩
        rwa [Option.some.inj heq]

theorem Holds.item_eq (h : s.Holds lists) {cells : List Nat} (hcells : cells ∈ lists) {c : Nat}
    (hc : c ∈ cells) : ∃ j < s.count, s.cells.item c = j + 1 :=
  h.index c (mem_flatten.mpr ⟨cells, hcells, hc⟩)

theorem Holds.successor_lt (h : s.Holds lists) {i j : Nat} (hij : s.Successor lists i j) :
    i < s.count ∧ j < s.count := by
  obtain ⟨cells, hcells, hmem⟩ := hij
  obtain ⟨hi, -⟩ := List.getElem?_eq_some_iff.mp hcells
  obtain ⟨c, hc, hitem⟩ := List.mem_map.mp hmem
  obtain ⟨k, hk, hitem'⟩ := h.item_eq (List.mem_of_getElem? hcells) hc
  exact ⟨Nat.lt_of_lt_of_eq hi h.length_eq, by omega⟩

/-- The lists are what the sort reads. -/
theorem Holds.hasSuccessors (h : s.Holds lists) :
    HasSuccessors s (s.successorsOf lists) fun i => (lists[i]?.getD []).head? := by
  have hget : ∀ i < s.count, ∃ cells, lists[i]? = some cells ∧ cells ∈ lists := by
    intro i hi
    have hlt : i < lists.length := h.length_eq ▸ hi
    exact ⟨_, getElem?_eq_getElem hlt, getElem_mem hlt⟩
  have hlists : lists = tally s.count fun i => lists[i]?.getD [] := by
    refine ext_getElem? fun i => ?_
    rcases Nat.lt_or_ge i s.count with hi | hi
    · obtain ⟨cells, hcells, -⟩ := hget i hi
      rw [getElem?_tally hi, hcells]
      rfl
    · rw [getElem?_eq_none (h.length_eq ▸ hi), getElem?_eq_none (by rwa [length_tally])]
  refine ⟨fun i hi j hj => ?_, ?_, ?_, fun i hi => ?_⟩
  · exact (h.successor_lt (h.mem_successorsOf.mp hj)).2
  · rw [h.counts_eq]
    refine tally_congr fun j _ => congrArg Nat.cast ?_
    have hflat : ((range s.count).flatMap (s.successorsOf lists)).map
        (fun j : Nat => (j : Int) + 1) = lists.flatten.map s.cells.item := by
      rw [map_flatMap]
      conv_rhs => rw [hlists, tally, ← flatMap_def, map_flatMap]
      refine flatMap_congr fun i hi => ?_
      obtain ⟨cells, hcells, -⟩ := hget i (mem_range.mp hi)
      rw [h.map_successorsOf hcells, hcells]
      rfl
    have hall : ((range s.count).filter fun i => i ∉ []) = range s.count :=
      filter_eq_self.mpr fun i _ => decide_eq_true not_mem_nil
    rw [← hflat, count_map_succ, need, hall]
  · rw [h.successors_eq]
    conv_lhs => rw [hlists, tally, map_map]
    rfl
  · obtain ⟨cells, hcells, hmem⟩ := hget i hi
    refine ⟨cells, ?_, ?_, (h.map_successorsOf hcells).symm⟩
    · rw [hcells]
      exact h.linked.chain cells hmem
    · exact (h.linked.chain cells hmem).length_le (h.linked.created cells hmem)

theorem Holds.before_iff (h : s.Holds lists) {u v : G} :
    s.Before (s.successorsOf lists) u v ↔ s.Records lists u v := by
  simp only [Before, Records, h.mem_successorsOf]

theorem Holds.put {v : G} (h : s.Holds lists) (hv : v ∉ s.items) :
    (s.put v).Holds (lists ++ [[]]) ∧
      ∀ u w, (s.put v).Records (lists ++ [[]]) u w ↔ s.Records lists u w := by
  have hflatten : (lists ++ [[]]).flatten = lists.flatten := by
    rw [List.flatten_concat, List.append_nil]
  have hcount : (s.put v).count = s.count + 1 := List.length_append
  have hsuccessor : ∀ {i j}, (s.put v).Successor (lists ++ [[]]) i j ↔ s.Successor lists i j := by
    intro i j
    constructor
    · rintro ⟨cells, hcells, hmem⟩
      rcases Nat.lt_or_ge i lists.length with hi | hi
      · exact ⟨cells, by rwa [List.getElem?_append_left hi] at hcells, hmem⟩
      · rw [List.getElem?_append_right hi] at hcells
        obtain rfl := List.mem_singleton.mp (List.mem_of_getElem? hcells)
        exact absurd hmem List.not_mem_nil
    · rintro ⟨cells, hcells, hmem⟩
      obtain ⟨hi, -⟩ := List.getElem?_eq_some_iff.mp hcells
      exact ⟨cells, by rwa [List.getElem?_append_left hi], hmem⟩
  refine ⟨⟨?_, ?_, ?_, ⟨fun cells hcells => ?_, ?_, fun cells hcells c hc => ?_⟩, ?_,
    fun c hc => ?_⟩,
    fun u w => ?_⟩
  · exact List.nodup_append'.mpr ⟨h.nodup, List.nodup_singleton v, List.disjoint_singleton.mpr hv⟩
  · rw [List.length_append, h.length_eq, hcount]
    rfl
  · rw [TopologicalSorter.put, h.successors_eq, List.map_append]
    rfl
  · rcases List.mem_append.mp hcells with hcells | hcells
    · exact h.linked.chain cells hcells
    · rw [List.mem_singleton.mp hcells]
      rfl
  · refine List.pairwise_append.mpr ⟨h.linked.disjoint, List.pairwise_singleton _ _, ?_⟩
    intro cells _ empty hempty
    rw [List.mem_singleton.mp hempty]
    exact List.disjoint_nil_right cells
  · rcases List.mem_append.mp hcells with hcells | hcells
    · exact h.linked.created cells hcells c hc
    · rw [List.mem_singleton.mp hcells] at hc
      exact absurd hc List.not_mem_nil
  · rw [hflatten, hcount, tally, List.range_succ, List.map_append]
    have hnone : (lists.flatten.map s.cells.item).count ((s.count : Int) + 1) = 0 := by
      rw [List.count_eq_zero]
      intro hmem
      obtain ⟨c, hc, hitem⟩ := List.mem_map.mp hmem
      obtain ⟨j, hj, hitem'⟩ := h.index c hc
      omega
    refine (congrArg (· ++ [(0 : Int)]) h.counts_eq).trans (congrArg (_ ++ ·) ?_)
    exact (congrArg (fun k : Nat => [(k : Int)]) hnone).symm
  · obtain ⟨j, hj, hitem⟩ := h.index c (hflatten ▸ hc)
    exact ⟨j, hcount ▸ Nat.lt_succ_of_lt hj, hitem⟩
  · constructor
    · rintro ⟨i, j, hi, hj, hsucc⟩
      have hsucc := hsuccessor.mp hsucc
      obtain ⟨hilt, hjlt⟩ := h.successor_lt hsucc
      refine ⟨i, j, ?_, ?_, hsucc⟩
      · rwa [TopologicalSorter.put, List.getElem?_append_left hilt] at hi
      · rwa [TopologicalSorter.put, List.getElem?_append_left hjlt] at hj
    · rintro ⟨i, j, hi, hj, hsucc⟩
      obtain ⟨hilt, -⟩ := List.getElem?_eq_some_iff.mp hi
      obtain ⟨hjlt, -⟩ := List.getElem?_eq_some_iff.mp hj
      refine ⟨i, j, ?_, ?_, hsuccessor.mpr hsucc⟩
      · rwa [TopologicalSorter.put, List.getElem?_append_left hilt]
      · rwa [TopologicalSorter.put, List.getElem?_append_left hjlt]

/-- A relation is recorded by a new cell at the beginning of a list. -/
theorem Holds.putIndexedRelation (h : s.Holds lists) {i j : Nat} {u v : G}
    (hi : s.items[i]? = some u) (hj : s.items[j]? = some v) :
    ∃ s' lists', s.putIndexedRelation (i + 1) (j + 1) = some s' ∧ s'.Holds lists' ∧
      s'.items = s.items ∧
      ∀ w x, s'.Records lists' w x ↔ s.Records lists w x ∨ w = u ∧ x = v := by
  have hilt : i < s.count := (List.getElem?_eq_some_iff.mp hi).1
  have hjlt : j < s.count := (List.getElem?_eq_some_iff.mp hj).1
  obtain ⟨cells, hcells⟩ : ∃ cells, lists[i]? = some cells :=
    ⟨_, List.getElem?_eq_getElem (Nat.lt_of_lt_of_eq hilt h.length_eq.symm)⟩
  obtain ⟨before, after, rfl, rfl⟩ := exists_append_of_getElem? hcells
  have hlinked := h.linked
  have hcellsMem : cells ∈ before ++ cells :: after :=
    List.mem_append_right before List.mem_cons_self
  have hnew : ∀ c ∈ (before ++ cells :: after).flatten, c ≠ s.cells.created := by
    intro c hc
    obtain ⟨l, hl, hcl⟩ := List.mem_flatten.mp hc
    exact Nat.ne_of_lt (hlinked.created l hl c hcl)
  let cells' := s.cells.make (j + 1) cells.head?
  let lists' := before ++ (s.cells.created :: cells) :: after
  have hlinked' : cells'.Linked lists' := by
    refine hlinked.change (Nat.le_succ _) (fun c hc _ => update_of_ne (Nat.ne_of_lt hc) _ _)
      ?_ fun c hc => ?_
    · refine (hlinked.chain cells hcellsMem).push fun hmem => ?_
      exact Nat.lt_irrefl _ (hlinked.created cells hcellsMem _ hmem)
    · rcases List.mem_cons.mp hc with rfl | hc
      · exact ⟨Nat.lt_succ_self _, Or.inr (Nat.le_refl _)⟩
      · exact ⟨Nat.lt_succ_of_lt (hlinked.created cells hcellsMem c hc), Or.inl hc⟩
  have hperm : lists'.flatten.Perm (s.cells.created :: (before ++ cells :: after).flatten) := by
    rw [List.flatten_append, List.flatten_append, List.flatten_cons, List.flatten_cons,
      List.cons_append]
    exact List.perm_middle
  have hitems : (s.cells.created :: (before ++ cells :: after).flatten).map cells'.item =
      ((j : Int) + 1) :: (before ++ cells :: after).flatten.map s.cells.item := by
    rw [List.map_cons, show cells'.item s.cells.created = (j : Int) + 1 from
      update_self ..]
    exact congrArg _ (List.map_congr_left fun c hc => update_of_ne (hnew c hc) _ _)
  have hcounts : replaceAt s.counts
      (((before ++ cells :: after).flatten.map s.cells.item).count ((j : Int) + 1) + 1 : Int)
      (j + 1) = some (tally s.count fun k =>
        (((lists'.flatten.map cells'.item).count ((k : Int) + 1) : Nat) : Int)) := by
    rw [h.counts_eq, replaceAt_tally hjlt]
    refine congrArg some (tally_congr fun k _ => ?_)
    rw [(hperm.map cells'.item).count_eq, hitems]
    by_cases hk : k = j
    · rw [hk, update_self, List.count_cons_self]
      exact (Int.natCast_succ _).symm
    · rw [update_of_ne hk, List.count_cons_of_ne (by omega)]
  refine ⟨⟨s.capacity, s.items, tally s.count fun k =>
      (((lists'.flatten.map cells'.item).count ((k : Int) + 1) : Nat) : Int),
    lists'.map List.head?, cells', none, none⟩, lists', ?_,
    ⟨h.nodup, ?_, rfl, hlinked', rfl, fun c hc => ?_⟩, rfl, fun w x => ?_⟩
  · have hget : itemAt s.counts ((j : Int) + 1) =
        some (((before ++ cells :: after).flatten.map s.cells.item).count ((j : Int) + 1) :
          Int) := by
      rw [h.counts_eq, itemAt_tally hjlt]
    have hsucc : itemAt s.successors ((before.length : Int) + 1) = some cells.head? := by
      rw [h.successors_eq, itemAt_succ, List.getElem?_map, getElem?_append_cons]
      rfl
    have hreplace : replaceAt s.successors (some s.cells.created) ((before.length : Int) + 1) =
        some (lists'.map List.head?) := by
      rw [h.successors_eq, replaceAt_succ _ (by simp), List.map_append, List.map_cons]
      have hset := set_append_cons (before.map List.head?) (after.map List.head?) cells.head?
        (some s.cells.created)
      rw [List.length_map] at hset
      rw [hset, List.map_append]
      rfl
    simp only [TopologicalSorter.putIndexedRelation, hget, hcounts, hsucc, hreplace,
      some_bind]
    rfl
  · rw [List.length_append, List.length_cons, ← List.length_cons (a := cells),
      ← List.length_append]
    exact h.length_eq
  · have hmem := List.mem_map_of_mem (f := cells'.item) (hperm.mem_iff.mp hc)
    rw [hitems] at hmem
    rcases List.mem_cons.mp hmem with heq | hmem
    · exact ⟨j, hjlt, heq⟩
    · obtain ⟨c', hc', hitem⟩ := List.mem_map.mp hmem
      obtain ⟨k, hk, hitem'⟩ := h.index c' hc'
      exact ⟨k, hk, hitem.symm.trans hitem'⟩
  · have hold : ∀ l ∈ before ++ cells :: after, l.map cells'.item = l.map s.cells.item := by
      intro l hl
      refine List.map_congr_left fun c hc => update_of_ne ?_ _ _
      exact hnew c (List.mem_flatten.mpr ⟨l, hl, hc⟩)
    have hget : ∀ a, lists'[a]? = if before.length = a then some (s.cells.created :: cells)
        else (before ++ cells :: after)[a]? :=
      getElem?_append_change before after cells (s.cells.created :: cells)
    have hsuccessor : ∀ a b : Nat, (∃ l, lists'[a]? = some l ∧ (b : Int) + 1 ∈ l.map cells'.item) ↔
        s.Successor (before ++ cells :: after) a b ∨ a = before.length ∧ b = j := by
      intro a b
      rw [hget a, Successor]
      by_cases ha : before.length = a
      · have hmap : (s.cells.created :: cells).map cells'.item =
            ((j : Int) + 1) :: cells.map s.cells.item := by
          rw [List.map_cons, hold cells hcellsMem, show cells'.item s.cells.created = (j : Int) + 1
            from update_self ..]
        rw [if_pos ha, ← ha, getElem?_append_cons]
        constructor
        · rintro ⟨l, hl, hmem⟩
          rw [← Option.some.inj hl, hmap] at hmem
          rcases List.mem_cons.mp hmem with heq | hmem
          · exact Or.inr ⟨rfl, by omega⟩
          · exact Or.inl ⟨cells, rfl, hmem⟩
        · rintro (⟨l, hl, hmem⟩ | ⟨-, rfl⟩)
          · refine ⟨_, rfl, ?_⟩
            rw [hmap, Option.some.inj hl]
            exact List.mem_cons_of_mem _ hmem
          · refine ⟨_, rfl, ?_⟩
            rw [hmap]
            exact List.mem_cons_self
      · rw [if_neg ha]
        constructor
        · rintro ⟨l, hl, hmem⟩
          exact Or.inl ⟨l, hl, hold l (List.mem_of_getElem? hl) ▸ hmem⟩
        · rintro (⟨l, hl, hmem⟩ | ⟨heq, -⟩)
          · exact ⟨l, hl, (hold l (List.mem_of_getElem? hl)).symm ▸ hmem⟩
          · exact absurd heq.symm ha
    constructor
    · rintro ⟨a, b, ha, hb, hab⟩
      rcases (hsuccessor a b).mp hab with hab | ⟨rfl, rfl⟩
      · exact Or.inl ⟨a, b, ha, hb, hab⟩
      · exact Or.inr ⟨Option.some.inj (ha.symm.trans hi), Option.some.inj (hb.symm.trans hj)⟩
    · rintro (⟨a, b, ha, hb, hab⟩ | ⟨rfl, rfl⟩)
      · exact ⟨a, b, ha, hb, (hsuccessor a b).mpr (Or.inl hab)⟩
      · exact ⟨before.length, j, hi, hj, (hsuccessor _ _).mpr (Or.inr ⟨rfl, rfl⟩)⟩

end TopologicalSorter

end Gobo
