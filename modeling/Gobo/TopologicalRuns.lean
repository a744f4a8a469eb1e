/-
Runs of topological sorters: as long as no removed item is the first one in the list of
successors of another item, a sort orders the items by the recorded relation or finds a
cycle of it.
-/
import Gobo.Runs
import Gobo.TopologicalRemoval

namespace Gobo

open List

namespace TopologicalSorter

variable {G : Type} {s : TopologicalSorter G} {lists : List (List Nat)} {u v w : G} {k i j : Nat}

/-- The index of an item before the removal of the one at `k`. -/
def skip (k i : Nat) : Nat := if i < k then i else i + 1

theorem skip_ne (k i : Nat) : skip k i ≠ k := by
  unfold skip
  split <;> omega

theorem exists_skip (h : i ≠ k) : ∃ j, skip k j = i := by
  rcases Nat.lt_or_gt_of_ne h with h | h
  · exact ⟨i, if_pos h⟩
  · exact ⟨i - 1, by rw [skip, if_neg (by omega)]; omega⟩

theorem renumber_eq_iff {y : Int} :
    y ≠ (k : Int) + 1 ∧ renumber ((k : Int) + 1) y = (j : Int) + 1 ↔ y = (skip k j : Nat) + 1 := by
  unfold renumber skip
  split <;> split <;> omega

/-- The new numbers of the other items. -/
theorem exists_renumber {n : Nat} {y : Int} (hk : k < n) (hy : ∃ j < n, y = (j : Int) + 1)
    (hne : y ≠ (k : Int) + 1) : ∃ i < n - 1, renumber ((k : Int) + 1) y = i + 1 := by
  obtain ⟨j, hj, rfl⟩ := hy
  obtain ⟨i, rfl⟩ := exists_skip (i := j) (k := k) (by omega)
  refine ⟨i, ?_, (renumber_eq_iff.mpr rfl).2⟩
  unfold skip at hj
  split at hj <;> omega

theorem splicedValues_flatten (k : Int) (linked : List Int) (values : List (List Int)) :
    splicedValues k linked values.flatten = (values.map (splicedValues k linked)).flatten := by
  induction values with
  | nil => rfl
  | cons value values ih =>
      rw [splicedValues] at ih
      rw [flatten_cons, splicedValues, flatMap_append, ih]
      rfl

theorem mem_linkedValues {values : List Int} :
    (j : Int) + 1 ∈ linkedValues ((k : Int) + 1) values ↔
    ((skip k j : Nat) : Int) + 1 ∈ values := by
  rw [linkedValues, mem_map]
  constructor
  · rintro ⟨y, hy, heq⟩
    obtain ⟨hmem, hne⟩ := mem_filter.mp hy
    exact renumber_eq_iff.mp ⟨of_decide_eq_true hne, heq⟩ ▸ hmem
  · intro hmem
    obtain ⟨hne, heq⟩ := (renumber_eq_iff (k := k) (j := j)).mpr rfl
    exact ⟨_, mem_filter.mpr ⟨hmem, decide_eq_true hne⟩, heq⟩

theorem mem_splicedValues {linked values : List Int} :
    (j : Int) + 1 ∈ splicedValues ((k : Int) + 1) linked values ↔
      ((skip k j : Nat) : Int) + 1 ∈ values ∨ (k : Int) + 1 ∈ values ∧ (j : Int) + 1 ∈ linked := by
  rw [splicedValues, mem_flatMap]
  constructor
  · rintro ⟨y, hy, hmem⟩
    by_cases hyk : y = (k : Int) + 1
    · rw [if_pos hyk] at hmem
      exact Or.inr ⟨hyk ▸ hy, hmem⟩
    · rw [if_neg hyk] at hmem
      exact Or.inl (renumber_eq_iff.mp ⟨hyk, (mem_singleton.mp hmem).symm⟩ ▸ hy)
  · rintro (hmem | ⟨hk, hmem⟩)
    · obtain ⟨hne, heq⟩ := (renumber_eq_iff (k := k) (j := j)).mpr rfl
      refine ⟨_, hmem, ?_⟩
      rw [if_neg hne, heq]
      exact mem_singleton.mpr rfl
    · refine ⟨_, hk, ?_⟩
      rwa [if_pos rfl]

theorem exists_of_mem_splicedValues {k x : Int} {values values' : List Int}
    (hx : x ∈ splicedValues k (linkedValues k values) values') :
    ∃ y, (y ∈ values ∨ y ∈ values') ∧ y ≠ k ∧ renumber k y = x := by
  obtain ⟨y, hy, hmem⟩ := mem_flatMap.mp hx
  by_cases hyk : y = k
  · rw [if_pos hyk] at hmem
    obtain ⟨y', hy', heq⟩ := mem_map.mp hmem
    obtain ⟨hmem', hne⟩ := mem_filter.mp hy'
    exact ⟨y', Or.inl hmem', of_decide_eq_true hne, heq⟩
  · rw [if_neg hyk] at hmem
    exact ⟨y, Or.inr hy, hyk, (mem_singleton.mp hmem).symm⟩

theorem count_splicedValues (linked values : List Int) :
    (splicedValues ((k : Int) + 1) linked values).count ((j : Int) + 1) =
      values.count (((skip k j : Nat) : Int) + 1) +
        (addedValues ((k : Int) + 1) linked values).count ((j : Int) + 1) := by
  induction values with
  | nil => rfl
  | cons y values ih =>
      have hsplit : ∀ g : Int → List Int, (y :: values).flatMap g = g y ++ values.flatMap g :=
        fun g => flatMap_cons
      rw [splicedValues, addedValues] at ih
      rw [splicedValues, addedValues, hsplit, hsplit, count_append, count_append, ih]
      have hiff := renumber_eq_iff (k := k) (j := j) (y := y)
      by_cases hyk : y = (k : Int) + 1
      · have hne : y ≠ ((skip k j : Nat) : Int) + 1 := fun heq => (hiff.mpr heq).1 hyk
        rw [if_pos hyk, if_pos hyk, count_cons_of_ne hne]
        omega
      · rw [if_neg hyk, if_neg hyk, count_nil, Nat.zero_add]
        by_cases hy : y = ((skip k j : Nat) : Int) + 1
        · rw [(hiff.mpr hy).2, hy, count_singleton_self, count_cons_self]
          omega
        · have hne : renumber ((k : Int) + 1) y ≠ (j : Int) + 1 := fun heq =>
              hy (hiff.mp ⟨hyk, heq⟩)
          have hzero : [renumber ((k : Int) + 1) y].count ((j : Int) + 1) = 0 :=
            count_eq_zero_of_not_mem fun hmem => hne (mem_singleton.mp hmem).symm
          rw [hzero, count_cons_of_ne hy, Nat.zero_add]

theorem Holds.records_iff (h : s.Holds lists) (hi : s.items[i]? = some u)
    (hj : s.items[j]? = some w) : s.Records lists u w ↔ s.Successor lists i j := by
  have hilt := (List.getElem?_eq_some_iff.mp hi).1
  have hjlt := (List.getElem?_eq_some_iff.mp hj).1
  constructor
  · rintro ⟨i', j', hi', hj', hsucc⟩
    rw [(List.getElem?_inj hilt h.nodup).mp (hi.trans hi'.symm),
      (List.getElem?_inj hjlt h.nodup).mp (hj.trans hj'.symm)]
    exact hsucc
  · exact fun hsucc => ⟨i, j, hi, hj, hsucc⟩

/-- A sort leaves the lists as they are. -/
theorem Holds.sort (h : s.Holds lists) :
    ∃ sorted cycle, s.sort = some { s with sortedItems := some sorted, cycle := cycle } ∧
      IsTopologicalSort s.items (s.Records lists) sorted cycle := by
  obtain ⟨sorted, cycle, hrun, hsorted⟩ := h.hasSuccessors.sort_eq h.nodup
  have hbefore : s.Before (s.successorsOf lists) = s.Records lists :=
    funext fun u => funext fun v => propext h.before_iff
  exact ⟨sorted, cycle, hrun, hbefore ▸ hsorted⟩

theorem Holds.force (h : s.Holds lists) (hv : v ∉ s.items) :
    (s.force v).Holds (lists ++ [[]]) ∧ (s.force v).items = s.items ++ [v] ∧
      ∀ u w, (s.force v).Records (lists ++ [[]]) u w ↔ s.Records lists u w := by
  rw [TopologicalSorter.force]
  split
  · have hs : ({ s with capacity := s.count + 10 } : TopologicalSorter G).Holds lists :=
      ⟨h.nodup, h.length_eq, h.successors_eq, h.linked, h.counts_eq, h.index⟩
    exact ⟨(hs.put hv).1, rfl, (hs.put hv).2⟩
  · exact ⟨(h.put hv).1, rfl, (h.put hv).2⟩

section

variable [DecidableEq G]

theorem indexOf_eq_iff : s.indexOf v = s.count + 1 ↔ v ∉ s.items := by
  rw [indexOf, ← idxOf_eq_length_iff, count]
  omega

/-- No other item has the item at the beginning of its list of successors. -/
def NotFirstSuccessor (s : TopologicalSorter G) (v : G) : Prop :=
  ∀ start ∈ s.successors.eraseIdx (s.items.idxOf v),
    start.map s.cells.item ≠ some (s.indexOf v)

instance (s : TopologicalSorter G) (v : G) : Decidable (s.NotFirstSuccessor v) :=
  inferInstanceAs (Decidable (∀ start ∈ _, _))

variable {before after lists' : List (List Nat)} {old : List Nat} {m' : Splicing}

/-- The removal of an item is the loop over the lists of the other ones. -/
theorem Holds.remove_eq (h : s.Holds (before ++ old :: after)) (hv : v ∈ s.items)
    (hlength : before.length = s.items.idxOf v) (hfirst : s.NotFirstSuccessor v) :
    ∃ m' lists', s.remove v = some { s with
        items := s.items.erase v, counts := m'.counts, successors := m'.successors,
        cells := m'.cells } ∧
      Removed s.cells (s.indexOf v) old (s.count - 1) (fun i =>
        (((before ++ after).flatten.map s.cells.item).count
          (((skip (s.items.idxOf v) i : Nat) : Int) + 1) : Nat)) (before ++ after)
            [] lists' m' := by
  have hk : s.items.idxOf v < s.count := idxOf_lt_length_iff.mpr hv
  have hold : old ∈ before ++ old :: after := mem_append_right before mem_cons_self
  have hchain := h.linked.chain old hold
  have hitems : ∀ c ∈ old, ∃ j < s.count, s.cells.item c = j + 1 := fun c hc => h.item_eq hold hc
  have hstart : itemAt s.successors (s.indexOf v) = some old.head? := by
    rw [indexOf, itemAt_succ, h.successors_eq, getElem?_map, ← hlength, getElem?_append_cons]
    rfl
  have hperm : (before ++ old :: after).flatten.Perm (old ++ (before ++ after).flatten) := by
    rw [flatten_append, flatten_append, flatten_cons, ← append_assoc, ← append_assoc]
    exact perm_append_comm.append_right _
  have hforget : forCells (fun _ => s.cells.right) (forgetSuccessor s.cells) s.cells.created
      old.head? s.counts = some (tally s.count fun j =>
        ((((before ++ after).flatten.map s.cells.item).count ((j : Int) + 1) : Nat) : Int)) := by
    rw [forCells_eq_foldlM hchain (hchain.length_le (h.linked.created old hold)), h.counts_eq,
      foldlM_forgetSuccessor hitems]
    refine congrArg some (tally_congr fun j _ => ?_)
    rw [(hperm.map s.cells.item).count_eq, map_append, count_append]
    omega
  have herase : removeAt s.items (s.indexOf v) = some (s.items.erase v) := by
    rw [indexOf, removeAt_succ hk, erase_eq_eraseIdx_of_idxOf rfl]
  have hsuccessors : s.successors.eraseIdx (s.items.idxOf v) =
      (before ++ after).map head? := by
    have herase := eraseIdx_append_cons (before.map head?) (after.map head?) old.head?
    rw [length_map, hlength] at herase
    rw [h.successors_eq, map_append, map_cons, herase, map_append]
  have hremoved : removeAt s.successors (s.indexOf v) =
      some ((before ++ after).map head?) := by
    rw [indexOf, removeAt_succ (by rwa [h.successors_eq, length_map, h.length_eq]),
      hsuccessors]
  have hheads : ∀ cells ∈ before ++ after, ∀ c, cells.head? = some c →
      s.cells.item c ≠ s.indexOf v := by
    intro cells hcells c hc heq
    refine hfirst cells.head? ?_ (by rw [hc, ← heq]; rfl)
    rw [hsuccessors]
    exact mem_map_of_mem hcells
  have hrenumbered : ∀ c ∈ old, s.cells.item c = s.indexOf v ∨
      ∃ j < s.count - 1, renumber (s.indexOf v) (s.cells.item c) = j + 1 := by
    intro c hc
    by_cases hck : s.cells.item c = s.indexOf v
    · exact Or.inl hck
    · exact Or.inr (exists_renumber hk (hitems c hc) hck)
  obtain ⟨m', lists', hrun, hr⟩ := spliceAll_eq (m := ⟨tally (s.count - 1) fun i =>
      ((((before ++ after).flatten.map s.cells.item).count
        (((skip (s.items.idxOf v) i : Nat) : Int) + 1) : Nat) : Int),
      (before ++ after).map head?, s.cells, none⟩)
    ⟨h.linked.perm perm_middle, rfl, rfl, fun _ _ _ _ => rfl,
      tally_congr fun i _ => (Int.add_zero _).symm⟩ hheads hrenumbered s.capacity
  refine ⟨m', lists', ?_, hr⟩
  have hcounts := removeAt_tally (f := fun j =>
    ((((before ++ after).flatten.map s.cells.item).count ((j : Int) + 1) : Nat) : Int)) hk
  rw [← indexOf] at hcounts
  simp only [TopologicalSorter.remove, hstart, hforget, herase, hcounts, hremoved,
    some_bind, length_map]
  exact (congrArg (Option.bind · _) hrun).trans rfl

theorem Removed.flatten_values {h : Linkables} {k : Int} {n : Nat} {f : Nat → Int}
    (hr : Removed h k old n f lists [] lists' m') :
    lists'.flatten.map m'.cells.item =
      splicedValues k (linkedValues k (old.map h.item)) (lists.flatten.map h.item) := by
  rw [map_flatten, hr.values, map_flatten, splicedValues_flatten, map_map]
  rfl

/-- The successors of an item are linked through the removed one. -/
theorem Removed.successor_iff {n i j : Nat} {f : Nat → Int}
    (hr : Removed s.cells (s.indexOf v) old n f (before ++ after) [] lists' m')
    (hlength : before.length = s.items.idxOf v) :
    (∃ cells, lists'[i]? = some cells ∧ (j : Int) + 1 ∈ cells.map m'.cells.item) ↔
      s.Successor (before ++ old :: after) (skip (s.items.idxOf v) i) (skip (s.items.idxOf v) j) ∨
        s.Successor (before ++ old :: after) (skip (s.items.idxOf v) i) (s.items.idxOf v) ∧
          s.Successor (before ++ old :: after) (s.items.idxOf v) (skip (s.items.idxOf v) j) := by
  have hold : (before ++ old :: after)[s.items.idxOf v]? = some old :=
    hlength ▸ getElem?_append_cons before after old
  have hget : (before ++ after)[i]? = (before ++ old :: after)[skip (s.items.idxOf v) i]? := by
    rw [← eraseIdx_append_cons before after old, getElem?_eraseIdx, hlength, skip]
    split <;> rfl
  have hvalue : lists'[i]?.map (map m'.cells.item) = (before ++ after)[i]?.map fun cells =>
      splicedValues (s.indexOf v) (linkedValues (s.indexOf v) (old.map s.cells.item))
        (cells.map s.cells.item) := by
    rw [← getElem?_map, hr.values, getElem?_map]
  rw [hget] at hvalue
  have hlast : s.Successor (before ++ old :: after) (s.items.idxOf v) (skip (s.items.idxOf v) j) ↔
      (j : Int) + 1 ∈ linkedValues (s.indexOf v) (old.map s.cells.item) := by
    rw [indexOf, mem_linkedValues, Successor, hold]
    constructor
    · rintro ⟨_, heq, hmem⟩
      exact Option.some.inj heq ▸ hmem
    · exact fun hmem => ⟨old, rfl, hmem⟩
  rw [hlast, Successor, Successor]
  cases hcells : (before ++ old :: after)[skip (s.items.idxOf v) i]? with
  | none =>
      rw [hcells] at hvalue
      rw [Option.map_eq_none_iff.mp hvalue]
      simp
  | some cells =>
      rw [hcells] at hvalue
      obtain ⟨cells', hcells', heq⟩ := Option.map_eq_some_iff.mp hvalue
      have hmem : (j : Int) + 1 ∈ cells'.map m'.cells.item ↔
          ((skip (s.items.idxOf v) j : Nat) : Int) + 1 ∈ cells.map s.cells.item ∨
          ((s.items.idxOf v : Nat) : Int) + 1 ∈ cells.map s.cells.item ∧
            (j : Int) + 1 ∈ linkedValues (s.indexOf v) (old.map s.cells.item) :=
        heq ▸ mem_splicedValues
      rw [hcells']
      simp only [Option.some.injEq, exists_eq_left', hmem]

/-- The removal of an item keeps the order of the other ones. -/
theorem Holds.remove (h : s.Holds lists) (hv : v ∈ s.items) (hfirst : s.NotFirstSuccessor v) :
    ∃ s' lists', s.remove v = some s' ∧ s'.Holds lists' ∧ s'.items = s.items.erase v ∧
      ∀ u w, s'.Records lists' u w ↔
        u ≠ v ∧ w ≠ v ∧ (s.Records lists u w ∨ s.Records lists u v ∧ s.Records lists v w) := by
  have hk : s.items.idxOf v < s.count := List.idxOf_lt_length_iff.mpr hv
  have hkv : s.items[s.items.idxOf v]? = some v := List.getElem?_idxOf hv
  obtain ⟨old, hold⟩ : ∃ old, lists[s.items.idxOf v]? = some old :=
    ⟨_, List.getElem?_eq_getElem (Nat.lt_of_lt_of_eq hk h.length_eq.symm)⟩
  obtain ⟨before, after, rfl, hlength⟩ := exists_append_of_getElem? hold
  obtain ⟨m', lists', hrun, hr⟩ := h.remove_eq hv hlength hfirst
  have hcount : (s.items.erase v).length = s.count - 1 := List.length_erase_of_mem hv
  have hget : ∀ i : Nat, (s.items.erase v)[i]? = s.items[skip (s.items.idxOf v) i]? := by
    intro i
    rw [List.erase_eq_eraseIdx_of_idxOf rfl, List.getElem?_eraseIdx, skip]
    split <;> rfl
  have hlinked : m'.cells.Linked lists' := by
    have hlinked := hr.linked
    rw [List.append_nil] at hlinked
    exact hlinked.of_cons
  have hflatten : (before ++ after).flatten ⊆ (before ++ old :: after).flatten := by
    intro c hc
    obtain ⟨cells, hcells, hcc⟩ := List.mem_flatten.mp hc
    refine List.mem_flatten.mpr ⟨cells, ?_, hcc⟩
    exact List.perm_middle.mem_iff.mpr (List.mem_cons_of_mem old hcells)
  have hlengths := congrArg List.length hr.values
  rw [List.length_map, List.length_map] at hlengths
  have hother : ∀ {i u}, s.items[i]? = some u → i ≠ s.items.idxOf v → u ≠ v := by
    intro i u hi hne huv
    exact hne ((List.getElem?_inj (List.getElem?_eq_some_iff.mp hi).1 h.nodup).mp
      (hi.trans (huv ▸ hkv.symm)))
  refine ⟨_, lists', hrun, ⟨h.nodup.erase v, ?_, ?_, hlinked, ?_, fun c hc => ?_⟩, rfl,
    fun u w => ?_⟩
  · rw [hlengths, count, hcount, ← h.length_eq, List.length_append, List.length_append,
      List.length_cons]
    omega
  · exact hr.successors.trans (by rw [List.append_nil])
  · rw [count, hcount, hr.counts]
    refine tally_congr fun j _ => ?_
    rw [hr.flatten_values, indexOf, count_splicedValues, Int.natCast_add]
  · have hmem := List.mem_map_of_mem (f := m'.cells.item) hc
    rw [hr.flatten_values] at hmem
    obtain ⟨y, hy, hne, heq⟩ := exists_of_mem_splicedValues hmem
    have hy : ∃ j < s.count, y = (j : Int) + 1 := by
      rcases hy with hy | hy
      · obtain ⟨c', hc', rfl⟩ := List.mem_map.mp hy
        exact h.item_eq (List.mem_of_getElem? hold) hc'
      · obtain ⟨c', hc', rfl⟩ := List.mem_map.mp hy
        exact h.index c' (hflatten hc')
    rw [count, hcount, ← heq]
    exact exists_renumber hk hy hne
  · constructor
    · rintro ⟨i, j, hi, hj, hij⟩
      rw [hget] at hi hj
      have hsucc := (hr.successor_iff hlength).mp hij
      refine ⟨hother hi (skip_ne _ _), hother hj (skip_ne _ _), ?_⟩
      rwa [h.records_iff hi hj, h.records_iff hi hkv, h.records_iff hkv hj]
    · rintro ⟨hu, hw, hrec⟩
      have hindex : ∀ {x : G}, (∃ i : Nat, s.items[i]? = some x) → x ≠ v →
          ∃ i : Nat, s.items[skip (s.items.idxOf v) i]? = some x := by
        rintro x ⟨i, hi⟩ hx
        obtain ⟨j, rfl⟩ := exists_skip (i := i) (k := s.items.idxOf v) fun heq =>
          hx (Option.some.inj (hi.symm.trans (heq ▸ hkv)))
        exact ⟨j, hi⟩
      have hmem : (∃ i : Nat, s.items[i]? = some u) ∧ ∃ j : Nat, s.items[j]? = some w := by
        rcases hrec with ⟨i, j, hi, hj, -⟩ | ⟨⟨i, -, hi, -⟩, -, j, -, hj, -⟩
        · exact ⟨⟨i, hi⟩, j, hj⟩
        · exact ⟨⟨i, hi⟩, j, hj⟩
      obtain ⟨i, hi⟩ := hindex hmem.1 hu
      obtain ⟨j, hj⟩ := hindex hmem.2 hw
      rw [h.records_iff hi hj, h.records_iff hi hkv, h.records_iff hkv hj] at hrec
      exact ⟨i, j, (hget i).trans hi, (hget j).trans hj, (hr.successor_iff hlength).mpr hrec⟩

/-- Add an item if it is not there. -/
def insertLast (items : List G) (v : G) : List G :=
  if v ∈ items then items else items ++ [v]

theorem getElem?_insertLast {items : List G} (h : items[i]? = some u) (v : G) :
    (insertLast items v)[i]? = some u := by
  rw [insertLast]
  split
  · exact h
  · rwa [List.getElem?_append_left (List.getElem?_eq_some_iff.mp h).1]

/-- The first instructions of `force_relation`. -/
theorem Holds.ensure (h : s.Holds lists) (v : G) :
    ∃ lists', (if s.indexOf v = s.count + 1 then s.force v else s).Holds lists' ∧
      (if s.indexOf v = s.count + 1 then s.force v else s).items = insertLast s.items v ∧
      (insertLast s.items v)[s.items.idxOf v]? = some v ∧
      ∀ u w, (if s.indexOf v = s.count + 1 then s.force v else s).Records lists' u w ↔
        s.Records lists u w := by
  by_cases hv : v ∈ s.items
  · rw [if_neg fun heq => indexOf_eq_iff.mp heq hv, insertLast, if_pos hv]
    exact ⟨lists, h, rfl, getElem?_idxOf hv, fun _ _ => Iff.rfl⟩
  · obtain ⟨hs, hitems, hrec⟩ := h.force hv
    rw [if_pos (indexOf_eq_iff.mpr hv), insertLast, if_neg hv]
    refine ⟨_, hs, hitems, ?_, hrec⟩
    rw [idxOf_eq_length_iff.mpr hv, getElem?_append_cons]

theorem Holds.putRelation (h : s.Holds lists) (hu : u ∈ s.items) (hv : v ∈ s.items) :
    ∃ s' lists', s.putRelation u v = some s' ∧ s'.Holds lists' ∧ s'.items = s.items ∧
      ∀ w x, s'.Records lists' w x ↔ s.Records lists w x ∨ w = u ∧ x = v :=
  h.putIndexedRelation (getElem?_idxOf hu) (getElem?_idxOf hv)

theorem Holds.forceRelation (h : s.Holds lists) (u v : G) :
    ∃ s' lists', s.forceRelation u v = some s' ∧ s'.Holds lists' ∧
      s'.items = insertLast (insertLast s.items u) v ∧
      ∀ w x, s'.Records lists' w x ↔ s.Records lists w x ∨ w = u ∧ x = v := by
  obtain ⟨lists₁, h₁, hitems₁, hu, hrec₁⟩ := h.ensure u
  obtain ⟨lists₂, h₂, hitems₂, hv, hrec₂⟩ := h₁.ensure v
  have hu := getElem?_insertLast hu v
  rw [← hitems₁, ← hitems₂] at hu
  rw [← hitems₂] at hv
  obtain ⟨s', lists', hrun, hs', hitems', hrec⟩ := h₂.putIndexedRelation hu hv
  refine ⟨s', lists', hrun, hs', ?_, fun w x => ?_⟩
  · rw [hitems', hitems₂, hitems₁]
  · rw [hrec, hrec₂, hrec₁]

/-- A call of a sorter. -/
inductive Call (G : Type)
  | put (v : G)
  | force (v : G)
  | putRelation (u v : G)
  | forceRelation (u v : G)
  | remove (v : G)
  | sort
  | reset
  | wipeOut

def exec (s : TopologicalSorter G) : Call G → Option (TopologicalSorter G)
  | .put v => some (s.put v)
  | .force v => some (s.force v)
  | .putRelation u v => s.putRelation u v
  | .forceRelation u v => s.forceRelation u v
  | .remove v => s.remove v
  | .sort => s.sort
  | .reset => some s.reset
  | .wipeOut => some s.wipeOut

/-- The preconditions. -/
def Pre (s : TopologicalSorter G) : Call G → Prop
  | .put v => v ∉ s.items ∧ s.count < s.capacity
  | .force v => v ∉ s.items
  | .putRelation u v => u ∈ s.items ∧ v ∈ s.items
  | .remove v => v ∈ s.items
  | _ => True

instance (s : TopologicalSorter G) (c : Call G) : Decidable (s.Pre c) := by
  cases c <;> unfold Pre <;> infer_instance

/-- A removal is of an item that no other item has at the beginning of its list of
successors. -/
def KeepsSlots (s : TopologicalSorter G) : Call G → Prop
  | .remove v => s.NotFirstSuccessor v
  | _ => True

instance (s : TopologicalSorter G) (c : Call G) : Decidable (s.KeepsSlots c) := by
  cases c <;> unfold KeepsSlots <;> infer_instance

/-- What the calls mean: the items and the relation between them. -/
structure Recorded (G : Type) where
  items : List G
  before : G → G → Prop

/-- What a call means; a removal links the predecessors of the item to its successors. -/
def Recorded.next (a : Recorded G) : Call G → Recorded G
  | .put v => ⟨a.items ++ [v], a.before⟩
  | .force v => ⟨a.items ++ [v], a.before⟩
  | .putRelation u v => ⟨a.items, fun w x => a.before w x ∨ w = u ∧ x = v⟩
  | .forceRelation u v =>
      ⟨insertLast (insertLast a.items u) v, fun w x => a.before w x ∨ w = u ∧ x = v⟩
  | .remove v => ⟨a.items.erase v, fun u w =>
      u ≠ v ∧ w ≠ v ∧ (a.before u w ∨ a.before u v ∧ a.before v w)⟩
  | .sort => a
  | .reset => a
  | .wipeOut => ⟨[], fun _ _ => False⟩

/-- What a list of calls means. -/
def recorded (calls : List (Call G)) : Recorded G :=
  calls.foldl Recorded.next ⟨[], fun _ _ => False⟩

/-- The sorter has the items and the relation in its lists. -/
def Represents (s : TopologicalSorter G) (a : Recorded G) : Prop :=
  ∃ lists, s.Holds lists ∧ s.items = a.items ∧ ∀ u v, s.Records lists u v ↔ a.before u v

/-- What a call does to the items and the relation. -/
theorem Represents.step {a : Recorded G} (h : s.Represents a) (c : Call G)
    (hc : s.Pre c ∧ s.KeepsSlots c) : ∃ s', s.exec c = some s' ∧ s'.Represents (a.next c) := by
  obtain ⟨lists, hs, hitems, hbefore⟩ := h
  cases c with
  | put v =>
      obtain ⟨hs', hrec⟩ := hs.put hc.1.1
      exact ⟨_, rfl, _, hs', congrArg (· ++ [v]) hitems, fun u w => (hrec u w).trans (hbefore u w)⟩
  | force v =>
      obtain ⟨hs', hitems', hrec⟩ := hs.force hc.1
      exact ⟨_, rfl, _, hs', hitems'.trans (congrArg (· ++ [v]) hitems),
        fun u w => (hrec u w).trans (hbefore u w)⟩
  | putRelation u v =>
      obtain ⟨s', lists', hrun, hs', hitems', hrec⟩ := hs.putRelation hc.1.1 hc.1.2
      exact ⟨s', hrun, lists', hs', hitems'.trans hitems,
        fun w x => (hrec w x).trans (or_congr_left (hbefore w x))⟩
  | forceRelation u v =>
      obtain ⟨s', lists', hrun, hs', hitems', hrec⟩ := hs.forceRelation u v
      refine ⟨s', hrun, lists', hs', ?_, fun w x => (hrec w x).trans (or_congr_left (hbefore w x))⟩
      rw [hitems', hitems]
      rfl
  | remove v =>
      obtain ⟨s', lists', hrun, hs', hitems', hrec⟩ := hs.remove hc.1 hc.2
      refine ⟨s', hrun, lists', hs', by rw [hitems', hitems]; rfl, fun u w => ?_⟩
      rw [hrec, hbefore, hbefore, hbefore]
      rfl
  | sort =>
      obtain ⟨sorted, cycle, hrun, -⟩ := hs.sort
      exact ⟨_, hrun, lists, ⟨hs.nodup, hs.length_eq, hs.successors_eq, hs.linked, hs.counts_eq,
        hs.index⟩, hitems, hbefore⟩
  | reset =>
      exact ⟨_, rfl, lists, ⟨hs.nodup, hs.length_eq, hs.successors_eq, hs.linked, hs.counts_eq,
        hs.index⟩, hitems, hbefore⟩
  | wipeOut =>
      refine ⟨_, rfl, [], ⟨nodup_nil, rfl, rfl, ⟨nofun, .nil, nofun⟩, rfl, nofun⟩, rfl,
        fun u v => ?_⟩
      exact iff_of_false (fun ⟨_, _, _, _, _, hcells, _⟩ => nomatch hcells) id

/-- After a run in which no removed item is the first in a list of successors of another item,
a sort orders the items by what has been recorded, or finds a cycle of it. -/
theorem run_sort {nb : Nat} {calls : List (Call G)}
    (hcalls : Permitted exec (fun s c => s.Pre c ∧ s.KeepsSlots c) (make nb) calls) :
    ∃ s sorted cycle, runAll exec (make nb) calls = some s ∧
      s.sort = some { s with sortedItems := some sorted, cycle := cycle } ∧
      IsTopologicalSort (recorded calls).items (recorded calls).before sorted cycle := by
  have hmake : (make nb : TopologicalSorter G).Represents ⟨[], fun _ _ => False⟩ := by
    refine ⟨[], ⟨nodup_nil, rfl, rfl, ⟨nofun, .nil, nofun⟩, rfl, nofun⟩, rfl, fun u v => ?_⟩
    exact iff_of_false (fun ⟨_, _, _, _, _, hcells, _⟩ => nomatch hcells) id
  obtain ⟨s, hrun, lists, hs, hitems, hbefore⟩ := run_simulates Represents Recorded.next
    (fun s a c h hc => h.step c hc) hmake hcalls
  obtain ⟨sorted, cycle, hsort, hsorted⟩ := hs.sort
  have hrecords : s.Records lists = (recorded calls).before :=
    funext fun u => funext fun v => propext (hbefore u v)
  exact ⟨s, sorted, cycle, hrun, hsort, hitems ▸ hrecords ▸ hsorted⟩

theorem run_sort_removed :
    ∃ (s : TopologicalSorter Nat) (sorted : List Nat) (cycle : Option (List Nat)),
      runAll exec (make 1) [.put 1, .forceRelation 1 2, .forceRelation 1 3, .forceRelation 2 4,
        .remove 2] = some s ∧
      s.sort = some { s with sortedItems := some sorted, cycle := cycle } ∧
      IsTopologicalSort (recorded [.put 1, .forceRelation 1 2, .forceRelation 1 3,
        .forceRelation 2 4, .remove 2]).items (recorded [.put 1, .forceRelation 1 2,
        .forceRelation 1 3, .forceRelation 2 4, .remove 2]).before sorted cycle :=
  run_sort (by decide)

/-- The items 1, 2 and 3 are put in, 1 before 2, and 2 is removed: the relations that are
recorded then are read from the lists of other items. -/
theorem remove_first_successor :
    ¬ ∀ calls : List (Call Nat), Permitted exec Pre (make 10) calls →
      ∃ s sorted cycle, runAll exec (make 10) calls = some s ∧
        s.sort = some { s with sortedItems := some sorted, cycle := cycle } ∧
        IsTopologicalSort (recorded calls).items (recorded calls).before sorted cycle := by
  intro hall
  obtain ⟨s, sorted, cycle, hrun, hsort, hsorted⟩ := hall [.put 1, .put 2, .put 3,
    .putRelation 1 2, .remove 2, .forceRelation 4 6, .forceRelation 6 5, .forceRelation 5 3]
    (by decide)
  have hfields : ((runAll exec (make 10) [.put 1, .put 2, .put 3, .putRelation 1 2, .remove 2,
      .forceRelation 4 6, .forceRelation 6 5, .forceRelation 5 3]).bind
      TopologicalSorter.sort).map (fun s => (s.sortedItems, s.cycle)) =
      some (some [1, 4, 6, 3, 5], none) := by decide
  rw [hrun, Option.bind_some, hsort] at hfields
  obtain ⟨hsorted', hcycle⟩ := Prod.mk.inj (Option.some.inj hfields)
  obtain rfl := Option.some.inj hsorted'
  obtain rfl : cycle = none := hcycle
  by_cases hacyclic : Acyclic (recorded [Call.put 1, .put 2, .put 3, .putRelation 1 2, .remove 2,
      .forceRelation 4 6, .forceRelation 6 5, .forceRelation 5 3]).before
  · obtain ⟨-, hforward, -⟩ := hsorted.acyclic hacyclic
    exact absurd (hforward 5 3 (Or.inr ⟨rfl, rfl⟩)) (by unfold Precedes; decide)
  · obtain ⟨-, -, c, hc, -⟩ := hsorted.cyclic hacyclic
    exact nomatch hc

end

end TopologicalSorter

end Gobo
