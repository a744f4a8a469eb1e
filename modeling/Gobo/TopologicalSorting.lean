/-
The sort of a topological sorter: the queue of the items without predecessors left, and the
search of a cycle among the other ones.
-/
import Gobo.TopologicalOrder
import Gobo.TopologicalSorter
import Mathlib.Data.List.Count

namespace Gobo

open Function List

namespace TopologicalSorter

variable {n : Nat} {succ : Nat → List Nat} {out queue : List Nat} {f : Nat → Int}
  {pending : Nat → Nat} {i j front : Nat}

/-- The relations that lead to the item `j`, from items that are not in `out`. -/
def need (n : Nat) (succ : Nat → List Nat) (out : List Nat) (j : Nat) : Nat :=
  (((range n).filter fun i => i ∉ out).flatMap succ).count j

theorem need_eq_zero : need n succ out j = 0 ↔ ∀ i < n, j ∈ succ i → i ∈ out := by
  rw [need, count_eq_zero, mem_flatMap]
  constructor
  · intro h i hi hj
    by_contra hout
    exact h ⟨i, mem_filter.mpr ⟨mem_range.mpr hi, decide_eq_true hout⟩, hj⟩
  · rintro h ⟨i, hi, hj⟩
    obtain ⟨hi, hout⟩ := mem_filter.mp hi
    exact of_decide_eq_true hout (h i (mem_range.mp hi) hj)

/-- The relations of an item are erased when it is put in `out`. -/
theorem need_concat (hfront : front ∉ out) (hlt : front < n) (j : Nat) :
    need n succ out j = (succ front).count j + need n succ (out ++ [front]) j := by
  have hperm : ((range n).filter fun i => i ∉ out).Perm
      (front :: (range n).filter fun i => i ∉ out ++ [front]) := by
    refine (perm_ext_iff_of_nodup (nodup_range.filter _)
      (nodup_cons.mpr ⟨fun h => ?_, nodup_range.filter _⟩)).mpr fun i => ?_
    · exact of_decide_eq_true (mem_filter.mp h).2 (mem_append_right _ mem_cons_self)
    · rw [mem_cons, mem_filter, mem_filter, mem_range, decide_eq_true_eq,
        decide_eq_true_eq, mem_append, mem_singleton]
      constructor
      · rintro ⟨hi, hout⟩
        by_cases heq : i = front
        · exact Or.inl heq
        · exact Or.inr ⟨hi, not_or.mpr ⟨hout, heq⟩⟩
      · rintro (rfl | ⟨hi, hout⟩)
        · exact ⟨hlt, hfront⟩
        · exact ⟨hi, (not_or.mp hout).1⟩
  rw [need, (hperm.flatMap_right succ).count_eq, flatMap_cons, count_append, need]

/-- The links of a queue; the last one is 0. -/
def Links (f : Nat → Int) : List Nat → Prop
  | [] => True
  | [i] => f i = 0
  | i :: j :: queue => f i = j + 1 ∧ Links f (j :: queue)

/-- The index of the first item of a queue, or 0. -/
def frontOf (queue : List Nat) : Int := queue.head?.elim 0 fun i => i + 1

theorem Links.head (h : Links f (i :: queue)) : f i = frontOf queue := by
  cases queue with
  | nil => exact h
  | cons j queue => exact h.1

theorem Links.tail (h : Links f (i :: queue)) : Links f queue := by
  cases queue with
  | nil => trivial
  | cons j queue => exact h.2

theorem Links.congr {g : Nat → Int} (h : Links f queue) (heq : ∀ i ∈ queue, g i = f i) :
    Links g queue := by
  induction queue with
  | nil => trivial
  | cons i queue ih =>
      have hi := heq i mem_cons_self
      have htail := ih h.tail fun j hj => heq j (mem_cons_of_mem i hj)
      cases queue with
      | nil => exact hi.trans h
      | cons j queue => exact ⟨hi.trans h.1, htail⟩

theorem Links.update (h : Links f queue) (hj : j ∉ queue) (v : Int) :
    Links (update f j v) queue :=
  h.congr fun _ hi => update_of_ne (ne_of_mem_of_not_mem hi hj) _ _

/-- A new item is linked after the last one. -/
theorem Links.concat {rear : Nat} (h : Links f (queue ++ [rear])) (hnodup : (queue ++ [rear]).Nodup)
    (hj : f j = 0) (hne : j ∉ queue ++ [rear]) :
    Links (Function.update f rear (j + 1)) (queue ++ [rear] ++ [j]) := by
  induction queue with
  | nil =>
      refine ⟨Function.update_self .., ?_⟩
      have hjr : j ≠ rear := fun heq => hne (heq ▸ mem_cons_self)
      exact (Function.update_of_ne hjr _ _).trans hj
  | cons i queue ih =>
      obtain ⟨hi, hnodup⟩ := nodup_cons.mp hnodup
      have htail := ih h.tail hnodup fun hmem => hne (mem_cons_of_mem i hmem)
      have hir : i ≠ rear := fun heq => hi (heq ▸ mem_append_right queue mem_cons_self)
      have hhead := h.head
      cases queue with
      | nil => exact ⟨(Function.update_of_ne hir _ _).trans hhead, htail⟩
      | cons k queue => exact ⟨(Function.update_of_ne hir _ _).trans hhead, htail⟩

section

variable {G : Type} {scanned : Nat → Prop} {m : Sorting G}

/-- The items of `out` are sorted and those of `queue` are ready; the other items have
`pending` relations that lead to them, and some if they are `scanned`. -/
structure Queued (n : Nat) (scanned : Nat → Prop) (out queue : List Nat) (pending : Nat → Nat)
    (m : Sorting G) : Prop where
  nodup : (out ++ queue).Nodup
  lt : ∀ i ∈ out ++ queue, i < n
  zero : ∀ i ∈ out ++ queue, pending i = 0
  positive : ∀ i, scanned i → i ∉ out ++ queue → 0 < pending i
  qlinks : ∃ f : Nat → Int, m.qlinks = tally n f ∧ Links f queue ∧ (∀ i ∈ out, f i = 0) ∧
    ∀ i < n, i ∉ out ++ queue → f i = pending i
  front : m.front = frontOf queue
  rear : ∀ i, queue.getLast? = some i → m.rear = i + 1

theorem Queued.enqueue (h : Queued n scanned out queue pending m) (hne : queue ≠ []) (hj : j < n)
    (hout : j ∉ out ++ queue) (hzero : pending j = 0) :
    ∃ m', enqueue (j + 1) m = some m' ∧ Queued n scanned out (queue ++ [j]) pending m' ∧
      m'.successors = m.successors ∧ m'.sortedItems = m.sortedItems := by
  obtain ⟨f, hqlinks, hlinks, hfout, hf⟩ := h.qlinks
  obtain ⟨before, rear, rfl⟩ := (eq_nil_or_concat' queue).resolve_left hne
  have hrear := h.rear rear (getLast?_concat ..)
  have hmem : rear ∈ out ++ (before ++ [rear]) :=
    mem_append_right out (mem_append_right before mem_cons_self)
  have hjq : j ∉ before ++ [rear] := fun hmem => hout (mem_append_right out hmem)
  have hfj : f j = 0 := by
    rw [hf j hj hout, hzero]
    rfl
  have hreplace : replaceAt m.qlinks ((j : Int) + 1) m.rear =
      some (tally n (Function.update f rear (j + 1))) := by
    rw [hqlinks, hrear]
    exact replaceAt_tally (h.lt rear hmem)
  have hmem' : ∀ i, i ∈ out ++ (before ++ [rear] ++ [j]) ↔ i ∈ out ++ (before ++ [rear]) ∨ i =
      j := by
    intro i
    rw [← append_assoc, mem_append, mem_singleton]
  refine ⟨{ m with qlinks := tally n (Function.update f rear (j + 1)), rear := j + 1 },
    by rw [TopologicalSorter.enqueue, hreplace]; rfl, ⟨?_, fun i hi => ?_, fun i hi => ?_,
    fun i hi hnot => ?_, ⟨_, rfl, hlinks.concat (nodup_append.mp h.nodup).2.1 hfj hjq,
      fun i hi => ?_, fun i hi hnot => ?_⟩, ?_, fun i hi => ?_⟩, rfl, rfl⟩
  · rw [← append_assoc]
    exact nodup_append'.mpr ⟨h.nodup, nodup_singleton j, disjoint_singleton.mpr hout⟩
  · rcases (hmem' i).mp hi with hi | rfl
    · exact h.lt i hi
    · exact hj
  · rcases (hmem' i).mp hi with hi | rfl
    · exact h.zero i hi
    · exact hzero
  · exact h.positive i hi fun hi => hnot ((hmem' i).mpr (Or.inl hi))
  · have hir : i ≠ rear := by
      rintro rfl
      exact (nodup_append.mp h.nodup).2.2 i hi i
        (mem_append_right before mem_cons_self) rfl
    rw [Function.update_of_ne hir]
    exact hfout i hi
  · have hnot' : i ∉ out ++ (before ++ [rear]) := fun hi => hnot ((hmem' i).mpr (Or.inl hi))
    have hir : i ≠ rear := by
      rintro rfl
      exact hnot' hmem
    rw [Function.update_of_ne hir]
    exact hf i hi hnot'
  · refine h.front.trans ?_
    rw [frontOf, frontOf, head?_append_of_ne_nil _ hne]
  · rw [getLast?_concat] at hi
    rw [← Option.some.inj hi]

theorem Queued.mono {scanned' : Nat → Prop} (h : Queued n scanned out queue pending m)
    (hscanned : ∀ i, scanned' i → i ∉ out ++ queue → scanned i ∨ 0 < pending i) :
    Queued n scanned' out queue pending m :=
  { h with positive := fun i hi hnot =>
      (hscanned i hi hnot).elim (fun hi => h.positive i hi hnot) id }

/-- T4. -/
theorem Queued.scanZero {k : Nat} (h : Queued n (· < k) [] queue pending m) (hlt : k < n)
    (hqueue : ∀ i ∈ queue, i < k) :
    ∃ m' queue', scanZero (k + 1) m = some m' ∧
      Queued n (· < k + 1) [] queue' pending m' ∧ (∀ i ∈ queue', i < k + 1) ∧
      m'.successors = m.successors ∧ m'.sortedItems = m.sortedItems := by
  obtain ⟨f, hqlinks, hlinks, hfout, hf⟩ := id h.qlinks
  have hnot : k ∉ [] ++ queue := fun hmem => Nat.lt_irrefl _ (hqueue k hmem)
  have hitem : itemAt m.qlinks ((k + 1 : Nat) : Int) = some (pending k : Int) := by
    rw [hqlinks, Int.natCast_succ, itemAt_tally hlt, hf k hlt hnot]
  rw [TopologicalSorter.scanZero, hitem, some_bind]
  rcases Nat.eq_zero_or_pos (pending k) with hzero | hpos
  · rw [hzero, if_pos Int.natCast_zero]
    by_cases hne : queue = []
    · subst hne
      rw [if_pos (show m.front = 0 from h.front)]
      refine ⟨_, [k], rfl, ⟨nodup_singleton k, ?_, ?_, fun i hi hi' => ?_,
        ⟨f, hqlinks, ?_, hfout, fun i hi hi' => hf i hi not_mem_nil⟩, ?_, ?_⟩, ?_, rfl, rfl⟩
      · intro i hi
        exact mem_singleton.mp hi ▸ hlt
      · intro i hi
        exact mem_singleton.mp hi ▸ hzero
      · have hne : i ≠ k := fun heq => hi' (heq ▸ mem_cons_self)
        exact h.positive i (Nat.lt_of_le_of_ne (Nat.le_of_lt_succ hi) hne) not_mem_nil
      · rw [Links, hf k hlt hnot, hzero]
        rfl
      · exact Int.natCast_succ k
      · intro i hi
        rw [← Option.some.inj hi]
        exact Int.natCast_succ k
      · intro i hi
        exact mem_singleton.mp hi ▸ Nat.lt_succ_self k
    · have hfront : m.front ≠ 0 := by
        rw [h.front]
        cases queue with
        | nil => exact absurd rfl hne
        | cons i queue => exact Int.ne_of_gt (Int.natCast_pos.mpr i.succ_pos)
      rw [if_neg hfront]
      obtain ⟨m', hrun, hqueued, hsame⟩ := h.enqueue hne hlt hnot hzero
      refine ⟨m', queue ++ [k], by rw [← hrun, Int.natCast_succ], hqueued.mono fun i hi hi' => ?_,
        fun i hi => ?_, hsame⟩
      · have hne : i ≠ k := fun heq => hi' (heq ▸ mem_append_right queue mem_cons_self)
        exact Or.inl (Nat.lt_of_le_of_ne (Nat.le_of_lt_succ hi) hne)
      · rcases mem_append.mp hi with hi | hi
        · exact Nat.lt_succ_of_lt (hqueue i hi)
        · exact mem_singleton.mp hi ▸ Nat.lt_succ_self k
  · rw [if_neg (by omega)]
    refine ⟨m, queue, rfl, h.mono fun i hi _ => ?_, fun i hi => Nat.lt_succ_of_lt (hqueue i hi),
      rfl,
      rfl⟩
    rcases Nat.lt_succ_iff_lt_or_eq.mp hi with hlt | rfl
    · exact Or.inl hlt
    · exact Or.inr hpos

/-- T6: an erased relation leads to an item that is not in the queue yet. -/
theorem Queued.eraseRelation {cells : Linkables} {c : Nat}
    (h : Queued n (· < n) out queue pending m)
    (hne : queue ≠ []) (hj : j < n) (hitem : cells.item c = j + 1) (hpos : 0 < pending j) :
    ∃ m' new, eraseRelation cells c m = some m' ∧
      Queued n (· < n) out (queue ++ new) (update pending j (pending j - 1)) m' ∧
      m'.successors = m.successors ∧ m'.sortedItems = m.sortedItems := by
  obtain ⟨f, hqlinks, hlinks, hfout, hf⟩ := id h.qlinks
  have hnot : j ∉ out ++ queue := fun hmem => Nat.ne_of_gt hpos (h.zero j hmem)
  have hget : itemAt m.qlinks ((j : Int) + 1) = some (pending j : Int) := by
    rw [hqlinks, itemAt_tally hj, hf j hj hnot]
  have hreplace : replaceAt m.qlinks ((pending j : Int) - 1) ((j : Int) + 1) =
      some (tally n (update f j (pending j - 1))) := by
    rw [hqlinks, replaceAt_tally hj]
  have hne_j : ∀ i ∈ out ++ queue, i ≠ j := fun i hi heq => hnot (heq ▸ hi)
  -- The item itself is not in the queue yet, even if no relation is left for it.
  have hmid : Queued n (fun i => i < n ∧ i ≠ j) out queue
      (update pending j (pending j - 1))
      { m with qlinks := tally n (update f j (pending j - 1)) } := by
    refine ⟨h.nodup, h.lt, fun i hi => ?_, fun i hi hi' => ?_, ⟨_, rfl,
      hlinks.update (fun hmem => hnot (mem_append_right out hmem)) _, fun i hi => ?_,
      fun i hi hi' => ?_⟩, h.front, h.rear⟩
    · rw [update_of_ne (hne_j i hi)]
      exact h.zero i hi
    · rw [update_of_ne hi.2]
      exact h.positive i hi.1 hi'
    · rw [update_of_ne (hne_j i (mem_append_left queue hi))]
      exact hfout i hi
    · by_cases hij : i = j
      · rw [hij, update_self, update_self]
        omega
      · rw [update_of_ne hij, update_of_ne hij]
        exact hf i hi hi'
  rw [TopologicalSorter.eraseRelation, hitem, hget, some_bind, hreplace, some_bind]
  by_cases hlast : pending j - 1 = 0
  · have hzero : update pending j (pending j - 1) j = 0 := by
      rwa [update_self]
    obtain ⟨m', hrun, hqueued, hsame⟩ := hmid.enqueue hne hj hnot hzero
    refine ⟨m', [j], ?_, hqueued.mono fun i hi hi' => Or.inl ⟨hi, fun heq => ?_⟩, hsame⟩
    · rw [if_pos (by omega)]
      exact hrun
    · exact hi' (heq ▸ mem_append_right out (mem_append_right queue mem_cons_self))
  · refine ⟨_, [], if_neg (by omega), ?_, rfl, rfl⟩
    rw [append_nil]
    refine hmid.mono fun i hi _ => ?_
    by_cases hij : i = j
    · rw [hij, update_self]
      exact Or.inr (Nat.pos_of_ne_zero hlast)
    · exact Or.inl ⟨hi, hij⟩

end

section

variable {G : Type} {s : TopologicalSorter G} {start : Nat → Option Nat} {m : Sorting G}

/-- The successors of the items, by index from 0, as they are recorded in the cells; `start`
are the first cells of the lists. -/
structure HasSuccessors (s : TopologicalSorter G) (succ : Nat → List Nat)
    (start : Nat → Option Nat) : Prop where
  lt : ∀ i < s.count, ∀ j ∈ succ i, j < s.count
  counts_eq : s.counts = tally s.count fun j => (need s.count succ [] j : Int)
  successors_eq : s.successors = tally s.count start
  chain : ∀ i < s.count, ∃ cells, Chain s.cells.right (start i) cells ∧
    cells.length ≤ s.cells.created ∧
    cells.map s.cells.item = (succ i).map fun j : Nat => (j : Int) + 1

theorem count_map_succ (l : List Nat) (j : Nat) :
    (l.map fun j : Nat => (j : Int) + 1).count ((j : Int) + 1) = l.count j :=
  count_map_of_injective l (fun j : Nat => (j : Int) + 1)
    (fun i k (h : (i : Int) + 1 = k + 1) => by omega) j

/-- The relations that are still to be erased, when `rest` are the cells left of `front`. -/
def pendingAfter (n : Nat) (succ : Nat → List Nat) (cells : Linkables) (out : List Nat)
    (rest : List Nat) (j : Nat) : Nat :=
  need n succ out j + (rest.map cells.item).count ((j : Int) + 1)

/-- The loop over the successors of the front of the queue. -/
theorem HasSuccessors.eraseRelations (hs : HasSuccessors s succ start)
    (h : Queued s.count (· < s.count) out (front :: queue) (need s.count succ out) m) :
    ∃ m' new, forCells (fun _ => s.cells.right) (TopologicalSorter.eraseRelation s.cells)
        s.cells.created (start front) m = some m' ∧
      Queued s.count (· < s.count) out (front :: queue ++ new)
        (need s.count succ (out ++ [front])) m' ∧
      m'.successors = m.successors ∧ m'.sortedItems = m.sortedItems := by
  have hmem : front ∈ out ++ front :: queue := mem_append_right out mem_cons_self
  have hlt := h.lt front hmem
  have hfront : front ∉ out := fun hout =>
    (nodup_append.mp h.nodup).2.2 front hout front mem_cons_self rfl
  obtain ⟨cells, hchain, hlength, hitems⟩ := hs.chain front hlt
  have hpending : need s.count succ out =
      pendingAfter s.count succ s.cells (out ++ [front]) cells := by
    funext j
    rw [pendingAfter, hitems, count_map_succ, need_concat hfront hlt, Nat.add_comm]
  rw [forCells_eq_foldlM hchain hlength]
  obtain ⟨m', hrun, rest, new, hcells, hqueued, hsame⟩ := foldlM_spec
    (f := fun m c => TopologicalSorter.eraseRelation s.cells c m)
    (fun done (m' : Sorting G) => ∃ rest new, cells = done ++ rest ∧
      Queued s.count (· < s.count) out (front :: queue ++ new)
        (pendingAfter s.count succ s.cells (out ++ [front]) rest) m' ∧
      m'.successors = m.successors ∧ m'.sortedItems = m.sortedItems)
    (fun done c rest m' hcells => by
      rintro ⟨rest', new, hcells', hqueued, hsuccessors, hsorted⟩
      obtain rfl : rest' = c :: rest := append_cancel_left (hcells'.symm.trans hcells)
      have hitem : s.cells.item c ∈ (succ front).map fun j : Nat => (j : Int) + 1 := by
        rw [← hitems, hcells]
        exact mem_map_of_mem (mem_append_right done mem_cons_self)
      obtain ⟨j, hj, hitem⟩ := mem_map.mp hitem
      have hcount : pendingAfter s.count succ s.cells (out ++ [front]) (c :: rest) j =
          pendingAfter s.count succ s.cells (out ++ [front]) rest j + 1 := by
        rw [pendingAfter, map_cons, ← hitem, count_cons_self, pendingAfter, Nat.add_assoc]
      have hupdate : update
          (pendingAfter s.count succ s.cells (out ++ [front]) (c :: rest)) j
          (pendingAfter s.count succ s.cells (out ++ [front]) (c :: rest) j - 1) =
          pendingAfter s.count succ s.cells (out ++ [front]) rest := by
        funext i
        by_cases hij : i = j
        · rw [hij, update_self, hcount, Nat.add_sub_cancel]
        · rw [update_of_ne hij, pendingAfter, map_cons, ← hitem,
            count_cons_of_ne (by omega), pendingAfter]
      obtain ⟨m'', new', hrun, hqueued', hsuccessors', hsorted'⟩ := hqueued.eraseRelation
        (cons_ne_nil front _) (hs.lt front hlt j hj) hitem.symm (by omega)
      rw [hupdate, append_assoc] at hqueued'
      exact ⟨m'', hrun, rest, new ++ new', by rw [hcells, append_assoc]; rfl, hqueued',
        hsuccessors'.trans hsuccessors, hsorted'.trans hsorted⟩)
    ⟨cells, [], rfl, by rw [append_nil, ← hpending]; exact h, rfl, rfl⟩
  obtain rfl : rest = [] := by
    have := congrArg length hcells
    rw [length_append] at this
    exact eq_nil_of_length_eq_zero (by omega)
  exact ⟨m', new, hrun, hqueued, hsame⟩

/-- T5. -/
theorem HasSuccessors.outputFront (hs : HasSuccessors s succ start)
    (h : Queued s.count (· < s.count) out (front :: queue) (need s.count succ out) m)
    (hsuccessors : m.successors = tally s.count fun i => if i ∈ out then none else start i) :
    ∃ m' queue', outputFront s m = some m' ∧
      Queued s.count (· < s.count) (out ++ [front]) queue'
        (need s.count succ (out ++ [front])) m' ∧
      (m'.successors = tally s.count fun i => if i ∈ out ++ [front] then none else start i) ∧
      ∃ v, s.items[front]? = some v ∧ m'.sortedItems = m.sortedItems ++ [v] := by
  have hmem : front ∈ out ++ front :: queue := mem_append_right out mem_cons_self
  have hlt := h.lt front hmem
  have hfront : front ∉ out := fun hout =>
    (nodup_append.mp h.nodup).2.2 front hout front mem_cons_self rfl
  obtain ⟨m', new, hrun, hqueued, hsame⟩ := hs.eraseRelations h
  obtain ⟨f, hqlinks, hlinks, hfout, hf⟩ := id hqueued.qlinks
  have hfrontLink : m'.front = front + 1 := hqueued.front
  have hsucc : itemAt m.successors m.front = some (start front) := by
    rw [hsuccessors, show m.front = front + 1 from h.front, itemAt_tally hlt, if_neg hfront]
  have hreplaced : replaceAt m'.successors none m'.front =
      some (tally s.count fun i => if i ∈ out ++ [front] then none else start i) := by
    rw [hsame.1, hsuccessors, hfrontLink, replaceAt_tally hlt]
    refine congrArg some (tally_congr fun i _ => ?_)
    by_cases hi : i = front
    · rw [hi, update_self, if_pos (mem_append_right out mem_cons_self)]
    · rw [update_of_ne hi]
      exact if_congr (by rw [mem_append, mem_singleton, or_iff_left hi]) rfl rfl
  have hitem : itemAt s.items m'.front = some s.items[front] := by
    rw [hfrontLink, itemAt_succ]
    exact getElem?_eq_getElem hlt
  have hnext : itemAt m'.qlinks m'.front = some (frontOf (queue ++ new)) := by
    rw [hfrontLink, hqlinks, itemAt_tally hlt, hlinks.head]
    rfl
  have hreset : replaceAt m'.qlinks 0 m'.front = some (tally s.count (update f front 0)) := by
    rw [hfrontLink, hqlinks, replaceAt_tally hlt]
  refine ⟨⟨tally s.count (update f front 0),
    tally s.count fun i => if i ∈ out ++ [front] then none else start i, frontOf (queue ++ new),
    m'.rear, m'.sortedItems ++ [s.items[front]]⟩, queue ++ new, ?_, ?_, rfl,
    s.items[front], getElem?_eq_getElem hlt, by rw [hsame.2]⟩
  · simp only [TopologicalSorter.outputFront, hsucc, hrun, hreplaced, hitem, hnext, hreset,
      some_bind]
  · have hassoc : out ++ [front] ++ (queue ++ new) = out ++ (front :: queue ++ new) := by
      rw [append_assoc]
      rfl
    have hnotQueue : front ∉ queue ++ new :=
      (nodup_cons.mp (nodup_append.mp hqueued.nodup).2.1).1
    refine ⟨hassoc ▸ hqueued.nodup, fun i hi => hqueued.lt i (hassoc ▸ hi),
      fun i hi => hqueued.zero i (hassoc ▸ hi), fun i hi hnot =>
        hqueued.positive i hi (hassoc ▸ hnot),
      ⟨_, rfl, hlinks.tail.update hnotQueue 0, fun i hi => ?_, fun i hi hnot => ?_⟩, rfl,
      fun i hi => ?_⟩
    · by_cases hif : i = front
      · rw [hif, update_self]
      · rw [update_of_ne hif]
        exact hfout i ((mem_append.mp hi).resolve_right fun h => hif (mem_singleton.mp h))
    · rw [hassoc] at hnot
      have hif : i ≠ front := by
        rintro rfl
        exact hnot (mem_append_right out mem_cons_self)
      rw [update_of_ne hif]
      exact hf i hi hnot
    · refine hqueued.rear i ?_
      rw [cons_append, getLast?_cons, hi]
      rfl

/-- The loop of T4. -/
theorem HasSuccessors.scanZeros (hs : HasSuccessors s succ start) :
    ∃ m queue, forUp scanZero s.count 1 s.startSorting = some m ∧
      Queued s.count (· < s.count) [] queue (need s.count succ []) m ∧
      m.successors = s.successors ∧ m.sortedItems = [] := by
  obtain ⟨m, hrun, k, queue, hk, hqueued, -, hsame⟩ := forUp_spec
    (fun i m => ∃ k queue, i = k + 1 ∧ Queued s.count (· < k) [] queue (need s.count succ []) m ∧
      (∀ i ∈ queue, i < k) ∧ m.successors = s.successors ∧ m.sortedItems = [])
    (n := s.count) (i := 1) (s := s.startSorting)
    (fun j m _ hlt => by
      rintro ⟨k, queue, rfl, hqueued, hqueue, hsuccessors, hsorted⟩
      obtain ⟨m', queue', hrun, hqueued', hqueue', hsame⟩ := hqueued.scanZero (by omega) hqueue
      exact ⟨m', hrun, k + 1, queue', rfl, hqueued', hqueue', hsame.1.trans hsuccessors,
        hsame.2.trans hsorted⟩)
    ⟨0, [], rfl, ⟨nodup_nil, nofun, nofun, fun i hi => absurd hi (Nat.not_lt_zero i),
      ⟨_, hs.counts_eq, trivial, nofun, fun _ _ _ => rfl⟩, rfl, nofun⟩, nofun, rfl, rfl⟩
  obtain rfl : k = s.count := by omega
  exact ⟨m, queue, hrun, hqueued, hsame⟩

/-- The items of `out` are sorted, and those of `queue` are next. -/
structure Sorted (s : TopologicalSorter G) (succ : Nat → List Nat) (start : Nat → Option Nat)
    (out queue : List Nat) (m : Sorting G) : Prop where
  queued : Queued s.count (· < s.count) out queue (need s.count succ out) m
  successors_eq : m.successors = tally s.count fun i => if i ∈ out then none else start i
  sortedItems_eq : m.sortedItems = out.filterMap fun i => s.items[i]?
  forward : ∀ i < s.count, ∀ j ∈ succ i, j ∈ out → Precedes out i j

theorem Sorted.length_le (h : Sorted s succ start out queue m) :
    (out ++ queue).length ≤ s.count := by
  have hsub : out ++ queue ⊆ range s.count :=
    fun i hi => mem_range.mpr (h.queued.lt i hi)
  have hle := (subperm_of_subset h.queued.nodup hsub).length_le
  rwa [length_range] at hle

theorem Sorted.length_sortedItems (h : Sorted s succ start out queue m) :
    m.sortedItems.length = out.length := by
  have hall : ∀ i ∈ out, (s.items[i]?).isSome = true := by
    intro i hi
    rw [getElem?_eq_getElem (h.queued.lt i (mem_append_left queue hi))]
    rfl
  rw [h.sortedItems_eq]
  exact filterMap_length_eq_length.mpr hall

/-- A turn of the loop over the queue. -/
theorem Sorted.outputFront (hs : HasSuccessors s succ start)
    (h : Sorted s succ start out (front :: queue) m) :
    ∃ m' queue', TopologicalSorter.outputFront s m = some m' ∧
      Sorted s succ start (out ++ [front]) queue' m' := by
  obtain ⟨m', queue', hrun, hqueued, hsuccessors, v, hv, hsorted⟩ :=
    hs.outputFront h.queued h.successors_eq
  refine ⟨m', queue', hrun, hqueued, hsuccessors, ?_, fun i hi j hj hmem => ?_⟩
  · rw [hsorted, h.sortedItems_eq, filterMap_append, filterMap_cons_some hv,
      filterMap_nil]
  · rcases mem_append.mp hmem with hout | heq
    · exact (h.forward i hi j hj hout).append [front]
    · obtain rfl := mem_singleton.mp heq
      have hzero := h.queued.zero j (mem_append_right out mem_cons_self)
      exact precedes_concat (need_eq_zero.mp hzero i hi hj) j

/-- T4 to T7: every item that is left has a predecessor that is left. -/
theorem HasSuccessors.outputQueue (hs : HasSuccessors s succ start) :
    ∃ m m' out, forUp scanZero s.count 1 s.startSorting = some m ∧
      loopUntil (fun m => some (decide (m.front = 0))) s.outputFront (s.count + 1) m = some m' ∧
      Sorted s succ start out [] m' := by
  obtain ⟨m, queue, hscan, hqueued, hsuccessors, hsorted⟩ := hs.scanZeros
  have hstart : Sorted s succ start [] queue m :=
    ⟨hqueued, by rw [hsuccessors, hs.successors_eq]; rfl, hsorted, nofun⟩
  obtain ⟨m', hrun, ⟨out, queue', hfinal⟩, hfront⟩ := loopUntil_decide
    (P := fun m : Sorting G => m.front = 0) (fun m => ∃ out queue, Sorted s succ start out queue m)
    (fun m => s.count - m.sortedItems.length)
    (fun m => by
      rintro ⟨out, queue, hm⟩ hfront
      cases queue with
      | nil => exact absurd hm.queued.front hfront
      | cons front queue =>
          obtain ⟨m', queue', hrun, hm'⟩ := hm.outputFront hs
          have hlength := hm.length_sortedItems
          have hlength' := hm'.length_sortedItems
          have hle := hm.length_le
          rw [length_append, length_cons] at hle
          rw [length_append, length_singleton] at hlength'
          exact ⟨m', hrun, by omega, out ++ [front], queue', hm'⟩)
    ⟨[], queue, hstart⟩ (Nat.lt_succ_of_le (Nat.sub_le s.count m.sortedItems.length))
  obtain rfl : queue' = [] := by
    cases queue' with
    | nil => rfl
    | cons i queue' =>
        have hpos : (0 : Int) < i + 1 := Int.natCast_pos.mpr i.succ_pos
        exact absurd (hfront.symm.trans hfinal.queued.front) (Int.ne_of_lt hpos)
  exact ⟨m, m', out, hscan, hrun, hfinal⟩

theorem Sorted.exists_predecessor (h : Sorted s succ start out [] m) (hj : j < s.count)
    (hout : j ∉ out) : ∃ i < s.count, i ∉ out ∧ j ∈ succ i := by
  have hpos := h.queued.positive j hj (by rwa [append_nil])
  by_contra hnone
  refine Nat.ne_of_gt hpos (need_eq_zero.mpr fun i hi hji => ?_)
  by_contra hiout
  exact hnone ⟨i, hi, hiout, hji⟩

end

end TopologicalSorter

end Gobo
