/-
The search of a cycle among the items that are left by a topological sort, and the result of
the sort.
-/
import Gobo.TopologicalSorting
import Mathlib.Data.List.Chain

namespace Gobo

open Function List

namespace TopologicalSorter

variable {G : Type} {s : TopologicalSorter G} {succ : Nat → List Nat} {start : Nat → Option Nat}
  {out : List Nat} {n : Nat} {g : Nat → Int} {p : Nat → Nat}

theorem replicate_eq_tally {A : Type} (n : Nat) (a : A) :
    replicate n a = tally n fun _ => a := by
  rw [tally, map_const', length_range]

/-- The links of the relations of the first `k` items, without those of `out`. -/
def LinksPredecessors (n k : Nat) (succ : Nat → List Nat) (out : List Nat) (g : Nat → Int) : Prop :=
  ∀ j < n, (g j = 0 ∧ ∀ i < k, i ∉ out → j ∉ succ i) ∨
    ∃ i < k, i ∉ out ∧ j ∈ succ i ∧ g j = i + 1

/-- T10: the links of the successors of an item lead to it. -/
theorem exists_linkSuccessors {cells : Linkables} {l : List Nat} {i : Int}
    (hl : ∀ c ∈ l, ∃ j < n, cells.item c = j + 1) (g : Nat → Int) :
    ∃ g', l.foldlM (fun qlinks c => replaceAt qlinks i (cells.item c)) (tally n g) =
        some (tally n g') ∧
      ∀ j, g' j = if (j : Int) + 1 ∈ l.map cells.item then i else g j := by
  induction l generalizing g with
  | nil => exact ⟨g, rfl, fun j => (if_neg not_mem_nil).symm⟩
  | cons c l ih =>
      obtain ⟨j, hj, hitem⟩ := hl c mem_cons_self
      obtain ⟨g', hrun, hg'⟩ := ih (fun c' hc' => hl c' (mem_cons_of_mem c hc'))
        (update g j i)
      refine ⟨g', ?_, fun k => ?_⟩
      · rw [foldlM_cons, hitem, replaceAt_tally hj]
        exact hrun
      · rw [hg' k, map_cons, hitem]
        by_cases hk : k = j
        · rw [hk, update_self, ite_self, if_pos mem_cons_self]
        · rw [update_of_ne hk]
          exact if_congr (by rw [mem_cons, or_iff_right (by omega)]) rfl rfl

/-- A turn of T9. -/
theorem HasSuccessors.linkPredecessor (hs : HasSuccessors s succ start) {k : Nat}
    (hk : k < s.count) (hg : LinksPredecessors s.count k succ out g) :
    ∃ g', linkPredecessor s.cells (tally s.count fun i => if i ∈ out then none else start i)
      (k + 1 : Nat)
        (tally s.count g, tally s.count fun i => decide (i < k)) =
        some (tally s.count g', tally s.count fun i => decide (i < k + 1)) ∧
      LinksPredecessors s.count (k + 1) succ out g' := by
  have hmarks : replaceAt (tally s.count fun i => decide (i < k)) true ((k + 1 : Nat) : Int) =
      some (tally s.count fun i => decide (i < k + 1)) := by
    rw [Int.natCast_succ, replaceAt_tally hk]
    refine congrArg some (tally_congr fun i _ => ?_)
    by_cases hi : i = k
    · rw [hi, update_self, decide_eq_true (Nat.lt_succ_self k)]
    · rw [update_of_ne hi]
      exact decide_eq_decide.mpr (by omega)
  have hsucc : itemAt (tally s.count fun i => if i ∈ out then none else start i)
      ((k + 1 : Nat) : Int) = some (if k ∈ out then none else start k) := by
    rw [Int.natCast_succ, itemAt_tally hk]
  have hold : ∀ {g' : Nat → Int} {j : Nat}, j < s.count → g' j = g j → (k ∉ out → j ∉ succ k) →
      (g' j = 0 ∧ ∀ i < k + 1, i ∉ out → j ∉ succ i) ∨
        ∃ i < k + 1, i ∉ out ∧ j ∈ succ i ∧ g' j = i + 1 := by
    intro g' j hj heq hnot
    rw [heq]
    rcases hg j hj with ⟨hzero, hnone⟩ | ⟨i, hi, hrest⟩
    · refine Or.inl ⟨hzero, fun i hi hout => ?_⟩
      rcases Nat.lt_succ_iff_lt_or_eq.mp hi with hlt | rfl
      · exact hnone i hlt hout
      · exact hnot hout
    · exact Or.inr ⟨i, Nat.lt_succ_of_lt hi, hrest⟩
  simp only [TopologicalSorter.linkPredecessor, hmarks, hsucc, some_bind]
  by_cases hout : k ∈ out
  · refine ⟨g, ?_, fun j hj => hold hj rfl fun hnot => absurd hout hnot⟩
    rw [if_pos hout]
    cases s.cells.created <;> rfl
  · obtain ⟨cells, hchain, hlength, hitems⟩ := hs.chain k hk
    have hmem : ∀ j : Nat, (j : Int) + 1 ∈ cells.map s.cells.item ↔ j ∈ succ k := by
      intro j
      rw [hitems]
      exact mem_map_of_injective (f := fun j : Nat => (j : Int) + 1)
        (fun i j (h : (i : Int) + 1 = j + 1) => by omega)
    have hcells : ∀ c ∈ cells, ∃ j < s.count, s.cells.item c = j + 1 := by
      intro c hc
      have hitem := mem_map_of_mem (f := s.cells.item) hc
      rw [hitems] at hitem
      obtain ⟨j, hj, hcj⟩ := mem_map.mp hitem
      exact ⟨j, hs.lt k hk j hj, hcj.symm⟩
    obtain ⟨g', hrun, hg'⟩ := exists_linkSuccessors (i := ((k + 1 : Nat) : Int)) hcells g
    refine ⟨g', ?_, fun j hj => ?_⟩
    · rw [if_neg hout, forCells_eq_foldlM hchain hlength, hrun]
      rfl
    · by_cases hjk : j ∈ succ k
      · refine Or.inr ⟨k, Nat.lt_succ_self k, hout, hjk, ?_⟩
        rw [hg' j, if_pos ((hmem j).mpr hjk), Int.natCast_succ]
      · exact hold hj ((hg' j).trans (if_neg ((hmem j).not.mpr hjk))) fun _ => hjk

/-- T8 to T10. -/
theorem HasSuccessors.linkPredecessors (hs : HasSuccessors s succ start) (out : List Nat) :
    ∃ g, forUp (TopologicalSorter.linkPredecessor s.cells
        (tally s.count fun i => if i ∈ out then none else start i)) s.count 1
        (replicate s.count 0, replicate s.count false) =
        some (tally s.count g, tally s.count fun _ => true) ∧
      LinksPredecessors s.count s.count succ out g := by
  obtain ⟨m, hrun, k, g, hk, rfl, hg⟩ := forUp_spec (fun i m => ∃ k g, i = k + 1 ∧
      m = (tally s.count g, tally s.count fun i => decide (i < k)) ∧
      LinksPredecessors s.count k succ out g)
    (n := s.count) (i := 1) (s := (replicate s.count (0 : Int), replicate s.count false))
    (fun j m _ hlt => by
      rintro ⟨k, g, rfl, rfl, hg⟩
      obtain ⟨g', hrun, hg'⟩ := hs.linkPredecessor (by omega) hg
      exact ⟨_, hrun, k + 1, g', rfl, rfl, hg'⟩)
    ⟨0, fun _ => 0, rfl, by rw [replicate_eq_tally, replicate_eq_tally]; rfl,
      fun j hj => Or.inl ⟨rfl, nofun⟩⟩
  obtain rfl : k = s.count := by omega
  refine ⟨g, hrun.trans (congrArg (fun marks => some (tally s.count g, marks)) ?_), hg⟩
  exact tally_congr fun i hi => decide_eq_true hi

/-- The links of the items that are left lead to predecessors that are left. -/
structure LinksLeft (n : Nat) (succ : Nat → List Nat) (out : List Nat) (g : Nat → Int)
    (p : Nat → Nat) : Prop where
  zero : ∀ j < n, j ∈ out → g j = 0
  link : ∀ j < n, j ∉ out → g j = p j + 1 ∧ p j < n ∧ p j ∉ out ∧ j ∈ succ (p j)

theorem LinksPredecessors.linksLeft {m : Sorting G}
    (hg : LinksPredecessors s.count s.count succ out g) (h : Sorted s succ start out [] m) :
    LinksLeft s.count succ out g fun j => (g j - 1).toNat := by
  refine ⟨fun j hj hout => ?_, fun j hj hout => ?_⟩
  · rcases hg j hj with ⟨hzero, -⟩ | ⟨i, hi, hiout, hji, -⟩
    · exact hzero
    · have hprecedes := h.forward i hi j hji hout
      exact absurd (hprecedes.subset mem_cons_self) hiout
  · obtain ⟨i, hi, hiout, hji⟩ := h.exists_predecessor hj hout
    rcases hg j hj with ⟨-, hnone⟩ | ⟨i', hi', hi'out, hji', hlink⟩
    · exact absurd hji (hnone i hi hiout)
    · have hp : (g j - 1).toNat = i' := by omega
      exact ⟨by omega, by rw [hp]; exact hi', by rw [hp]; exact hi'out, by rw [hp]; exact hji'⟩

/-- T11. -/
theorem LinksLeft.findUnsorted (h : LinksLeft n succ out g p) {j : Nat} (hj : j < n)
    (hout : j ∉ out) :
    ∃ k < n, k ∉ out ∧ findUnsorted (tally n g) = some ((k : Int) + 1) := by
  obtain ⟨i, m, hrun, ⟨k, rfl, rfl, hbefore⟩, hstop⟩ : ∃ i m,
      TopologicalSorter.findUnsorted (tally n g) = some i ∧
        (∃ k : Nat, i = k + 1 ∧ m = n - k ∧ ∀ i < k, i ∈ out) ∧
        ((itemAt (tally n g) i).map fun l => decide (l ≠ 0)) = some true := loopUntil_spec (n := n)
    (fun m (i : Int) => ∃ k : Nat, i = k + 1 ∧ m = n - k ∧ ∀ i < k, i ∈ out)
    (fun m i => by
      rintro ⟨k, rfl, rfl, hbefore⟩
      have hk : k < n := by
        by_contra hge
        exact hout (hbefore j (by omega))
      rw [itemAt_tally hk, Option.map_some]
      by_cases hkout : k ∈ out
      · refine Or.inr ⟨?_, _, n - (k + 1), rfl, by omega, k + 1, ?_, rfl, fun i hi => ?_⟩
        · rw [h.zero k hk hkout]
          rfl
        · rw [Int.natCast_succ]
        · rcases Nat.lt_succ_iff_lt_or_eq.mp hi with hlt | rfl
          · exact hbefore i hlt
          · exact hkout
      · have hlink := (h.link k hk hkout).1
        exact Or.inl (congrArg some (decide_eq_true (by omega))))
    (by rw [length_tally]; exact Nat.lt_succ_self n)
    ⟨0, rfl, rfl, nofun⟩
  have hk : k < n := by
    by_contra hge
    exact hout (hbefore j (by omega))
  refine ⟨k, hk, fun hkout => ?_, hrun⟩
  rw [itemAt_tally hk, h.zero k hk hkout] at hstop
  exact nomatch hstop

/-- The links lead from each item of the path to the next one. -/
def IsPath (p : Nat → Nat) (path : List Nat) : Prop := path.IsChain fun a b => p a = b

/-- The path that has been followed, and the item it leads to. -/
structure Followed (n : Nat) (out : List Nat) (p : Nat → Nat) (path : List Nat) (last : Nat) :
    Prop where
  last_lt : last < n
  last_left : last ∉ out
  nodup : path.Nodup
  left : ∀ i ∈ path, i < n ∧ i ∉ out
  isPath : IsPath p (path ++ [last])

theorem Followed.next {path : List Nat} {last : Nat} (h : Followed n out p path last)
    (hg : LinksLeft n succ out g p) (hmem : last ∉ path) :
    Followed n out p (path ++ [last]) (p last) := by
  obtain ⟨-, hp, hpout, -⟩ := hg.link last h.last_lt h.last_left
  refine ⟨hp, hpout, nodup_append'.mpr ⟨h.nodup, nodup_singleton last,
    disjoint_singleton.mpr hmem⟩, fun i hi => ?_, ?_⟩
  · rcases mem_append.mp hi with hi | hi
    · exact h.left i hi
    · exact mem_singleton.mp hi ▸ ⟨h.last_lt, h.last_left⟩
  · refine isChain_append.mpr ⟨h.isPath, .singleton _, fun a ha b hb => ?_⟩
    rw [getLast?_concat] at ha
    obtain rfl := Option.some.inj ha
    exact Option.some.inj hb

theorem Followed.length_lt {path : List Nat} {last : Nat} (h : Followed n out p path last)
    (hmem : last ∉ path) : path.length < n := by
  have hsub : last :: path ⊆ range n := by
    intro i hi
    rcases mem_cons.mp hi with rfl | hi
    · exact mem_range.mpr h.last_lt
    · exact mem_range.mpr (h.left i hi).1
  have hle := (subperm_of_subset (nodup_cons.mpr ⟨hmem, h.nodup⟩) hsub).length_le
  rw [length_range, length_cons] at hle
  exact hle

/-- The marks of the items that are not in a list. -/
def marksOutside (n : Nat) (path : List Nat) : List Bool := tally n fun i => decide (i ∉ path)

theorem itemAt_marksOutside {path : List Nat} {i : Nat} (hi : i < n) :
    itemAt (marksOutside n path) ((i : Int) + 1) = some (decide (i ∉ path)) :=
  itemAt_tally hi

theorem replaceAt_marksOutside {path path' : List Nat} {i : Nat} (hi : i < n) {b : Bool}
    (hb : b = decide (i ∉ path')) (hpath : ∀ j, j ≠ i → (j ∈ path ↔ j ∈ path')) :
    replaceAt (marksOutside n path) b ((i : Int) + 1) = some (marksOutside n path') := by
  rw [marksOutside, replaceAt_tally hi]
  refine congrArg some (tally_congr fun j _ => ?_)
  by_cases hij : j = i
  · rw [hij, update_self, hb]
  · rw [update_of_ne hij]
    exact decide_eq_decide.mpr (not_congr (hpath j hij))

/-- T12: the path that is followed comes back to one of its items. -/
theorem LinksLeft.findCycle (h : LinksLeft n succ out g p) {k : Nat} (hk : k < n)
    (hout : k ∉ out) :
    ∃ (path : List Nat) (last : Nat),
      TopologicalSorter.findCycle (tally n g) (tally n fun _ => true, (k : Int) + 1) =
        some (marksOutside n path, (last : Int) + 1) ∧
      Followed n out p path last ∧ last ∈ path := by
  obtain ⟨⟨marks, i⟩, m, hrun, ⟨path, last, -, rfl, rfl, hfollowed⟩, hstop⟩ :
      ∃ (r : List Bool × Int) (m : Nat),
        TopologicalSorter.findCycle (tally n g) (tally n fun _ => true, (k : Int) + 1) = some r ∧
        (∃ (path : List Nat) (last : Nat), m = n - path.length ∧ r.1 = marksOutside n path ∧
          r.2 = (last : Int) + 1 ∧ Followed n out p path last) ∧
        ((itemAt r.1 r.2).map fun b => !b) = some true := loopUntil_spec (n := n)
    (fun m (r : List Bool × Int) => ∃ (path : List Nat) (last : Nat), m = n - path.length ∧
      r.1 = marksOutside n path ∧ r.2 = (last : Int) + 1 ∧ Followed n out p path last)
    (fun m r => by
      rintro ⟨path, last, rfl, hmarks, hi, hfollowed⟩
      have hlast := hfollowed.last_lt
      rw [hmarks, hi, itemAt_marksOutside hlast]
      by_cases hmem : last ∈ path
      · exact Or.inl (by rw [decide_eq_false (not_not.mpr hmem)]; rfl)
      · have hlength := hfollowed.length_lt hmem
        have hlink := (h.link last hlast hfollowed.last_left).1
        have hreplace : replaceAt (marksOutside n path) false ((last : Int) + 1) =
            some (marksOutside n (path ++ [last])) :=
          replaceAt_marksOutside hlast
            (decide_eq_false (not_not.mpr (mem_append_right path mem_cons_self))).symm
            fun j hj => by rw [mem_append, mem_singleton, or_iff_left hj]
        refine Or.inr ⟨by rw [decide_eq_true hmem]; rfl,
          (marksOutside n (path ++ [last]), (p last : Int) + 1), n - (path ++ [last]).length,
          ?_, ?_, path ++ [last], p last, rfl, rfl, rfl, hfollowed.next h hmem⟩
        · simp only [hreplace, itemAt_tally hlast, hlink, some_bind]
        · rw [length_append, length_singleton]
          omega)
    (by rw [length_tally]; exact Nat.lt_succ_self n)
    ⟨[], k, rfl, rfl, rfl, hk, hout, nodup_nil, nofun, .singleton _⟩
  refine ⟨path, last, hrun, hfollowed, ?_⟩
  rw [itemAt_marksOutside hfollowed.last_lt] at hstop
  by_contra hnot
  rw [decide_eq_true hnot] at hstop
  exact nomatch hstop

/-- T13: the items of the cycle are traversed once. -/
theorem LinksLeft.traverseCycle {items : List G} {item : Nat → G}
    (hitem : ∀ i < n, items[i]? = some (item i)) (h : LinksLeft n succ out g p)
    {before after : List Nat} {last : Nat}
    (hfollowed : Followed n out p (before ++ last :: after) last) :
    ∃ marks, TopologicalSorter.traverseCycle items (tally n g)
        (marksOutside n (before ++ last :: after), (last : Int) + 1, []) =
      some (marks, (last : Int) + 1, (last :: after).map item) := by
  have hlt : ∀ i ∈ last :: after, i < n :=
    fun i hi => (hfollowed.left i (mem_append_right before hi)).1
  have hpath : IsPath p (last :: after ++ [last]) := by
    have hpath := hfollowed.isPath
    rw [append_assoc] at hpath
    exact (isChain_append.mp hpath).2.1
  have hdisjoint := nodup_append'.mp hfollowed.nodup
  obtain ⟨⟨marks, i, c⟩, m, hrun, ⟨done, rest, hcycle, -, rfl, hi, hc⟩, hstop⟩ :
      ∃ (r : List Bool × Int × List G) (m : Nat),
        TopologicalSorter.traverseCycle items (tally n g)
          (marksOutside n (before ++ last :: after), (last : Int) + 1, []) = some r ∧
        (∃ done rest : List Nat, last :: after = done ++ rest ∧ m = rest.length ∧
          r.1 = marksOutside n (before ++ rest) ∧
          r.2.1 = ((rest ++ [last]).head (by simp) : Int) + 1 ∧ r.2.2 = done.map item) ∧
        itemAt r.1 r.2.1 = some true := loopUntil_spec (n := (last :: after).length)
    (fun m (r : List Bool × Int × List G) => ∃ done rest : List Nat,
      last :: after = done ++ rest ∧ m = rest.length ∧ r.1 = marksOutside n (before ++ rest) ∧
      r.2.1 = ((rest ++ [last]).head (by simp) : Int) + 1 ∧ r.2.2 = done.map item)
    (fun m r => by
      rintro ⟨done, rest, hcycle, rfl, hmarks, hi, hc⟩
      cases rest with
      | nil =>
          have hlast : last ∉ before := fun hmem =>
            hdisjoint.2.2 hmem mem_cons_self
          refine Or.inl ?_
          rw [hmarks, show r.2.1 = (last : Int) + 1 from hi, append_nil,
            itemAt_marksOutside hfollowed.last_lt, decide_eq_true hlast]
      | cons i rest =>
          have hmem : i ∈ last :: after := hcycle ▸ mem_append_right done mem_cons_self
          have hin := hlt i hmem
          obtain ⟨hlink, -, -, -⟩ :=
            h.link i hin (hfollowed.left i (mem_append_right before hmem)).2
          have hnodup : (before ++ done ++ i :: rest).Nodup := by
            rw [append_assoc, ← hcycle]
            exact hfollowed.nodup
          have hnot : i ∉ before ++ rest := by
            have hsplit := nodup_append'.mp hnodup
            intro hi
            rcases mem_append.mp hi with hi | hi
            · exact hsplit.2.2 (mem_append_left done hi) mem_cons_self
            · exact (nodup_cons.mp hsplit.2.1).1 hi
          have hreplace : replaceAt (marksOutside n (before ++ i :: rest)) true ((i : Int) + 1) =
              some (marksOutside n (before ++ rest)) :=
            replaceAt_marksOutside hin (decide_eq_true hnot).symm fun j hj => by
              rw [mem_append, mem_append, mem_cons, or_iff_right hj]
          have hnext : p i = (rest ++ [last]).head (by simp) := by
            rw [hcycle, append_assoc] at hpath
            have hpath := (isChain_append.mp hpath).2.1
            cases rest with
            | nil => exact (isChain_cons_cons.mp hpath).1
            | cons j rest => exact (isChain_cons_cons.mp hpath).1
          have hi : r.2.1 = (i : Int) + 1 := hi
          refine Or.inr ⟨?_, (marksOutside n (before ++ rest), (p i : Int) + 1, r.2.2 ++ [item i]),
            rest.length, ?_, Nat.lt_succ_self _, done ++ [i], rest, ?_, rfl, rfl, ?_, ?_⟩
          · rw [hmarks, hi, itemAt_marksOutside hin,
              decide_eq_false (not_not.mpr (mem_append_right before mem_cons_self))]
          · simp only [hmarks, hi, itemAt_succ, hitem i hin, hreplace, getElem?_tally hin, hlink,
              some_bind]
          · rw [hcycle, append_assoc]
            rfl
          · rw [hnext]
          · rw [hc, map_append]
            rfl)
    (by
      have hsub : last :: after ⊆ range n := fun i hi => mem_range.mpr (hlt i hi)
      have hle := (subperm_of_subset hdisjoint.2.1 hsub).length_le
      rw [length_range] at hle
      rw [length_tally]
      exact Nat.lt_succ_of_le hle)
    ⟨[], last :: after, rfl, rfl, rfl, rfl, rfl⟩
  obtain rfl : rest = [] := by
    cases rest with
    | nil => rfl
    | cons j rest =>
        have hmem : j ∈ last :: after := hcycle ▸ mem_append_right done mem_cons_self
        have hi : i = (j : Int) + 1 := hi
        rw [hi, itemAt_marksOutside (hlt j hmem),
          decide_eq_false (not_not.mpr (mem_append_right before mem_cons_self))] at hstop
        exact nomatch hstop
  rw [append_nil] at hcycle
  have hi : i = (last : Int) + 1 := hi
  have hc : c = done.map item := hc
  exact ⟨_, by rw [hrun, hcycle, ← hc, hi]⟩

/-- The relation of the items that is recorded. -/
def Before (s : TopologicalSorter G) (succ : Nat → List Nat) (u v : G) : Prop :=
  ∃ i j : Nat, s.items[i]? = some u ∧ s.items[j]? = some v ∧ j ∈ succ i

/-- The cycle that is detected when an item is left. -/
theorem Sorted.detectCycle (hs : HasSuccessors s succ start) {m : Sorting G}
    (h : Sorted s succ start out [] m) {j : Nat} (hj : j < s.count) (hout : j ∉ out)
    (hnodup : s.items.Nodup) :
    ∃ c, s.detectCycle m.successors = some c ∧ IsReverseCycle (s.Before succ) c := by
  obtain ⟨g, hlinks, hg⟩ := hs.linkPredecessors out
  have hleft := hg.linksLeft h
  obtain ⟨k, hk, hkout, hfind⟩ := hleft.findUnsorted hj hout
  obtain ⟨path, last, hcycle, hfollowed, hmem⟩ := hleft.findCycle hk hkout
  obtain ⟨before, after, rfl⟩ := append_of_mem hmem
  let item : Nat → G := fun i => s.items[i]?.getD s.items[j]
  have hitem : ∀ i < s.count, s.items[i]? = some (item i) := by
    intro i hi
    have hget : s.items[i]? = some s.items[i] := getElem?_eq_getElem hi
    rw [show item i = s.items[i]?.getD s.items[j] from rfl, hget]
    rfl
  obtain ⟨marks, htraverse⟩ := hleft.traverseCycle hitem hfollowed
  have hlt : ∀ i ∈ last :: after, i < s.count :=
    fun i hi => (hfollowed.left i (mem_append_right before hi)).1
  have hpath : IsPath (fun j => (g j - 1).toNat) (last :: after ++ [last]) := by
    have hpath := hfollowed.isPath
    rw [append_assoc] at hpath
    exact (isChain_append.mp hpath).2.1
  refine ⟨(last :: after).map item ++ [item last], ?_, item last, after.map item, rfl, ?_, ?_⟩
  · simp only [TopologicalSorter.detectCycle, h.successors_eq, hlinks, hfind, hcycle, htraverse,
      some_bind, itemAt_succ, hitem last hfollowed.last_lt]
  · refine List.Nodup.map_on (f := item) ?_ (nodup_append'.mp hfollowed.nodup).2.1
    intro a ha b hb hab
    have heq := (hitem a (hlt a ha)).trans ((congrArg some hab).trans (hitem b (hlt b hb)).symm)
    exact (getElem?_inj (hlt a ha) hnodup).mp heq
  · rw [← map_singleton, ← map_append, isChain_map]
    refine List.IsChain.imp_of_mem_imp (fun a b ha hb hab => ?_) hpath
    have hmem' : ∀ i ∈ last :: after ++ [last], i ∈ last :: after := by
      intro i hi
      rcases mem_append.mp hi with hi | hi
      · exact hi
      · exact mem_singleton.mp hi ▸ mem_cons_self
    have ha := hmem' a ha
    obtain ⟨-, -, -, hsucc⟩ :=
      hleft.link a (hlt a ha) (hfollowed.left a (mem_append_right before ha)).2
    exact ⟨b, a, hitem b (hlt b (hmem' b hb)), hitem a (hlt a ha), hab ▸ hsucc⟩

section

variable {m : Sorting G} (h : Sorted s succ start out [] m)

include h

theorem Sorted.nodup_sortedItems (hnodup : s.items.Nodup) : m.sortedItems.Nodup := by
  rw [h.sortedItems_eq]
  refine List.Nodup.filterMap (fun i j v hi hj => ?_) (List.nodup_append'.mp h.queued.nodup).1
  obtain ⟨hlt, -⟩ := List.getElem?_eq_some_iff.mp hi
  exact (List.getElem?_inj hlt hnodup).mp (hi.trans hj.symm)

theorem Sorted.subperm (hnodup : s.items.Nodup) : m.sortedItems.Subperm s.items := by
  refine subperm_of_subset (h.nodup_sortedItems hnodup) fun v hv => ?_
  rw [h.sortedItems_eq] at hv
  obtain ⟨i, -, hi⟩ := mem_filterMap.mp hv
  exact mem_of_getElem? hi

/-- The items of a recorded relation are sorted in its order. -/
theorem Sorted.precedes
    (hall : ∀ j < s.count, j ∈ out) : Forward (s.Before succ) m.sortedItems := by
  rintro u v ⟨i, j, hi, hj, hsucc⟩
  obtain ⟨hilt, -⟩ := List.getElem?_eq_some_iff.mp hi
  obtain ⟨hjlt, -⟩ := List.getElem?_eq_some_iff.mp hj
  have hprecedes := List.Sublist.filterMap (fun i => s.items[i]?)
    (h.forward i hilt j hsucc (hall j hjlt))
  rw [List.filterMap_cons_some hi, List.filterMap_cons_some hj, List.filterMap_nil] at hprecedes
  rw [Precedes, h.sortedItems_eq]
  exact hprecedes

end

/-- The sort ends, with a topological sort of the items. -/
theorem HasSuccessors.sort_eq (hs : HasSuccessors s succ start) (hnodup : s.items.Nodup) :
    ∃ sorted cycle, s.sort = some { s with sortedItems := some sorted, cycle := cycle } ∧
      IsTopologicalSort s.items (s.Before succ) sorted cycle := by
  obtain ⟨m, m', out, hscan, hrun, hsorted⟩ := hs.outputQueue
  have hlength := hsorted.length_sortedItems
  have hrange : ∀ {l : List Nat}, l ⊆ range s.count → l.Nodup → l.length ≤ s.count := by
    intro l hl hnodup
    have hle := (subperm_of_subset hnodup hl).length_le
    rwa [length_range] at hle
  have hout := (nodup_append'.mp hsorted.queued.nodup).1
  have houtRange : out ⊆ range s.count :=
    fun i hi => mem_range.mpr (hsorted.queued.lt i (mem_append_left [] hi))
  by_cases hcount : s.count = m'.sortedItems.length
  · refine ⟨m'.sortedItems, none, ?_, ?_⟩
    · simp only [TopologicalSorter.sort, hscan, hrun, some_bind]
      rw [if_neg (not_not.mpr hcount)]
    · have hall : ∀ j < s.count, j ∈ out := by
        intro j hj
        by_contra hnot
        have hle := hrange (l := j :: out) (cons_subset.mpr ⟨mem_range.mpr hj, houtRange⟩)
          (nodup_cons.mpr ⟨hnot, hout⟩)
        rw [length_cons] at hle
        omega
      have hforward := hsorted.precedes hall
      refine ⟨fun _ => ⟨?_, hforward, rfl⟩, fun hcyclic => ?_⟩
      · exact (hsorted.subperm hnodup).perm_of_length_le (Nat.le_of_eq hcount)
      · exact absurd (hforward.acyclic (hsorted.nodup_sortedItems hnodup)) hcyclic
  · obtain ⟨j, hj, hjout⟩ : ∃ j < s.count, j ∉ out := by
      by_contra hnone
      have hsub : range s.count ⊆ out := by
        intro j hj
        by_contra hjout
        exact hnone ⟨j, mem_range.mp hj, hjout⟩
      have hle := (subperm_of_subset nodup_range hsub).length_le
      have hge := hrange houtRange hout
      rw [length_range] at hle
      omega
    obtain ⟨c, hdetect, hcycle⟩ := hsorted.detectCycle hs hj hjout hnodup
    refine ⟨m'.sortedItems, some c, ?_, fun hacyclic => absurd hacyclic hcycle.not_acyclic,
      fun _ => ⟨hsorted.subperm hnodup, ?_, c, rfl, hcycle⟩⟩
    · simp only [TopologicalSorter.sort, hscan, hrun, some_bind]
      rw [if_pos hcount, hdetect]
      rfl
    · have hle := (hsorted.subperm hnodup).length_le
      exact Nat.lt_of_le_of_ne hle fun heq => hcount heq.symm

end TopologicalSorter

end Gobo
