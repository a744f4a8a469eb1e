/-
The removal of an item from a topological sorter: its successors take its place in the lists
of its predecessors.
-/
import Gobo.TopologicalRelations

namespace Gobo

open List Function

namespace TopologicalSorter

variable {n capacity a : Nat} {k i : Int} {f : Nat → Int} {start : Option Nat}
  {before rest old done cells : List Nat} {h : Linkables} {m m' : Splicing}

/-- The loop over the successors of the removed item. -/
theorem foldlM_forgetSuccessor (hitems : ∀ c ∈ cells, ∃ j < n, h.item c = j + 1) :
    cells.foldlM (fun counts c => forgetSuccessor h c counts) (tally n f) =
      some (tally n fun j => f j - ((cells.map h.item).count ((j : Int) + 1) : Nat)) := by
  induction cells generalizing f with
  | nil => exact congrArg some (tally_congr fun j _ => (Int.sub_zero _).symm)
  | cons c cells ih =>
      obtain ⟨j, hj, hitem⟩ := hitems c mem_cons_self
      have hforget : forgetSuccessor h c (tally n f) =
          some (tally n (update f j (f j - 1))) := by
        rw [forgetSuccessor, hitem, itemAt_tally hj]
        exact replaceAt_tally hj
      rw [foldlM_cons, hforget, some_bind,
        ih fun c' hc' => hitems c' (mem_cons_of_mem c hc')]
      refine congrArg some (tally_congr fun l _ => ?_)
      rw [map_cons, hitem]
      by_cases hl : l = j
      · rw [hl, update_self, count_cons_self]
        omega
      · rw [update_of_ne hl, count_cons_of_ne (by omega)]

/-- The cells `new` are linked after the cell `a`, and `a'` is the last of them. -/
structure Inserted (m m' : Splicing) (start : Option Nat) (before : List Nat) (a : Nat)
    (rest new before' : List Nat) (a' : Nat) : Prop where
  last : before' ++ [a'] = before ++ a :: new
  s2 : m'.s2 = some a'
  successors : m'.successors = m.successors
  chain : Chain m'.cells.right start (before' ++ a' :: rest)
  created_le : m.cells.created ≤ m'.cells.created
  new_created : ∀ c ∈ new, m.cells.created ≤ c ∧ c < m'.cells.created
  item : ∀ c < m.cells.created, m'.cells.item c = m.cells.item c
  right : ∀ c < m.cells.created, c ≠ a → m'.cells.right c = m.cells.right c

theorem Inserted.mem {new before' : List Nat} {a' c : Nat}
    (hin : Inserted m m' start before a rest new before' a')
    (hlt : ∀ c ∈ before ++ a :: rest, c < m.cells.created) (hc : c ∈ before' ++ a' :: rest) :
    c < m'.cells.created := by
  have hc : c ∈ before' ++ [a'] ++ rest := by rwa [append_assoc]
  rw [hin.last, append_assoc] at hc
  have hle := hin.created_le
  rcases mem_append.mp hc with hc | hc
  · exact Nat.lt_of_lt_of_le (hlt c (mem_append_left _ hc)) hle
  · rcases mem_cons.mp hc with rfl | hc
    · exact Nat.lt_of_lt_of_le (hlt c (mem_append_right _ mem_cons_self)) hle
    · rcases mem_append.mp hc with hc | hc
      · exact (hin.new_created c hc).2
      · exact Nat.lt_of_lt_of_le
          (hlt c (mem_append_right _ (mem_cons_of_mem a hc))) hle

/-- The last cell is `a` or one of the new ones. -/
theorem Inserted.last_mem {new before' : List Nat} {a' : Nat}
    (hin : Inserted m m' start before a rest new before' a') : a' = a ∨ a' ∈ new := by
  have hlast := congrArg getLast? hin.last
  rw [getLast?_concat, getLast?_append, getLast?_cons] at hlast
  cases hnew : new.getLast? with
  | none =>
      rw [hnew] at hlast
      exact Or.inl (Option.some.inj hlast)
  | some b =>
      rw [hnew] at hlast
      exact Or.inr (Option.some.inj hlast ▸ mem_of_getLast? hnew)

/-- One more cell is linked. -/
theorem Inserted.link {new before' : List Nat} {a' : Nat}
    (hin : Inserted m m' start before a rest new before' a')
    (hlt : ∀ c ∈ before ++ a :: rest, c < m.cells.created) (capacity : Nat) (i : Int) (s1 : Nat)
    (j : Int) :
    ∃ m'', linkSuccessor capacity i s1 j m' = some m'' ∧ m''.counts = m'.counts ∧
      Inserted m m'' start before a rest (new ++ [m'.cells.created]) (before' ++ [a'])
        m'.cells.created ∧
      (new ++ [m'.cells.created]).map m''.cells.item = new.map m'.cells.item ++ [j] := by
  have hold : ∀ c < m.cells.created, c ≠ m'.cells.created :=
    fun c hc => Nat.ne_of_lt (Nat.lt_of_lt_of_le hc hin.created_le)
  refine ⟨⟨m'.counts, m'.successors, (m'.cells.make j (m'.cells.right a')).putRight
    (some m'.cells.created) a', some m'.cells.created⟩, by rw [linkSuccessor, hin.s2], rfl,
      ⟨?_, rfl, hin.successors, ?_, ?_, fun c hc => ?_,
    fun c hc => ?_, fun c hc hca => ?_⟩, ?_⟩
  · rw [hin.last, append_assoc]
    rfl
  · rw [append_assoc]
    exact hin.chain.insertAfter fun hmem => Nat.lt_irrefl _ (hin.mem hlt hmem)
  · exact Nat.le_succ_of_le hin.created_le
  · rcases mem_append.mp hc with hc | hc
    · exact ⟨(hin.new_created c hc).1, Nat.lt_succ_of_lt (hin.new_created c hc).2⟩
    · rw [mem_singleton.mp hc]
      exact ⟨hin.created_le, Nat.lt_succ_self _⟩
  · exact (update_of_ne (hold c hc) _ _).trans (hin.item c hc)
  · have hca' : c ≠ a' := by
      rintro rfl
      rcases hin.last_mem with heq | hnew
      · exact hca heq
      · exact Nat.lt_irrefl _ (Nat.lt_of_lt_of_le hc (hin.new_created c hnew).1)
    exact (update_of_ne hca' _ _).trans
      ((update_of_ne (hold c hc) _ _).trans (hin.right c hc hca))
  · rw [map_append]
    refine congrArg₂ (· ++ ·) (map_congr_left fun c hc => ?_) ?_
    · exact update_of_ne (Nat.ne_of_lt (hin.new_created c hc).2) _ _
    · exact congrArg (fun v => [v]) (update_self ..)

/-- The successors that a predecessor of the removed item gets. -/
def linkedValues (k : Int) (values : List Int) : List Int :=
  (values.filter fun j => j ≠ k).map (renumber k)

theorem linkedValues_concat_self (k : Int) (values : List Int) :
    linkedValues k (values ++ [k]) = linkedValues k values := by
  rw [linkedValues, filter_append, filter_cons_of_neg (by simp), filter_nil,
    append_nil, linkedValues]

theorem linkedValues_concat {j : Int} (hj : j ≠ k) (values : List Int) :
    linkedValues k (values ++ [j]) = linkedValues k values ++ [renumber k j] := by
  have hkept : ([j].filter fun j => j ≠ k) = [j] := filter_cons_of_pos (decide_eq_true hj)
  rw [linkedValues, filter_append, hkept, map_append, linkedValues]
  rfl

/-- One successor of the removed item is linked and counted. -/
theorem Inserted.insertSuccessor {new before' : List Nat} {a' s1 c j : Nat} {g : Nat → Int}
    (hin : Inserted m m' start before a rest new before' a')
    (hlt : ∀ c ∈ before ++ a :: rest, c < m.cells.created) (hcounts : m'.counts = tally n g)
    (hck : m'.cells.item c ≠ k) (hj : j < n) (hc : renumber k (m'.cells.item c) = j + 1) :
    ∃ m'', insertSuccessor capacity k i s1 c m' = some m'' ∧
      m''.counts = tally n (update g j (g j + 1)) ∧
      Inserted m m'' start before a rest (new ++ [m'.cells.created]) (before' ++ [a'])
        m'.cells.created ∧
      (new ++ [m'.cells.created]).map m''.cells.item =
        new.map m'.cells.item ++ [renumber k (m'.cells.item c)] := by
  obtain ⟨m'', hlink, hsame, hin', hvalues⟩ :=
    hin.link hlt capacity i s1 (renumber k (m'.cells.item c))
  refine ⟨{ m'' with counts := tally n (update g j (g j + 1)) }, ?_, rfl,
    ⟨hin'.last, hin'.s2, hin'.successors, hin'.chain, hin'.created_le, hin'.new_created, hin'.item,
      hin'.right⟩, hvalues⟩
  rw [hc] at hlink
  rw [TopologicalSorter.insertSuccessor]
  simp only [if_neg hck, hlink, hsame, hcounts, hc, itemAt_tally hj, replaceAt_tally hj,
    some_bind]

/-- The loop over the successors of the removed item, for one of its predecessors. -/
theorem insertSuccessors (capacity : Nat) (i : Int) (s1 : Nat) (hs2 : m.s2 = some a)
    (hchain : Chain m.cells.right start (before ++ a :: rest))
    (hlt : ∀ c ∈ before ++ a :: rest, c < m.cells.created)
    (hold : Chain m.cells.right old.head? old) (holdlt : ∀ c ∈ old, c < m.cells.created)
    (hdisjoint : a ∉ old) (hcounts : m.counts = tally n f)
    (hitems : ∀ c ∈ old, m.cells.item c = k ∨ ∃ j < n, renumber k (m.cells.item c) = j + 1) :
    ∃ m' new before' a', forCells (fun m => m.cells.right) (insertSuccessor capacity k i s1)
        m.cells.created old.head? m = some m' ∧
      Inserted m m' start before a rest new before' a' ∧
      new.map m'.cells.item = linkedValues k (old.map m.cells.item) ∧
      m'.counts = tally n fun j =>
        f j + ((linkedValues k (old.map m.cells.item)).count ((j : Int) + 1) : Nat) := by
  obtain ⟨m', hrun, new, before', a', hin, hvalues, hcounts'⟩ :
      ∃ m', forCells (fun m => m.cells.right) (insertSuccessor capacity k i s1) m.cells.created
          old.head? m = some m' ∧
        ∃ new before' a', Inserted m m' start before a rest new before' a' ∧
          new.map m'.cells.item = linkedValues k (old.map m.cells.item) ∧
          m'.counts = tally n fun j =>
            f j + ((linkedValues k (old.map m.cells.item)).count ((j : Int) + 1) : Nat) :=
              forCells_spec
    (fun (done : List Nat) (m' : Splicing) => ∃ new before' a',
      Inserted m m' start before a rest new before' a' ∧
      new.map m'.cells.item = linkedValues k (done.map m.cells.item) ∧
      m'.counts = tally n fun j =>
        f j + ((linkedValues k (done.map m.cells.item)).count ((j : Int) + 1) : Nat))
    (fun done c rest' m' hsplit => by
      rintro ⟨new, before', a', hin, hvalues, hcounts'⟩
      have hmem : c ∈ old := hsplit ▸ mem_append_right done mem_cons_self
      have hca : c ≠ a := ne_of_mem_of_not_mem hmem hdisjoint
      have hitem := hin.item c (holdlt c hmem)
      have hnext : m.cells.right c = rest'.head? := (hsplit ▸ hold).next_eq
      by_cases hck : m.cells.item c = k
      · refine ⟨m', ?_, (hin.right c (holdlt c hmem) hca).trans hnext, new, before', a', hin,
          ?_, ?_⟩
        · rw [insertSuccessor, hitem, hck]
          exact if_pos rfl
        · rw [hvalues, map_append, map_singleton, hck, linkedValues_concat_self]
        · rw [hcounts', map_append, map_singleton, hck, linkedValues_concat_self]
      · obtain ⟨j, hj, hc⟩ := (hitems c hmem).resolve_left hck
        obtain ⟨m'', hrun, hcounts'', hin', hvalues'⟩ := hin.insertSuccessor hlt hcounts'
          (hitem.symm ▸ hck) hj (hitem.symm ▸ hc)
        refine ⟨m'', hrun, (hin'.right c (holdlt c hmem) hca).trans hnext, _, _, _, hin', ?_, ?_⟩
        · rw [hvalues', hvalues, hitem, map_append, map_singleton,
            linkedValues_concat hck]
        · rw [hcounts'']
          refine congrArg _ (funext fun l => ?_)
          rw [map_append, map_singleton, linkedValues_concat hck, count_append, hc]
          by_cases hl : l = j
          · rw [hl, update_self, count_singleton_self]
            omega
          · have hzero : [(j : Int) + 1].count ((l : Int) + 1) = 0 :=
              count_eq_zero_of_not_mem fun hmem => by
                have := mem_singleton.mp hmem
                omega
            rw [update_of_ne hl, hzero, Nat.add_zero])
    (hold.length_le holdlt)
    ⟨[], before, a, ⟨rfl, hs2, rfl, hchain, Nat.le_refl _, nofun, fun _ _ => rfl, fun _ _ _ => rfl⟩,
      rfl, by rw [hcounts]; exact congrArg _ (funext fun j => (Int.add_zero _).symm)⟩
  exact ⟨m', new, before', a', hrun, hin, hvalues, hcounts'⟩

/-- The values of a list of successors after the removal. -/
def splicedValues (k : Int) (linked values : List Int) : List Int :=
  values.flatMap fun j => if j = k then linked else [renumber k j]

/-- The values that are added to a list of successors. -/
def addedValues (k : Int) (linked values : List Int) : List Int :=
  values.flatMap fun j => if j = k then linked else []

/-- The cells `done` of a list of successors are replaced with `front`, before the cells
`rest`; `s2` is the last one of `front`. -/
structure Spliced (h : Linkables) (start : Option Nat) (k : Int) (linked : List Int)
    (done rest front : List Nat) (m : Splicing) : Prop where
  nonempty : done ≠ [] → front ≠ []
  s2 : m.s2 = front.getLast?
  chain : Chain m.cells.right start (front ++ rest)
  values : front.map m.cells.item = splicedValues k linked (done.map h.item)
  created_le : h.created ≤ m.cells.created
  front_created : ∀ c ∈ front, c < m.cells.created ∧ (c ∈ done ∨ h.created ≤ c)
  same : ∀ c < h.created, c ∉ done → m.cells.item c = h.item c ∧ m.cells.right c = h.right c

section

variable {linked : List Int} {front : List Nat} {c : Nat}

theorem splicedValues_concat (values : List Int) (j : Int) :
    splicedValues k linked (values ++ [j]) =
      splicedValues k linked values ++ if j = k then linked else [renumber k j] := by
  rw [splicedValues, flatMap_append, flatMap_singleton, splicedValues]

theorem addedValues_concat (values : List Int) (j : Int) :
    addedValues k linked (values ++ [j]) =
      addedValues k linked values ++ if j = k then linked else [] := by
  rw [addedValues, flatMap_append, flatMap_singleton, addedValues]

/-- A cell of another item is kept, with the new number of the item. -/
theorem Spliced.keep (hs : Spliced h start k linked done (c :: rest) front m)
    (cells : Linkables) (hc : c < h.created) (hck : h.item c ≠ k)
    (hcreated : cells.created = m.cells.created) (hright : cells.right = m.cells.right)
    (hitem : cells.item = update m.cells.item c (renumber k (h.item c))) :
    Spliced h start k linked (done ++ [c]) rest (front ++ [c])
      { m with cells := cells, s2 := some c } := by
  have hfront : c ∉ front := fun hmem => by
    have hnodup := nodup_append'.mp hs.chain.nodup
    exact hnodup.2.2 hmem mem_cons_self
  refine ⟨fun _ => by simp, ?_, ?_, ?_, ?_, fun c' hc' => ?_, fun c' hc' hnot => ?_⟩
  · rw [getLast?_concat]
  · rw [append_assoc, hright]
    exact hs.chain
  · rw [map_append, map_append, map_singleton, map_singleton,
      splicedValues_concat, if_neg hck, ← hs.values, hitem]
    refine congrArg₂ (· ++ ·) (map_congr_left fun c' hc' => ?_) ?_
    · exact update_of_ne (ne_of_mem_of_not_mem hc' hfront) _ _
    · exact congrArg (fun v => [v]) (update_self ..)
  · exact hcreated ▸ hs.created_le
  · rcases mem_append.mp hc' with hmem | hmem
    · obtain ⟨hlt, hor⟩ := hs.front_created c' hmem
      exact ⟨hcreated ▸ hlt, hor.imp_left (mem_append_left [c])⟩
    · rw [mem_singleton.mp hmem]
      exact ⟨hcreated ▸ Nat.lt_of_lt_of_le hc hs.created_le,
        Or.inl (mem_append_right done mem_cons_self)⟩
  · have hne : c' ≠ c := fun heq => hnot (heq ▸ mem_append_right done mem_cons_self)
    obtain ⟨hsame, hsame'⟩ := hs.same c' hc' fun hmem => hnot (mem_append_left [c] hmem)
    refine ⟨?_, by rw [hright]; exact hsame'⟩
    rw [hitem, update_of_ne hne]
    exact hsame

/-- A cell of the removed item that is not the first one is replaced with the successors of
this item. -/
theorem Spliced.replace (hs : Spliced h start k (linkedValues k (old.map h.item)) done (c :: rest)
      front m) (capacity : Nat) (i : Int)
    (hc : c < h.created) (hdone : c ∉ done) (hrest : ∀ c' ∈ rest, c' < h.created ∧ c' ∉ done)
    (hne : done ≠ []) (hck : h.item c = k)
    (hold : Chain h.right old.head? old) (holdlt : ∀ c' ∈ old, c' < h.created ∧ c' ∉ done ∧ c' ≠ c)
    (hcounts : m.counts = tally n f)
    (hitems : ∀ c' ∈ old, h.item c' = k ∨ ∃ j < n, renumber k (h.item c') = j + 1) :
    ∃ m' front', spliceSuccessor capacity k old.head? i c m = some m' ∧
      m'.cells.right c = rest.head? ∧ m'.successors = m.successors ∧
      Spliced h start k (linkedValues k (old.map h.item)) (done ++ [c]) rest front' m' ∧
      m'.counts = tally n fun j =>
        f j + ((linkedValues k (old.map h.item)).count ((j : Int) + 1) : Nat) := by
  obtain ⟨before, a, rfl⟩ := (eq_nil_or_concat' front).resolve_left (hs.nonempty hne)
  have hs2 : m.s2 = some a := by rw [hs.s2, getLast?_concat]
  have hchain : Chain m.cells.right start (before ++ a :: c :: rest) := by
    have hchain := hs.chain
    rwa [append_assoc] at hchain
  have ha : a < m.cells.created ∧ (a ∈ done ∨ h.created ≤ a) :=
    hs.front_created a (mem_append_right before mem_cons_self)
  have hac : a ≠ c := by
    rintro rfl
    rcases ha.2 with hmem | hge
    · exact hdone hmem
    · omega
  have hother : ∀ c' ∈ old, c' ≠ a := by
    rintro c' hc' rfl
    rcases ha.2 with hmem | hge
    · exact (holdlt c' hc').2.1 hmem
    · exact Nat.not_lt_of_le hge (holdlt c' hc').1
  have hsame : ∀ c' ∈ old, m.cells.item c' = h.item c' ∧ m.cells.right c' = h.right c' :=
    fun c' hc' => hs.same c' (holdlt c' hc').1 (holdlt c' hc').2.1
  have hle := hs.created_le
  let m₁ : Splicing := { m with cells := m.cells.putRight (m.cells.right c) a, s2 := some a }
  have hlt : ∀ c' ∈ before ++ a :: rest, c' < m₁.cells.created := by
    intro c' hc'
    have hc' : c' ∈ before ++ [a] ++ rest := by rwa [append_assoc]
    rcases mem_append.mp hc' with hc' | hc'
    · exact (hs.front_created c' hc').1
    · exact Nat.lt_of_lt_of_le (hrest c' hc').1 hle
  have hold₁ : Chain m₁.cells.right old.head? old :=
    (hold.congr fun c' hc' => (hsame c' hc').2).update_of_notMem fun hmem => hother a hmem rfl
  have hvalues₁ : old.map m₁.cells.item = old.map h.item :=
    map_congr_left fun c' hc' => (hsame c' hc').1
  obtain ⟨m', new, before', a', hrun, hin, hvalues, hcounts'⟩ := insertSuccessors (m := m₁)
    capacity i c rfl hchain.unlink hlt hold₁
      (fun c' hc' => Nat.lt_of_lt_of_le (holdlt c' hc').1 hle) (fun hmem => hother a hmem rfl)
      hcounts (fun c' hc' => (hsame c' hc').1.symm ▸ hitems c' hc')
  rw [hvalues₁] at hvalues hcounts'
  have hlast : before' ++ [a'] = before ++ [a] ++ new := by
    rw [hin.last, append_assoc]
    rfl
  have hright : ∀ c' < h.created, c' ≠ a → m'.cells.right c' = m.cells.right c' :=
    fun c' hc' hne => (hin.right c' (Nat.lt_of_lt_of_le hc' hle) hne).trans
      (update_of_ne hne _ _)
  have hmk : m.cells.item c = k := (hs.same c hc hdone).1.trans hck
  refine ⟨m', before' ++ [a'], ?_, ?_, hin.successors, ⟨fun _ => by simp, ?_, ?_, ?_, ?_,
    fun c' hc' => ?_, fun c' hc' hnot => ?_⟩, hcounts'⟩
  · have hunlink : unlinkSuccessor capacity i c m = some m₁ := by rw [unlinkSuccessor, hs2]
    rw [spliceSuccessor, if_pos hmk, hunlink]
    exact hrun
  · rw [hright c hc (Ne.symm hac)]
    have hchain : Chain m.cells.right start ((before ++ [a]) ++ c :: rest) := by
      rwa [append_assoc]
    exact hchain.next_eq
  · rw [hin.s2, getLast?_concat]
  · rw [append_assoc]
    exact hin.chain
  · have hdone' : (done ++ [c]).map h.item = done.map h.item ++ [k] := by
      rw [map_append, map_singleton, hck]
    rw [hlast, map_append, hdone', splicedValues_concat, if_pos rfl, hvalues, ← hs.values]
    refine congrArg (· ++ _) (map_congr_left fun c' hc' => ?_)
    exact hin.item c' (hs.front_created c' hc').1
  · exact Nat.le_trans hle hin.created_le
  · rw [hlast] at hc'
    rcases mem_append.mp hc' with hc' | hc'
    · obtain ⟨hlt', hor⟩ := hs.front_created c' hc'
      exact ⟨Nat.lt_of_lt_of_le hlt' hin.created_le, hor.imp_left (mem_append_left [c])⟩
    · obtain ⟨hge, hlt'⟩ := hin.new_created c' hc'
      exact ⟨hlt', Or.inr (Nat.le_trans hle hge)⟩
  · have hnot' : c' ∉ done := fun hmem => hnot (mem_append_left [c] hmem)
    have hca : c' ≠ a := by
      rintro rfl
      rcases ha.2 with hmem | hge
      · exact hnot' hmem
      · exact Nat.not_lt_of_le hge hc'
    obtain ⟨hitem, hright'⟩ := hs.same c' hc' hnot'
    exact ⟨(hin.item c' (Nat.lt_of_lt_of_le hc' hle)).trans hitem,
      (hright c' hc' hca).trans hright'⟩

/-- A cell of another item is renumbered. -/
theorem Spliced.renumber (hs : Spliced h start k linked done (c :: rest) front m)
    (hc : c < h.created) (hdone : c ∉ done) (hck : h.item c ≠ k) (capacity : Nat)
    (oldS : Option Nat) (i : Int) :
    ∃ m', spliceSuccessor capacity k oldS i c m = some m' ∧ m'.cells.right c = rest.head? ∧
      m'.successors = m.successors ∧ m'.counts = m.counts ∧
      Spliced h start k linked (done ++ [c]) rest (front ++ [c]) m' := by
  have hitem := (hs.same c hc hdone).1
  have hnext : m.cells.right c = rest.head? := hs.chain.next_eq
  rw [spliceSuccessor, if_neg (hitem.symm ▸ hck), hitem]
  by_cases hlt : k < h.item c
  · rw [if_pos hlt]
    refine ⟨_, rfl, hnext, rfl, rfl, hs.keep _ hc hck rfl rfl ?_⟩
    rw [TopologicalSorter.renumber, if_pos hlt]
    rfl
  · rw [if_neg hlt]
    refine ⟨_, rfl, hnext, rfl, rfl, hs.keep m.cells hc hck rfl rfl ?_⟩
    rw [TopologicalSorter.renumber, if_neg hlt, ← hitem, update_eq_self]

/-- The loop over the successors of an item, when the first one is not the removed item. -/
theorem spliceSuccessors_eq (capacity : Nat) (i : Int) (hs2 : m.s2 = none)
    (hcells : Chain m.cells.right cells.head? cells) (hlt : ∀ c ∈ cells, c < m.cells.created)
    (hfirst : ∀ c, cells.head? = some c → m.cells.item c ≠ k)
    (hold : Chain m.cells.right old.head? old)
    (holdlt : ∀ c ∈ old, c < m.cells.created ∧ c ∉ cells) (hcounts : m.counts = tally n f)
    (hitems : ∀ c ∈ old, m.cells.item c = k ∨ ∃ j < n, renumber k (m.cells.item c) = j + 1) :
    ∃ m' front, forCells (fun m => m.cells.right) (spliceSuccessor capacity k old.head? i)
        m.cells.created cells.head? m = some m' ∧ m'.successors = m.successors ∧
      Spliced m.cells cells.head? k (linkedValues k (old.map m.cells.item)) cells [] front m' ∧
      m'.counts = tally n fun j => f j + ((addedValues k (linkedValues k (old.map m.cells.item))
        (cells.map m.cells.item)).count ((j : Int) + 1) : Nat) := by
  obtain ⟨m', hrun, rest, front, hsplit, hsuccessors, hspliced, hcounts'⟩ :
      ∃ m', forCells (fun m => m.cells.right) (spliceSuccessor capacity k old.head? i)
          m.cells.created cells.head? m = some m' ∧
        ∃ rest front, cells = cells ++ rest ∧ m'.successors = m.successors ∧
          Spliced m.cells cells.head? k (linkedValues k (old.map m.cells.item))
            cells rest front m' ∧
          m'.counts = tally n fun j =>
            f j + ((addedValues k (linkedValues k (old.map m.cells.item))
              (cells.map m.cells.item)).count ((j : Int) + 1) : Nat) := forCells_spec
    (fun (done : List Nat) (m' : Splicing) => ∃ rest front, cells = done ++ rest ∧
      m'.successors = m.successors ∧
      Spliced m.cells cells.head? k (linkedValues k (old.map m.cells.item)) done rest front m' ∧
      m'.counts = tally n fun j => f j + ((addedValues k (linkedValues k (old.map m.cells.item))
        (done.map m.cells.item)).count ((j : Int) + 1) : Nat))
    (fun done c rest m' hsplit => by
      rintro ⟨rest', front, hsplit', hsuccessors, hspliced, hcounts'⟩
      obtain rfl : rest' = c :: rest := append_cancel_left (hsplit'.symm.trans hsplit)
      have hmem : c ∈ cells := hsplit ▸ mem_append_right done mem_cons_self
      have hnodup := hcells.nodup
      rw [hsplit] at hnodup
      obtain ⟨-, hnodup, hdisjoint⟩ := nodup_append'.mp hnodup
      have hdone : c ∉ done := fun hdone => hdisjoint hdone mem_cons_self
      have hsplit'' : cells = done ++ [c] ++ rest := by rw [hsplit, append_assoc]; rfl
      have hmap : (done ++ [c]).map m.cells.item = done.map m.cells.item ++ [m.cells.item c] := by
        rw [map_append, map_singleton]
      by_cases hck : m.cells.item c = k
      · have hne : done ≠ [] := by
          rintro rfl
          exact hfirst c (by rw [hsplit]; rfl) hck
        have hrest : ∀ c' ∈ rest, c' < m.cells.created ∧ c' ∉ done := by
          intro c' hc'
          have hin : c' ∈ cells := by
            rw [hsplit]
            exact mem_append_right done (mem_cons_of_mem c hc')
          exact ⟨hlt c' hin, fun hdone => hdisjoint hdone (mem_cons_of_mem c hc')⟩
        have holdlt' : ∀ c' ∈ old, c' < m.cells.created ∧ c' ∉ done ∧ c' ≠ c := by
          intro c' hc'
          obtain ⟨hlt', hnot⟩ := holdlt c' hc'
          refine ⟨hlt', fun hdone => hnot ?_, fun heq => hnot (heq ▸ hmem)⟩
          rw [hsplit]
          exact mem_append_left _ hdone
        obtain ⟨m'', front', hrun, hright, hsuccessors', hspliced', hcounts''⟩ :=
          hspliced.replace capacity i (hlt c hmem) hdone hrest hne hck hold holdlt' hcounts' hitems
        refine ⟨m'', hrun, hright, rest, front', hsplit'', hsuccessors'.trans hsuccessors,
          hspliced', ?_⟩
        rw [hcounts'', hmap, addedValues_concat, if_pos hck]
        refine congrArg _ (funext fun j => ?_)
        rw [count_append, Int.natCast_add, Int.add_assoc]
      · obtain ⟨m'', hrun, hright, hsuccessors', hsame, hspliced'⟩ :=
          hspliced.renumber (hlt c hmem) hdone hck capacity old.head? i
        refine ⟨m'', hrun, hright, rest, front ++ [c], hsplit'', hsuccessors'.trans hsuccessors,
          hspliced', ?_⟩
        rw [hsame, hcounts', hmap, addedValues_concat, if_neg hck, append_nil])
    (hcells.length_le hlt)
    ⟨cells, [], rfl, rfl, ⟨fun hne => absurd rfl hne, hs2, hcells, rfl, Nat.le_refl _, nofun,
      fun _ _ _ => ⟨rfl, rfl⟩⟩, by
        rw [hcounts]
        exact congrArg _ (funext fun j => (Int.add_zero _).symm)⟩
  obtain rfl : rest = [] := self_eq_append_right.mp hsplit
  exact ⟨m', front, hrun, hsuccessors, hspliced, hcounts'⟩

/-- The lists of successors `done` are replaced with `done'`, before the lists `todo`. -/
structure Removed (h : Linkables) (k : Int) (old : List Nat) (n : Nat) (f : Nat → Int)
    (done todo done' : List (List Nat)) (m : Splicing) : Prop where
  linked : m.cells.Linked ((old :: done') ++ todo)
  successors : m.successors = (done' ++ todo).map head?
  values : done'.map (map m.cells.item) =
    done.map fun cells => splicedValues k (linkedValues k (old.map h.item)) (cells.map h.item)
  same : ∀ cells ∈ old :: todo, ∀ c ∈ cells, m.cells.item c = h.item c
  counts : m.counts = tally n fun j => f j + ((addedValues k (linkedValues k (old.map h.item))
    (done.flatten.map h.item)).count ((j : Int) + 1) : Nat)

/-- A turn of the loop over the items that are left. -/
theorem Removed.turn {lists todo done' : List (List Nat)}
    (hr : Removed h k old n f lists (cells :: todo) done' m)
    (hfirst : ∀ c, cells.head? = some c → h.item c ≠ k)
    (hitems : ∀ c ∈ old, h.item c = k ∨ ∃ j < n, renumber k (h.item c) = j + 1) (capacity : Nat) :
    ∃ m' front, spliceSuccessors capacity k old.head? (lists.length + 1) m = some m' ∧
      Removed h k old n f (lists ++ [cells]) todo (done' ++ [front]) m' := by
  have hlength : done'.length = lists.length := by
    have hlength := congrArg length hr.values
    rwa [length_map, length_map] at hlength
  have hmem : cells ∈ (old :: done') ++ cells :: todo :=
    mem_append_right _ mem_cons_self
  have hother := hr.linked.other
  have hcells : ∀ c ∈ cells, m.cells.item c = h.item c :=
    hr.same cells (mem_cons_of_mem old mem_cons_self)
  have hold : ∀ c ∈ old, m.cells.item c = h.item c := hr.same old mem_cons_self
  have hcellsMap : cells.map m.cells.item = cells.map h.item := map_congr_left hcells
  have holdMap : old.map m.cells.item = old.map h.item := map_congr_left hold
  obtain ⟨m', front, hrun, hsuccessors, hspliced, hcounts⟩ := spliceSuccessors_eq
    (m := { m with s2 := none }) capacity ((lists.length + 1 : Nat) : Int) rfl
    (hr.linked.chain cells hmem) (hr.linked.created cells hmem)
    (fun c hc => (hcells c (mem_of_head? hc)).symm ▸ hfirst c hc)
    (hr.linked.chain old mem_cons_self)
    (fun c hc => hother old mem_cons_self c hc) hr.counts
    (fun c hc => (hold c hc).symm ▸ hitems c hc)
  have hchain : Chain m'.cells.right cells.head? front := by
    have hchain := hspliced.chain
    rwa [append_nil] at hchain
  have hhead : front.head? = cells.head? := hchain.head?_eq
  have hsame : ∀ l ∈ (old :: done') ++ todo, ∀ c ∈ l, m'.cells.item c = m.cells.item c :=
    fun l hl c hc => (hspliced.same c (hother l hl c hc).1 (hother l hl c hc).2).1
  refine ⟨m', front, ?_, ?_, ?_, ?_, fun l hl c hc => ?_, ?_⟩
  · have hget : itemAt m.successors ((lists.length + 1 : Nat) : Int) = some cells.head? := by
      rw [Int.natCast_succ, itemAt_succ, hr.successors, getElem?_map, ← hlength,
        getElem?_append_cons]
      rfl
    rw [spliceSuccessors, hget]
    exact hrun
  · have hlinked := hr.linked.change hspliced.created_le
      (fun c hc hnot => (hspliced.same c hc hnot).2) (hhead.symm ▸ hchain) hspliced.front_created
    rwa [append_cons] at hlinked
  · rw [hsuccessors, hr.successors, append_assoc, map_append, map_append,
      map_cons, ← hhead]
    rfl
  · rw [map_append, map_append, ← hr.values, map_singleton, map_singleton,
      hspliced.values, holdMap, hcellsMap]
    refine congrArg (· ++ _) (map_congr_left fun l hl => map_congr_left ?_)
    exact hsame l (mem_append_left todo (mem_cons_of_mem old hl))
  · have hmem : l ∈ (old :: done') ++ todo := by
      rcases mem_cons.mp hl with rfl | hl
      · exact mem_cons_self
      · exact mem_append_right _ hl
    refine (hsame l hmem c hc).trans (hr.same l ?_ c hc)
    rcases mem_cons.mp hl with rfl | hl
    · exact mem_cons_self
    · exact mem_cons_of_mem old (mem_cons_of_mem cells hl)
  · rw [hcounts, holdMap, hcellsMap]
    refine congrArg _ (funext fun j => ?_)
    rw [flatten_concat, map_append, addedValues, addedValues, addedValues,
      flatMap_append, count_append, Int.natCast_add, Int.add_assoc]

/-- The loop over the items that are left. -/
theorem spliceAll_eq {lists : List (List Nat)} (hr : Removed h k old n f [] lists [] m)
    (hfirst : ∀ cells ∈ lists, ∀ c, cells.head? = some c → h.item c ≠ k)
    (hitems : ∀ c ∈ old, h.item c = k ∨ ∃ j < n, renumber k (h.item c) = j + 1) (capacity : Nat) :
    ∃ m' lists', forUp (spliceSuccessors capacity k old.head?) lists.length 1 m = some m' ∧
      Removed h k old n f lists [] lists' m' := by
  obtain ⟨m', hrun, done, todo, lists', hsplit, hlength, hr'⟩ :
      ∃ m', forUp (spliceSuccessors capacity k old.head?) lists.length 1 m = some m' ∧
        ∃ done todo done', lists = done ++ todo ∧ 1 + lists.length = done.length + 1 ∧
          Removed h k old n f done todo done' m' := forUp_spec
    (fun (i : Nat) (m : Splicing) => ∃ done todo done', lists = done ++ todo ∧
      i = done.length + 1 ∧ Removed h k old n f done todo done' m)
    (fun i m _ hi => by
      rintro ⟨done, todo, done', hsplit, rfl, hr⟩
      cases todo with
      | nil =>
          rw [hsplit, append_nil] at hi
          omega
      | cons cells todo =>
          have hmem : cells ∈ lists := hsplit ▸ mem_append_right done mem_cons_self
          obtain ⟨m', front, hrun, hr'⟩ := hr.turn (hfirst cells hmem) hitems capacity
          refine ⟨m', hrun, done ++ [cells], todo, done' ++ [front], ?_, ?_, hr'⟩
          · rw [hsplit, append_assoc]
            rfl
          · rw [length_append]
            rfl)
    ⟨[], lists, [], rfl, rfl, hr⟩
  have htodo : todo = [] := by
    have := congrArg length hsplit
    rw [length_append] at this
    exact eq_nil_of_length_eq_zero (by omega)
  subst htodo
  rw [append_nil] at hsplit
  exact ⟨m', lists', hrun, hsplit ▸ hr'⟩

end

end TopologicalSorter

end Gobo
