/-
`compress`: it moves the items down over the holes, in order, and rebuilds the
buckets, but leaves `free_slot` as it is.
-/
import Gobo.SparseRelink

namespace Gobo

open List

variable {G K : Type} {gen : SparseGenerics G K} {E : KeyEquality gen}
  {kind : Option (G → Key K)}

namespace KeyStorage

/-- The item and the key at one position agree. -/
theorem agrees_of_item {items : Special G} {keys : KeyStorage G K} {i : Int}
    {v : G} {k : Key K} (hv : items.item i = some v)
    (hk : keys.item items i = some k) : Agrees keys.kind v k := by
  intro key hkey
  cases keys with
  | separate area => simp [kind] at hkey
  | items key' =>
      obtain rfl : key' = key := Option.some.inj hkey
      simpa [item, hv] using hk

end KeyStorage

theorem filterMap_range_length {A B : Type} (xs : List A) {f : Nat → Option B}
    {g : A → Option B} (h : ∀ m, (hm : m < xs.length) → f m = g xs[m]) :
    (range xs.length).filterMap f = xs.filterMap g := by
  induction xs generalizing f with
  | nil => rfl
  | cons x xs ih =>
      have hhead : f 0 = g x := h 0 (Nat.succ_pos _)
      have htail := ih (f := f ∘ Nat.succ) fun m hm => h (m + 1) (Nat.succ_lt_succ hm)
      rw [length_cons, range_succ_eq_map, filterMap_cons,
        filterMap_cons, hhead, filterMap_map, htail]

namespace SparseStorage

/-- The items with their keys, in the order of a traversal. -/
def pairs (s : SparseStorage G K) : List (Key K × G) :=
  s.positions.filterMap fun i : Nat =>
    (s.itemStorageItem i).map fun v => (s.key i, v)

/-- Without holes, `last_position` is `count - 1`. -/
theorem Stored.no_vacant_iff {s : SparseStorage G K} (hs : Stored E kind s) :
    (∀ i, ¬ s.Vacant i) ↔ s.lastPosition = s.count - 1 := by
  constructor
  · intro hnone
    have := hs.count_of_no_vacant hnone
    omega
  · intro heq i hi
    have hcount := hs.count_eq
    have hlength : s.positions.length =
        (range (s.lastPosition + 1).toNat).length := by
      rw [length_range]
      omega
    have hle := hi.1
    have hi' : i ∈ range (s.lastPosition + 1).toNat := mem_range.mpr (by omega)
    have hall := length_filter_eq_length_iff.mp hlength i hi'
    have := hi.2
    simp only [decide_eq_true_eq] at hall
    omega

end SparseStorage

namespace SparseContainer

open SparseStorage

/-- The occupied ones of the `n` positions from `i` on. -/
def positionsFrom (s : SparseContainer G K) (n i : Nat) : List Nat :=
  (range' i n).filter fun j => decide (freeWatermark < s.clash j)

theorem positionsFrom_succ (s : SparseContainer G K) (n i : Nat) :
    s.positionsFrom (n + 1) i =
      if freeWatermark < s.clash i then i :: s.positionsFrom n (i + 1)
      else s.positionsFrom n (i + 1) := by
  simp only [positionsFrom, range'_succ, filter_cons, decide_eq_true_eq]

/-- The items, keys and cursors of `s` after the items at `rest` were moved
down to `j`, `j + 1`, ... -/
structure MovedDown (s t : SparseContainer G K) (rest : List Nat) (j last : Nat)
    (cs : List Nat) : Prop where
  frame : t = { s with
    itemStorage := t.itemStorage, keyStorage := t.keyStorage
    clashes := t.clashes, cursors := t.cursors }
  items_count : t.itemStorage.count = s.itemStorage.count
  items_capacity : t.itemStorage.capacity = s.itemStorage.capacity
  keys_fit : t.keyStorage.Fits t.itemStorage.count t.itemStorage.capacity
  kind_eq : t.keyStorage.kind = s.keyStorage.kind
  clashes_count : t.clashes.count = s.clashes.count
  clashes_capacity : t.clashes.capacity = s.clashes.capacity
  beyond : ∀ x, last ≤ x → t.clash x = s.clash x
  keep : ∀ x < j, t.itemStorageItem x = s.itemStorageItem x ∧
    t.keyStorageItem x = s.keyStorageItem x
  moved : ∀ m, (hm : m < rest.length) →
    t.itemStorageItem (j + m : Nat) = s.itemStorageItem rest[m] ∧
      t.keyStorageItem (j + m : Nat) = s.keyStorageItem rest[m]
  listed : t.cursors.Listed cs
  cursors_moved : ∀ c ∈ cs, ∀ m, (hm : m < rest.length) →
    s.cursors.position c = (rest[m] : Nat) →
    t.cursors.position c = (j + m : Nat)
  cursors_keep : ∀ c, (c ∈ cs → ∀ x ∈ rest, s.cursors.position c ≠ (x : Nat)) →
    t.cursors.position c = s.cursors.position c

/-- Moving the item at `i` down to `j`. -/
theorem exists_moveItem {s : SparseContainer G K} {i j : Nat} (hji : j < i)
    (hi : i < s.itemStorage.count)
    (hfit : s.keyStorage.Fits s.itemStorage.count s.itemStorage.capacity)
    (hcap : s.itemStorage.count ≤ s.itemStorage.capacity)
    (hclashes : j < s.clashes.count) {cs : List Nat}
    (hcs : s.cursors.Listed cs) :
    ∃ t, s.moveItem i j = some t ∧
      t.clash = Function.update s.clash j noPosition ∧
      (∀ x : Nat, x < s.itemStorage.count → x ≠ j →
        t.itemStorageItem x = s.itemStorageItem x ∧
          t.keyStorageItem x = s.keyStorageItem x) ∧
      (∀ c, t.cursors.position c =
        if c ∈ cs ∧ s.cursors.position c = i then (j : Int)
        else s.cursors.position c) ∧
      MovedDown s t [i] j i cs := by
  obtain ⟨v, k, hv, hk⟩ := KeyStorage.exists_item hfit hi
  obtain ⟨items, keys, hforce, hput, hcount, hcapacity, hfit', hkind, hnew,
      hnewKey, hkeyOld, hold⟩ := KeyStorage.exists_store (i := j) hfit
    (KeyStorage.agrees_of_item hv hk) (by omega) (by omega)
  obtain ⟨c, hc, hccount, hccap, hcget⟩ := exists_clashesPut
    { s with itemStorage := items, keyStorage := keys } noPosition hclashes
  obtain ⟨cursors, hmove, hinternal, htotal, hlisted, hposition⟩ :=
    exists_moveAllCursors { s with
      itemStorage := items, keyStorage := keys, clashes := c } hcs i j
  rw [Nat.max_eq_left (by omega)] at hcount
  have hi' : s.keyStorage.item items i = some k :=
    (hkeyOld i hi (by omega)).trans hk
  refine ⟨_, bind_of_some hv (bind_of_some (itemStoragePut_eq hforce) (bind_of_some hi'
    (bind_of_some (keyStoragePut_eq hput)
    (bind_of_some hc hmove)))), hcget, hold, hposition, ?_⟩
  exact {
    frame := rfl
    items_count := hcount
    items_capacity := hcapacity
    keys_fit := hfit'
    kind_eq := hkind
    clashes_count := hccount
    clashes_capacity := hccap
    beyond := by
      intro x hx
      refine (congrFun hcget x).trans ?_
      exact Function.update_of_ne (by omega) _ _
    keep := fun x hx => hold x (by omega) (by omega)
    moved := by
      intro m hm
      obtain rfl : m = 0 := by simpa using hm
      exact ⟨hnew.trans hv.symm, hnewKey.trans hk.symm⟩
    listed := hlisted
    cursors_moved := by
      intro a ha m hm hpos
      obtain rfl : m = 0 := by simpa using hm
      exact (hposition a).trans (if_pos ⟨ha, hpos⟩)
    cursors_keep := by
      intro a ha
      refine (hposition a).trans (if_neg ?_)
      rintro ⟨hin, hpos⟩
      exact ha hin i mem_cons_self hpos }

/-- One item moved first, then the others. -/
theorem MovedDown.cons {s t u : SparseContainer G K} {rest : List Nat}
    {i j last : Nat} {cs : List Nat} (hji : j ≤ i) (hlast : i < last)
    (hcount : last ≤ s.itemStorage.count) (hrest : ∀ x ∈ rest, i < x ∧ x < last)
    (hold : ∀ x : Nat, x < s.itemStorage.count → x ≠ j →
      t.itemStorageItem x = s.itemStorageItem x ∧
        t.keyStorageItem x = s.keyStorageItem x)
    (hposition : ∀ c, t.cursors.position c =
      if c ∈ cs ∧ s.cursors.position c = i then (j : Int)
      else s.cursors.position c)
    (hone : MovedDown s t [i] j i cs) (h : MovedDown t u rest (j + 1) last cs) :
    MovedDown s u (i :: rest) j last cs := by
  exact {
    frame := by
      refine h.frame.trans ?_
      rw [hone.frame]
    items_count := h.items_count.trans hone.items_count
    items_capacity := h.items_capacity.trans hone.items_capacity
    keys_fit := h.keys_fit
    kind_eq := h.kind_eq.trans hone.kind_eq
    clashes_count := h.clashes_count.trans hone.clashes_count
    clashes_capacity := h.clashes_capacity.trans hone.clashes_capacity
    beyond := fun x hx => (h.beyond x hx).trans (hone.beyond x (by omega))
    keep := by
      intro x hx
      obtain ⟨hitem, hkey⟩ := h.keep x (by omega)
      obtain ⟨hitem', hkey'⟩ := hone.keep x hx
      exact ⟨hitem.trans hitem', hkey.trans hkey'⟩
    moved := by
      intro m hm
      cases m with
      | zero =>
          obtain ⟨hitem, hkey⟩ := h.keep j (Nat.lt_succ_self j)
          obtain ⟨hitem', hkey'⟩ := hone.moved 0 (by simp)
          exact ⟨hitem.trans hitem', hkey.trans hkey'⟩
      | succ m =>
          have hm' : m < rest.length := Nat.lt_of_succ_lt_succ hm
          obtain ⟨hitem, hkey⟩ := h.moved m hm'
          have hx := hrest rest[m] (getElem_mem hm')
          obtain ⟨hitem', hkey'⟩ := hold rest[m] (by omega) (by omega)
          rw [← Nat.add_assoc, Nat.add_right_comm]
          exact ⟨hitem.trans hitem', hkey.trans hkey'⟩
    listed := h.listed
    cursors_moved := by
      intro c hc m hm hpos
      cases m with
      | zero =>
          have hc' : t.cursors.position c = j :=
            (hposition c).trans (if_pos ⟨hc, hpos⟩)
          rw [h.cursors_keep c fun _ x hx => by
            have := hrest x hx
            omega]
          exact hc'
      | succ m =>
          have hm' : m < rest.length := Nat.lt_of_succ_lt_succ hm
          have hx := hrest rest[m] (getElem_mem hm')
          have hpos' : s.cursors.position c = (rest[m] : Nat) := hpos
          rw [← Nat.add_assoc, Nat.add_right_comm]
          apply h.cursors_moved c hc m hm'
          rw [hposition, if_neg (by omega), hpos']
    cursors_keep := by
      intro c hc
      have hc' : t.cursors.position c = s.cursors.position c := by
        rw [hposition, if_neg]
        rintro ⟨hin, hpos⟩
        exact hc hin i mem_cons_self hpos
      rw [← hc']
      apply h.cursors_keep
      intro hin x hx
      rw [hc']
      exact hc hin x (mem_cons_of_mem i hx) }

theorem MovedDown.refl {s : SparseContainer G K} {i last : Nat} {cs : List Nat}
    (hfit : s.keyStorage.Fits s.itemStorage.count s.itemStorage.capacity)
    (hcs : s.cursors.Listed cs) {rest : List Nat}
    (hrest : rest = [] ∨ rest = [i]) : MovedDown s s rest i last cs := by
  have hindex : ∀ m, (hm : m < rest.length) → rest[m] = i + m := by
    intro m hm
    rcases hrest with rfl | rfl
    · simp at hm
    · obtain rfl : m = 0 := by simpa using hm
      rfl
  exact {
    frame := rfl
    items_count := rfl
    items_capacity := rfl
    keys_fit := hfit
    kind_eq := rfl
    clashes_count := rfl
    clashes_capacity := rfl
    beyond := fun _ _ => rfl
    keep := fun _ _ => ⟨rfl, rfl⟩
    moved := fun m hm => by rw [hindex m hm]; exact ⟨rfl, rfl⟩
    listed := hcs
    cursors_moved := fun c _ m hm hpos => by rw [hpos, hindex m hm]
    cursors_keep := fun _ _ => rfl }

/-- Moving down never fails and keeps the items in order. -/
theorem exists_moveDown {s : SparseContainer G K} {n i j : Nat} (hji : j ≤ i)
    (hcount : i + n ≤ s.itemStorage.count)
    (hfit : s.keyStorage.Fits s.itemStorage.count s.itemStorage.capacity)
    (hcap : s.itemStorage.count ≤ s.itemStorage.capacity)
    (hclashes : i + n ≤ s.clashes.count) {cs : List Nat}
    (hcs : s.cursors.Listed cs) :
    ∃ t, s.moveDown n i j = some t ∧
      MovedDown s t (s.positionsFrom n i) j (i + n) cs := by
  induction n generalizing s i j with
  | zero => exact ⟨s, rfl, MovedDown.refl hfit hcs (Or.inl rfl)⟩
  | succ n ih =>
      have hclash : s.clashesItem i = some (s.clash i) :=
        s.clashes.item_of_lt noPosition (by omega)
      rw [positionsFrom_succ]
      by_cases hmark : freeWatermark < s.clash i
      · rw [if_pos hmark]
        have hrest : ∀ x ∈ s.positionsFrom n (i + 1), i < x ∧ x < i + 1 + n := by
          intro x hx
          have := mem_range'_1.mp (mem_filter.mp hx).1
          omega
        by_cases heq : j = i
        · subst heq
          obtain ⟨t, hrun, ht⟩ := @ih s (j + 1) (j + 1) (Nat.le_refl _)
            (by omega) hfit hcap (by omega) hcs
          refine ⟨t, by simp [moveDown, hclash, hmark, hrun], ?_⟩
          rw [Nat.add_right_comm] at ht
          refine MovedDown.cons (Nat.le_refl j) (by omega) (by omega)
            (fun x hx => by have := hrest x hx; omega) (fun _ _ _ => ⟨rfl, rfl⟩)
            (fun c => ?_) (MovedDown.refl hfit hcs (Or.inr rfl)) ht
          split
          · rename_i h
            exact h.2
          · rfl
        · obtain ⟨u, hmove, huclash, huold, huposition, hone⟩ :=
            exists_moveItem (by omega : j < i) (by omega) hfit hcap (by omega) hcs
          obtain ⟨t, hrun, ht⟩ := @ih u (i + 1) (j + 1) (by omega)
            (by rw [hone.items_count]; omega) hone.keys_fit
            (by rw [hone.items_count, hone.items_capacity]; exact hcap)
            (by rw [hone.clashes_count]; omega) hone.listed
          have hpositions : u.positionsFrom n (i + 1) =
              s.positionsFrom n (i + 1) := by
            apply filter_congr
            intro x hx
            have := (mem_range'_1.mp hx).1
            rw [huclash, Function.update_of_ne (by omega)]
          refine ⟨t, by simp [moveDown, hclash, hmark, heq, hmove, hrun], ?_⟩
          rw [hpositions, Nat.add_right_comm] at ht
          exact MovedDown.cons hji (by omega) (by omega)
            (fun x hx => by have := hrest x hx; omega) huold huposition hone ht
      · rw [if_neg hmark]
        obtain ⟨t, hrun, ht⟩ := @ih s (i + 1) j (by omega) (by omega) hfit hcap
          (by omega) hcs
        rw [Nat.add_right_comm] at ht
        exact ⟨t, by simp [moveDown, hclash, hmark, hrun], ht⟩

/-- `t` has the items of `s` at its first positions, in order, and nothing is
linked. -/
structure Compacted (s t : SparseContainer G K) : Prop where
  frame : t = { s.unsetFoundItem with
    itemStorage := t.itemStorage, keyStorage := t.keyStorage
    clashes := t.clashes, slots := t.slots, cursors := t.cursors }
  slots_count : t.slots.count = s.slots.count
  slots_capacity : t.slots.capacity = s.slots.capacity
  clashes_count : t.clashes.count = s.clashes.count
  clashes_capacity : t.clashes.capacity = s.clashes.capacity
  items_count : t.itemStorage.count = s.positions.length
  items_capacity : t.itemStorage.capacity = s.itemStorage.capacity
  keys_fit : t.keyStorage.Fits t.itemStorage.count t.itemStorage.capacity
  kind_eq : t.keyStorage.kind = s.keyStorage.kind
  clash_eq : ∀ j, t.clash j = noPosition
  slot_eq : ∀ h, t.slot h = noPosition
  moved : ∀ m, (hm : m < s.positions.length) →
    t.itemStorageItem m = s.itemStorageItem s.positions[m] ∧
      t.keyStorageItem m = s.keyStorageItem s.positions[m]
  cursors : ∃ cs, t.cursors.Listed cs

/-- Everything that `compress` does before it links the positions again. -/
theorem exists_compacted [DecidableEq K] {s : SparseContainer G K} (hs : WellFormed E kind s) :
    ∃ t₁ t₂ t₃ t₄ t, s.unsetFoundItem.moveDown (s.lastPosition + 1).toNat 0 0 =
        some t₁ ∧ t₁.itemStorageKeepHead t₁.count = some t₂ ∧
      t₂.keyStorageKeepHead t₂.count = some t₃ ∧ t₃.clashesWipeOut = some t₄ ∧
      t₄.slotsWipeOut = some t ∧ Compacted s t := by
  have hu := hs.stored
  have hlt := hu.last_lt
  have hcount := hu.count_eq
  have hle := hu.count_le
  have hitems := hu.items_count
  have hcapacity := hu.items_capacity
  have hclashes := hu.clashes_count
  obtain ⟨cs, hcs⟩ := hs.cursors
  obtain ⟨t, hmove, ht⟩ := @exists_moveDown _ _ s.unsetFoundItem
    (s.lastPosition + 1).toNat 0 0 (Nat.le_refl 0)
    (by simp only [unsetFoundItem]; omega) hu.keys_fit
    (by simp only [unsetFoundItem]; omega)
    (by simp only [unsetFoundItem]; omega) cs hcs
  have hpositions : s.unsetFoundItem.positionsFrom (s.lastPosition + 1).toNat 0 =
      s.positions := by
    rw [positionsFrom, positions, range_eq_range']
    rfl
  rw [hpositions] at ht
  have htlast : t.lastPosition = s.lastPosition := by rw [ht.frame]; rfl
  have htmodulus : t.modulus = s.modulus := by rw [ht.frame]; rfl
  have htslots : t.slots = s.slots := by rw [ht.frame]; rfl
  have htcount : t.count = (s.positions.length : Nat) := by
    rw [ht.frame]
    exact hcount
  obtain ⟨items, keys, hitems', hkeys', hcount', hcapacity', hfit', hkind',
      hold⟩ := @KeyStorage.exists_keepHead _ _ _ _ s.positions.length ht.keys_fit
    (by rw [ht.items_count]; simp only [unsetFoundItem]; omega)
  rw [← htcount] at hitems' hkeys'
  obtain ⟨c, hc, hccount, hccap, hcget⟩ := exists_clashesWipeOut
    { t with itemStorage := items, keyStorage := keys }
    (by
      rw [htlast, ht.clashes_count]
      simp only [unsetFoundItem]
      omega)
    (fun i hi => (ht.beyond i (by simp only [htlast] at hi; omega)).trans
      (hu.beyond i (htlast ▸ hi)))
  obtain ⟨d, hd, hdcount, hdcap, hdget⟩ := exists_slotsWipeOut
    { t with itemStorage := items, keyStorage := keys, clashes := c }
    (by
      show (t.slots.count : Int) = t.modulus + 1
      rw [htslots, htmodulus]
      exact hu.slots_count)
  refine ⟨t, _, _, _, _, hmove, itemStorageKeepHead_eq hitems',
    keyStorageKeepHead_eq hkeys', hc, hd, ?_, hdcount.trans (by rw [htslots]),
    hdcap.trans (by rw [htslots]), hccount.trans ht.clashes_count,
    hccap.trans ht.clashes_capacity, hcount', hcapacity'.trans ht.items_capacity,
    hfit', hkind'.trans ht.kind_eq, hcget, hdget, ?_, cs, ht.listed⟩
  · rw [ht.frame]
  · intro m hm
    have hmoved := ht.moved m hm
    rw [Nat.zero_add] at hmoved
    exact ⟨(hold m hm).1.trans hmoved.1, (hold m hm).2.trans hmoved.2⟩

namespace Compacted

variable {s t : SparseContainer G K} (h : Compacted s t)

include h

theorem count_eq : t.count = s.count := by rw [h.frame]; rfl

theorem capacity_eq : t.capacity = s.capacity := by rw [h.frame]; rfl

theorem modulus_eq : t.modulus = s.modulus := by rw [h.frame]; rfl

theorem key_eq (m : Nat) (hm : m < s.positions.length) :
    t.key m = s.key s.positions[m] :=
  congrArg (·.getD none) (h.moved m hm).2

theorem bucketOf_eq (k : Key K) : t.bucketOf gen k = s.bucketOf gen k := by
  cases k <;> simp only [bucketOf, h.modulus_eq]

omit h in
/-- The storage of `t` with other links, without holes and free positions. -/
def relinked (t : SparseContainer G K) (c d : Special Int) : SparseStorage G K :=
  { t.toSparseStorage with
    clashes := c, slots := d, lastPosition := t.count - 1, freeSlot := noPosition }

/-- Linking the positions again restores the invariant, but for `free_slot`. -/
theorem exists_relinkUp (hu : Stored E kind s.toSparseStorage) :
    ∃ c d, t.relinkUp gen t.count.toNat 0 =
        some { t with clashes := c, slots := d } ∧
      (relinked t c d).pairs = s.pairs ∧ Stored E kind (relinked t c d) := by
  have hlt := hu.last_lt
  have hcount := hu.count_eq
  have hle := hu.count_le
  have htcount := h.count_eq
  have hclashes := hu.clashes_count
  have hmem : ∀ m, (hm : m < s.positions.length) → s.Occupied s.positions[m] :=
    fun m hm => (s.mem_positions _).mp (getElem_mem hm)
  obtain ⟨n, hn⟩ : ∃ n : Nat, s.positions.length = n := ⟨_, rfl⟩
  obtain ⟨c, d, hrun, hccount, hccap, hdcount, hdcap, hkept, hb⟩ :=
    @SparseContainer.exists_relinkUp _ _ gen t n 0 (fun j hj => by
        rw [Nat.zero_add] at hj
        rw [h.key_eq j (hn ▸ hj)]
        exact (h.moved j (hn ▸ hj)).2.trans
          (hu.keyStorageItem (hmem j (hn ▸ hj)).1))
      (by rw [h.modulus_eq]; exact hu.modulus_pos)
      (by rw [h.slots_count, h.modulus_eq]; exact hu.slots_count_eq)
      (fun k => by rw [h.bucketOf_eq, h.modulus_eq]; exact hu.bucketOf_le k)
      (by rw [h.clashes_count]; omega)
      (Buckets.empty (fun j _ => h.slot_eq j) (by simp))
  rw [Nat.zero_add] at hkept hb
  let w := relinked t c d
  have hoccupied : ∀ j, w.Occupied j ↔ j < n := by
    intro j
    constructor
    · intro hj
      have := hj.1
      simp only [w, relinked] at this
      omega
    · intro hj
      have hclash := hb.clash_ge j hj
      refine ⟨by simp only [w, relinked]; omega, ?_⟩
      rw [freeWatermark]
      exact Int.lt_of_lt_of_le (by decide) hclash
  have hpositions : w.positions = range n := by
    have hn' : (t.count - 1 + 1).toNat = n := by omega
    rw [positions, filter_eq_self.mpr]
    · exact congrArg range hn'
    · intro j hj
      have hj' : j < n := by
        rw [← hn']
        exact mem_range.mp hj
      exact decide_eq_true ((hoccupied j).mpr hj').2
  refine ⟨c, d, ?_, ?_, ?_⟩
  · obtain rfl : n = t.count.toNat := by omega
    exact hrun
  · rw [pairs, hpositions, ← hn]
    apply filterMap_range_length
    intro m hm
    have hi : w.itemStorageItem m = s.itemStorageItem s.positions[m] :=
      (h.moved m hm).1
    rw [hi, show w.key m = s.key s.positions[m] from h.key_eq m hm]
  · exact {
      capacity_le := h.capacity_eq ▸ hu.capacity_le
      modulus_eq := by
        show t.modulus = newModulus t.capacity
        rw [h.modulus_eq, h.capacity_eq]
        exact hu.modulus_eq
      slots_count := by
        show (d.count : Int) = t.modulus + 1
        rw [hdcount, h.slots_count, h.modulus_eq]
        exact hu.slots_count
      slots_capacity := by
        show (d.capacity : Int) = t.modulus + 1
        rw [hdcap, h.slots_capacity, h.modulus_eq]
        exact hu.slots_capacity
      clashes_count := by
        show (c.count : Int) = t.capacity
        rw [hccount, h.clashes_count, h.capacity_eq]
        exact hu.clashes_count
      clashes_capacity := by
        show (c.capacity : Int) = t.capacity
        rw [hccap, h.clashes_capacity, h.capacity_eq]
        exact hu.clashes_capacity
      items_count := by
        show (t.itemStorage.count : Int) = t.count - 1 + 1
        rw [h.items_count]
        omega
      items_capacity := by
        show (t.itemStorage.capacity : Int) = t.capacity
        rw [h.items_capacity, h.capacity_eq]
        exact hu.items_capacity
      keys_fit := h.keys_fit
      kind_eq := h.kind_eq.trans hu.kind_eq
      last_lt := by
        have hcap := h.capacity_eq
        show t.count - 1 < t.capacity
        omega
      beyond := fun i hi => (hkept i (by
        simp only [relinked] at hi
        omega)).trans
        (h.clash_eq i)
      buckets := hb.congr hoccupied (fun _ _ => rfl) fun _ _ => rfl
      free := FreeList.empty fun j hj => by
        have hj' : j < n := by
          have := hj.1
          simp only [relinked] at this
          omega
        exact absurd ((hoccupied j).mpr hj').2 (Int.not_lt.mpr hj.2)
      distinct := by
        intro i j hi hj hsame
        have hi' : i < s.positions.length := hn ▸ (hoccupied i).mp hi
        have hj' : j < s.positions.length := hn ▸ (hoccupied j).mp hj
        have hki : w.key i = s.key s.positions[i] := h.key_eq i hi'
        have hkj : w.key j = s.key s.positions[j] := h.key_eq j hj'
        refine (List.Nodup.getElem_inj_iff s.positions_nodup).mp
          (hu.distinct _ _ (hmem i hi') (hmem j hj') ?_)
        rw [← hki, ← hkj]
        exact hsame
      count_eq := by
        show t.count = (w.positions.length : Int)
        rw [hpositions, length_range]
        omega }

end Compacted

variable [DecidableEq K]

/-- `compress` loses no item and leaves no hole, and the only thing that may
break the invariant is `free_slot`. -/
theorem exists_compress {s : SparseContainer G K} (hs : WellFormed E kind s) :
    ∃ t, s.compress gen = some t ∧ t.capacity = s.capacity ∧
      t.count = s.count ∧ t.lastPosition = s.count - 1 ∧
      t.freeSlot = s.freeSlot ∧ t.pairs = s.pairs ∧
      WellFormed E kind { t with freeSlot := noPosition } ∧
      (t.foundPosition = noPosition ∨ t = s) := by
  have hu := hs.stored
  by_cases hholes : s.lastPosition = s.count - 1
  · have hfree : s.freeSlot = noPosition :=
      hu.freeSlot_eq_iff.mpr (hu.no_vacant_iff.mpr hholes)
    refine ⟨s, by simp [compress, hholes], rfl, rfl, hholes, rfl, rfl, ?_, Or.inr rfl⟩
    rw [← hfree]
    exact hs
  · obtain ⟨t₁, t₂, t₃, t₄, t, h₁, h₂, h₃, h₄, h₅, ht⟩ := exists_compacted hs
    obtain ⟨c, d, hrun, hpairs, hw⟩ := ht.exists_relinkUp hu
    have hcount := ht.count_eq
    refine ⟨{ t with
      clashes := c, slots := d, lastPosition := t.count - 1
      position := noPosition }, ?_, ht.capacity_eq, hcount,
      by simp only [hcount], ?_, hpairs, ?_, ?_⟩
    · rw [compress]
      refine (if_pos hholes).trans ?_
      refine bind_of_some h₁ ?_
      refine bind_of_some h₂ ?_
      refine bind_of_some h₃ ?_
      refine bind_of_some h₄ ?_
      refine bind_of_some h₅ ?_
      exact bind_of_some hrun rfl
    · rw [ht.frame]
      rfl
    · obtain ⟨cs, hlisted⟩ := ht.cursors
      refine ⟨hw, ?_, Or.inl rfl, ⟨cs, hlisted⟩⟩
      intro k l
      rw [← hs.tester k l]
      simp only [sameKeys]
      rw [ht.frame]
      rfl
    · exact Or.inl (by rw [ht.frame]; rfl)

end SparseContainer

end Gobo
