/-
What storing at a new position does to a sparse container that satisfies the
representation invariant.
-/
import Gobo.SparseInvariant
import Mathlib.Data.List.Perm.Basic

namespace Gobo

open List Function

variable {G K : Type} {gen : SparseGenerics G K} {E : KeyEquality gen}
  {kind : Option (G → Key K)}

theorem length_eq_succ_of_mem {xs ys : List Nat} {i : Nat} (hx : xs.Nodup)
    (hy : ys.Nodup) (hi : i ∉ xs) (hmem : ∀ j, j ∈ ys ↔ j ∈ xs ∨ j = i) :
    ys.length = xs.length + 1 := by
  have hperm : ys.Perm (i :: xs) := by
    rw [perm_ext_iff_of_nodup hy (nodup_cons.mpr ⟨hi, hx⟩)]
    intro j
    rw [hmem, mem_cons, or_comm]
  exact hperm.length_eq

namespace SparseStorage

/-- Item `v` is associated with a key equal to `k`. -/
def Holds (E : KeyEquality gen) (s : SparseStorage G K) (k : Key K) (v : G) : Prop :=
  ∃ i, s.Occupied i ∧ E.same k (s.key i) = true ∧
    s.itemStorageItem i = some v

/-- `t` is `s` with the item `v` and the key `k` at the new position `i`. -/
structure Inserted (s t : SparseStorage G K) (i : Nat) (k : Key K) (v : G) :
    Prop where
  occupied : ∀ j, t.Occupied j ↔ s.Occupied j ∨ j = i
  key_eq : t.key i = k
  item_eq : t.itemStorageItem i = some v
  keep : ∀ j, s.Occupied j →
    t.key j = s.key j ∧ t.itemStorageItem j = s.itemStorageItem j

/-- `t` is `s` without what is at position `p`. -/
structure Removed (s t : SparseStorage G K) (p : Nat) : Prop where
  occupied : ∀ j, t.Occupied j ↔ s.Occupied j ∧ j ≠ p
  keep : ∀ j, t.Occupied j →
    t.key j = s.key j ∧ t.itemStorageItem j = s.itemStorageItem j

namespace Stored

variable {s : SparseStorage G K}

theorem clashesItem (h : Stored E kind s) {i : Nat} (hi : i < s.capacity) :
    s.clashesItem i = some (s.clash i) := by
  have := h.clashes_count
  exact s.clashes.item_of_lt noPosition (by omega)

theorem lt_clashes_count (h : Stored E kind s) {i : Nat}
    (hi : (i : Int) ≤ s.lastPosition) : i < s.clashes.count := by
  have := h.clashes_count
  have := h.last_lt
  omega

theorem modulus_gt (h : Stored E kind s) : s.capacity < s.modulus := by
  have := h.clashes_count
  rw [h.modulus_eq, newModulus_eq (by omega) h.capacity_le]
  omega

theorem modulus_pos (h : Stored E kind s) : 0 < s.modulus := by
  have := h.modulus_gt
  have := h.clashes_count
  omega

theorem slots_count_eq (h : Stored E kind s) :
    s.slots.count = s.modulus.toNat + 1 := by
  have := h.slots_count
  have := h.modulus_pos
  omega

theorem slotsItem (h : Stored E kind s) {i : Nat} (hi : i ≤ s.modulus.toNat) :
    s.slotsItem i = some (s.slot i) := by
  have := h.slots_count_eq
  exact s.slots.item_of_lt noPosition (by omega)

theorem hashPosition_eq_of_pos (hpos : 0 < s.modulus) (k : Key K) :
    s.hashPosition gen k = some ((s.bucketOf gen k : Nat) : Int) := by
  have hcast : ((s.modulus.toNat : Nat) : Int) = s.modulus := by omega
  cases k with
  | none => rw [hashPosition, bucketOf, hcast]
  | some k =>
      rw [hashPosition, if_neg (by omega), bucketOf, Int.natCast_mod, hcast,
        Int.tmod_eq_emod_of_nonneg (by omega)]

theorem hashPosition_eq (h : Stored E kind s) (k : Key K) :
    s.hashPosition gen k = some ((s.bucketOf gen k : Nat) : Int) :=
  hashPosition_eq_of_pos h.modulus_pos k

theorem exists_item (h : Stored E kind s) {i : Nat}
    (hi : (i : Int) ≤ s.lastPosition) :
    ∃ v, s.itemStorageItem i = some v ∧
      s.keyStorageItem i = some (s.key i) := by
  have hcount := h.items_count
  obtain ⟨v, k, hv, hk⟩ := KeyStorage.exists_item h.keys_fit
    (by omega : i < s.itemStorage.count)
  refine ⟨v, hv, ?_⟩
  rw [SparseStorage.key, keyStorageItem, hk]
  rfl

theorem keyStorageItem (h : Stored E kind s) {i : Nat}
    (hi : (i : Int) ≤ s.lastPosition) :
    s.keyStorageItem i = some (s.key i) := by
  obtain ⟨_, _, hk⟩ := h.exists_item hi
  exact hk

section

variable (h : Stored E kind s)

include h

theorem lt_capacity {i : Nat} (hi : (i : Int) ≤ s.lastPosition) : i < s.capacity := by
  have := h.last_lt
  omega

theorem bucketOf_le (k : Key K) : s.bucketOf gen k < s.modulus.toNat + 1 := by
  have hpos := h.modulus_pos
  cases k with
  | none => simp [bucketOf]
  | some k =>
      have := Nat.mod_lt (gen.hashCode k) (by omega : 0 < s.modulus.toNat)
      simp only [bucketOf]
      omega

theorem last_ge : -1 ≤ s.lastPosition := by
  have := h.items_count
  omega

theorem freeSlot_eq_iff : s.freeSlot = noPosition ↔ ∀ i, ¬ s.Vacant i :=
  h.free.eq_neg_one_iff

/-- `count = last_position + 1` as long as no position is free. -/
theorem count_of_no_vacant (hfree : ∀ i, ¬ s.Vacant i) :
    s.count = s.lastPosition + 1 := by
  have hall : s.positions = range (s.lastPosition + 1).toNat := by
    rw [positions, filter_eq_self]
    intro i hi
    rw [mem_range] at hi
    have hi' : (i : Int) ≤ s.lastPosition := by omega
    simp only [decide_eq_true_eq]
    exact Int.not_le.mp fun hle => hfree i ⟨hi', hle⟩
  have hlast := h.last_ge
  rw [h.count_eq, hall, length_range]
  omega

theorem count_le : s.count ≤ s.lastPosition + 1 := by
  have hle : s.positions.length ≤ (s.lastPosition + 1).toNat := by
    exact Nat.le_trans (length_filter_le _ _) (by simp)
  have hlast := h.last_ge
  rw [h.count_eq]
  omega

theorem count_le_capacity : s.count ≤ s.capacity := by
  have := h.count_le
  have := h.last_lt
  omega

end

end Stored

end SparseStorage

namespace SparseContainer

theorem exists_clashesPut (s : SparseContainer G K) (v : Int) {i : Nat}
    (hi : i < s.clashes.count) :
    ∃ c, s.clashesPut v i = some { s with clashes := c } ∧
      c.count = s.clashes.count ∧ c.capacity = s.clashes.capacity ∧
      c.get noPosition = update s.clash i v := by
  obtain ⟨c, hput, hcount, hcapacity, hget⟩ := s.clashes.exists_put v hi
  exact ⟨c, by simp [clashesPut, hput], hcount, hcapacity, hget noPosition⟩

theorem exists_slotsPut (s : SparseContainer G K) (v : Int) {i : Nat}
    (hi : i < s.slots.count) :
    ∃ d, s.slotsPut v i = some { s with slots := d } ∧
      d.count = s.slots.count ∧ d.capacity = s.slots.capacity ∧
      d.get noPosition = update s.slot i v := by
  obtain ⟨d, hput, hcount, hcapacity, hget⟩ := s.slots.exists_put v hi
  exact ⟨d, by simp [slotsPut, hput], hcount, hcapacity, hget noPosition⟩

section

variable {s : SparseContainer G K} {i : Int} {items : Special G}
  {keys : KeyStorage G K}

theorem itemStoragePut_eq {v : G} (h : s.itemStorage.force v i = some items) :
    s.itemStoragePut v i = some { s with itemStorage := items } := by
  simp [itemStoragePut, h]

theorem keyStoragePut_eq {k : Key K} (h : s.keyStorage.put k i = some keys) :
    s.keyStoragePut k i = some { s with keyStorage := keys } := by
  simp [keyStoragePut, h]

theorem itemStorageKeepHead_eq (h : s.itemStorage.keepHead i = some items) :
    s.itemStorageKeepHead i = some { s with itemStorage := items } := by
  simp [itemStorageKeepHead, h]

theorem keyStorageKeepHead_eq (h : s.keyStorage.keepHead i = some keys) :
    s.keyStorageKeepHead i = some { s with keyStorage := keys } := by
  simp [keyStorageKeepHead, h]

end

open SparseStorage

/-- `insertAt` at a position that was just taken.  `u` is the storage before
the position was taken; taking it moved `last_position` or `free_slot`. -/
theorem exists_insertAt {u : SparseStorage G K} (hu : Stored E kind u)
    {s : SparseContainer G K} {l f : Int} {i : Nat} {k : Key K} {v : G}
    (hs : s.toSparseStorage = { u with lastPosition := l, freeSlot := f })
    (hl : l = u.lastPosition ∧ (i : Int) ≤ l ∨ l = u.lastPosition + 1 ∧ l = i)
    (hcap : i < u.capacity)
    (hnot : ¬ u.Occupied i)
    (hf : FreeList freeOffset u.clash f fun j => u.Vacant j ∧ j ≠ i)
    (habsent : ∀ j, u.Occupied j → E.same k (u.key j) = false)
    (hagree : KeyStorage.Agrees kind v k) :
    ∃ t, s.insertAt v k i (u.bucketOf gen k : Nat) =
        some { s with toSparseStorage := t } ∧
      Stored E kind t ∧ Inserted u t i k v ∧ t.count = u.count + 1 ∧
      t.capacity = u.capacity ∧ u.lastPosition ≤ t.lastPosition := by
  have hcount := hu.items_count
  have hitems := hu.items_capacity
  have hclashes := hu.clashes_count
  have hslots := hu.slots_count
  have hpos := hu.modulus_pos
  have hh := hu.bucketOf_le k
  obtain ⟨items', keys', hforce, hput, hcount', hcapacity', hfit', hkind',
      hnewItem, hnewKey, -, hold⟩ :=
    KeyStorage.exists_store (v := v) (k := k) (i := i) hu.keys_fit
      (hu.kind_eq ▸ hagree) (by omega) (by omega)
  obtain ⟨c, hc, hccount, hccap, hcget⟩ := u.clashes.exists_put (i := i)
    (u.slot (u.bucketOf gen k)) (by omega)
  obtain ⟨d, hd, hdcount, hdcap, hdget⟩ := u.slots.exists_put
    (i := u.bucketOf gen k) (i : Int) (by omega)
  obtain ⟨st, p, sp, cp, fp, tester, cursors⟩ := s
  subst hs
  let t : SparseStorage G K := { u with
    lastPosition := l, freeSlot := f, clashes := c
    slots := d, itemStorage := items', keyStorage := keys'
    count := u.count + 1 }
  have hclash : t.clash = update u.clash i
      (u.slot (u.bucketOf gen k)) := hcget noPosition
  have hslot : t.slot = update u.slot (u.bucketOf gen k) i :=
    hdget noPosition
  have hclash_ge := hu.buckets.slot_ge _ hh
  have hoccupied : ∀ j, t.Occupied j ↔ u.Occupied j ∨ j = i := by
    intro j
    by_cases hj : j = i
    · subst hj
      simp only [Occupied, hclash, update_self, freeWatermark,
        or_true, iff_true, t]
      omega
    · simp only [Occupied, hclash, update_of_ne hj, hj, or_false, t]
      omega
  have hvacant : ∀ j, t.Vacant j ↔ u.Vacant j ∧ j ≠ i := by
    intro j
    by_cases hj : j = i
    · subst hj
      simp only [Vacant, hclash, update_self, freeWatermark, t]
      omega
    · simp only [Vacant, hclash, update_of_ne hj, t]
      omega
  have hne : ∀ j, u.Occupied j → j ≠ i := by
    rintro j hj rfl
    exact hnot hj
  have hitems : ∀ j, u.Occupied j →
      t.itemStorageItem j = u.itemStorageItem j ∧
        t.keyStorageItem j = u.keyStorageItem j := by
    intro j hj
    exact hold j (by have := hj.1; omega) (hne j hj)
  have hinserted : Inserted u t i k v := by
    refine ⟨hoccupied, ?_, hnewItem, ?_⟩
    · exact congrArg (·.getD none) hnewKey
    · intro j hj
      exact ⟨congrArg (·.getD none) (hitems j hj).2, (hitems j hj).1⟩
  refine ⟨t, ?_, ?_, hinserted, rfl, rfl, by simp only [t]; omega⟩
  · have hslot : u.slots.item (u.bucketOf gen k : Nat) =
        some (u.slot (u.bucketOf gen k)) := hu.slotsItem (by omega)
    simp [insertAt, clashesPut, slotsPut, itemStoragePut, keyStoragePut,
      SparseStorage.slotsItem, hslot, hc, hd, hforce, hput, t]
  · refine
      { capacity_le := hu.capacity_le
        modulus_eq := hu.modulus_eq
        slots_count := hdcount ▸ hu.slots_count
        slots_capacity := hdcap ▸ hu.slots_capacity
        clashes_count := hccount ▸ hu.clashes_count
        clashes_capacity := hccap ▸ hu.clashes_capacity
        items_count := ?_
        items_capacity := hcapacity' ▸ hu.items_capacity
        keys_fit := hfit'
        kind_eq := hkind'.trans hu.kind_eq
        last_lt := ?_
        beyond := ?_
        buckets := ?_
        free := ?_
        distinct := ?_
        count_eq := ?_ }
    · simp only [t, hcount']
      omega
    · have := hu.last_lt
      simp only [t]
      omega
    · intro j hj
      simp only [t] at hj
      rw [hclash, update_of_ne (by omega)]
      exact hu.beyond j (by omega)
    · rw [hclash, hslot]
      have hkey : t.key i = k := hinserted.key_eq
      have hinsert := @Buckets.insert _ _ _ _ t.key _ _ _ _ hu.buckets i hnot
        (fun j hj => congrArg _ (hinserted.keep j hj).1)
        (by rw [hkey]; exact hh) hoccupied
      rw [hkey] at hinsert
      exact hinsert
    · refine hf.congr hvacant fun j hj => ?_
      rw [hclash, update_of_ne hj.2]
    · intro j l hj hl hsame
      rcases (hoccupied j).mp hj with hj' | hj'
      · rcases (hoccupied l).mp hl with hl' | hl'
        · rw [(hinserted.keep j hj').1, (hinserted.keep l hl').1] at hsame
          exact hu.distinct j l hj' hl' hsame
        · rw [(hinserted.keep j hj').1, hl', hinserted.key_eq, E.comm,
            habsent j hj'] at hsame
          exact absurd hsame (by simp)
      · rcases (hoccupied l).mp hl with hl' | hl'
        · rw [(hinserted.keep l hl').1, hj', hinserted.key_eq,
            habsent l hl'] at hsame
          exact absurd hsame (by simp)
        · rw [hj', hl']
    · have hlength := length_eq_succ_of_mem u.positions_nodup
        t.positions_nodup (i := i)
        (fun hin => hnot ((u.mem_positions i).mp hin))
        (fun j => by rw [t.mem_positions, u.mem_positions, hoccupied])
      have hcount_eq := hu.count_eq
      simp only [t] at hlength ⊢
      omega

section

variable {s : SparseContainer G K} (hs : Stored E kind s.toSparseStorage)

include hs

/-- As long as the container is not full there is a position to take. -/
theorem exists_takeFreePosition (hroom : s.count < s.capacity) :
    ∃ (i : Nat) (l f : Int), s.takeFreePosition =
        some ((i : Int), { s with lastPosition := l, freeSlot := f }) ∧
      (l = s.lastPosition ∧ (i : Int) ≤ l ∨ l = s.lastPosition + 1 ∧ l = i) ∧
      i < s.capacity ∧ ¬ s.Occupied i ∧
      FreeList freeOffset s.clash f fun j => s.Vacant j ∧ j ≠ i := by
  by_cases hfree : s.freeSlot = noPosition
  · have hnone := hs.freeSlot_eq_iff.mp hfree
    have hcount := hs.count_of_no_vacant hnone
    have hlast := hs.last_ge
    obtain ⟨i, hi⟩ : ∃ i : Nat, s.lastPosition + 1 = i :=
      ⟨(s.lastPosition + 1).toNat, by omega⟩
    refine ⟨i, i, s.freeSlot, ?_, Or.inr ⟨hi.symm, rfl⟩, by omega, ?_, ?_⟩
    · simp [takeFreePosition, hfree, hi]
    · intro hoccupied
      have := hoccupied.1
      omega
    · exact hs.free.congr (fun j => by simp [hnone j]) fun _ _ => rfl
  · have hge := hs.free.free_ge
    obtain ⟨i, hi⟩ : ∃ i : Nat, s.freeSlot = i :=
      ⟨s.freeSlot.toNat, by rw [noPosition] at hfree; omega⟩
    obtain ⟨hvacant, hpop⟩ := hs.free.pop hi
      (fun j => Iff.rfl : ∀ j, (s.Vacant j ∧ j ≠ i) ↔ s.Vacant j ∧ j ≠ i)
    have hlt := hs.lt_capacity hvacant.1
    have hclash := hs.clashesItem hlt
    rw [← hi] at hclash
    refine ⟨i, s.lastPosition, freeOffset - s.clash i, ?_,
      Or.inl ⟨rfl, hvacant.1⟩, hlt, ?_, hpop⟩
    · simp [takeFreePosition, hfree, hclash, ← hi]
    · intro hoccupied
      exact absurd hvacant.2 (Int.not_le.mpr hoccupied.2)

/-- A new item and its key at a free position, or behind the last one. -/
theorem exists_insertFree (hroom : s.count < s.capacity)
    {k : Key K} {v : G}
    (habsent : ∀ j, s.Occupied j → E.same k (s.key j) = false)
    (hagree : KeyStorage.Agrees kind v k) :
    ∃ i l f t, s.takeFreePosition =
        some (i, { s with lastPosition := l, freeSlot := f }) ∧
      insertAt { s with lastPosition := l, freeSlot := f } v k i
          (s.bucketOf gen k : Nat) = some { s with toSparseStorage := t } ∧
      Stored E kind t ∧ (∃ j, Inserted s.toSparseStorage t j k v) ∧
      t.count = s.count + 1 ∧ t.capacity = s.capacity ∧
      s.lastPosition ≤ t.lastPosition := by
  obtain ⟨i, l, f, htake, hl, hcap, hnot, hf⟩ := exists_takeFreePosition hs hroom
  obtain ⟨t, hrun, ht, hinserted, hrest⟩ :=
    @exists_insertAt _ _ _ _ _ _ hs { s with lastPosition := l, freeSlot := f }
      l f i k v rfl hl hcap hnot hf habsent hagree
  exact ⟨i, l, f, t, htake, hrun, ht, ⟨i, hinserted⟩, hrest⟩

/-- A new item and its key behind the last position. -/
theorem exists_insertLast (hroom : s.lastPosition + 1 < s.capacity) {k : Key K} {v : G}
    (habsent : ∀ j, s.Occupied j → E.same k (s.key j) = false)
    (hagree : KeyStorage.Agrees kind v k) :
    ∃ t, insertAt { s with lastPosition := s.lastPosition + 1 } v k
          (s.lastPosition + 1) (s.bucketOf gen k : Nat) =
        some { s with toSparseStorage := t } ∧
      Stored E kind t ∧ (∃ j, Inserted s.toSparseStorage t j k v) ∧
      t.count = s.count + 1 ∧ t.capacity = s.capacity ∧
      s.lastPosition ≤ t.lastPosition := by
  have hlast := hs.last_ge
  obtain ⟨i, hi⟩ : ∃ i : Nat, s.lastPosition + 1 = i :=
    ⟨(s.lastPosition + 1).toNat, by omega⟩
  have hnot : ∀ j : Nat, (j : Int) ≤ s.lastPosition → j ≠ i := by
    intro j hj
    omega
  obtain ⟨t, hrun, ht, hinserted, hrest⟩ :=
    @exists_insertAt _ _ _ _ _ _ hs { s with lastPosition := s.lastPosition + 1 }
      (s.lastPosition + 1) s.freeSlot i k v rfl (Or.inr ⟨rfl, hi⟩) (by omega)
      (fun h => hnot i h.1 rfl)
      (hs.free.congr (fun j => and_iff_left_of_imp fun h => hnot j h.1)
        fun _ _ => rfl) habsent hagree
  rw [hi] at hrun ⊢
  exact ⟨t, hrun, ht, ⟨i, hinserted⟩, hrest⟩

end

/-- `t` is `s` with the item `v` at the occupied position `p`, whose key stays
or becomes `k`. -/
structure Replaced (s t : SparseStorage G K) (p : Nat) (k : Key K) (v : G) :
    Prop where
  occupied : ∀ j, t.Occupied j ↔ s.Occupied j
  key_eq : t.key p = s.key p ∨ t.key p = k
  item_eq : t.itemStorageItem p = some v
  keep : ∀ j, s.Occupied j → j ≠ p →
    t.key j = s.key j ∧ t.itemStorageItem j = s.itemStorageItem j

/-- Replacing the item at an occupied position by one with an equal key. -/
theorem exists_itemStoragePut {s : SparseContainer G K}
    (hs : Stored E kind s.toSparseStorage) {p : Nat} (hp : s.Occupied p)
    {k : Key K} {v : G} (hsame : E.same k (s.key p) = true)
    (hagree : KeyStorage.Agrees kind v k) :
    ∃ t, s.itemStoragePut v p = some { s with toSparseStorage := t } ∧
      Stored E kind t ∧ Replaced s.toSparseStorage t p k v ∧
      t.count = s.count ∧ t.capacity = s.capacity ∧
      t.lastPosition = s.lastPosition := by
  have hcount := hs.items_count
  have hcapacity := hs.items_capacity
  have hlast := hp.1
  have hlt := hs.lt_capacity hlast
  obtain ⟨items, hput, hcount', hcapacity', hnew, hkept, hchanged, hold⟩ :=
    @KeyStorage.exists_putItem _ _ s.itemStorage s.keyStorage v p (by omega)
      (by omega)
  let t : SparseStorage G K := { s.toSparseStorage with itemStorage := items }
  have hkey : t.key p = s.key p ∨ t.key p = k := by
    cases hkind : s.keyStorage.kind with
    | none => exact Or.inl (congrArg (·.getD none) (hkept hkind))
    | some key =>
        refine Or.inr ((congrArg (·.getD none) (hchanged key hkind)).trans ?_)
        exact hagree key (hs.kind_eq ▸ hkind)
  have hkeep : ∀ j, s.Occupied j → j ≠ p →
      t.key j = s.key j ∧ t.itemStorageItem j = s.itemStorageItem j := by
    intro j hj hne
    have := hj.1
    have := hold j (by omega) hne
    exact ⟨congrArg (·.getD none) this.2, this.1⟩
  have hsameKey : ∀ j, s.Occupied j → E.same (t.key j) (s.key j) = true := by
    intro j hj
    by_cases hne : j = p
    · subst hne
      rcases hkey with hkey | hkey
      · rw [hkey]
        exact E.refl _
      · rw [hkey]
        exact hsame
    · rw [(hkeep j hj hne).1]
      exact E.refl _
  refine ⟨t, by simp [itemStoragePut, hput, t], ?_,
    ⟨fun _ => Iff.rfl, hkey, hnew, hkeep⟩, rfl, rfl, rfl⟩
  exact {
    capacity_le := hs.capacity_le
    modulus_eq := hs.modulus_eq
    slots_count := hs.slots_count
    slots_capacity := hs.slots_capacity
    clashes_count := hs.clashes_count
    clashes_capacity := hs.clashes_capacity
    items_count := by simp only [t, hcount']; exact hcount
    items_capacity := hcapacity' ▸ hs.items_capacity
    keys_fit := by
      simp only [t, hcount', hcapacity']
      exact hs.keys_fit
    kind_eq := hs.kind_eq
    last_lt := hs.last_lt
    beyond := hs.beyond
    buckets := hs.buckets.congr (fun _ => Iff.rfl) (fun _ _ => rfl) fun j hj =>
      E.bucketOf_eq _ (hsameKey j hj)
    free := hs.free
    distinct := by
      intro i j hi hj heq
      refine hs.distinct i j hi hj ?_
      exact E.trans _ _ _ (E.symm _ _ (hsameKey i hi))
        (E.trans _ _ _ heq (hsameKey j hj))
    count_eq := hs.count_eq }

end SparseContainer

end Gobo
