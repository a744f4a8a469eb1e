/-
The representation invariant of sparse containers: the buckets cover exactly
the occupied positions, the free list exactly the free positions at or below
`last_position`, and no two occupied positions hold equal keys.
-/
import Gobo.Buckets
import Gobo.SparseTable

namespace Gobo

open List

variable {G K : Type}

/-- A key equality that the hash function and the reserved slot of Void are
compatible with. -/
structure KeyEquality (gen : SparseGenerics G K) where
  same : KeyTester K
  refl : ∀ k, same k k = true
  symm : ∀ k l, same k l = true → same l k = true
  trans : ∀ k l m, same k l = true → same l m = true → same k m = true
  hashCode_eq : ∀ k l, same (some k) (some l) = true →
    gen.hashCode k = gen.hashCode l
  ne_void : ∀ k, same (some k) none = false

/-- The largest capacity for which `new_modulus` exceeds no `INTEGER`. -/
def maximumCapacity : Int := 715827881

theorem newModulus_eq {n : Int} (hpos : 0 ≤ n) (hn : n ≤ maximumCapacity) :
    newModulus n = (n + 1) * 3 / 2 := by
  rw [maximumCapacity] at hn
  rw [newModulus, int32_of_mem (by omega) (by omega),
    Int.tdiv_eq_ediv_of_nonneg (by omega)]

theorem newCapacity_eq {n : Int} (hpos : 0 ≤ n) (hn : 2 * n < 2 ^ 31) :
    newCapacity n = 2 * n := by
  rw [newCapacity, int32_of_mem (by omega) (by omega)]

/-- The bucket of a key where the modulus is positive. -/
def SparseStorage.bucketOf (gen : SparseGenerics G K) (s : SparseStorage G K) :
    Key K → Nat
  | some k => gen.hashCode k % s.modulus.toNat
  | none => s.modulus.toNat

namespace KeyEquality

variable {gen : SparseGenerics G K} (E : KeyEquality gen)

theorem comm (k l : Key K) : E.same k l = E.same l k :=
  Bool.eq_iff_iff.mpr ⟨E.symm k l, E.symm l k⟩

theorem eq_none_of_same {l : Key K} (h : E.same none l = true) : l = none := by
  cases l with
  | none => rfl
  | some l => simp [E.comm none, E.ne_void] at h

theorem bucketOf_eq (s : SparseStorage G K) {k l : Key K}
    (h : E.same k l = true) : s.bucketOf gen k = s.bucketOf gen l := by
  cases k with
  | none => rw [E.eq_none_of_same h]
  | some k =>
      cases l with
      | none => simp [E.ne_void] at h
      | some l => simp [SparseStorage.bucketOf, E.hashCode_eq k l h]

end KeyEquality

namespace KeyStorage

/-- The function from items to keys, if the items are the keys. -/
def kind : KeyStorage G K → Option (G → Key K)
  | separate _ => none
  | items key => some key

/-- Keys stored apart are stored at the positions of the items. -/
def Fits (s : KeyStorage G K) (n capacity : Nat) : Prop :=
  match s with
  | separate area => area.count = n ∧ area.capacity = capacity
  | items _ => True

/-- Storing `v` and `k` at one position makes `k` the key at it. -/
def Agrees (kind : Option (G → Key K)) (v : G) (k : Key K) : Prop :=
  ∀ key, kind = some key → key v = k

/-- What storing an item and its key at position `i` does. -/
theorem exists_store {items : Special G} {keys : KeyStorage G K} {v : G}
    {k : Key K} {i : Nat} (hfit : keys.Fits items.count items.capacity)
    (hagree : Agrees keys.kind v k) (hi : i ≤ items.count)
    (hcap : i < items.capacity) :
    ∃ items' keys', items.force v i = some items' ∧
      keys.put k i = some keys' ∧
      items'.count = max items.count (i + 1) ∧
      items'.capacity = items.capacity ∧
      keys'.Fits items'.count items'.capacity ∧
      keys'.kind = keys.kind ∧
      items'.item i = some v ∧ keys'.item items' i = some k ∧
      (∀ j : Nat, j < items.count → j ≠ i →
        keys.item items' j = keys.item items j) ∧
      ∀ j : Nat, j < items.count → j ≠ i → items'.item j = items.item j ∧
        keys'.item items' j = keys.item items j := by
  obtain ⟨items', hforce, hcount, hcapacity, hnew, hold⟩ :=
    items.exists_force v hi hcap
  cases keys with
  | separate area =>
      obtain ⟨area', hput, hcount', hcapacity', hnew', hold'⟩ :=
        area.exists_force k (hfit.1 ▸ hi) (hfit.2 ▸ hcap)
      refine ⟨items', .separate area', hforce, by simp [put, hput], hcount,
        hcapacity, ⟨by rw [hcount', hfit.1, hcount],
          by rw [hcapacity', hfit.2, hcapacity]⟩, rfl, hnew, hnew',
        fun _ _ _ => rfl, ?_⟩
      intro j hj hne
      exact ⟨hold j hj hne, hold' j (hfit.1 ▸ hj) hne⟩
  | items key =>
      refine ⟨items', .items key, hforce, rfl, hcount, hcapacity, trivial,
        rfl, hnew, ?_, ?_, ?_⟩
      · simp [item, hnew, hagree key rfl]
      · intro j hj hne
        simp [item, hold j hj hne]
      · intro j hj hne
        exact ⟨hold j hj hne, by simp [item, hold j hj hne]⟩

/-- What replacing the item at an existing position does. -/
theorem exists_putItem {items : Special G} {keys : KeyStorage G K} (v : G)
    {i : Nat} (hi : i < items.count) (hcap : i < items.capacity) :
    ∃ items', items.force v i = some items' ∧
      items'.count = items.count ∧ items'.capacity = items.capacity ∧
      items'.item i = some v ∧
      (keys.kind = none → keys.item items' i = keys.item items i) ∧
      (∀ key, keys.kind = some key → keys.item items' i = some (key v)) ∧
      ∀ j : Nat, j < items.count → j ≠ i → items'.item j = items.item j ∧
        keys.item items' j = keys.item items j := by
  obtain ⟨items', hforce, hcount, hcapacity, hnew, hold⟩ :=
    items.exists_force v (Nat.le_of_lt hi) hcap
  rw [Nat.max_eq_left hi] at hcount
  refine ⟨items', hforce, hcount, hcapacity, hnew, ?_, ?_, ?_⟩
  · intro hkind
    cases keys with
    | separate area => rfl
    | items key => simp [kind] at hkind
  · intro key hkind
    cases keys with
    | separate area => simp [kind] at hkind
    | items key' =>
        obtain rfl : key' = key := Option.some.inj hkind
        simp [item, hnew]
  · intro j hj hne
    refine ⟨hold j hj hne, ?_⟩
    cases keys with
    | separate area => rfl
    | items key => simp [item, hold j hj hne]

/-- What replacing the key at an existing position does. -/
theorem exists_putKey {items : Special G} {keys : KeyStorage G K} (k : Key K)
    {i : Nat} (hfit : keys.Fits items.count items.capacity)
    (hi : i < items.count) (hcap : i < items.capacity) :
    ∃ keys', keys.put k i = some keys' ∧
      keys'.Fits items.count items.capacity ∧ keys'.kind = keys.kind ∧
      ∀ j : Nat, j < items.count → j ≠ i →
        keys'.item items j = keys.item items j := by
  cases keys with
  | separate area =>
      obtain ⟨area', hput, hcount, hcapacity, _, hold⟩ :=
        area.exists_force k (hfit.1 ▸ Nat.le_of_lt hi) (hfit.2 ▸ hcap)
      refine ⟨.separate area', by simp [put, hput], ⟨?_, ?_⟩, rfl, ?_⟩
      · rw [hcount, hfit.1, Nat.max_eq_left hi]
      · rw [hcapacity, hfit.2]
      · intro j hj hne
        exact hold j (hfit.1 ▸ hj) hne
  | items key => exact ⟨.items key, rfl, trivial, rfl, fun _ _ _ => rfl⟩

/-- What keeping the first `n` items and keys does. -/
theorem exists_keepHead {items : Special G} {keys : KeyStorage G K} {n : Nat}
    (hfit : keys.Fits items.count items.capacity) (hn : n ≤ items.count) :
    ∃ items' keys', items.keepHead n = some items' ∧
      keys.keepHead n = some keys' ∧ items'.count = n ∧
      items'.capacity = items.capacity ∧
      keys'.Fits items'.count items'.capacity ∧ keys'.kind = keys.kind ∧
      ∀ j : Nat, j < n → items'.item j = items.item j ∧
        keys'.item items' j = keys.item items j := by
  obtain ⟨items', hkeep, hcount, hcapacity, hold⟩ := items.exists_keepHead hn
  cases keys with
  | separate area =>
      obtain ⟨area', hkeep', hcount', hcapacity', hold'⟩ :=
        area.exists_keepHead (hfit.1 ▸ hn)
      refine ⟨items', .separate area', hkeep, by simp [keepHead, hkeep'],
        hcount, hcapacity, ⟨by rw [hcount', hcount],
          by rw [hcapacity', hfit.2, hcapacity]⟩, rfl, ?_⟩
      intro j hj
      exact ⟨hold j hj, hold' j hj⟩
  | items key =>
      refine ⟨items', .items key, hkeep, rfl, hcount, hcapacity, trivial, rfl, ?_⟩
      intro j hj
      exact ⟨hold j hj, by simp [item, hold j hj]⟩

theorem exists_item {items : Special G} {keys : KeyStorage G K} {i : Nat}
    (hfit : keys.Fits items.count items.capacity) (hi : i < items.count) :
    ∃ v k, items.item i = some v ∧ keys.item items i = some k := by
  have hitem : ∃ v, items.item i = some v :=
    ⟨_, items.item_natCast i |>.trans (getElem?_eq_getElem hi)⟩
  obtain ⟨v, hv⟩ := hitem
  cases keys with
  | separate area =>
      have hi' : i < area.count := hfit.1 ▸ hi
      exact ⟨v, _, hv, area.item_natCast i |>.trans (getElem?_eq_getElem hi')⟩
  | items key => exact ⟨v, key v, hv, by simp [item, hv]⟩

@[simp]
theorem item_resize (items : Special G) (keys : KeyStorage G K) (n : Nat) (i : Int) :
    (keys.resize n).item (items.aliasedResizedArea n) i = keys.item items i := by
  cases keys <;> simp [resize, item]

@[simp]
theorem kind_resize (keys : KeyStorage G K) (n : Nat) :
    (keys.resize n).kind = keys.kind := by
  cases keys <;> rfl

theorem fits_resize {items : Special G} {keys : KeyStorage G K} {n : Nat}
    (hfit : keys.Fits items.count items.capacity) (hn : items.capacity ≤ n) :
    (keys.resize n).Fits (items.aliasedResizedArea n).count
      (items.aliasedResizedArea n).capacity := by
  cases keys with
  | separate area =>
      refine ⟨?_, ?_⟩
      · rw [Special.count_aliasedResizedArea, Special.count_aliasedResizedArea]
        exact hfit.1
      · rw [Special.capacity_aliasedResizedArea _ hn,
          Special.capacity_aliasedResizedArea _ (hfit.2 ▸ hn)]
  | items key => trivial

end KeyStorage

namespace SparseStorage

/-! ### The arrays as functions of the position -/

section

variable (s : SparseStorage G K)

def clash (i : Nat) : Int := s.clashes.get noPosition i

def slot (h : Nat) : Int := s.slots.get noPosition h

def key (i : Nat) : Key K := (s.keyStorageItem i).getD none

/-- There is an item at position `i`. -/
def Occupied (i : Nat) : Prop :=
  (i : Int) ≤ s.lastPosition ∧ freeWatermark < s.clash i

/-- Position `i` was given back and lies at or below `last_position`. -/
def Vacant (i : Nat) : Prop := (i : Int) ≤ s.lastPosition ∧ s.clash i ≤ freeWatermark

/-- The occupied positions in increasing order. -/
def positions : List Nat := (range (s.lastPosition + 1).toNat).filter
    fun i => decide (freeWatermark < s.clash i)

end

/-- The representation invariant. -/
structure Stored {gen : SparseGenerics G K} (E : KeyEquality gen)
    (kind : Option (G → Key K)) (s : SparseStorage G K) : Prop where
  capacity_le : s.capacity ≤ maximumCapacity
  modulus_eq : s.modulus = newModulus s.capacity
  slots_count : (s.slots.count : Int) = s.modulus + 1
  slots_capacity : (s.slots.capacity : Int) = s.modulus + 1
  clashes_count : (s.clashes.count : Int) = s.capacity
  clashes_capacity : (s.clashes.capacity : Int) = s.capacity
  items_count : (s.itemStorage.count : Int) = s.lastPosition + 1
  items_capacity : (s.itemStorage.capacity : Int) = s.capacity
  keys_fit : s.keyStorage.Fits s.itemStorage.count s.itemStorage.capacity
  kind_eq : s.keyStorage.kind = kind
  last_lt : s.lastPosition < s.capacity
  beyond : ∀ i : Nat, s.lastPosition < i → s.clash i = noPosition
  buckets : Buckets (s.bucketOf gen) (s.modulus.toNat + 1) s.key s.clash s.slot
    s.Occupied
  free : FreeList freeOffset s.clash s.freeSlot s.Vacant
  distinct : ∀ i j, s.Occupied i → s.Occupied j →
    E.same (s.key i) (s.key j) = true → i = j
  count_eq : s.count = s.positions.length

theorem mem_positions (s : SparseStorage G K) (i : Nat) :
    i ∈ s.positions ↔ s.Occupied i := by
  simp only [positions, mem_filter, mem_range, decide_eq_true_eq,
    Occupied, and_congr_left_iff]
  omega

theorem positions_congr {s t : SparseStorage G K}
    (hlast : t.lastPosition = s.lastPosition)
    (hoccupied : ∀ j, t.Occupied j ↔ s.Occupied j) :
    t.positions = s.positions := by
  rw [positions, positions, hlast]
  apply filter_congr
  intro j hj
  have hle : (j : Int) ≤ s.lastPosition := by
    rw [mem_range] at hj
    omega
  have := hoccupied j
  simp only [Occupied, hlast, hle, true_and] at this
  simp only [this]

theorem positions_nodup (s : SparseStorage G K) : s.positions.Nodup :=
  nodup_range.filter _

end SparseStorage

end Gobo
