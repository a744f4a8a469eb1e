/-
The search of sparse containers: it never fails, it finds exactly the keys that
are there, and unless it keeps the position found last, the predecessor it
remembers leads to the position it found.
-/
import Gobo.SparseInsertion

namespace Gobo

open List

variable {G K : Type} {gen : SparseGenerics G K} {E : KeyEquality gen}
  {kind : Option (G → Key K)}

namespace SparseContainer

open SparseStorage

/-- `slots_position` and `clashes_previous_position` lead to the occupied
position `p`. -/
def Linked (u : SparseStorage G K) (p : Nat) (slotsPosition prev : Int) : Prop :=
  (prev = noPosition ∧ ∃ h ≤ u.modulus.toNat, slotsPosition = (h : Nat) ∧ u.slot h = p) ∨
    ∃ q, prev = (q : Nat) ∧ u.Occupied q ∧ u.clash q = p

theorem linked_of_positionLinked {s : SparseContainer G K}
    (hs : Stored E kind s.toSparseStorage) {p : Nat} (hp : s.position = p)
    (hlinked : s.PositionLinked) :
    Linked s.toSparseStorage p s.slotsPosition s.clashesPreviousPosition := by
  unfold PositionLinked at hlinked
  split at hlinked
  · rename_i hprev
    have hindex : 0 ≤ s.slotsPosition := by
      by_contra hneg
      rw [SparseStorage.slotsItem,
        Special.item_eq_none_of_neg _ (by omega)] at hlinked
      exact absurd hlinked (by simp)
    obtain ⟨h, hh⟩ : ∃ h : Nat, s.slotsPosition = h :=
      ⟨s.slotsPosition.toNat, by omega⟩
    rw [SparseStorage.slotsItem, hh, Special.item_natCast,
      getElem?_eq_some_iff] at hlinked
    obtain ⟨hlt, hget⟩ := hlinked
    have hcount := hs.slots_count
    simp only [Special.count] at hcount
    have hle : h ≤ s.modulus.toNat := by omega
    have hslot := hs.slotsItem hle
    rw [SparseStorage.slotsItem, Special.item_natCast,
      getElem?_eq_getElem hlt, Option.some.injEq, hget, hp] at hslot
    exact Or.inl ⟨hprev, h, hle, hh, hslot.symm⟩
  · have hindex : 0 ≤ s.clashesPreviousPosition := by
      by_contra hneg
      rw [SparseStorage.clashesItem,
        Special.item_eq_none_of_neg _ (by omega)] at hlinked
      exact absurd hlinked (by simp)
    obtain ⟨q, hq⟩ : ∃ q : Nat, s.clashesPreviousPosition = q :=
      ⟨s.clashesPreviousPosition.toNat, by omega⟩
    rw [SparseStorage.clashesItem, hq, Special.item_natCast,
      getElem?_eq_some_iff] at hlinked
    obtain ⟨hlt, hget⟩ := hlinked
    have hcount := hs.clashes_count
    simp only [Special.count] at hcount
    have hclash := hs.clashesItem (by omega : q < s.capacity)
    rw [SparseStorage.clashesItem, Special.item_natCast,
      getElem?_eq_getElem hlt, Option.some.injEq, hget, hp] at hclash
    refine Or.inr ⟨q, hq, ⟨?_, ?_⟩, hclash.symm⟩
    · by_contra hbeyond
      have := hs.beyond q (by omega)
      rw [noPosition] at this
      omega
    · rw [← hclash, freeWatermark]
      omega

section Search

variable [DecidableEq K]

/-- The invariant of a container between two calls. -/
structure WellFormed (E : KeyEquality gen) (kind : Option (G → Key K))
    (s : SparseContainer G K) : Prop where
  stored : Stored E kind s.toSparseStorage
  tester : ∀ k l, s.sameKeys k l = E.same k l
  position : s.position = noPosition ∨
    ∃ p : Nat, s.position = p ∧ (p : Int) ≤ s.lastPosition
  cursors : ∃ cs, s.cursors.Listed cs

theorem searchClash_eq {s : SparseContainer G K} {u : SparseStorage G K}
    (hu : Stored E kind u) (hs : s.toSparseStorage = u) (k : Key K) {j : Nat}
    (hj : (j : Int) ≤ u.lastPosition) (p prev : Int) :
    s.searchClash k ⟨j, p, prev⟩ =
      some (if s.sameKeys k (u.key j) then ⟨noPosition, j, prev⟩
        else ⟨u.clash j, p, j⟩) := by
  subst hs
  have hkey := hu.keyStorageItem hj
  have hclash := hu.clashesItem (hu.lt_capacity hj)
  simp only [searchClash, hkey, hclash, some_bind, Option.pure_def]
  split <;> rfl

/-- The search loop ends on the first cell of a bucket whose key is equal to
the one looked for. -/
theorem searchClashes_chain {u : SparseStorage G K} (hu : Stored E kind u)
    {s : SparseContainer G K} (hs : s.toSparseStorage = u) (k : Key K)
    {cells : List Nat} {i prev : Int} {fuel : Nat}
    (hcells : ∀ j ∈ cells, (j : Int) ≤ u.lastPosition ∧ -1 ≤ u.clash j)
    (hi : -1 ≤ i) (hchain : Chain (fun j => ref (u.clash j)) (ref i) cells)
    (hfuel : cells.length < fuel) :
    ∃ p prev', loopUntil (fun l => some (l.i == noPosition)) (s.searchClash k)
        fuel ⟨i, noPosition, prev⟩ = some ⟨noPosition, p, prev'⟩ ∧
      ((p = noPosition ∧ ∀ j ∈ cells, s.sameKeys k (u.key j) = false) ∨
        ∃ j ∈ cells, p = j ∧ s.sameKeys k (u.key j) = true ∧
          ((i = j ∧ prev' = prev) ∨
            ∃ q ∈ cells, prev' = (q : Nat) ∧ u.clash q = j)) := by
  induction cells generalizing i prev fuel with
  | nil =>
      obtain rfl : i = -1 := eq_of_ref_eq_none hi hchain
      obtain ⟨fuel, rfl⟩ : ∃ n, fuel = n + 1 := ⟨fuel - 1, by omega⟩
      exact ⟨noPosition, prev, loopUntil_of_stop rfl, Or.inl ⟨rfl, by simp⟩⟩
  | cons j cells ih =>
      obtain rfl : i = j := eq_of_ref_eq_some hchain.1
      obtain ⟨hlast, hlink⟩ := hcells j mem_cons_self
      rw [length_cons] at hfuel
      obtain ⟨fuel, rfl⟩ : ∃ n, fuel = n + 2 := ⟨fuel - 2, by omega⟩
      have hgo : (some ((j : Int) == noPosition) : Option Bool) = some false := by
        simp [noPosition]
      have hturn := searchClash_eq hu hs k hlast noPosition prev
      by_cases hsame : s.sameKeys k (u.key j) = true
      · rw [if_pos hsame] at hturn
        refine ⟨j, prev, (loopUntil_of_go ?_ hturn).trans
          (loopUntil_of_stop rfl), Or.inr ⟨j, mem_cons_self, rfl, hsame,
          Or.inl ⟨rfl, rfl⟩⟩⟩
        exact hgo
      · rw [if_neg hsame] at hturn
        obtain ⟨p, prev', hrun, hcases⟩ := @ih (u.clash j) j (fuel + 1)
          (fun l hl => hcells l (mem_cons_of_mem j hl)) hlink hchain.2
          (by omega)
        refine ⟨p, prev', (loopUntil_of_go ?_ hturn).trans hrun, ?_⟩
        · exact hgo
        · rcases hcases with ⟨hp, hnone⟩ | ⟨l, hl, hp, hl', hprev⟩
          · refine Or.inl ⟨hp, ?_⟩
            simpa [hsame] using hnone
          · refine Or.inr ⟨l, mem_cons_of_mem j hl, hp, hl', Or.inr ?_⟩
            rcases hprev with ⟨hclash, rfl⟩ | ⟨q, hq, hprev, hclash⟩
            · exact ⟨j, mem_cons_self, rfl, hclash⟩
            · exact ⟨q, mem_cons_of_mem j hq, hprev, hclash⟩

/-- What `search_position` finds in the bucket of `k`. -/
theorem exists_searchBucket {u : SparseStorage G K} (hu : Stored E kind u)
    {s : SparseContainer G K} (hs : s.toSparseStorage = u) (k : Key K) :
    ∃ p prev : Int, s.searchBucket gen k = some { s with
        position := p
        slotsPosition := (u.bucketOf gen k : Nat)
        clashesPreviousPosition := prev } ∧
      ((p = noPosition ∧ ∀ j, u.Occupied j →
          u.bucketOf gen (u.key j) = u.bucketOf gen k →
          s.sameKeys k (u.key j) = false) ∨
        ∃ j : Nat, p = j ∧ u.Occupied j ∧ s.sameKeys k (u.key j) = true ∧
          Linked u j (u.bucketOf gen k : Nat) prev) := by
  have hh := hu.bucketOf_le k
  obtain ⟨cells, hchain, hmem⟩ := hu.buckets.chain _ hh
  have hoccupied : ∀ j ∈ cells, u.Occupied j := fun j hj => ((hmem j).mp hj).1
  have hlength := hchain.length_le fun j hj =>
    hu.lt_clashes_count (hoccupied j hj).1
  obtain ⟨p, prev, hrun, hcases⟩ := @searchClashes_chain _ _ _ _ _ _ u hu s hs
    k cells _ noPosition (u.clashes.count + 2)
    (fun j hj => ⟨(hoccupied j hj).1, hu.buckets.clash_ge j (hoccupied j hj)⟩)
    (hu.buckets.slot_ge _ hh) hchain (by omega)
  refine ⟨p, prev, ?_, ?_⟩
  · subst hs
    have hslot := hu.slotsItem (by omega : s.bucketOf gen k ≤ s.modulus.toNat)
    simp [searchBucket, searchClashes, hu.hashPosition_eq, hslot, hrun]
  · rcases hcases with ⟨hp, hnone⟩ | ⟨j, hj, hp, hsame, hprev⟩
    · exact Or.inl ⟨hp, fun j hj hhash => hnone j ((hmem j).mpr ⟨hj, hhash⟩)⟩
    · refine Or.inr ⟨j, hp, hoccupied j hj, hsame, ?_⟩
      rcases hprev with ⟨hslot, rfl⟩ | ⟨q, hq, hprev, hclash⟩
      · exact Or.inl ⟨rfl, _, by omega, rfl, hslot⟩
      · exact Or.inr ⟨q, hprev, hoccupied q hq, hclash⟩

/-- May the position found last answer for `k`? -/
theorem isCached_eq {s : SparseContainer G K} (hs : Stored E kind s.toSparseStorage)
    (hposition : s.position = noPosition ∨
      ∃ p : Nat, s.position = p ∧ (p : Int) ≤ s.lastPosition) (k : Key K) :
    ∃ b, s.isCached k = some b ∧
      (b = true ↔ ∃ p : Nat, s.position = p ∧ s.Occupied p ∧
        s.sameKeys k (s.key p) = true) := by
  rcases hposition with hnone | ⟨p, hp, hlast⟩
  · refine ⟨false, by simp [isCached, hnone], ?_⟩
    simp only [Bool.false_eq_true, false_iff, not_exists, not_and]
    intro p hp
    rw [hnone, noPosition] at hp
    omega
  · have hne : s.position ≠ noPosition := by
      rw [hp, noPosition]
      omega
    have hclash := hs.clashesItem (hs.lt_capacity hlast)
    have hkey := hs.keyStorageItem hlast
    rw [← hp] at hclash hkey
    by_cases hfree : s.clash p ≤ freeWatermark
    · refine ⟨false, by simp [isCached, hne, hclash, hfree], ?_⟩
      simp only [Bool.false_eq_true, false_iff, not_exists, not_and]
      rintro q hq ⟨_, hoccupied⟩
      obtain rfl : p = q := by omega
      omega
    · refine ⟨s.sameKeys k (s.key p), by
        simp [isCached, hne, hclash, hfree, hkey], ?_⟩
      constructor
      · intro hsame
        exact ⟨p, hp, ⟨hlast, Int.not_le.mp hfree⟩, hsame⟩
      · rintro ⟨q, hq, _, hsame⟩
        obtain rfl : p = q := by omega
        exact hsame

/-- `search_position` fails on no key; it finds the position of the key, or
the bucket of a key that is not there. -/
theorem exists_searchPosition {s : SparseContainer G K}
    (hs : WellFormed E kind s) (k : Key K) :
    ∃ p sp prev : Int, s.searchPosition gen k = some { s with
        position := p
        slotsPosition := sp
        clashesPreviousPosition := prev } ∧
      ((p = noPosition ∧ sp = (s.bucketOf gen k : Nat) ∧
          ∀ j, s.Occupied j → E.same k (s.key j) = false) ∨
        ∃ j : Nat, p = j ∧ s.Occupied j ∧ E.same k (s.key j) = true ∧
          (Linked s.toSparseStorage j sp prev ∨
            s.isCached k = some true ∧ k ≠ none ∧ s.position = j ∧
              sp = s.slotsPosition ∧ prev = s.clashesPreviousPosition)) := by
  have hstored := hs.stored
  cases k with
  | none =>
      have hpos := hstored.modulus_pos
      have hcast : ((s.modulus.toNat : Nat) : Int) = s.modulus := by omega
      have hslot := hstored.slotsItem (Nat.le_refl s.modulus.toNat)
      rw [hcast] at hslot
      obtain ⟨cells, hchain, hmem⟩ := hstored.buckets.chain s.modulus.toNat (by omega)
      have hvoid : ∀ j ∈ cells, s.key j = none := by
        intro j hj
        have hhash := ((hmem j).mp hj).2
        cases hkey : s.key j with
        | none => rfl
        | some l =>
            have hlt := Nat.mod_lt (gen.hashCode l) (by omega : 0 < s.modulus.toNat)
            simp only [hkey, SparseStorage.bucketOf] at hhash
            omega
      refine ⟨s.slot s.modulus.toNat, s.modulus, noPosition, by
        simp [searchPosition, hslot], ?_⟩
      cases cells with
      | nil =>
          refine Or.inl ⟨eq_of_ref_eq_none
            (hstored.buckets.slot_ge s.modulus.toNat (by omega)) hchain,
            hcast.symm, ?_⟩
          intro j hj
          by_contra hsame
          have hkey := E.eq_none_of_same (by simpa using hsame)
          have := (hmem j).mpr ⟨hj, by rw [hkey, SparseStorage.bucketOf]⟩
          exact absurd this (by simp)
      | cons j cells =>
          have hslot := eq_of_ref_eq_some hchain.1
          have hj := ((hmem j).mp mem_cons_self).1
          refine Or.inr ⟨j, hslot, hj, ?_, Or.inl (Or.inl ⟨rfl, _,
            Nat.le_refl _, hcast.symm, hslot⟩)⟩
          rw [hvoid j mem_cons_self]
          exact E.refl none
  | some k =>
      obtain ⟨b, hb, hiff⟩ := isCached_eq hstored hs.position (some k)
      cases b with
      | true =>
          obtain ⟨j, hj, hoccupied, hsame⟩ := hiff.mp rfl
          rw [hs.tester] at hsame
          exact ⟨s.position, s.slotsPosition, s.clashesPreviousPosition, by
            simp [searchPosition, hb], Or.inr ⟨j, hj, hoccupied, hsame,
            Or.inr ⟨hb, by simp, hj, rfl, rfl⟩⟩⟩
      | false =>
          obtain ⟨p, prev, hrun, hcases⟩ := exists_searchBucket hstored rfl (some k)
          refine ⟨p, (s.bucketOf gen (some k) : Nat), prev, by
            simp [searchPosition, hb, hrun], ?_⟩
          rcases hcases with ⟨hp, hnone⟩ | ⟨j, hp, hoccupied, hsame, hlinked⟩
          · refine Or.inl ⟨hp, rfl, ?_⟩
            intro j hj
            by_contra hsame
            have hsame' : E.same (some k) (s.key j) = true := by
              simpa using hsame
            have hhash := E.bucketOf_eq s.toSparseStorage hsame'
            have := hnone j hj hhash.symm
            rw [hs.tester] at this
            exact hsame this
          · rw [hs.tester] at hsame
            exact Or.inr ⟨j, hp, hoccupied, hsame, Or.inl hlinked⟩

end Search

end SparseContainer

end Gobo
