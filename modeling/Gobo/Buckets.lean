/-
Hash buckets and a free list threaded through one array of links.  Links are
integers, -1 ending a chain; the link of a free cell is stored below -1 so that
its sign tells it from the link of a cell in a bucket.
-/
import Gobo.LinkChain

namespace Gobo

open List Function

universe u

variable {K : Type u}

/-- The cell a link leads to. -/
def ref (p : Int) : Option Nat :=
  if 0 ≤ p then some p.toNat else none

@[simp]
theorem ref_natCast (i : Nat) : ref (i : Int) = some i := by
  simp [ref]

@[simp]
theorem ref_neg_one : ref (-1) = none := rfl

theorem eq_of_ref_eq_some {p : Int} {i : Nat} (h : ref p = some i) : p = i := by
  simp only [ref, Option.ite_none_right_eq_some, Option.some.injEq] at h
  omega

theorem eq_of_ref_eq_none {p : Int} (hp : -1 ≤ p) (h : ref p = none) : p = -1 := by
  simp only [ref, ite_eq_right_iff, reduceCtorEq, imp_false] at h
  omega

theorem ref_comp_update (f : Nat → Int) (i : Nat) (p : Int) :
    (fun j => ref (update f i p j)) = update (fun j => ref (f j)) i (ref p) := by
  funext j
  by_cases hj : j = i
  · subst j
    simp
  · simp [hj]

/-- Every bucket `h` below `size` is a chain from `slot h` through `clash`, and
it holds exactly the cells of `occ` whose key has hash value `h`. -/
structure Buckets (hash : K → Nat) (size : Nat) (key : Nat → K)
    (clash slot : Nat → Int) (occ : Nat → Prop) : Prop where
  slot_ge : ∀ h < size, -1 ≤ slot h
  clash_ge : ∀ i, occ i → -1 ≤ clash i
  chain : ∀ h < size, ∃ cells, Chain (fun i => ref (clash i)) (ref (slot h)) cells ∧
      ∀ i, i ∈ cells ↔ occ i ∧ hash (key i) = h

namespace Buckets

variable {hash : K → Nat} {size : Nat} {key key' : Nat → K}
  {clash clash' slot : Nat → Int} {occ occ' : Nat → Prop}

/-- Only the links and keys of the cells in the buckets matter. -/
theorem congr (b : Buckets hash size key clash slot occ) (hocc : ∀ i, occ' i ↔ occ i)
    (hclash : ∀ i, occ i → clash' i = clash i)
    (hkey : ∀ i, occ i → hash (key' i) = hash (key i)) :
    Buckets hash size key' clash' slot occ' := by
  refine ⟨b.slot_ge, ?_, ?_⟩
  · intro i hi
    rw [hocc] at hi
    rw [hclash i hi]
    exact b.clash_ge i hi
  · intro h hh
    obtain ⟨cells, hchain, hmem⟩ := b.chain h hh
    refine ⟨cells, hchain.congr ?_, ?_⟩
    · intro i hi
      show ref (clash' i) = ref (clash i)
      rw [hclash i ((hmem i).mp hi).1]
    · intro i
      rw [hmem, hocc]
      refine and_congr_right fun hi => ?_
      rw [hkey i hi]

theorem empty (hslot : ∀ h < size, slot h = -1) (hocc : ∀ i, ¬ occ i) :
    Buckets hash size key clash slot occ := by
  refine ⟨?_, fun i hi => absurd hi (hocc i), ?_⟩
  · intro h hh
    exact Int.le_of_eq (hslot h hh).symm
  · intro h hh
    refine ⟨[], ?_, ?_⟩
    · rw [hslot h hh]
      rfl
    · simp [hocc]

/-- A new cell in front of the bucket of its key. -/
theorem insert (b : Buckets hash size key clash slot occ) {i : Nat}
    (hi : ¬ occ i) (hkey : ∀ j, occ j → hash (key' j) = hash (key j))
    (hsize : hash (key' i) < size)
    (hocc : ∀ j, occ' j ↔ occ j ∨ j = i) :
    Buckets hash size key' (update clash i (slot (hash (key' i))))
      (update slot (hash (key' i)) i) occ' := by
  have hne : ∀ j, occ j → j ≠ i := by
    rintro j hj rfl
    exact hi hj
  refine ⟨?_, ?_, ?_⟩
  · intro h hh
    by_cases heq : h = hash (key' i)
    · subst heq
      simp only [update_self]
      omega
    · rw [update_of_ne heq]
      exact b.slot_ge h hh
  · intro j hj
    rcases (hocc j).mp hj with hold | rfl
    · rw [update_of_ne (hne j hold)]
      exact b.clash_ge j hold
    · rw [update_self]
      exact b.slot_ge _ hsize
  · intro h hh
    obtain ⟨cells, hchain, hmem⟩ := b.chain h hh
    have hnot : i ∉ cells := fun hin => hi ((hmem i).mp hin).1
    rw [ref_comp_update]
    by_cases heq : h = hash (key' i)
    · subst heq
      refine ⟨i :: cells, ?_, ?_⟩
      · rw [update_self, ref_natCast]
        exact hchain.push hnot
      · intro j
        rw [mem_cons, hmem, hocc]
        constructor
        · rintro (rfl | ⟨hj, hhash⟩)
          · exact ⟨Or.inr rfl, rfl⟩
          · exact ⟨Or.inl hj, (hkey j hj).trans hhash⟩
        · rintro ⟨hj | rfl, hhash⟩
          · exact Or.inr ⟨hj, (hkey j hj).symm.trans hhash⟩
          · exact Or.inl rfl
    · refine ⟨cells, ?_, ?_⟩
      · rw [update_of_ne heq]
        exact hchain.update_of_notMem hnot
      · intro j
        rw [hmem, hocc]
        constructor
        · rintro ⟨hj, hhash⟩
          exact ⟨Or.inl hj, (hkey j hj).trans hhash⟩
        · rintro ⟨hj | rfl, hhash⟩
          · exact ⟨hj, (hkey j hj).symm.trans hhash⟩
          · exact absurd hhash.symm heq

/-- Unlinking the first cell of a bucket. -/
theorem removeHead (b : Buckets hash size key clash slot occ) {h p : Nat}
    (hh : h < size) (hslot : slot h = p)
    (hocc : ∀ j, occ' j ↔ occ j ∧ j ≠ p) :
    Buckets hash size key clash (update slot h (clash p)) occ' := by
  obtain ⟨cells, hchain, hmem⟩ := b.chain h hh
  rw [hslot, ref_natCast] at hchain
  obtain ⟨rest, rfl⟩ : ∃ rest, cells = p :: rest := by
    cases cells with
    | nil => exact absurd hchain (by simp [Chain])
    | cons q rest => exact ⟨rest, by rw [← Option.some.inj hchain.1]⟩
  have hp := (hmem p).mp mem_cons_self
  have hnodup := nodup_cons.mp hchain.nodup
  refine ⟨?_, fun i hi => b.clash_ge i ((hocc i).mp hi).1, ?_⟩
  · intro h' hh'
    by_cases heq : h' = h
    · subst heq
      rw [update_self]
      exact b.clash_ge p hp.1
    · rw [update_of_ne heq]
      exact b.slot_ge h' hh'
  · intro h' hh'
    by_cases heq : h' = h
    · subst heq
      refine ⟨rest, ?_, ?_⟩
      · rw [update_self]
        exact hchain.2
      · intro j
        rw [hocc]
        constructor
        · intro hj
          have hjp : j ≠ p := by
            rintro rfl
            exact hnodup.1 hj
          have hj' := (hmem j).mp (mem_cons_of_mem p hj)
          exact ⟨⟨hj'.1, hjp⟩, hj'.2⟩
        · rintro ⟨⟨hj, hjp⟩, hhash⟩
          exact (mem_cons.mp ((hmem j).mpr ⟨hj, hhash⟩)).resolve_left hjp
    · obtain ⟨cells, hchain', hmem'⟩ := b.chain h' hh'
      refine ⟨cells, ?_, ?_⟩
      · rw [update_of_ne heq]
        exact hchain'
      · intro j
        rw [hmem', hocc]
        constructor
        · rintro ⟨hj, hhash⟩
          refine ⟨⟨hj, ?_⟩, hhash⟩
          rintro rfl
          exact heq (hhash.symm.trans hp.2)
        · rintro ⟨⟨hj, _⟩, hhash⟩
          exact ⟨hj, hhash⟩

/-- The position of a cell inside its bucket. -/
theorem split (b : Buckets hash size key clash slot occ) {q : Nat}
    (hq : occ q) (hsize : hash (key q) < size) :
    ∃ front back, Chain (fun i => ref (clash i)) (ref (slot (hash (key q))))
        (front ++ q :: back) ∧
      ∀ i, i ∈ front ++ q :: back ↔ occ i ∧ hash (key i) = hash (key q) := by
  obtain ⟨cells, hchain, hmem⟩ := b.chain _ hsize
  obtain ⟨front, back, rfl⟩ := append_of_mem ((hmem q).mpr ⟨hq, rfl⟩)
  exact ⟨front, back, hchain, hmem⟩

/-- A link between cells stays inside one bucket. -/
theorem of_clash_eq (b : Buckets hash size key clash slot occ) {p q : Nat}
    (hq : occ q) (hsize : hash (key q) < size) (hlink : clash q = p) :
    occ p ∧ hash (key p) = hash (key q) := by
  obtain ⟨front, back, hchain, hmem⟩ := b.split hq hsize
  have hrest : Chain (fun i => ref (clash i)) (ref (clash q)) back := hchain.suffix
  rw [hlink, ref_natCast] at hrest
  cases back with
  | nil => exact absurd hrest (by simp [Chain])
  | cons r back =>
      obtain rfl : p = r := Option.some.inj hrest.1
      exact (hmem p).mp (by simp)

/-- Unlinking the cell behind `q`. -/
theorem removeAfter (b : Buckets hash size key clash slot occ) {p q : Nat}
    (hq : occ q) (hsize : hash (key q) < size) (hlink : clash q = p)
    (hocc : ∀ j, occ' j ↔ occ j ∧ j ≠ p) :
    Buckets hash size key (update clash q (clash p)) slot occ' := by
  have hp := b.of_clash_eq hq hsize hlink
  refine ⟨b.slot_ge, ?_, ?_⟩
  · intro i hi
    by_cases heq : i = q
    · subst heq
      rw [update_self]
      exact b.clash_ge p hp.1
    · rw [update_of_ne heq]
      exact b.clash_ge i ((hocc i).mp hi).1
  · intro h hh
    rw [ref_comp_update]
    by_cases heq : h = hash (key q)
    · subst heq
      obtain ⟨front, back, hchain, hmem⟩ := b.split hq hsize
      have hrest : Chain (fun i => ref (clash i)) (ref (clash q)) back :=
        hchain.suffix
      rw [hlink, ref_natCast] at hrest
      cases back with
      | nil => exact absurd hrest (by simp [Chain])
      | cons r back =>
          obtain rfl : p = r := Option.some.inj hrest.1
          have hnodup : p ∉ front ++ q :: back := by
            have := hchain.nodup
            rw [append_cons, nodup_middle, nodup_cons] at this
            simpa using this.1
          refine ⟨front ++ q :: back, hchain.unlink, ?_⟩
          intro j
          rw [hocc, and_right_comm, ← hmem j]
          constructor
          · intro hj
            refine ⟨?_, ?_⟩
            · simp only [mem_append, mem_cons] at hj ⊢
              tauto
            · rintro rfl
              exact hnodup hj
          · rintro ⟨hj, hjp⟩
            simp only [mem_append, mem_cons] at hj ⊢
            tauto
    · obtain ⟨cells, hchain, hmem⟩ := b.chain h hh
      refine ⟨cells, hchain.update_of_notMem ?_, ?_⟩
      · intro hin
        exact heq ((hmem q).mp hin).2.symm
      · intro j
        rw [hmem, hocc]
        constructor
        · rintro ⟨hj, hhash⟩
          refine ⟨⟨hj, ?_⟩, hhash⟩
          rintro rfl
          exact heq (hhash.symm.trans hp.2)
        · rintro ⟨⟨hj, _⟩, hhash⟩
          exact ⟨hj, hhash⟩

end Buckets

/-- `fr` are the cells of a chain from `freeSlot`, whose links are stored as
`offset - link`. -/
structure FreeList (offset : Int) (clash : Nat → Int) (freeSlot : Int)
    (fr : Nat → Prop) : Prop where
  free_ge : -1 ≤ freeSlot
  clash_le : ∀ i, fr i → clash i ≤ offset + 1
  chain : ∃ cells, Chain (fun i => ref (offset - clash i)) (ref freeSlot) cells ∧
    ∀ i, i ∈ cells ↔ fr i

namespace FreeList

variable {offset : Int} {clash clash' : Nat → Int} {freeSlot : Int}
  {fr fr' : Nat → Prop}

theorem congr (f : FreeList offset clash freeSlot fr)
    (hfr : ∀ i, fr' i ↔ fr i) (hclash : ∀ i, fr i → clash' i = clash i) :
    FreeList offset clash' freeSlot fr' := by
  obtain ⟨cells, hchain, hmem⟩ := f.chain
  refine ⟨f.free_ge, ?_, cells, hchain.congr ?_, ?_⟩
  · intro i hi
    rw [hfr] at hi
    rw [hclash i hi]
    exact f.clash_le i hi
  · intro i hi
    show ref (offset - clash' i) = ref (offset - clash i)
    rw [hclash i ((hmem i).mp hi)]
  · intro i
    rw [hmem, hfr]

theorem empty (hfr : ∀ i, ¬ fr i) : FreeList offset clash (-1) fr :=
  ⟨Int.le_refl _, fun i hi => absurd hi (hfr i), [], rfl, by simp [hfr]⟩

theorem eq_neg_one_iff (f : FreeList offset clash freeSlot fr) :
    freeSlot = -1 ↔ ∀ i, ¬ fr i := by
  obtain ⟨cells, hchain, hmem⟩ := f.chain
  constructor
  · rintro rfl i hi
    rw [ref_neg_one] at hchain
    obtain rfl := hchain.eq_nil_of_none
    exact absurd ((hmem i).mpr hi) (by simp)
  · intro hnone
    cases cells with
    | nil => exact eq_of_ref_eq_none f.free_ge hchain
    | cons i cells => exact absurd ((hmem i).mp mem_cons_self) (hnone i)

theorem push (f : FreeList offset clash freeSlot fr) {p : Nat} (hp : ¬ fr p)
    (hfr : ∀ j, fr' j ↔ fr j ∨ j = p) :
    FreeList offset (update clash p (offset - freeSlot)) p fr' := by
  obtain ⟨cells, hchain, hmem⟩ := f.chain
  have hlinks : (fun i =>
      ref (offset - update clash p (offset - freeSlot) i)) =
      update (fun i => ref (offset - clash i)) p (ref freeSlot) := by
    funext j
    by_cases hj : j = p
    · subst hj
      rw [update_self, update_self, Int.sub_sub_self]
    · simp [hj]
  have hnot : p ∉ cells := fun hin => hp ((hmem p).mp hin)
  refine ⟨by omega, ?_, p :: cells, ?_, ?_⟩
  · intro i hi
    by_cases heq : i = p
    · subst heq
      have := f.free_ge
      rw [update_self]
      omega
    · rw [update_of_ne heq]
      exact f.clash_le i (((hfr i).mp hi).resolve_right heq)
  · rw [hlinks, ref_natCast]
    exact hchain.push hnot
  · intro j
    rw [mem_cons, hmem, hfr, or_comm]

theorem pop (f : FreeList offset clash freeSlot fr) {p : Nat}
    (hfree : freeSlot = p) (hfr : ∀ j, fr' j ↔ fr j ∧ j ≠ p) :
    fr p ∧ FreeList offset clash (offset - clash p) fr' := by
  obtain ⟨cells, hchain, hmem⟩ := f.chain
  rw [hfree, ref_natCast] at hchain
  cases cells with
  | nil => exact absurd hchain (by simp [Chain])
  | cons q rest =>
      obtain rfl : p = q := Option.some.inj hchain.1
      have hp := (hmem p).mp mem_cons_self
      have hnodup := nodup_cons.mp hchain.nodup
      refine ⟨hp, ?_, ?_, rest, hchain.2, ?_⟩
      · have := f.clash_le p hp
        omega
      · intro i hi
        exact f.clash_le i ((hfr i).mp hi).1
      · intro j
        rw [hfr, ← hmem, mem_cons]
        constructor
        · intro hj
          refine ⟨Or.inr hj, ?_⟩
          rintro rfl
          exact hnodup.1 hj
        · rintro ⟨hj, hjp⟩
          exact hj.resolve_left hjp

end FreeList

end Gobo
