/-
Items at consecutive indexes: what a permutation of a slice is, and when a slice is
sorted.
-/
import Mathlib.Data.List.Nodup
import Mathlib.Data.List.Range
import Mathlib.Logic.Equiv.Basic
import Mathlib.Order.RelClasses

namespace Gobo

open List

universe u

variable {G : Type u}

/-- The indexes from `lower` to `upper`. -/
def indexes (lower upper : Int) : List Int :=
  (range (upper + 1 - lower).toNat).map fun k : Nat => lower + k

/-- The items from index `lower` to index `upper`. -/
def slice (f : Int → G) (lower upper : Int) : List G := (indexes lower upper).map f

/-- `g` has the items of `f`, moved within `lower`..`upper`. -/
def Permutes (lower upper : Int) (f g : Int → G) : Prop :=
  ∃ p : Equiv.Perm Int, (∀ i, i < lower ∨ upper < i → p i = i) ∧ ∀ i, g i = f (p i)

/-- No item of a slice is less than one before it. -/
def IsSorted (less : G → G → Bool) (lower upper : Int) (f : Int → G) : Prop :=
  ∀ i j, lower ≤ i → i < j → j ≤ upper → less (f j) (f i) = false

/-- What sorting a slice means. -/
structure Subsorted (less : G → G → Bool) (lower upper : Int) (f g : Int → G) : Prop where
  sorted : IsSorted less lower upper g
  perm : (slice g lower upper).Perm (slice f lower upper)
  outside : ∀ i, i < lower ∨ upper < i → g i = f i

section

variable {less : G → G → Bool} {lower upper lower' upper' i j k : Int} {f g h : Int → G}
  {x y z : G}

section

variable (hless : IsStrictWeakOrder G fun x y => less x y = true)

include hless

/-- "Not less" is transitive. -/
theorem notLess_trans (hxy : less y x = false) (hyz : less z y = false) : less z x = false := by
  by_contra hzx
  rw [Bool.not_eq_false] at hzx
  have hnyx : ¬less y x = true := by simp [hxy]
  have hnzy : ¬less z y = true := by simp [hyz]
  have hnxy : ¬less x y = true := fun hlt => hnzy (hless.trans _ _ _ hzx hlt)
  have hnyz : ¬less y z = true := fun hlt => hnyx (hless.trans _ _ _ hlt hzx)
  exact (hless.incomp_trans x y z ⟨hnxy, hnyx⟩ ⟨hnyz, hnzy⟩).2 hzx

theorem notLess_of_less (hxy : less x y = true) : less y x = false := by
  by_contra hyx
  rw [Bool.not_eq_false] at hyx
  exact hless.irrefl x (hless.trans _ _ _ hxy hyx)

theorem notLess_self (x : G) : less x x = false :=
  Bool.eq_false_iff.mpr (hless.irrefl x)

end

theorem strictWeak_lt : IsStrictWeakOrder Int fun x y => decide (x < y) = true := by
  simp only [decide_eq_true_eq]
  exact { irrefl := Int.lt_irrefl, trans := fun _ _ _ => Int.lt_trans,
          incomp_trans := fun _ _ _ _ _ => by omega }

theorem mem_indexes : i ∈ indexes lower upper ↔ lower ≤ i ∧ i ≤ upper := by
  rw [indexes, mem_map]
  constructor
  · rintro ⟨k, hk, rfl⟩
    have hlt := mem_range.mp hk
    omega
  · rintro ⟨hlower, hupper⟩
    exact ⟨(i - lower).toNat, mem_range.mpr (by omega), by omega⟩

theorem nodup_indexes (lower upper : Int) : (indexes lower upper).Nodup := by
  refine List.Nodup.map (fun a b hab => ?_) nodup_range
  omega

theorem Permutes.refl (lower upper : Int) (f : Int → G) : Permutes lower upper f f :=
  ⟨Equiv.refl Int, fun _ _ => rfl, fun _ => rfl⟩

theorem Permutes.trans (hfg : Permutes lower upper f g) (hgh : Permutes lower upper g h) :
    Permutes lower upper f h := by
  obtain ⟨p, hp, hg⟩ := hfg
  obtain ⟨q, hq, hh⟩ := hgh
  refine ⟨q.trans p, fun i hi => ?_, fun i => ?_⟩
  · rw [Equiv.trans_apply, hq i hi, hp i hi]
  · rw [hh, hg, Equiv.trans_apply]

/-- The slice may be a part of another one. -/
theorem Permutes.mono (h : Permutes lower upper f g) (hlower : lower' ≤ lower)
    (hupper : upper ≤ upper') : Permutes lower' upper' f g := by
  obtain ⟨p, hp, hg⟩ := h
  exact ⟨p, fun i hi => hp i (by omega), hg⟩

theorem Permutes.outside (h : Permutes lower upper f g) (hi : i < lower ∨ upper < i) :
    g i = f i := by
  obtain ⟨p, hp, hg⟩ := h
  rw [hg, hp i hi]

/-- Two items change places. -/
theorem permutes_swap (hi : lower ≤ i ∧ i ≤ upper) (hj : lower ≤ j ∧ j ≤ upper) (f : Int → G) :
    Permutes lower upper f (Function.update (Function.update f i (f j)) j (f i)) := by
  refine ⟨Equiv.swap i j, fun k hk => ?_, fun k => ?_⟩
  · exact Equiv.swap_apply_of_ne_of_ne (by omega) (by omega)
  · by_cases hkj : k = j
    · rw [hkj, Function.update_self, Equiv.swap_apply_right]
    · rw [Function.update_of_ne hkj]
      by_cases hki : k = i
      · rw [hki, Function.update_self, Equiv.swap_apply_left]
      · rw [Function.update_of_ne hki, Equiv.swap_apply_of_ne_of_ne hki hkj]

/-- A permutation of a slice maps its indexes to one another. -/
theorem perm_maps {p : Equiv.Perm Int} (hp : ∀ i, i < lower ∨ upper < i → p i = i)
    (hi : lower ≤ i ∧ i ≤ upper) : lower ≤ p i ∧ p i ≤ upper := by
  by_contra hout
  have hfixed : p (p i) = p i := hp (p i) (by omega)
  rw [p.injective hfixed] at hout
  exact hout hi

/-- Every item of the slice was there before. -/
theorem Permutes.exists_index (h : Permutes lower upper f g) (hi : lower ≤ i ∧ i ≤ upper) :
    ∃ j, (lower ≤ j ∧ j ≤ upper) ∧ g i = f j := by
  obtain ⟨p, hp, hg⟩ := h
  exact ⟨p i, perm_maps hp hi, hg i⟩

theorem Permutes.slice_perm (h : Permutes lower upper f g) :
    (slice g lower upper).Perm (slice f lower upper) := by
  obtain ⟨p, hp, hg⟩ := h
  have hgp : g = f ∘ p := funext hg
  rw [slice, slice, hgp, ← map_map]
  refine List.Perm.map f ?_
  have hnodup := nodup_indexes lower upper
  refine (perm_ext_iff_of_nodup (hnodup.map p.injective) hnodup).mpr fun k => ?_
  rw [mem_map, mem_indexes]
  constructor
  · rintro ⟨i, hi, rfl⟩
    exact perm_maps hp (mem_indexes.mp hi)
  · intro hk
    have hinverse : ∀ i, i < lower ∨ upper < i → p.symm i = i := by
      intro i hi
      rw [Equiv.symm_apply_eq, hp i hi]
    exact ⟨p.symm k, mem_indexes.mpr (perm_maps hinverse hk), p.apply_symm_apply k⟩

end

end Gobo
