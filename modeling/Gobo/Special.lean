/-
Fixed-capacity arrays as the structure library uses them: the `SPECIAL` kernel
class and the routines `KL_SPECIAL_ROUTINES` adds to it.  An access outside the
current `count` has no result.
-/
import Mathlib.Data.List.Basic
import Mathlib.Logic.Function.Basic

namespace Gobo

open List

universe u v

variable {A : Type u}

/-- The first `count` entries of a block of `capacity` entries. -/
structure Special (A : Type u) where
  area : List A
  capacity : Nat
deriving Repr, DecidableEq

namespace Special

section

variable (s : Special A)

def count : Nat := s.area.length

/-- `make_empty (n)`. -/
def makeEmpty (n : Nat) : Special A := ⟨[], n⟩

/-- `make_filled (v, n)`. -/
def makeFilled (v : A) (n : Nat) : Special A := ⟨replicate n v, n⟩

/-- `item (i)`, defined for `0 <= i < count` only. -/
def item (i : Int) : Option A :=
  if 0 ≤ i then s.area[i.toNat]? else none

/-- `put (v, i)`, defined for `0 <= i < count` only. -/
def put (v : A) (i : Int) : Option (Special A) :=
  if 0 ≤ i ∧ i < s.count then some { s with area := s.area.set i.toNat v }
  else none

/-- `fill_with (v, count, i)` of an index at or after `count`. -/
def fillTo (v : A) (i : Int) : Option (Special A) :=
  if i < s.capacity then
    some { s with area := s.area ++ replicate (i + 1 - s.count).toNat v }
  else none

/-- `KL_SPECIAL_ROUTINES.force`: replace the entry at `i`, or extend up to it. -/
def force (v : A) (i : Int) : Option (Special A) :=
  if i < s.count then s.put v i else s.fillTo v i

/-- `keep_head (n)`, defined for `0 <= n <= count` only. -/
def keepHead (n : Int) : Option (Special A) :=
  if 0 ≤ n ∧ n ≤ s.count then some { s with area := s.area.take n.toNat }
  else none

/-- `KL_SPECIAL_ROUTINES.aliased_resized_area`. -/
def aliasedResizedArea (n : Nat) : Special A :=
  if s.capacity < n then { s with capacity := n } else s

/-- `KL_SPECIAL_ROUTINES.aliased_resized_area_with_default`: the entries that
were not initialized yet are set to `v`. -/
def aliasedResizedAreaWithDefault (v : A) (n : Nat) : Special A :=
  if s.capacity < n then
    ⟨s.area ++ replicate (n - s.count) v, n⟩
  else s

/-- The entry at `i`, or `d` where there is none. -/
def get (d : A) (i : Nat) : A := s.area[i]?.getD d

theorem item_natCast (i : Nat) : s.item (i : Int) = s.area[i]? := by
  simp [item]

theorem item_of_lt (d : A) {i : Nat} (hi : i < s.count) :
    s.item (i : Int) = some (s.get d i) := by
  rw [item_natCast, get, getElem?_eq_getElem hi]
  rfl

theorem item_eq_none_of_neg {i : Int} (hi : i < 0) : s.item i = none := by
  simp [item, Int.not_le.mpr hi]

@[simp]
theorem count_makeFilled (v : A) (n : Nat) : (makeFilled v n).count = n := by
  simp [count, makeFilled]

@[simp]
theorem get_makeFilled (v : A) (n i : Nat) : (makeFilled v n).get v i = v := by
  by_cases hi : i < n <;> simp [get, makeFilled, hi]

theorem put_eq_some (v : A) {i : Nat} (hi : i < s.count) :
    s.put v i = some { s with area := s.area.set i v } := by
  simp [put, hi]

/-- A successful `put` changes the one entry and nothing else. -/
theorem exists_put (v : A) {i : Nat} (hi : i < s.count) :
    ∃ s', s.put v i = some s' ∧ s'.count = s.count ∧
      s'.capacity = s.capacity ∧
      ∀ d, s'.get d = Function.update (s.get d) i v := by
  refine ⟨_, s.put_eq_some v hi, by simp [count], rfl, ?_⟩
  intro d
  funext j
  by_cases hj : j = i
  · subst j
    simp only [count] at hi
    simp [get, hi]
  · simp [get, hj, getElem?_set_ne (Ne.symm hj)]

theorem force_of_lt (v : A) {i : Nat} (hi : i < s.count) :
    s.force v i = s.put v i := by
  simp [force, hi]

theorem force_of_eq (v : A) (hi : s.count < s.capacity) :
    s.force v s.count = some { s with area := s.area ++ [v] } := by
  simp [force, fillTo, hi]

/-- `force` at an existing index or at `count` writes exactly that entry. -/
theorem exists_force (v : A) {i : Nat} (hi : i ≤ s.count) (hcap : i < s.capacity) :
    ∃ s', s.force v i = some s' ∧ s'.count = max s.count (i + 1) ∧
      s'.capacity = s.capacity ∧ s'.item i = some v ∧
      ∀ j : Nat, j < s.count → j ≠ i → s'.item j = s.item j := by
  rcases Nat.lt_or_ge i s.count with hlt | hge
  · refine ⟨_, (s.force_of_lt v hlt).trans (s.put_eq_some v hlt), ?_, rfl, ?_, ?_⟩
    · simp only [count, length_set] at hlt ⊢
      omega
    · simp only [count] at hlt
      simp [item_natCast, hlt]
    · intro j _ hne
      simp [item_natCast, getElem?_set_ne (Ne.symm hne)]
  · have heq : i = s.count := by omega
    subst heq
    refine ⟨_, s.force_of_eq v hcap, by simp [count], rfl, ?_, ?_⟩
    · simp [item_natCast, count]
    · intro j hj _
      simp only [count] at hj
      simp [item_natCast, getElem?_append_left hj]

theorem exists_keepHead {n : Nat} (hn : n ≤ s.count) :
    ∃ s', s.keepHead n = some s' ∧ s'.count = n ∧
      s'.capacity = s.capacity ∧
      ∀ j : Nat, j < n → s'.item j = s.item j := by
  refine ⟨{ s with area := s.area.take n }, by simp [keepHead, hn], ?_, rfl, ?_⟩
  · rw [count, length_take]
    exact Nat.min_eq_left hn
  · intro j hj
    simp [item_natCast, hj]

@[simp]
theorem area_aliasedResizedArea (n : Nat) :
    (s.aliasedResizedArea n).area = s.area := by
  unfold aliasedResizedArea
  split <;> rfl

@[simp]
theorem count_aliasedResizedArea (n : Nat) :
    (s.aliasedResizedArea n).count = s.count := by
  simp [count]

@[simp]
theorem item_aliasedResizedArea (n : Nat) (i : Int) :
    (s.aliasedResizedArea n).item i = s.item i := by
  simp [item]

theorem capacity_aliasedResizedArea {n : Nat}
    (hn : s.capacity ≤ n) : (s.aliasedResizedArea n).capacity = n := by
  unfold aliasedResizedArea
  split
  · rfl
  · omega

theorem count_aliasedResizedAreaWithDefault (v : A) {n : Nat}
    (hfull : s.count = s.capacity) (hn : s.capacity ≤ n) :
    (s.aliasedResizedAreaWithDefault v n).count = n := by
  unfold aliasedResizedAreaWithDefault
  simp only [count] at hfull ⊢
  split
  · rw [length_append, length_replicate]
    omega
  · omega

theorem capacity_aliasedResizedAreaWithDefault (v : A) {n : Nat}
    (hn : s.capacity ≤ n) :
    (s.aliasedResizedAreaWithDefault v n).capacity = n := by
  unfold aliasedResizedAreaWithDefault
  split
  · rfl
  · omega

theorem get_of_ge (d : A) {i : Nat} (hi : s.count ≤ i) : s.get d i = d := by
  rw [get, getElem?_eq_none hi]
  rfl

theorem get_aliasedResizedAreaWithDefault (v : A) (n i : Nat) :
    (s.aliasedResizedAreaWithDefault v n).get v i = s.get v i := by
  unfold aliasedResizedAreaWithDefault
  split
  · simp only [get, getElem?_append]
    split
    · rfl
    · rename_i hi
      rw [getElem?_replicate, getElem?_eq_none (by omega)]
      split <;> rfl
  · rfl

end

end Special

end Gobo
