/-
Positional numerals whose digits are given by a function, least significant
digit first.
-/
import Mathlib.Algebra.BigOperators.Group.Finset.Basic
import Mathlib.Algebra.BigOperators.Intervals
import Mathlib.Algebra.BigOperators.Ring.Finset
import Mathlib.Data.Nat.Log
import Mathlib.Tactic.Ring
import Mathlib.Tactic.NormNum

namespace Gobo

/-- The number with the `n` digits `d 0, ..., d (n - 1)` to the base `b`. -/
def numeral (b : ℕ) (d : ℕ → ℕ) (n : ℕ) : ℕ := ∑ i ∈ Finset.range n, d i * b ^ i

section

variable {b : ℕ} {d e : ℕ → ℕ} {n k : ℕ}

@[simp]
theorem numeral_zero : numeral b d 0 = 0 := rfl

theorem numeral_succ : numeral b d (n + 1) = numeral b d n + d n * b ^ n :=
  Finset.sum_range_succ _ n

theorem numeral_congr (h : ∀ i < n, d i = e i) : numeral b d n = numeral b e n := by
  apply Finset.sum_congr rfl
  intro i hi
  rw [h i (Finset.mem_range.mp hi)]

/-- A digit written at or above `n` does not count. -/
theorem numeral_update_of_le (hk : n ≤ k) (v : ℕ) :
    numeral b (Function.update d k v) n = numeral b d n := by
  apply numeral_congr
  intro i hi
  exact Function.update_of_ne (by omega) _ _

/-- A digit written below `n` changes the number by its difference. -/
theorem numeral_update (hk : k < n) (v : ℕ) :
    numeral b (Function.update d k v) n + d k * b ^ k = numeral b d n + v * b ^ k := by
  induction n with
  | zero => exact absurd hk (Nat.not_lt_zero k)
  | succ n ih =>
      rw [numeral_succ, numeral_succ]
      rcases Nat.lt_or_eq_of_le (Nat.le_of_lt_succ hk) with hlt | rfl
      · rw [Function.update_of_ne (Nat.ne_of_gt hlt), Nat.add_right_comm, ih hlt,
          Nat.add_right_comm]
      · rw [numeral_update_of_le (Nat.le_refl k), Function.update_self]
        omega

theorem numeral_add : numeral b d (k + n) =
    numeral b d k + b ^ k * numeral b (fun i => d (k + i)) n := by
  rw [numeral, Finset.sum_range_add, numeral, numeral, Finset.mul_sum]
  congr 1
  apply Finset.sum_congr rfl
  intro i _
  rw [pow_add]
  ring

theorem numeral_eq_zero (h : ∀ i < n, d i = 0) : numeral b d n = 0 := by
  apply Finset.sum_eq_zero
  intro i hi
  rw [h i (Finset.mem_range.mp hi), Nat.zero_mul]

/-- Zeroes in front of a numeral. -/
theorem numeral_add_of_zero (h : ∀ i < k, d (n + i) = 0) :
    numeral b d (n + k) = numeral b d n := by
  rw [numeral_add, numeral_eq_zero h, Nat.mul_zero, Nat.add_zero]

theorem numeral_lt (hd : ∀ i < n, d i < b) : numeral b d n < b ^ n := by
  induction n with
  | zero => exact Nat.one_pos
  | succ n ih =>
      have hlow : numeral b d n < b ^ n := ih fun i hi => hd i (Nat.lt_succ_of_lt hi)
      have htop : (d n + 1) * b ^ n ≤ b * b ^ n :=
        Nat.mul_le_mul_right _ (hd n (Nat.lt_succ_self n))
      rw [numeral_succ, pow_succ']
      rw [Nat.add_mul, Nat.one_mul] at htop
      omega

theorem numeral_div (hd : ∀ i < k + n, d i < b) :
    numeral b d (k + n) / b ^ k = numeral b (fun i => d (k + i)) n := by
  have hlow : numeral b d k < b ^ k := numeral_lt fun i hi => hd i (by omega)
  rw [numeral_add, Nat.add_mul_div_left _ _ (Nat.zero_lt_of_lt hlow), Nat.div_eq_of_lt hlow,
    Nat.zero_add]

theorem numeral_mod (hd : ∀ i < k + n, d i < b) :
    numeral b d (k + n) % b ^ k = numeral b d k := by
  have hlow : numeral b d k < b ^ k := numeral_lt fun i hi => hd i (by omega)
  rw [numeral_add, Nat.add_mul_mod_self_left, Nat.mod_eq_of_lt hlow]

/-- A digit read off the number. -/
theorem numeral_digit (hd : ∀ i < n, d i < b) (hk : k < n) :
    numeral b d n / b ^ k % b = d k := by
  obtain ⟨m, rfl⟩ : ∃ m, n = k + (1 + m) := ⟨n - k - 1, by omega⟩
  have hrest : ∀ i < 1 + m, d (k + i) < b := fun i hi => hd _ (by omega)
  rw [numeral_div hd]
  have h := numeral_mod (d := fun i => d (k + i)) (k := 1) hrest
  rw [pow_one] at h
  rw [h, numeral_succ, numeral_zero, pow_zero, Nat.mul_one, Nat.zero_add, Nat.add_zero]

/-- A numeral vanishes with its digits only. -/
theorem numeral_eq_zero_iff (hb : 0 < b) : numeral b d n = 0 ↔ ∀ i < n, d i = 0 := by
  constructor
  · intro h i hi
    have hterm := Finset.sum_eq_zero_iff.mp h i (Finset.mem_range.mpr hi)
    exact (Nat.mul_eq_zero.mp hterm).resolve_right (pow_pos hb i).ne'
  · exact numeral_eq_zero

theorem pow_le_numeral (htop : d n ≠ 0) : b ^ n ≤ numeral b d (n + 1) := by
  rw [numeral_succ]
  have h : 1 * b ^ n ≤ d n * b ^ n := Nat.mul_le_mul_right _ (Nat.pos_of_ne_zero htop)
  omega

/-- The logarithm of a numeral is the index of its first digit. -/
theorem log_numeral (hd : ∀ i < n + 1, d i < b) (htop : d n ≠ 0) :
    Nat.log b (numeral b d (n + 1)) = n :=
  Nat.log_eq_of_pow_le_of_lt_pow (pow_le_numeral htop) (numeral_lt hd)

end

end Gobo
