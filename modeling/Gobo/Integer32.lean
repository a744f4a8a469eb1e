/-
The values of `INTEGER`, which are cut to 32 bits.
-/
import Mathlib.Data.Int.Basic
import Mathlib.Algebra.Ring.Int.Defs
import Mathlib.Algebra.Ring.Nat

namespace Gobo

/-- The value of an `INTEGER` after an operation whose exact result is `x`.  Sums are taken
exactly and cut once, which is the same as to cut after each operation. -/
def int32 (x : ℤ) : ℤ := Int.bmod x (2 ^ 32)

theorem int32_of_mem {x : ℤ} (hlow : -2 ^ 31 ≤ x) (hhigh : x < 2 ^ 31) : int32 x = x := by
  rw [int32, Int.bmod_eq_of_le] <;> omega

/-- The sum of two values that are too large together. -/
theorem int32_of_ge {x : ℤ} (hlow : 2 ^ 31 ≤ x) (hhigh : x < 3 * 2 ^ 31) :
    int32 x = x - 2 ^ 32 := by
  rw [int32, Int.bmod_def]
  omega

theorem int32_mem (x : ℤ) : -2 ^ 31 ≤ int32 x ∧ int32 x < 2 ^ 31 := by
  have hlow := Int.le_bmod (x := x) (m := 2 ^ 32) (by decide)
  have hhigh := Int.bmod_lt (x := x) (m := 2 ^ 32) (by decide)
  rw [int32]
  omega

@[simp]
theorem int32_int32_add (x y : ℤ) : int32 (int32 x + y) = int32 (x + y) :=
  Int.bmod_add_bmod

@[simp]
theorem int32_int32_sub (x y : ℤ) : int32 (int32 x - y) = int32 (x - y) :=
  Int.bmod_sub_bmod

theorem int32_add_int32 (x y : ℤ) : int32 (x + int32 y) = int32 (x + y) :=
  Int.add_bmod_bmod

end Gobo
