/-
Rounding to a number of digits in the usual eight modes, over any linearly
ordered field in which every element has an integer part.
-/
import Mathlib.Algebra.Order.Floor.Semiring
import Mathlib.Data.Int.Log
import Mathlib.Tactic.FieldSimp
import Mathlib.Tactic.Linarith
import Mathlib.Tactic.Positivity
import Mathlib.Tactic.Ring

namespace Gobo

universe u

/-- What becomes of a value strictly between two neighbours. -/
inductive RoundingMode
  | up
  | down
  | ceiling
  | floor
  | halfUp
  | halfDown
  | halfEven
  | unnecessary
deriving DecidableEq, Repr

theorem compare_congr {α β : Type*} [LinearOrder α] [LinearOrder β] {a b : α} {c d : β}
    (hlt : a < b ↔ c < d) (heq : a = b ↔ c = d) : compare a b = compare c d := by
  rcases lt_trichotomy a b with h | h | h
  · rw [compare_lt_iff_lt.mpr h, compare_lt_iff_lt.mpr (hlt.mp h)]
  · rw [compare_eq_iff_eq.mpr h, compare_eq_iff_eq.mpr (heq.mp h)]
  · have h' : d < c := by
      rcases lt_trichotomy c d with h' | h' | h'
      · exact absurd (hlt.mpr h') h.not_gt
      · exact absurd (heq.mpr h') h.ne'
      · exact h'
    rw [compare_gt_iff_gt.mpr h, compare_gt_iff_gt.mpr h']

namespace RoundingMode

/-- Whether a magnitude between two neighbours goes to the greater one, from its
sign, the parity of the smaller neighbour and its distance to it compared to one
half.  No result where rounding is not permitted. -/
def bumps (mode : RoundingMode) (isNegative isOdd : Bool) (toHalf : Ordering) :
    Option Bool :=
  match mode with
  | up => some true
  | down => some false
  | ceiling => some (!isNegative)
  | floor => some isNegative
  | halfUp => some (toHalf != .lt)
  | halfDown => some (toHalf == .gt)
  | halfEven => some (toHalf == .gt || toHalf == .eq && isOdd)
  | unnecessary => none

variable {K : Type u} [Field K] [LinearOrder K] [FloorSemiring K]

/-- A magnitude rounded to a natural number. -/
def roundNat (mode : RoundingMode) (isNegative : Bool) (q : K) : Option ℕ :=
  if (⌊q⌋₊ : K) = q then some ⌊q⌋₊
  else (mode.bumps isNegative (⌊q⌋₊ % 2 == 1) (compare (2 * (q - ⌊q⌋₊)) 1)).map
    fun bump => if bump then ⌊q⌋₊ + 1 else ⌊q⌋₊

end RoundingMode

variable {K : Type u} [Field K] [LinearOrder K] [FloorSemiring K]

/-- The weight of the last of the `digits` first digits of `w`. -/
def ulp (b digits : ℕ) (w : K) : K := (b : K) ^ (Int.log b w + 1 - digits)

namespace RoundingMode

/-- A magnitude rounded to `digits` digits to the base `b`. -/
def roundMagnitude (mode : RoundingMode) (isNegative : Bool) (b digits : ℕ) (w : K) :
    Option K :=
  (mode.roundNat isNegative (w / ulp b digits w)).map fun n : ℕ => (n : K) * ulp b digits w

/-- Every other mode permits rounding. -/
theorem exists_roundNat {mode : RoundingMode} {isNegative : Bool} (hmode : mode ≠ .unnecessary)
    (q : K) :
    ∃ m, mode.roundNat isNegative q = some m := by
  rw [roundNat]
  split_ifs
  · exact ⟨_, rfl⟩
  · cases mode with
    | unnecessary => exact absurd rfl hmode
    | _ => exact ⟨_, rfl⟩

section

variable [IsStrictOrderedRing K] {mode : RoundingMode} {isNegative : Bool}

theorem roundNat_natCast (n : ℕ) : mode.roundNat isNegative (n : K) = some n := by
  rw [roundNat, Nat.floor_natCast, if_pos rfl]

/-- Between two neighbours the mode decides. -/
theorem roundNat_of_between {q : K} {n : ℕ} (hlow : (n : K) < q) (hhigh : q < n + 1) :
    mode.roundNat isNegative q =
      (mode.bumps isNegative (n % 2 == 1) (compare (2 * (q - n)) 1)).map
        fun bump => if bump then n + 1 else n := by
  have hfloor : ⌊q⌋₊ = n := (Nat.floor_eq_iff ((Nat.cast_nonneg n).trans hlow.le)).mpr
    ⟨hlow.le, hhigh⟩
  rw [roundNat, hfloor, if_neg hlow.ne]

/-- A quotient of natural numbers rounds by its remainder. -/
theorem roundNat_div {N D : ℕ} (hD : 0 < D) : mode.roundNat isNegative ((N : K) / D) =
    if N % D = 0 then some (N / D)
    else (mode.bumps isNegative (N / D % 2 == 1) (compare (2 * (N % D)) D)).map
      fun bump => if bump then N / D + 1 else N / D := by
  have hDK : (0 : K) < D := Nat.cast_pos.mpr hD
  have hN : (N : K) = D * (N / D : ℕ) + (N % D : ℕ) := by
    exact_mod_cast (Nat.div_add_mod N D).symm
  have hq : (N : K) / D = (N / D : ℕ) + (N % D : ℕ) / (D : K) := by
    rw [hN]
    field_simp
  have hrest : ((N % D : ℕ) : K) / D < 1 :=
    (div_lt_one hDK).mpr (Nat.cast_lt.mpr (Nat.mod_lt N hD))
  split_ifs with hzero
  · rw [hq, hzero, Nat.cast_zero, zero_div, add_zero, roundNat_natCast]
  · have hpos : (0 : K) < ((N % D : ℕ) : K) / D :=
      div_pos (Nat.cast_pos.mpr (Nat.pos_of_ne_zero hzero)) hDK
    have hside : compare (2 * ((N : K) / D - (N / D : ℕ))) 1 = compare (2 * (N % D)) D := by
      rw [hq, add_sub_cancel_left, ← mul_div_assoc]
      apply compare_congr
      · rw [div_lt_one hDK]
        exact_mod_cast Iff.rfl
      · rw [div_eq_one_iff_eq hDK.ne']
        exact_mod_cast Iff.rfl
    rw [roundNat_of_between (n := N / D) (by rw [hq]; linarith) (by rw [hq]; linarith), hside]

end

end RoundingMode

section

variable [IsStrictOrderedRing K] {b digits N : ℕ} {e k : ℤ} {w : K}

theorem log_eq_of_between (hb : 1 < b) (hlow : (b : K) ^ k ≤ w) (hhigh : w < (b : K) ^ (k + 1)) :
    Int.log b w = k := by
  have hbK : (0 : K) < b := Nat.cast_pos.mpr (Nat.zero_lt_of_lt hb)
  have hw : 0 < w := (zpow_pos hbK k).trans_le hlow
  have hle := (Int.zpow_le_iff_le_log hb hw).mp hlow
  have hlt := (Int.lt_zpow_iff_log_lt hb hw).mp hhigh
  omega

theorem log_natCast_mul_zpow (hb : 1 < b) (hN : N ≠ 0) (e : ℤ) :
    Int.log b ((N : K) * (b : K) ^ e) = Nat.log b N + e := by
  have hbK : (0 : K) < b := Nat.cast_pos.mpr (Nat.zero_lt_of_lt hb)
  have hlow : (b : K) ^ Nat.log b N ≤ N := by exact_mod_cast Nat.pow_log_le_self b hN
  have hhigh : (N : K) < (b : K) ^ (Nat.log b N + 1) := by
    exact_mod_cast Nat.lt_pow_succ_log_self hb N
  apply log_eq_of_between hb
  · rw [zpow_add₀ hbK.ne', zpow_natCast]
    exact mul_le_mul_of_nonneg_right hlow (zpow_pos hbK e).le
  · rw [add_right_comm, zpow_add₀ hbK.ne', ← Nat.cast_add_one, zpow_natCast]
    exact mul_lt_mul_of_pos_right hhigh (zpow_pos hbK e)

namespace RoundingMode

variable {mode : RoundingMode} {isNegative : Bool}

theorem roundMagnitude_zero : mode.roundMagnitude isNegative b digits (0 : K) = some 0 := by
  rw [roundMagnitude, zero_div, ← Nat.cast_zero, roundNat_natCast, Option.map_some,
    Nat.cast_zero, zero_mul]

/-- A magnitude that has no more than `digits` digits stays. -/
theorem roundMagnitude_of_short (hb : 1 < b) (hshort : Nat.log b N < digits) :
    mode.roundMagnitude isNegative b digits ((N : K) * (b : K) ^ e) =
      some ((N : K) * (b : K) ^ e) := by
  rcases Nat.eq_zero_or_pos N with rfl | hN
  · rw [Nat.cast_zero, zero_mul, roundMagnitude_zero]
  have hbK : (b : K) ≠ 0 := Nat.cast_ne_zero.mpr (Nat.zero_lt_of_lt hb).ne'
  obtain ⟨j, hj⟩ : ∃ j, digits = Nat.log b N + 1 + j := ⟨digits - (Nat.log b N + 1), by omega⟩
  have hulp : ulp b digits ((N : K) * (b : K) ^ e) = (b : K) ^ (e - j) := by
    rw [ulp, log_natCast_mul_zpow hb hN.ne', hj]
    congr 1
    push_cast
    ring
  have hq : (N : K) * (b : K) ^ e / (b : K) ^ (e - j) = (N * b ^ j : ℕ) := by
    rw [mul_div_assoc, ← zpow_sub₀ hbK, sub_sub_cancel, zpow_natCast]
    push_cast
    rfl
  rw [roundMagnitude, hulp, hq, roundNat_natCast, Option.map_some, ← hq,
    div_mul_cancel₀ _ (zpow_ne_zero _ hbK)]

/-- A magnitude with `k` digits too many is rounded to a multiple of `b ^ k`. -/
theorem roundMagnitude_of_long {k : ℕ} (hb : 1 < b) (hN : N ≠ 0)
    (hlong : Nat.log b N + 1 = digits + k) :
    mode.roundMagnitude isNegative b digits ((N : K) * (b : K) ^ e) =
      (mode.roundNat isNegative ((N : K) / (b ^ k : ℕ))).map
        fun n : ℕ => (n : K) * (b : K) ^ (e + k) := by
  have hbK : (b : K) ≠ 0 := Nat.cast_ne_zero.mpr (Nat.zero_lt_of_lt hb).ne'
  have hulp : ulp b digits ((N : K) * (b : K) ^ e) = (b : K) ^ (e + k) := by
    rw [ulp, log_natCast_mul_zpow hb hN]
    congr 1
    omega
  have hq : (N : K) * (b : K) ^ e / (b : K) ^ (e + k) = (N : K) / (b ^ k : ℕ) := by
    rw [zpow_add₀ hbK, zpow_natCast, mul_comm ((b : K) ^ e), Nat.cast_pow]
    exact mul_div_mul_right _ _ (zpow_ne_zero e hbK)
  rw [roundMagnitude, hulp, hq]

end RoundingMode

end

end Gobo
