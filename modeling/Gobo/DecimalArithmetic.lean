/-
What the operations on coefficients compute: their effect on the number that is
shown, on the count of digits and on the capacity.
-/
import Gobo.DecimalCoefficient
import Mathlib.Tactic.Linarith

namespace Gobo

open Function

namespace Coefficient

/-- The number shown. -/
def toNat (c : Coefficient) : ℕ := numeral 10 c.digit c.count

/-- The array is filled up, and the coefficient a part of it. -/
structure Valid (c : Coefficient) : Prop where
  full : c.digits.count = c.capacity
  count_pos : 0 < c.count
  count_le : c.count ≤ c.capacity
  digit_lt : ∀ i < c.count, c.digit i < 10

/-- The number `N` is shown with `n` digits in an array of `k`. -/
structure Shows (c : Coefficient) (N n k : ℕ) : Prop where
  valid : c.Valid
  toNat_eq : c.toNat = N
  count_eq : c.count = n
  capacity_eq : c.capacity = k

/-- `c'` is `c` with other digits in the same array. -/
structure Rewrites (c : Coefficient) (d : ℕ → ℕ) (c' : Coefficient) : Prop where
  count_eq : c'.count = c.count
  full_eq : c'.digits.count = c.digits.count
  capacity_eq : c'.capacity = c.capacity
  digit_eq : c'.digit = d

section

variable {c c' : Coefficient} {d : ℕ → ℕ} {i v N n k : ℕ}

theorem Rewrites.refl (c : Coefficient) : c.Rewrites c.digit c := ⟨rfl, rfl, rfl, rfl⟩

theorem Rewrites.exists_item (h : c.Rewrites d c') (hi : i < c.digits.count) :
    c'.item i = some (d i) := by
  rw [item, Special.item_of_lt c'.digits 0 (h.full_eq ▸ hi), ← h.digit_eq]
  rfl

theorem Rewrites.exists_setDigit (h : c.Rewrites d c') (hi : i < c.digits.count) (v : ℕ) :
    ∃ c'', c'.setDigit v i = some c'' ∧ c.Rewrites (update d i v) c'' := by
  obtain ⟨area, hput, hcount, hcapacity, hget⟩ :=
    c'.digits.exists_put v (h.full_eq ▸ hi : i < c'.digits.count)
  refine ⟨{ c' with digits := area }, by rw [setDigit, hput]; rfl, h.count_eq,
    hcount.trans h.full_eq, hcapacity.trans h.capacity_eq, ?_⟩
  rw [← h.digit_eq]
  exact hget 0

theorem Rewrites.congr {d' : ℕ → ℕ} (h : c.Rewrites d c') (hd : ∀ j, d j = d' j) :
    c.Rewrites d' c' :=
  ⟨h.count_eq, h.full_eq, h.capacity_eq, h.digit_eq.trans (funext hd)⟩

/-- Zeroes are written from the index `i` on. -/
theorem Rewrites.exists_clear (h : c.Rewrites d c') {j : ℕ} (hj : i + j ≤ c.digits.count) :
    ∃ c'', forUp (fun index c => c.setDigit 0 index) j i c' = some c'' ∧
      c.Rewrites (fun k => if i ≤ k ∧ k < i + j then 0 else d k) c'' := by
  apply forUp_spec (fun m c₁ => c.Rewrites (fun k => if i ≤ k ∧ k < m then 0 else d k) c₁)
  · intro m c₁ him hmj hc₁
    obtain ⟨c₂, hset, hc₂⟩ := hc₁.exists_setDigit (i := m) (by omega) 0
    refine ⟨c₂, hset, hc₂.congr fun k => ?_⟩
    by_cases hk : k = m
    · rw [hk, update_self, if_pos (by omega)]
    · rw [update_of_ne hk]
      exact if_congr (by omega) rfl rfl
  · exact h.congr fun k => (if_neg (by omega)).symm

theorem Shows.lt (h : c.Shows N n k) : N < 10 ^ n := by
  rw [← h.toNat_eq, ← h.count_eq]
  exact numeral_lt h.valid.digit_lt

theorem Shows.count_pos (h : c.Shows N n k) : 0 < n := h.count_eq ▸ h.valid.count_pos

theorem Shows.count_le (h : c.Shows N n k) : n ≤ k :=
  h.count_eq ▸ h.capacity_eq ▸ h.valid.count_le

theorem Shows.full (h : c.Shows N n k) : c.digits.count = k :=
  h.valid.full.trans h.capacity_eq

theorem Shows.digit_lt (h : c.Shows N n k) (hi : i < n) : c.digit i < 10 :=
  h.valid.digit_lt i (h.count_eq ▸ hi)

theorem Shows.numeral_eq (h : c.Shows N n k) : numeral 10 c.digit n = N := by
  rw [← h.count_eq]
  exact h.toNat_eq

/-- A coefficient with these digits shows their number. -/
theorem shows_of_numeral (hfull : c.digits.count = k) (hcapacity : c.capacity = k)
    (hcount : c.count = n) (hpos : 0 < n) (hle : n ≤ k) (hd : ∀ i < n, c.digit i < 10)
    (hN : numeral 10 c.digit n = N) : c.Shows N n k := by
  subst hcount
  exact ⟨⟨hfull.trans hcapacity.symm, hpos, hcapacity ▸ hle, hd⟩, hN, rfl, hcapacity⟩

theorem Shows.rewrite (h : c.Shows N n k) (hc' : c.Rewrites d c') {M m : ℕ} (hm : 0 < m)
    (hmk : m ≤ k) (hd : ∀ i < m, d i < 10) (hM : numeral 10 d m = M) :
    Shows { c' with count := m } M m k := by
  rw [← hc'.digit_eq] at hd hM
  exact shows_of_numeral (hc'.full_eq.trans h.full) (hc'.capacity_eq.trans h.capacity_eq) rfl
    hm hmk hd hM

/-- The register of a new decimal, in which all digits are zero. -/
theorem exists_zeroes (hk : 0 < k) :
    ∃ c, (make k).put 0 0 = some c ∧ c.Shows 0 1 k ∧ c.digit = fun _ => 0 := by
  have hget : (make k).digit = fun _ => 0 := funext fun i => Special.get_makeFilled 0 k i
  obtain ⟨c, hset, hc⟩ := (Rewrites.refl (make k)).exists_setDigit (i := 0)
    (by rwa [make, Special.count_makeFilled]) 0
  have hcount : (c.count : ℤ) - 1 < 0 := by
    rw [hc.count_eq]
    exact (by decide : ((0 : ℕ) : ℤ) - 1 < 0)
  have hdigit : c.digit = fun _ => 0 := by
    rw [hc.digit_eq, hget]
    exact update_eq_self 0 _
  refine ⟨{ c with count := 1 }, ?_, ?_, hdigit⟩
  · rw [put, ← Int.natCast_zero, hset]
    exact congrArg some (if_pos hcount)
  · apply shows_of_numeral _ _ rfl Nat.one_pos hk
    · intro i _
      exact (congrFun hdigit i).trans_lt (by decide)
    · exact numeral_eq_zero fun i _ => congrFun hdigit i
    · exact hc.full_eq.trans (Special.count_makeFilled 0 k)
    · exact hc.capacity_eq

/-- `put` at an index that is not above the last digit. -/
theorem put_of_lt {j : ℤ} (hj : j < c.count) : c.put v j = c.setDigit v j := by
  rw [put, setDigit]
  cases c.digits.put v j with
  | none => rfl
  | some area => exact congrArg some (if_neg (by simp only; omega))

theorem Shows.exists_grow (h : c.Shows N n k) {m : ℕ} (hm : n ≤ m) :
    ∃ c', c.grow m = some c' ∧ c'.Shows N m (max k m) ∧ ∀ i < n, c'.digit i = c.digit i := by
  set resized : Coefficient :=
    if c.capacity < m then
      { c with digits := c.digits.aliasedResizedAreaWithDefault 0 m }
    else c with hresized
  have hfull : resized.digits.count = max k m ∧ resized.capacity = max k m ∧
      resized.count = n ∧ resized.digit = c.digit := by
    rw [hresized, h.capacity_eq]
    split_ifs with hk
    · have hle : c.digits.capacity ≤ m := h.capacity_eq.trans_le hk.le
      rw [max_eq_right hk.le]
      exact ⟨Special.count_aliasedResizedAreaWithDefault _ _ h.valid.full hle,
        Special.capacity_aliasedResizedAreaWithDefault _ _ hle, h.count_eq,
        funext fun i => Special.get_aliasedResizedAreaWithDefault _ _ _ _⟩
    · rw [max_eq_left (by omega)]
      exact ⟨h.full, h.capacity_eq, h.count_eq, rfl⟩
  obtain ⟨hblock, hcapacity, hcount, hdigit⟩ := hfull
  obtain ⟨c', hrun, hc'⟩ : ∃ c', forUp (fun index c => c.put 0 index) (m - n) n resized = some c' ∧
      c'.count = n + (m - n) ∧ c'.digits.count = max k m ∧ c'.capacity = max k m ∧
      ∀ j, c'.digit j = if n ≤ j ∧ j < n + (m - n) then 0 else c.digit j := by
    apply forUp_spec (fun i (c₁ : Coefficient) => c₁.count = i ∧ c₁.digits.count = max k m ∧
      c₁.capacity = max k m ∧ ∀ j, c₁.digit j = if n ≤ j ∧ j < i then 0 else c.digit j)
    · rintro i c₁ hni him ⟨hi, hb, hk, hd⟩
      obtain ⟨c₂, hset, hc₂⟩ := (Rewrites.refl c₁).exists_setDigit (i := i) (by omega) 0
      refine ⟨{ c₂ with count := i + 1 }, ?_, rfl, hc₂.full_eq.trans hb, hc₂.capacity_eq.trans hk,
        fun j => ?_⟩
      · rw [put, hset, Option.map_some, if_pos (by rw [hc₂.count_eq]; omega)]
        rfl
      · refine (congrFun hc₂.digit_eq j).trans ?_
        by_cases hj : j = i
        · rw [hj, update_self, if_pos (by omega)]
        · rw [update_of_ne hj, hd]
          exact if_congr (by omega) rfl rfl
    · refine ⟨hcount, hblock, hcapacity, fun j => ?_⟩
      rw [hdigit, if_neg (by omega)]
  obtain ⟨-, hb, hk, hd⟩ := hc'
  have hlow : ∀ i < n, c'.digit i = c.digit i := fun i hi => by rw [hd, if_neg (by omega)]
  have hhigh : ∀ i < m - n, c'.digit (n + i) = 0 := fun i hi => by
    rw [hd, if_pos (by omega)]
  have hpos := h.count_pos
  refine ⟨{ c' with count := m }, ?_, ?_, hlow⟩
  · show Option.map _ (forUp _ (m - c.count) c.count resized) = _
    rw [h.count_eq, hrun]
    rfl
  · apply shows_of_numeral (c := { c' with count := m }) (n := m) hb hk rfl (by omega)
      (le_max_right k m)
    · intro i hi
      show c'.digit i < 10
      rw [hd]
      split_ifs with hin
      · decide
      · exact h.digit_lt (by omega)
    · have hsplit : numeral 10 c'.digit m = numeral 10 c'.digit n := by
        have h := numeral_add_of_zero (b := 10) hhigh
        rwa [Nat.add_sub_of_le hm] at h
      exact hsplit.trans ((numeral_congr hlow).trans h.numeral_eq)

/-- What `shift_right` writes: the digits move, and zeroes are put in front. -/
theorem Shows.exists_moveRight {a : ℕ} (h : c.Shows N (a + n) k) :
    ∃ c', c.shiftRight a = some c' ∧ c.Rewrites (fun j => if n ≤ j ∧ j < n + a then 0
      else if j + a < a + n then c.digit (j + a) else c.digit j) c' := by
  have hle := h.count_le
  have hfull := h.full
  obtain ⟨moved, hmoved, hm⟩ : ∃ moved,
      forUp (fun index c => (c.item index).bind fun v => c.setDigit v (index - a : ℕ)) n a c =
        some moved ∧
      c.Rewrites (fun j => if j + a < a + n then c.digit (j + a) else c.digit j) moved := by
    apply forUp_spec (fun i c₁ =>
      c.Rewrites (fun j => if j + a < i then c.digit (j + a) else c.digit j) c₁)
    · intro i c₁ hai hin hc₁
      obtain ⟨c₂, hset, hc₂⟩ := hc₁.exists_setDigit (i := i - a) (by omega) (c.digit i)
      have hitem : c₁.item i = some (c.digit i) := by
        rw [hc₁.exists_item (by omega), if_neg (by omega)]
      refine ⟨c₂, by rw [hitem]; exact hset, hc₂.congr fun j => ?_⟩
      by_cases hj : j = i - a
      · rw [hj, update_self, if_pos (by omega), Nat.sub_add_cancel hai]
      · rw [update_of_ne hj]
        exact if_congr (by omega) rfl rfl
    · exact (Rewrites.refl c).congr fun j => (if_neg (by omega)).symm
  obtain ⟨c', hclear, hc'⟩ := hm.exists_clear (i := n) (j := a) (by omega)
  refine ⟨c', ?_, hc'⟩
  rw [shiftRight, h.count_eq, Nat.add_sub_cancel_left]
  exact bind_of_some hmoved hclear

/-- The digits move down and the count is cut. -/
theorem Shows.exists_shiftRight {a : ℕ} (h : c.Shows N (a + n) k) (hn : 0 < n) :
    ∃ c' c'', c.shiftRight a = some c' ∧ c'.count = a + n ∧ c'.keepHead n = some c'' ∧
      c''.Shows (N / 10 ^ a) n k := by
  have hle := h.count_le
  have hfull := h.full
  obtain ⟨c', hshift, hc'⟩ := h.exists_moveRight
  obtain ⟨c'', hcut, hc''⟩ := hc'.exists_clear (i := n) (j := k - n) (by omega)
  refine ⟨c', { c'' with count := n }, hshift, hc'.count_eq.trans h.count_eq, ?_, ?_⟩
  · rw [keepHead, hc'.capacity_eq, h.capacity_eq, hcut]
    rfl
  · have hdigit : ∀ i < n, (fun j => if n ≤ j ∧ j < n + (k - n) then 0 else
        if n ≤ j ∧ j < n + a then 0 else
          if j + a < a + n then c.digit (j + a) else c.digit j) i = c.digit (a + i) := by
      intro i hi
      simp only
      rw [if_neg (by omega), if_neg (by omega), if_pos (by omega), Nat.add_comm]
    apply h.rewrite hc'' hn (by omega)
    · intro i hi
      exact (hdigit i hi).trans_lt (h.digit_lt (by omega))
    · rw [← h.numeral_eq, numeral_div fun i hi => h.digit_lt hi]
      exact numeral_congr hdigit

/-- The last digit is replaced. -/
theorem Shows.exists_put (h : c.Shows N n k) (hv : v < 10) :
    ∃ c', c.put v 0 = some c' ∧ c'.Shows (10 * (N / 10) + v) n k := by
  have hpos := h.count_pos
  have hle := h.count_le
  have hcount := h.count_eq
  obtain ⟨c', hset, hc'⟩ := (Rewrites.refl c).exists_setDigit (i := 0)
    (by rw [h.full]; omega) v
  have hsplit : ∀ d : ℕ → ℕ,
      numeral 10 d n = d 0 + 10 * numeral 10 (fun i => d (1 + i)) (n - 1) := by
    intro d
    have hadd := numeral_add (b := 10) (d := d) (k := 1) (n := n - 1)
    rwa [Nat.add_sub_of_le hpos, numeral_succ, numeral_zero, pow_zero, Nat.mul_one, Nat.zero_add,
      pow_one] at hadd
  have hshow := h.rewrite hc' (M := 10 * (N / 10) + v) hpos hle ?_ ?_
  · refine ⟨c', (put_of_lt (by omega)).trans hset, ?_⟩
    rwa [show ({ c' with count := n } : Coefficient) = c' by
      rw [← h.count_eq, ← hc'.count_eq]] at hshow
  · intro i hi
    by_cases hi0 : i = 0
    · rw [hi0, update_self]
      exact hv
    · rw [update_of_ne hi0]
      exact h.digit_lt hi
  · have hN := h.numeral_eq
    have hlast := h.digit_lt hpos
    rw [hsplit] at hN
    have hrest : N / 10 = numeral 10 (fun i => c.digit (1 + i)) (n - 1) := by omega
    rw [hsplit, update_self, hrest, Nat.add_comm]
    congr 2
    apply numeral_congr
    intro i _
    exact update_of_ne (by omega) _ _

theorem significantCount_spec (c : Coefficient) (n : ℕ) : c.significantCount n ≤ n ∧
    (∀ i, c.significantCount n ≤ i → i < n → c.digit i = 0) ∧
    (c.significantCount n ≠ 0 → c.digit (c.significantCount n - 1) ≠ 0) := by
  induction n with
  | zero =>
      exact ⟨Nat.le_refl 0, fun i _ hi => absurd hi (Nat.not_lt_zero i), fun h => absurd rfl h⟩
  | succ n ih =>
      rw [significantCount]
      split_ifs with hn
      · exact ⟨Nat.le_refl _, fun i h₁ h₂ => by omega, fun _ => hn⟩
      · obtain ⟨hle, hzero, htop⟩ := ih
        refine ⟨by omega, fun i h₁ h₂ => ?_, htop⟩
        rcases Nat.lt_succ_iff_lt_or_eq.mp h₂ with hi | rfl
        · exact hzero i h₁ hi
        · exact not_not.mp hn

section

variable (h : c.Shows N n k)

include h

theorem Shows.numeral_significant :
    numeral 10 c.digit (c.significantCount n) = N := by
  obtain ⟨hle, hzero, -⟩ := significantCount_spec c n
  have hsplit : numeral 10 c.digit (c.significantCount n + (n - c.significantCount n)) =
      numeral 10 c.digit (c.significantCount n) :=
    numeral_add_of_zero fun i hi => hzero _ (by omega) (by omega)
  rw [← hsplit, Nat.add_sub_of_le hle, h.numeral_eq]

theorem Shows.significantCount_eq_zero : c.significantCount n = 0 ↔ N = 0 := by
  have hN := h.numeral_significant
  constructor
  · intro hs
    rw [← hN, hs, numeral_zero]
  · intro hN0
    by_contra hs
    apply (significantCount_spec c n).2.2 hs
    rw [hN0, numeral_eq_zero_iff (by decide)] at hN
    exact hN _ (by omega)

theorem Shows.msdIndex_eq : c.msdIndex = Nat.log 10 N := by
  rw [msdIndex, h.count_eq]
  have hN := h.numeral_significant
  obtain ⟨hle, -, htop⟩ := significantCount_spec c n
  rcases Nat.eq_zero_or_pos (c.significantCount n) with hs | hs
  · rw [hs, h.significantCount_eq_zero.mp hs, Nat.log_zero_right]
  · obtain ⟨m, hm⟩ : ∃ m, c.significantCount n = m + 1 := ⟨_, (Nat.succ_pred_eq_of_pos hs).symm⟩
    rw [hm] at hN htop hle ⊢
    have htop' : c.digit m ≠ 0 := htop (Nat.succ_ne_zero m)
    have hlog : Nat.log 10 (numeral 10 c.digit (m + 1)) = m :=
      log_numeral (fun i hi => h.digit_lt (by omega)) htop'
    rw [← hN, hlog]
    rfl

/-- Nothing is lost at and above the most significant digit. -/
theorem Shows.numeral_msd : numeral 10 c.digit (c.msdIndex + 1) = N := by
  rw [msdIndex, h.count_eq]
  rcases Nat.eq_zero_or_pos (c.significantCount n) with hs | hs
  · have hN0 := h.significantCount_eq_zero.mp hs
    have hzero := (numeral_eq_zero_iff (by decide)).mp (h.numeral_eq.trans hN0)
    rw [hs, hN0]
    exact numeral_eq_zero fun i hi => hzero i (by have := h.count_pos; omega)
  · rw [Nat.sub_add_cancel hs, h.numeral_significant]

theorem Shows.msdIndex_lt : c.msdIndex < n := by
  have hle := (significantCount_spec c n).1
  have hpos := h.count_pos
  rw [msdIndex, h.count_eq]
  omega

theorem Shows.strip : c.stripLeadingZeroes.Shows N (Nat.log 10 N + 1) k := by
  have hlt := h.msdIndex_lt
  have hle := h.count_le
  rw [← h.msdIndex_eq]
  exact h.rewrite (Rewrites.refl c) (Nat.succ_pos _) (by omega)
    (fun i hi => h.digit_lt (by omega)) h.numeral_msd

theorem Shows.isZero_iff : c.isZero = true ↔ N = 0 := by
  rw [isZero, decide_eq_true_iff, h.count_eq, ← h.numeral_eq, numeral_eq_zero_iff (by decide)]

end

/-- Addition with carry of the `m` digits from `start` on. -/
theorem exists_carryLoop {m : ℕ} (start carry : ℕ) (addend : ℕ → Option ℕ) (e : ℕ → ℕ)
    (hm : start + m ≤ c.digits.count)
    (he : ∀ i, start ≤ i → i < start + m → addend i = some (e i)) :
    ∃ c' carry' d, forUp (carryTurn addend start) m start (c, carry) = some (c', carry') ∧
      c.Rewrites d c' ∧ (∀ i < m, d i < 10) ∧ (∀ i, m ≤ i → d i = c.digit i) ∧
      numeral 10 d m + carry' * 10 ^ m = numeral 10 (fun i => c.digit (start + i)) m +
        numeral 10 (fun i => e (start + i)) m + carry := by
  have hspec := forUp_spec (f := carryTurn addend start) (n := m) (i := start) (s := (c, carry))
    (fun i s => ∃ j d, i = start + j ∧ c.Rewrites d s.1 ∧ (∀ l < j, d l < 10) ∧
      (∀ l, j ≤ l → d l = c.digit l) ∧
      numeral 10 d j + s.2 * 10 ^ j = numeral 10 (fun l => c.digit (start + l)) j +
        numeral 10 (fun l => e (start + l)) j + carry) ?_
    ⟨0, c.digit, rfl, Rewrites.refl c, fun l hl => absurd hl (Nat.not_lt_zero l), fun _ _ => rfl,
      by simp⟩
  · obtain ⟨⟨c', carry'⟩, hrun, j, d, hj, hc', hlt, hkeep, hsum⟩ := hspec
    obtain rfl : j = m := by omega
    exact ⟨c', carry', d, hrun, hc', hlt, hkeep, hsum⟩
  · rintro i ⟨c₁, carry₁⟩ _ hi ⟨j, d, rfl, hc₁, hlt, hkeep, hsum⟩
    simp only at hc₁ hsum
    set total := carry₁ + c.digit (start + j) + e (start + j) with htotal
    obtain ⟨c₂, hset, hc₂⟩ := hc₁.exists_setDigit (i := j) (by omega) (total % 10)
    refine ⟨(c₂, total / 10), ?_, j + 1, _, (Nat.add_assoc start j 1).symm ▸ rfl, hc₂, ?_, ?_, ?_⟩
    · refine bind_of_some (a := c.digit (start + j))
        ?_ (bind_of_some (he _ (Nat.le_add_right start j) hi) (bind_of_some (a := c₂) ?_ rfl))
      · rw [hc₁.exists_item (by omega), hkeep _ (Nat.le_add_left j start)]
      · rw [Nat.add_sub_cancel_left]
        exact hset
    · intro l hl
      by_cases hlj : l = j
      · rw [hlj, update_self]
        exact Nat.mod_lt _ (by decide)
      · rw [update_of_ne hlj]
        exact hlt l (by omega)
    · intro l hl
      rw [update_of_ne (by omega)]
      exact hkeep l (by omega)
    · have hdiv := Nat.div_add_mod total 10
      rw [numeral_succ, numeral_succ, numeral_succ, update_self,
        numeral_update_of_le (Nat.le_refl j)]
      calc numeral 10 d j + total % 10 * 10 ^ j + total / 10 * 10 ^ (j + 1)
          = numeral 10 d j + (10 * (total / 10) + total % 10) * 10 ^ j := by ring
        _ = numeral 10 d j + carry₁ * 10 ^ j + (c.digit (start + j) + e (start + j)) * 10 ^ j := by
            rw [hdiv, htotal]
            ring
        _ = _ := by
            rw [hsum]
            ring

/-- A digit of the number shown. -/
theorem Shows.digit_eq (h : c.Shows N n k) (hi : i < n) : c.digit i = N / 10 ^ i % 10 := by
  rw [← h.numeral_eq, numeral_digit (fun j hj => h.digit_lt hj) hi]

/-- The `n` digits in front plus a digit. -/
theorem Shows.exists_integerQuickAddMsd {a : ℕ} (h : c.Shows N (a + n) k) (hn : 0 < n)
    (ha : 0 < a) : ∃ c' n', c.integerQuickAddMsd 1 n = some c' ∧
      c'.Shows (N / 10 ^ a + 1) n' k ∧
      n' = if N / 10 ^ a + 1 < 10 ^ n then n else n + 1 := by
  have hle := h.count_le
  obtain ⟨c₁, carry, d, hrun, hc₁, hlt, -, hsum⟩ := exists_carryLoop (c := c) (m := n) a 1
    (fun _ => some 0) (fun _ => 0) (by rw [h.full]; omega) fun _ _ _ => rfl
  have hdiv : numeral 10 (fun i => c.digit (a + i)) n = N / 10 ^ a := by
    rw [← h.numeral_eq, numeral_div fun i hi => h.digit_lt hi]
  rw [hdiv, numeral_eq_zero (fun _ _ => rfl), Nat.add_zero] at hsum
  have hR : numeral 10 d n < 10 ^ n := numeral_lt hlt
  have hlow : N / 10 ^ a < 10 ^ n := by
    have := h.lt
    rw [pow_add] at this
    exact Nat.div_lt_of_lt_mul this
  rw [integerQuickAddMsd, h.count_eq, Nat.add_sub_cancel]
  rcases Nat.eq_zero_or_pos carry with rfl | hcarry
  · rw [Nat.zero_mul, Nat.add_zero] at hsum
    refine ⟨{ c₁ with count := n }, n, bind_of_some hrun rfl,
      h.rewrite hc₁ hn (by omega) hlt hsum, ?_⟩
    rw [if_pos (by omega)]
  · have hcarry1 : carry = 1 := by nlinarith
    subst hcarry1
    obtain ⟨c₂, hset, hc₂⟩ := hc₁.exists_setDigit (i := n) (by rw [h.full]; omega) 1
    refine ⟨{ c₂ with count := n + 1 }, n + 1, bind_of_some hrun ?_,
      h.rewrite hc₂ (Nat.succ_pos n) (by omega) ?_ ?_, ?_⟩
    · simp only [ne_eq, Nat.one_ne_zero, not_false_eq_true, if_true, hset, Option.map_some]
    · intro i hi
      by_cases hin : i = n
      · rw [hin, update_self]
        decide
      · rw [update_of_ne hin]
        exact hlt i (by omega)
    · rw [numeral_succ, update_self, numeral_update_of_le (Nat.le_refl n)]
      exact hsum
    · rw [if_neg (by omega)]

theorem Shows.exists_keepHead {m : ℕ} (h : c.Shows N n k) (hm : 0 < m) (hmn : m ≤ n) :
    ∃ c', c.keepHead m = some c' ∧ c'.Shows (N % 10 ^ m) m k := by
  have hle := h.count_le
  obtain ⟨c', hcut, hc'⟩ := (Rewrites.refl c).exists_clear (i := m) (j := k - m)
    (by rw [h.full]; omega)
  refine ⟨{ c' with count := m }, ?_, h.rewrite hc' hm (by omega) ?_ ?_⟩
  · rw [keepHead, h.capacity_eq, hcut]
    rfl
  · intro i hi
    rw [if_neg (by omega)]
    exact h.digit_lt (by omega)
  · have hmod := numeral_mod (b := 10) (d := c.digit) (k := m) (n := n - m)
    rw [Nat.add_sub_of_le hmn, h.numeral_eq] at hmod
    rw [hmod fun i hi => h.digit_lt hi]
    exact numeral_congr fun i hi => if_neg (by omega)

end

end Coefficient

end Gobo
