/-
The decimal number that is made of what a parser has read: its digits are put from the last one on,
and its exponent is computed with an `INTEGER`.
-/
import Gobo.DecimalReading

namespace Gobo

open Option List

namespace TextParser

variable {c : Char} {ds : List Char}

theorem digitValue_lt (hc : c.isDigit = true) : digitValue c < 10 := by
  rw [Char.isDigit, Bool.and_eq_true, decide_eq_true_eq, decide_eq_true_eq] at hc
  have hhigh : c.toNat ≤ 57 := UInt32.le_iff_toNat_le.mp hc.2
  have hzero : '0'.toNat = 48 := rfl
  rw [digitValue, hzero]
  omega

theorem foldl_digitValue (v : ℕ) : ds.foldl (fun v c => v * 10 + digitValue c) v =
    v * 10 ^ ds.length + digitsValue ds := by
  induction ds generalizing v with
  | nil => rw [foldl_nil, digitsValue, foldl_nil, length_nil, pow_zero, Nat.mul_one,
      Nat.add_zero]
  | cons c ds ih =>
      rw [digitsValue, foldl_cons, foldl_cons, ih, ih (0 * 10 + digitValue c),
        length_cons, pow_succ]
      ring

/-- The first digit weighs most. -/
theorem digitsValue_cons :
    digitsValue (c :: ds) = digitsValue ds + digitValue c * 10 ^ ds.length := by
  rw [digitsValue, foldl_cons, foldl_digitValue, Nat.zero_mul, Nat.zero_add, Nat.add_comm]

end TextParser

namespace Coefficient

open TextParser

variable {c : Coefficient} {s : List Char} {i k m v b e : ℕ}

/-- `put` at any index of the array. -/
theorem exists_put_of_lt (hi : i < c.digits.count) (v : ℕ) :
    ∃ c', c.put v i = some c' ∧ c'.digits.count = c.digits.count ∧ c'.capacity = c.capacity ∧
      c'.digit = Function.update c.digit i v := by
  obtain ⟨c', hset, hc'⟩ := (Rewrites.refl c).exists_setDigit hi v
  rw [put, hset, map_some]
  refine ⟨_, rfl, ?_⟩
  split_ifs
  · exact ⟨hc'.full_eq, hc'.capacity_eq, hc'.digit_eq⟩
  · exact ⟨hc'.full_eq, hc'.capacity_eq, hc'.digit_eq⟩

/-- A new coefficient, which has no digits yet, grows. -/
theorem exists_grow_make (hk : k < m) :
    ∃ c', (make k).grow m = some c' ∧ c'.digits.count = m ∧ c'.capacity = m := by
  have hcapacity : (make k).capacity = k := rfl
  have hcount : (make k).count = 0 := rfl
  rw [grow, hcapacity, if_pos hk, hcount]
  have hfull : (make k).digits.count = (make k).digits.capacity :=
    Special.count_makeFilled 0 k
  obtain ⟨c', hrun, hc'⟩ := forUp_spec (f := fun index (c : Coefficient) => c.put 0 index)
    (n := m - 0) (i := 0)
    (s := { make k with digits := (make k).digits.aliasedResizedAreaWithDefault 0 m })
    (fun _ c₁ => c₁.digits.count = m ∧ c₁.capacity = m) (fun j c₁ _ hj hc₁ => by
      obtain ⟨c₂, hput, hb, hcap, -⟩ := exists_put_of_lt (c := c₁) (i := j) (by omega) 0
      exact ⟨c₂, hput, hb.trans hc₁.1, hcap.trans hc₁.2⟩)
    ⟨Special.count_aliasedResizedAreaWithDefault _ _ hfull hk.le,
      Special.capacity_aliasedResizedAreaWithDefault _ _ hk.le⟩
  exact ⟨{ c' with count := m }, congrArg (Option.map fun c => { c with count := m }) hrun,
    hc'.1, hc'.2⟩

/-- The digits of the part of the string behind the index `i`. -/
def digitsBehind (s : List Char) (e i : ℕ) : List Char :=
  ((s.take e).drop i).filter Char.isDigit

theorem digitsBehind_length_le : (digitsBehind s e i).length ≤ s.length := by
  refine (length_filter_le _ _).trans ?_
  rw [length_drop, length_take]
  omega

theorem digitsBehind_eq {a : Char} (hi : i < e) (ha : s[i]? = some a) : digitsBehind s e i =
    if a.isDigit = true then a :: digitsBehind s e (i + 1) else digitsBehind s e (i + 1) := by
  have hget : (s.take e)[i]? = some a := by rw [List.getElem?_take_of_lt hi, ha]
  obtain ⟨hlt, hget⟩ := List.getElem?_eq_some_iff.mp hget
  rw [digitsBehind, List.drop_eq_getElem_cons hlt, hget, List.filter_cons, digitsBehind]

/-- The digits behind the index `i` have been put, the last one first. -/
structure PutBehind (s : List Char) (e k i : ℕ) (t : Coefficient × ℕ) : Prop where
  full : t.1.digits.count = k
  capacity_eq : t.1.capacity = k
  count_eq : t.2 = (digitsBehind s e i).length
  digit_lt : ∀ j < t.2, t.1.digit j < 10
  numeral_eq : numeral 10 t.1.digit t.2 = digitsValue (digitsBehind s e i)

theorem PutBehind.exists_substringTurn {t : Coefficient × ℕ} (ht : PutBehind s e k (i + 1) t)
    (hi : i < e) (he : e ≤ s.length) (hk : s.length ≤ k) :
    ∃ t', substringTurn s ((i + 1 : ℕ) : ℤ) t = some t' ∧ PutBehind s e k i t' := by
  obtain ⟨hfull, hcapacity, hcount, hdigit, hnumeral⟩ := ht
  obtain ⟨a, hget⟩ : ∃ a, s[i]? = some a := ⟨_, getElem?_eq_getElem (by omega)⟩
  have hindex : (((i + 1 : ℕ) : ℤ) - 1).toNat = i := by omega
  have hbehind := digitsBehind_eq hi hget
  rw [substringTurn, hindex, hget]
  by_cases ha : a.isDigit = true
  · rw [if_pos ha] at hbehind
    have hlength : (digitsBehind s e i).length = t.2 + 1 := by
      rw [hbehind, length_cons, hcount]
    have hroom := digitsBehind_length_le (s := s) (e := e) (i := i)
    obtain ⟨c', hput, hb, hcap, hd⟩ :=
      exists_put_of_lt (c := t.1) (i := t.2) (by omega) (digitValue a)
    refine ⟨(c', t.2 + 1), ?_, hb.trans hfull, hcap.trans hcapacity, hlength.symm, ?_, ?_⟩
    · dsimp only [some_bind]
      rw [if_pos ha, hput]
      rfl
    · intro j hj
      rw [hd]
      by_cases hjt : j = t.2
      · rw [hjt, Function.update_self]
        exact digitValue_lt ha
      · rw [Function.update_of_ne hjt]
        exact hdigit j (by change j < t.2 + 1 at hj; omega)
    · change numeral 10 c'.digit (t.2 + 1) = _
      rw [hbehind, digitsValue_cons, hd, numeral_succ, Function.update_self,
        numeral_update_of_le le_rfl, hnumeral, hcount]
  · rw [if_neg ha] at hbehind
    refine ⟨t, ?_, hfull, hcapacity, by rw [hbehind, hcount], hdigit, by rw [hbehind, hnumeral]⟩
    dsimp only [some_bind]
    rw [if_neg ha]

/-- The digits of the part of a string are put into a new coefficient. -/
theorem exists_setFromSubstring (hb : 0 < b) (he : e ≤ s.length) (hbe : b ≤ e + 1)
    (hne : digitsBehind s e (b - 1) ≠ []) :
    ∃ c', (make k).setFromSubstring s b e = some c' ∧
      c'.Shows (digitsValue (digitsBehind s e (b - 1))) (digitsBehind s e (b - 1)).length
        (max k s.length) := by
  obtain ⟨grown, hgrow, hfull, hcapacity⟩ : ∃ grown,
      (if (make k).capacity < s.length then (make k).grow s.length else some (make k)) =
        some grown ∧ grown.digits.count = max k s.length ∧ grown.capacity = max k s.length := by
    have hmake : (make k).capacity = k := rfl
    rw [hmake]
    split_ifs with hlt
    · rw [max_eq_right hlt.le]
      exact exists_grow_make hlt
    · rw [max_eq_left (by omega)]
      exact ⟨make k, rfl, Special.count_makeFilled 0 k, rfl⟩
  have hstart : PutBehind s e (max k s.length) e (grown, 0) := by
    have hnil : digitsBehind s e e = [] := by
      rw [digitsBehind, drop_eq_nil_of_le (length_take_le _ _), filter_nil]
    refine ⟨hfull, hcapacity, by rw [hnil]; rfl, fun j hj => absurd hj (Nat.not_lt_zero j), ?_⟩
    rw [hnil]
    rfl
  obtain ⟨t, hrun, ht⟩ := forDown_spec (g := substringTurn s) (n := e + 1 - b) (i := (e : ℤ))
    (s := (grown, 0)) (fun j t => PutBehind s e (max k s.length) j.toNat t) (fun j t hj hje ht => by
      obtain ⟨i, rfl⟩ : ∃ i : ℕ, j = ((i + 1 : ℕ) : ℤ) := ⟨(j - 1).toNat, by omega⟩
      rw [show ((i + 1 : ℕ) : ℤ).toNat = i + 1 from rfl] at ht
      obtain ⟨t', hturn, ht'⟩ := ht.exists_substringTurn (by omega) he (le_max_right k s.length)
      refine ⟨t', hturn, ?_⟩
      rwa [show (((i + 1 : ℕ) : ℤ) - 1).toNat = i by omega]) hstart
  rw [show ((e : ℤ) - (e + 1 - b : ℕ)).toNat = b - 1 by omega] at ht
  have hpos := length_pos_iff.mpr hne
  have hroom := digitsBehind_length_le (s := s) (e := e) (i := b - 1)
  refine ⟨{ t.1 with count := t.2 }, ?_, ?_⟩
  · rw [setFromSubstring, hgrow]
    exact congrArg (fun o => o.bind fun t : Coefficient × ℕ => some { t.1 with count := t.2 }) hrun
  · apply shows_of_numeral (c := { t.1 with count := t.2 }) ht.full ht.capacity_eq ht.count_eq hpos
      (hroom.trans (le_max_right k s.length))
    · exact fun j hj => ht.digit_lt j (ht.count_eq ▸ hj)
    · rw [← ht.count_eq]
      exact ht.numeral_eq

end Coefficient

namespace TextParser

variable {ds : List Char}

theorem digitsValue_dropWhile :
    digitsValue (ds.dropWhile fun c => digitValue c = 0) = digitsValue ds := by
  induction ds with
  | nil => rfl
  | cons c ds ih =>
      rw [dropWhile_cons]
      split_ifs with hc
      · rw [ih, digitsValue_cons, of_decide_eq_true hc, Nat.zero_mul, Nat.add_zero]
      · rfl

theorem digitsValue_lt (hds : AreDigits ds) : digitsValue ds < 10 ^ ds.length := by
  induction ds with
  | nil => exact Nat.one_pos
  | cons c ds ih =>
      have hrest := ih fun a ha => hds a (mem_cons_of_mem c ha)
      have hc := Nat.mul_le_mul_right (10 ^ ds.length)
        (Nat.le_of_lt_succ (digitValue_lt (hds c mem_cons_self)))
      rw [digitsValue_cons, length_cons, pow_succ]
      omega

/-- The significant digits tell how large a number is. -/
theorem pow_le_digitsValue (hvalue : digitsValue ds ≠ 0) :
    10 ^ (significantDigits ds - 1) ≤ digitsValue ds := by
  rw [← digitsValue_dropWhile, significantDigits]
  cases hrest : ds.dropWhile fun c => digitValue c = 0 with
  | nil =>
      rw [← digitsValue_dropWhile, hrest] at hvalue
      exact absurd rfl hvalue
  | cons c rest =>
      have hc : digitValue c ≠ 0 := by
        have hhead := head_dropWhile_not (l := ds) (fun c => decide (digitValue c = 0))
          (by rw [hrest]; exact cons_ne_nil c rest)
        simpa [hrest] using hhead
      rw [digitsValue_cons, length_cons, Nat.add_sub_cancel]
      exact (Nat.le_mul_of_pos_left _ (Nat.pos_of_ne_zero hc)).trans (Nat.le_add_left _ _)

theorem significantDigits_le : significantDigits ds ≤ ds.length :=
  (dropWhile_suffix _).length_le

end TextParser

namespace WrittenNumber

open TextParser

variable (w : WrittenNumber)

/-- The digits of the coefficient. -/
def digits : List Char := w.integer ++ w.fraction

/-- The coefficient as it is written. -/
def coefficient : ℕ := digitsValue w.digits

/-- The exponent that the last digit has. -/
def exponentOfLast : ℤ :=
  (if w.exponentIsNegative then -(w.exponentValue : ℤ) else w.exponentValue) - w.fraction.length

variable {w} {b : Bool}

theorem filter_isDigit {ds : List Char} (hds : AreDigits ds) : ds.filter Char.isDigit = ds :=
  filter_eq_self.mpr hds

theorem WellFormed.filter_point (hw : w.WellFormed b) :
    w.point.toList.filter Char.isDigit = [] := by
  cases hpoint : w.point with
  | none => rfl
  | some c =>
      rcases hw.point_eq c hpoint with rfl | ⟨rfl, -⟩
      · rfl
      · rfl

theorem WellFormed.digits_ne_nil (hw : w.WellFormed b) : w.digits ≠ [] := by
  rw [digits, ne_eq, append_eq_nil_iff, not_and_or]
  exact hw.digits_ne

theorem WellFormed.areDigits (hw : w.WellFormed b) : AreDigits w.digits := by
  intro c hc
  rcases mem_append.mp hc with h | h
  · exact hw.integer c h
  · exact hw.fraction c h

theorem WellFormed.log_lt (hw : w.WellFormed b) :
    Nat.log 10 w.coefficient < w.integer.length + w.fraction.length := by
  have hlength : w.digits.length = w.integer.length + w.fraction.length := length_append
  have hpos := length_pos_iff.mpr hw.digits_ne_nil
  rw [← hlength]
  rcases Nat.eq_zero_or_pos w.coefficient with hzero | hvalue
  · rw [hzero, Nat.log_zero_right]
    exact hpos
  · exact Nat.log_lt_of_lt_pow hvalue.ne' (digitsValue_lt hw.areDigits)

theorem exponentText_length {x : WrittenExponent} :
    significantDigits x.digits < (exponentText (some x)).length := by
  have hle : significantDigits x.digits ≤ x.digits.length := significantDigits_le
  rw [exponentText, elim_some, WrittenExponent.text, length_cons, length_append]
  omega

/-- The parts of a number are not longer than the number. -/
theorem length_le_text : w.integer.length + w.fraction.length + w.exponentCount ≤
    w.text.length := by
  have hcount : w.exponentCount ≤ (exponentText w.exponent).length := by
    rw [exponentCount]
    cases w.exponent with
    | none => exact Nat.zero_le _
    | some x => exact exponentText_length.le
  rw [text, mantissa]
  simp only [length_append]
  omega

theorem coefficientEnd_le : w.sign.toList.length + w.mantissa.length ≤ w.text.length := by
  rw [text]
  simp only [length_append]
  omega

/-- The digits that are put are those of the number. -/
theorem WellFormed.digitsBehind_eq (hw : w.WellFormed b) :
    Coefficient.digitsBehind w.text (w.sign.toList.length + w.mantissa.length)
      (w.sign.toList.length + 1 + (if w.integer = [] then 1 else 0) - 1) = w.digits := by
  have htake : w.text.take (w.sign.toList.length + w.mantissa.length) =
      w.sign.toList ++ w.mantissa := by
    rw [text, ← append_assoc, ← length_append]
    exact take_left
  rw [Coefficient.digitsBehind, htake]
  split_ifs with hint
  · have hfraction := hw.digits_ne.resolve_left fun h => h hint
    obtain ⟨c, hpoint⟩ : ∃ c, w.point = some c := by
      cases hpoint : w.point with
      | none => exact absurd (hw.fraction_eq hpoint) hfraction
      | some c => exact ⟨c, rfl⟩
    rw [Nat.add_sub_cancel, mantissa, hint, hpoint, nil_append, toList_some, digits,
      hint, nil_append, ← drop_drop, drop_left]
    exact filter_isDigit hw.fraction
  · rw [Nat.add_zero, Nat.add_sub_cancel, drop_left, mantissa, filter_append,
      filter_append, hw.filter_point, filter_isDigit hw.integer, filter_isDigit hw.fraction]
    rfl

/-- An exponent above every `INTEGER` is replaced by one that is as large as the limits of the
context, its digits and the digits of the exponent. -/
def keptExponent (w : WrittenNumber) (digits : ℕ) : ℕ :=
  if w.exponentValue ≤ 2147483647 then w.exponentValue
  else 1000000001 + digits + w.exponentCount

/-- An exponent that is replaced is greater than the one it is replaced by. -/
theorem keptExponent_lt {n : ℕ} (hn : n ≤ 999999999)
    (hlarge : 2147483647 < w.exponentValue) : w.keptExponent n < w.exponentValue := by
  rw [keptExponent, if_neg (by omega)]
  rw [exponentValue] at hlarge ⊢
  rw [exponentCount]
  cases hx : w.exponent with
  | none =>
      rw [hx] at hlarge
      exact absurd hlarge (by decide)
  | some x =>
      rw [hx, elim_some] at hlarge
      rw [elim_some, elim_some]
      have hpow : 10 ^ (significantDigits x.digits - 1) ≤ digitsValue x.digits :=
        pow_le_digitsValue (by omega)
      rcases Nat.lt_or_ge 10 (significantDigits x.digits) with hlong | hshort
      · obtain ⟨m, hm⟩ : ∃ m, significantDigits x.digits = m + 11 :=
          ⟨significantDigits x.digits - 11, by omega⟩
        have hten : (10 : ℕ) ^ (m + 11 - 1) = 10000000000 * 10 ^ m := by
          rw [show m + 11 - 1 = 10 + m by omega, pow_add]
          norm_num
        have hlt := Nat.lt_pow_self (n := m) (show 1 < 10 by decide)
        rw [hm, hten] at hpow
        omega
      · omega

end WrittenNumber

namespace Decimal

open TextParser DecimalContext

variable {w : WrittenNumber} {b : Bool} {q parser : TextParser} {digits : ℕ}

theorem HasRead.fractionalPartCount_eq (h : HasRead w q) (hw : w.WellFormed b) :
    q.hasPoint = decide (w.point ≠ none) ∧ q.fractionalPartCount = w.fraction.length := by
  rw [hasPoint, fractionalPartCount, h.point_eq, h.end_eq, WrittenNumber.mantissa]
  cases hpoint : w.point with
  | none =>
      rw [hw.fraction_eq hpoint]
      exact ⟨rfl, rfl⟩
  | some c =>
      simp only [reduceCtorEq, if_false, toList_some, length_append, length_singleton]
      refine ⟨?_, ?_⟩
      · simp
      · rw [if_pos (by omega)]
        omega

theorem int32_neg_int32 (x : ℤ) : int32 (-int32 x) = int32 (-x) := by
  rw [← zero_sub, int32, int32, Int.sub_bmod_bmod, zero_sub, int32]

/-- The exponent that is set, which has the sign that the shared parser has read. -/
theorem HasRead.exponent_eq (h : HasRead w q) (hw : w.WellFormed b) :
    exponentFromParser q parser digits =
      int32 ((if parser.exponentSign < 0 then -(w.keptExponent digits : ℤ)
        else w.keptExponent digits) - w.fraction.length) := by
  obtain ⟨hpoint, hcount⟩ := HasRead.fractionalPartCount_eq h hw
  have hkept : (if q.exponentAsDouble > 2147483647 then
      int32 (maximumExponent + digits + q.exponentCount + 2) else q.exponentAsDouble) =
        int32 (w.keptExponent digits) := by
    rw [h.exponentAsDouble_eq, TextParser.exponentCount, h.exponentCount_eq,
      WrittenNumber.keptExponent, maximumExponent]
    split_ifs with hlarge hle hle
    · omega
    · congr 1
      push_cast
      ring
    · exact (int32_of_mem (by omega) (by omega)).symm
    · omega
  have hstored : (if q.hasExponent then
      (if parser.exponentSign < 0 then int32 (-int32 (w.keptExponent digits))
        else int32 (w.keptExponent digits)) else 0) =
        int32 (if parser.exponentSign < 0 then -(w.keptExponent digits : ℤ)
          else w.keptExponent digits) := by
    rw [h.hasExponent_eq]
    cases hx : w.exponent with
    | none =>
        have hzero : w.keptExponent digits = 0 := by
          rw [WrittenNumber.keptExponent, WrittenNumber.exponentValue, hx]
          rfl
        rw [hzero]
        split_ifs <;> rfl
    | some x =>
        rw [isSome_some, if_pos rfl, int32_neg_int32]
        by_cases hs : parser.exponentSign < 0
        · rw [if_pos hs, if_pos hs]
        · rw [if_neg hs, if_neg hs]
  rw [exponentFromParser, hkept, hstored, hpoint, hcount]
  cases hp : w.point with
  | none =>
      rw [hw.fraction_eq hp, length_nil, Int.natCast_zero, sub_zero, sub_zero]
      rw [if_neg (by simp)]
  | some c => exact int32_int32_sub _ _

/-- The number that is set before it is cleaned up. -/
theorem HasRead.exists_number (h : HasRead w q) (hw : w.WellFormed b) (parser : TextParser)
    (digits : ℕ) :
    ∃ c, numberFromParser q parser w.text digits =
        some ⟨c, exponentFromParser q parser digits, w.isNegative, .none⟩ ∧
      c.Shows w.coefficient w.digits.length (max (max (digits + 1) q.coefficientCount)
        w.text.length) := by
  have hbehind := hw.digitsBehind_eq
  rw [← h.begin_eq, ← h.end_eq] at hbehind
  have hb : 0 < q.coefficientBegin := by
    rw [h.begin_eq]
    omega
  have hbe : q.coefficientBegin ≤ q.coefficientEnd + 1 := by
    rw [h.begin_eq, h.end_eq, WrittenNumber.mantissa, length_append, length_append]
    split_ifs with hint
    · have hfraction := length_pos_iff.mpr (hw.digits_ne.resolve_left fun h => h hint)
      omega
    · omega
  obtain ⟨c, hset, hc⟩ := Coefficient.exists_setFromSubstring
    (k := max (digits + 1) q.coefficientCount) hb
    (h.end_eq ▸ WrittenNumber.coefficientEnd_le) hbe (by rw [hbehind]; exact hw.digits_ne_nil)
  rw [hbehind] at hc
  refine ⟨c, ?_, hc⟩
  have hsign : decide (q.sign < 0) = w.isNegative := by
    rw [h.sign_eq]
    cases w.isNegative <;> rfl
  rw [numberFromParser, hset]
  exact congrArg (fun s => some (⟨c, exponentFromParser q parser digits, s, .none⟩ : Decimal)) hsign

end Decimal

end Gobo
