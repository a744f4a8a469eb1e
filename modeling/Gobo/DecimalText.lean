/-
Decimal numbers as strings in scientific and in engineering notation, and the numbers that are
written in these strings.
-/
import Gobo.DecimalWritten

namespace Gobo

open Option List

namespace Coefficient

/-- The first `n` digits, the last one of them first. -/
def digitsText (c : Coefficient) : ℕ → List Char
  | 0 => []
  | n + 1 => Char.ofNat ('0'.toNat + c.digit n) :: c.digitsText n

end Coefficient

namespace Decimal

variable (d : Decimal)

/-- The loop `until printed_exponent \\ 3 = 0`, which ends after two turns at most. -/
def engineeringExponent : ℕ → ℤ → ℤ
  | 0, printedExponent => printedExponent
  | fuel + 1, printedExponent =>
      if printedExponent.tmod 3 = 0 then printedExponent
      else engineeringExponent fuel (printedExponent - 1)

/-- `str_coefficient`. -/
def strCoefficient : List Char := d.coefficient.digitsText d.count

def signText : List Char := if d.isNegative then ['-'] else []

/-- The part of `to_string_general` with an exponent. -/
def exponentialText (isEngineering : Bool) : List Char :=
  let theExponent := d.adjustedExponent
  let printedExponent :=
    if isEngineering then engineeringExponent 3 theExponent else theExponent
  let digitsBeforePoint :=
    if isEngineering ∧ ¬d.isZero then (1 + (theExponent - printedExponent)).toNat else 1
  let str :=
    if isEngineering ∧ ¬d.isZero then
      d.strCoefficient ++ replicate (digitsBeforePoint - d.strCoefficient.length) '0'
    else d.strCoefficient
  let mantissa :=
    if digitsBeforePoint < str.length then
      str.take digitsBeforePoint ++ '.' :: str.drop digitsBeforePoint
    else str
  let exponent :=
    if printedExponent ≠ 0 then
      'E' :: (if theExponent < 0 then '-' else '+') :: Nat.toDigits 10 printedExponent.natAbs
    else []
  mantissa ++ exponent

/-- The part of `to_string_general` without an exponent, for a coefficient that is written `str`. -/
def plainText (str : List Char) (exponent : ℤ) : List Char :=
  if exponent < 0 then
    let afterPointCount := exponent.natAbs
    if str.length < afterPointCount then
      '0' :: '.' :: (replicate (afterPointCount - str.length) '0' ++ str)
    else if afterPointCount = str.length then '0' :: '.' :: str
    else str.take (str.length - afterPointCount) ++ '.' :: str.drop (str.length - afterPointCount)
  else str

/-- `to_string_general (is_engineering)`. -/
def toStringGeneral (isEngineering : Bool) : List Char :=
  if d.isSpecial then
    if d.isQuietNan then ['N', 'a', 'N']
    else if d.isSignalingNan then ['s', 'N', 'a', 'N']
    else d.signText ++ ['I', 'n', 'f', 'i', 'n', 'i', 't', 'y']
  else if ¬(d.exponent ≤ 0 ∧ -6 ≤ d.adjustedExponent) then
    d.signText ++ d.exponentialText isEngineering
  else d.signText ++ plainText d.strCoefficient d.exponent

def toScientificString : List Char := d.toStringGeneral false

end Decimal

namespace TextParser

theorem digitValue_ofNat : ∀ v < 10, (Char.ofNat ('0'.toNat + v)).isDigit = true ∧
    digitValue (Char.ofNat ('0'.toNat + v)) = v := by
  decide

theorem digitsValue_replicate_append (z : ℕ) (ds : List Char) :
    digitsValue (replicate z '0' ++ ds) = digitsValue ds := by
  induction z with
  | zero => rfl
  | succ z ih =>
      rw [replicate_succ, cons_append, digitsValue_cons, ih,
        show digitValue '0' = 0 from rfl, Nat.zero_mul, Nat.add_zero]

theorem areDigits_replicate_append (z : ℕ) {ds : List Char} (hds : AreDigits ds) :
    AreDigits (replicate z '0' ++ ds) := by
  intro c hc
  rcases mem_append.mp hc with h | h
  · rw [eq_of_mem_replicate h]
    rfl
  · exact hds c h

/-- The digits of a natural number. -/
theorem digitsValue_toDigits (n : ℕ) : digitsValue (Nat.toDigits 10 n) = n := by
  have hfold : ∀ (ds : List Char) (v : ℕ),
      ds.foldl (fun v c => v * 10 + digitValue c) v = Nat.ofDigitChars 10 ds v := by
    intro ds
    induction ds with
    | nil => exact fun v => rfl
    | cons c ds ih =>
        intro v
        rw [foldl_cons, Nat.ofDigitChars_cons, ih, Nat.mul_comm]
        rfl
  rw [digitsValue, hfold, Nat.ofDigitChars_ten_toDigits]

theorem areDigits_toDigits (n : ℕ) : AreDigits (Nat.toDigits 10 n) :=
  fun _ hc => Nat.isDigit_of_mem_toDigits (by decide) (by decide) hc

end TextParser

namespace Coefficient

open TextParser

variable {c : Coefficient} {N n k : ℕ}

theorem length_digitsText (c : Coefficient) (n : ℕ) : (c.digitsText n).length = n := by
  induction n with
  | zero => rfl
  | succ n ih => rw [digitsText, length_cons, ih]

theorem digitsText_spec (hd : ∀ i < n, c.digit i < 10) :
    AreDigits (c.digitsText n) ∧ digitsValue (c.digitsText n) = numeral 10 c.digit n := by
  induction n with
  | zero => exact ⟨areDigits_nil, rfl⟩
  | succ n ih =>
      obtain ⟨hdigits, hvalue⟩ := ih fun i hi => hd i (Nat.lt_succ_of_lt hi)
      obtain ⟨hdigit, hdigitValue⟩ := digitValue_ofNat (c.digit n) (hd n n.lt_succ_self)
      refine ⟨areDigits_cons hdigit hdigits, ?_⟩
      rw [digitsText, digitsValue_cons, hvalue, hdigitValue, length_digitsText, numeral_succ]

theorem Shows.digitsText_spec (h : c.Shows N n k) :
    AreDigits (c.digitsText n) ∧ digitsValue (c.digitsText n) = N := by
  obtain ⟨hdigits, hvalue⟩ := Coefficient.digitsText_spec fun i hi => h.digit_lt hi
  exact ⟨hdigits, hvalue.trans h.numeral_eq⟩

end Coefficient

namespace Decimal

open TextParser

/-- The number `w` is written as `M` with the exponent `e`. -/
structure Writes (w : WrittenNumber) (isNegative : Bool) (M : ℕ) (e : ℤ) : Prop where
  wellFormed : w.WellFormed false
  commaBetween : w.CommaBetween
  isNegative_eq : w.isNegative = isNegative
  coefficient_eq : w.coefficient = M
  exponent_eq : w.exponentOfLast = e

section

variable {d : Decimal} {isNegative : Bool} {N n k : ℕ} {e : ℤ} {str : List Char}

/-- The sign that is written. -/
def writtenSign (isNegative : Bool) : Option Char := if isNegative then some '-' else none

theorem writtenSign_spec (isNegative : Bool) : IsSign (writtenSign isNegative) ∧
    decide (writtenSign isNegative = some '-') = isNegative := by
  cases isNegative with
  | false => exact ⟨isSign_none, rfl⟩
  | true =>
      refine ⟨?_, rfl⟩
      rintro c ⟨⟩
      exact Or.inr rfl

theorem isPoint_some (b : Bool) : ∀ c ∈ some '.', c = '.' ∨ c = ',' ∧ b = true := by
  rintro c ⟨⟩
  exact Or.inl rfl

/-- A number without an exponent. -/
theorem writes_plain {integer fraction : List Char} (hint : AreDigits integer)
    (hfrac : AreDigits fraction) (hne : integer ≠ []) (point : Option Char)
    (hpoint : point = some '.' ∨ point = none ∧ fraction = [])
    (hvalue : digitsValue (integer ++ fraction) = N) (hplaces : (fraction.length : ℤ) = -e) :
    Writes ⟨writtenSign isNegative, integer, point, fraction, none⟩ isNegative N e := by
  obtain ⟨hsign, hneg⟩ := writtenSign_spec isNegative
  have hexponent : WrittenNumber.exponentOfLast
      ⟨writtenSign isNegative, integer, point, fraction, none⟩ = 0 - fraction.length := rfl
  refine ⟨⟨hsign, hint, hfrac, ?_, Or.inl hne, ?_, ?_⟩, ?_, hneg, hvalue, by omega⟩
  · rcases hpoint with rfl | ⟨rfl, -⟩
    · exact isPoint_some false
    · exact fun c h => absurd h (not_mem_none c)
  · rcases hpoint with rfl | ⟨rfl, h⟩
    · exact fun h => nomatch h
    · exact fun _ => h
  · exact fun x h => absurd h (not_mem_none x)
  · rcases hpoint with rfl | ⟨rfl, -⟩
    · intro h
      exact absurd (some.inj h) (by decide)
    · exact fun h => nomatch h

/-- A number with the exponent `t`. -/
theorem writes_exponential {t : ℤ} (hstr : AreDigits str) (hne : str ≠ [])
    (hvalue : digitsValue str = N) (hplaces : t - (str.length - 1 : ℕ) = e) :
    Writes ⟨writtenSign isNegative, str.take 1, if 1 < str.length then some '.' else none,
      str.drop 1, some ⟨'E', some (if t < 0 then '-' else '+'), Nat.toDigits 10 t.natAbs⟩⟩
      isNegative N e := by
  obtain ⟨hsign, hneg⟩ := writtenSign_spec isNegative
  have hpoint : ∀ c ∈ (if 1 < str.length then some '.' else none),
      c = '.' ∨ c = ',' ∧ false = true := by
    by_cases hlong : 1 < str.length
    · rw [if_pos hlong]
      exact isPoint_some false
    · rw [if_neg hlong]
      exact fun c h => absurd h (not_mem_none c)
  refine ⟨⟨hsign, ?_, ?_, hpoint, ?_, ?_, ?_⟩, ?_, hneg, ?_, ?_⟩
  · exact fun c hc => hstr c (mem_of_mem_take hc)
  · exact fun c hc => hstr c (mem_of_mem_drop hc)
  · left
    exact fun h => hne ((take_eq_nil_iff.mp h).resolve_left (by decide))
  · dsimp only
    split_ifs with hlong
    · exact fun h => nomatch h
    · exact fun _ => drop_eq_nil_of_le (by omega)
  · rintro x ⟨⟩
    refine ⟨Or.inr rfl, ?_, areDigits_toDigits _, Nat.toDigits_ne_nil⟩
    rintro c ⟨⟩
    split_ifs
    · exact Or.inr rfl
    · exact Or.inl rfl
  · intro h
    dsimp only at h
    split_ifs at h
    exact absurd h (by decide)
  · rw [WrittenNumber.coefficient, WrittenNumber.digits, take_append_drop, hvalue]
  · have hexponent : WrittenNumber.exponentValue ⟨writtenSign isNegative, str.take 1,
        if 1 < str.length then some '.' else none, str.drop 1,
        some ⟨'E', some (if t < 0 then '-' else '+'), Nat.toDigits 10 t.natAbs⟩⟩ = t.natAbs :=
      digitsValue_toDigits _
    have hnegative : WrittenNumber.exponentIsNegative ⟨writtenSign isNegative, str.take 1,
        if 1 < str.length then some '.' else none, str.drop 1,
        some ⟨'E', some (if t < 0 then '-' else '+'), Nat.toDigits 10 t.natAbs⟩⟩ =
          decide (t < 0) := by
      rw [WrittenNumber.exponentIsNegative, bind_some]
      split_ifs with ht
      · simp [ht]
      · simp [ht]
    rw [WrittenNumber.exponentOfLast, hexponent, hnegative, length_drop]
    split_ifs with ht
    · have := of_decide_eq_true ht
      omega
    · have : ¬t < 0 := fun h => ht (decide_eq_true h)
      omega

theorem exists_writtenPlain (hstr : AreDigits str) (hne : str ≠ []) (hvalue : digitsValue str = N)
    (he : e ≤ 0) (isNegative : Bool) : ∃ w : WrittenNumber,
      w.text = (writtenSign isNegative).toList ++ plainText str e ∧ Writes w isNegative N e ∧
        w.exponentValue = 0 := by
  have hzero : AreDigits ['0'] := areDigits_cons rfl areDigits_nil
  have hzeroes : ∀ ds, digitsValue (['0'] ++ ds) = digitsValue ds := digitsValue_replicate_append 1
  rw [plainText]
  by_cases hneg : e < 0
  · rw [if_pos hneg]
    rcases lt_trichotomy str.length e.natAbs with hshort | heq | hlong
    · rw [if_pos hshort]
      refine ⟨_, ?_, writes_plain hzero (areDigits_replicate_append (e.natAbs - str.length) hstr)
        (cons_ne_nil _ _) (some '.') (Or.inl rfl) ?_ ?_, rfl⟩
      · rw [WrittenNumber.text, WrittenNumber.mantissa, WrittenNumber.exponentText,
          elim_none, append_nil]
        rfl
      · rw [hzeroes, digitsValue_replicate_append, hvalue]
      · rw [length_append, length_replicate]
        omega
    · rw [if_neg heq.not_lt, if_pos heq.symm]
      refine ⟨_, ?_, writes_plain hzero hstr (cons_ne_nil _ _) (some '.') (Or.inl rfl) ?_ ?_,
        rfl⟩
      · rw [WrittenNumber.text, WrittenNumber.mantissa, WrittenNumber.exponentText,
          elim_none, append_nil]
        rfl
      · rw [hzeroes, hvalue]
      · omega
    · rw [if_neg hlong.not_gt, if_neg hlong.ne]
      have htake : AreDigits (str.take (str.length - e.natAbs)) := fun c hc =>
        hstr c (mem_of_mem_take hc)
      have hdrop : AreDigits (str.drop (str.length - e.natAbs)) := fun c hc =>
        hstr c (mem_of_mem_drop hc)
      refine ⟨_, ?_, writes_plain htake hdrop ?_ (some '.') (Or.inl rfl) ?_ ?_, rfl⟩
      · rw [WrittenNumber.text, WrittenNumber.mantissa, WrittenNumber.exponentText,
          elim_none, append_nil]
        rfl
      · exact fun h => hne ((take_eq_nil_iff.mp h).resolve_left (by omega))
      · rw [take_append_drop, hvalue]
      · rw [length_drop]
        omega
  · rw [if_neg hneg]
    refine ⟨_, ?_, writes_plain hstr areDigits_nil hne none (Or.inr ⟨rfl, rfl⟩) ?_ ?_, rfl⟩
    · rw [WrittenNumber.text, WrittenNumber.mantissa, WrittenNumber.exponentText,
        elim_none, append_nil, toList_none, append_nil, append_nil]
    · rw [append_nil, hvalue]
    · rw [length_nil]
      omega

/-- In scientific notation a number is written as it is. -/
theorem Shows.exists_written (h : d.Shows isNegative N n k e) (hlow : -2 ^ 31 ≤ e)
    (hhigh : e < 2 ^ 31) (hlow' : -2 ^ 31 ≤ e + n - 1) (hhigh' : e + n - 1 < 2 ^ 31) :
    ∃ w : WrittenNumber, w.text = d.toScientificString ∧ Writes w isNegative N e ∧
      w.exponentValue ≤ (e + n - 1).natAbs := by
  have hexponent : d.exponent = e := h.exponent_eq.trans (int32_of_mem hlow hhigh)
  have hadjusted : d.adjustedExponent = e + n - 1 :=
    h.adjustedExponent_eq.trans (int32_of_mem hlow' hhigh')
  have hpos := h.coefficient.count_pos
  obtain ⟨hdigits, hvalue⟩ := h.coefficient.digitsText_spec
  have hlength := Coefficient.length_digitsText d.coefficient n
  have hstr : d.strCoefficient = d.coefficient.digitsText n := by rw [strCoefficient, h.count_eq]
  have hsign : (writtenSign isNegative).toList = d.signText := by
    rw [signText, h.isNegative_eq]
    cases isNegative <;> rfl
  generalize d.coefficient.digitsText n = str at hdigits hvalue hlength hstr
  have hne : str ≠ [] := by
    rintro rfl
    exact hpos.ne hlength
  have htext : d.toScientificString = if ¬(e ≤ 0 ∧ -6 ≤ e + n - 1) then
      d.signText ++ d.exponentialText false
        else d.signText ++ plainText d.strCoefficient d.exponent := by
    rw [toScientificString, toStringGeneral, h.isSpecial_eq, hexponent, hadjusted]
    exact if_neg Bool.false_ne_true
  rw [htext]
  by_cases hplain : e ≤ 0 ∧ -6 ≤ e + n - 1
  · rw [if_neg (not_not_intro hplain), hexponent, hstr, ← hsign]
    obtain ⟨w, hw, hwrites, hvalue⟩ := exists_writtenPlain hdigits hne hvalue hplain.1 isNegative
    exact ⟨w, hw, hwrites, hvalue.trans_le (Nat.zero_le _)⟩
  · rw [if_pos hplain]
    refine ⟨_, ?_, writes_exponential (t := e + n - 1) hdigits hne hvalue (by omega), ?_⟩
    · have hnonzero : e + (n : ℤ) - 1 ≠ 0 := by omega
      rw [exponentialText, hadjusted, hstr]
      simp only [Bool.false_eq_true, false_and, if_false, if_pos hnonzero]
      rw [WrittenNumber.text, WrittenNumber.mantissa, hsign]
      generalize (if e + (n : ℤ) - 1 < 0 then '-' else '+') = c
      by_cases hlong : 1 < str.length
      · rw [if_pos hlong, if_pos hlong]
        rfl
      · rw [if_neg hlong, if_neg hlong, toList_none, nil_append, take_append_drop]
        rfl
    · exact (digitsValue_toDigits _).le

end

end Decimal

end Gobo
