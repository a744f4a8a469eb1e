/-
The decimal numbers that are made of strings: when they are the numbers that are written there.
-/
import Gobo.DecimalBuilding

namespace Gobo

namespace Decimal

open TextParser DecimalContext

variable {ctx : DecimalContext} {M : ℕ} {e e' : ℤ}

/-- The first digit is above the limit of the context. -/
def AboveLimit (ctx : DecimalContext) (M : ℕ) (e : ℤ) : Prop :=
  ctx.exponentLimit < e + Nat.log 10 M

/-- All digits are below the half of the least number, or the exponent of a zero is too small. -/
def BelowTiny (ctx : DecimalContext) (M : ℕ) (e : ℤ) : Prop :=
  e + Nat.log 10 M < ctx.eTiny - 1 ∨ M = 0 ∧ e < ctx.eTiny

/-- The coefficient `M` is to be rounded to the same number with the exponent `e'` as with `e`. -/
def StandsFor (ctx : DecimalContext) (M : ℕ) (e e' : ℤ) : Prop :=
  e' = e ∨ AboveLimit ctx M e ∧ AboveLimit ctx M e' ∨ BelowTiny ctx M e ∧ BelowTiny ctx M e'

/-- Where the exponent that is set stands for the one that is written.  `parser` is the parser that
all numbers share. -/
def ExponentFits (ctx : DecimalContext) (parser : TextParser) (w : WrittenNumber) : Prop :=
  let written : ℤ := w.exponentValue
  let kept : ℤ := w.keptExponent ctx.digits
  let places : ℤ := w.fraction.length
  if parser.exponentSign < 0 then
    if w.exponentIsNegative then
      kept + places ≤ 2 ^ 31 ∧
        (written < 2 ^ 31 ∨ BelowTiny ctx w.coefficient (-kept - places))
    else if kept + places ≤ 2 ^ 31 then
      written = 0 ∨ AboveLimit ctx w.coefficient (-kept - places) ∨
        BelowTiny ctx w.coefficient (written - places)
    else written + kept = 2 ^ 32 ∨ AboveLimit ctx w.coefficient (written - places) ∧
      AboveLimit ctx w.coefficient (2 ^ 32 - kept - places)
  else if w.exponentIsNegative then
    if kept - places < 2 ^ 31 then
      written = 0 ∨ AboveLimit ctx w.coefficient (-written - places) ∨
        BelowTiny ctx w.coefficient (kept - places)
    else BelowTiny ctx w.coefficient (kept - places - 2 ^ 32)
  else
    kept - places < 2 ^ 31 ∧ (written < 2 ^ 31 ∨ AboveLimit ctx w.coefficient (kept - places))

/-- An `INTEGER` is cut at most once. -/
theorem int32_cases {x : ℤ} (hlow : -3 * 2 ^ 31 ≤ x) (hhigh : x < 3 * 2 ^ 31) :
    -2 ^ 31 ≤ x ∧ x < 2 ^ 31 ∧ int32 x = x ∨ 2 ^ 31 ≤ x ∧ int32 x = x - 2 ^ 32 ∨
      x < -2 ^ 31 ∧ int32 x = x + 2 ^ 32 := by
  rw [int32, Int.bmod_def]
  omega

theorem standsFor_exponent_iff {parser : TextParser} {w : WrittenNumber} {b : Bool}
    (hctx : ctx.Valid) (hw : w.WellFormed b) (hlength : w.text.length < 2 ^ 31) :
    StandsFor ctx w.coefficient w.exponentOfLast
      (int32 ((if parser.exponentSign < 0 then -(w.keptExponent ctx.digits : ℤ)
        else w.keptExponent ctx.digits) - w.fraction.length)) ↔ ExponentFits ctx parser w := by
  have hlog := hw.log_lt
  have htext := WrittenNumber.length_le_text (w := w)
  have hT := hctx.eTiny_eq
  have hdigits := hctx.digits_le
  have hnonneg := hctx.exponentLimit_nonneg
  have hlimit := hctx.exponentLimit_le
  rw [maximumDigits] at hdigits
  rw [maximumExponent] at hlimit
  have hkept : w.exponentValue ≤ 2147483647 ∧ w.keptExponent ctx.digits = w.exponentValue ∨
      2147483647 < w.exponentValue ∧ w.keptExponent ctx.digits < w.exponentValue ∧
        w.keptExponent ctx.digits = 1000000001 + ctx.digits + w.exponentCount := by
    rcases Nat.lt_or_ge 2147483647 w.exponentValue with hlarge | hle
    · exact Or.inr ⟨hlarge, WrittenNumber.keptExponent_lt hdigits hlarge, if_neg (by omega)⟩
    · exact Or.inl ⟨hle, if_pos hle⟩
  rw [StandsFor, WrittenNumber.exponentOfLast, ExponentFits]
  simp only [AboveLimit, BelowTiny]
  generalize w.exponentValue = E at *
  generalize w.keptExponent ctx.digits = C at *
  generalize w.fraction.length = f at *
  generalize Nat.log 10 w.coefficient = A at *
  generalize w.coefficient = m at *
  rw [hT]
  by_cases hs : parser.exponentSign < 0
  · rw [if_pos hs, if_pos hs]
    have hcut := int32_cases (x := -(C : ℤ) - f) (by omega) (by omega)
    generalize int32 (-(C : ℤ) - f) = y at *
    by_cases hneg : w.exponentIsNegative = true
    · rw [if_pos hneg, if_pos hneg]
      omega
    · rw [if_neg hneg, if_neg hneg]
      by_cases hroom : (C : ℤ) + f ≤ 2 ^ 31
      · rw [if_pos hroom]
        omega
      · rw [if_neg hroom]
        omega
  · rw [if_neg hs, if_neg hs]
    have hcut := int32_cases (x := (C : ℤ) - f) (by omega) (by omega)
    generalize int32 ((C : ℤ) - f) = y at *
    by_cases hneg : w.exponentIsNegative = true
    · rw [if_pos hneg, if_pos hneg]
      by_cases hroom : (C : ℤ) - f < 2 ^ 31
      · rw [if_pos hroom]
        omega
      · rw [if_neg hroom]
        omega
    · rw [if_neg hneg, if_neg hneg]
      omega

/-- The decimal number is the one that is written. -/
structure IsWritten (ctx : DecimalContext) (w : WrittenNumber) (d : Decimal) : Prop where
  valid : d.coefficient.Valid
  coefficient_eq : d.coefficient.toNat = w.coefficient
  exponent : StandsFor ctx w.coefficient w.exponentOfLast d.exponent
  isNegative_eq : d.isNegative = w.isNegative
  special_eq : d.special = .none

/-- What the parser `p` and `make_from_parser` are to make of the string `s`, if `parser` is the
parser that all numbers share. -/
structure MakesWritten (ctx : DecimalContext) (p parser : TextParser) (s : List Char) : Prop where
  accepts_iff : (p.decimalParse s).error = false ↔ IsDecimalText p.isCommaAllowed s
  number : (p.decimalParse s).error = false →
    ∀ w : WrittenNumber, w.WellFormed p.isCommaAllowed → w.text = s →
      ∃ d, numberFromParser (p.decimalParse s) parser s ctx.digits = some d ∧
        IsWritten ctx w d ∧ makeFromParser (p.decimalParse s) parser ctx = d.cleanUp ctx
  infinity : ∀ isNegative, IsInfinityText isNegative s →
    makeFromParser (p.decimalParse s) parser ctx =
      some (.ok (makeSpecial .infinity isNegative), ctx)
  quietNan : IsNanText s →
    makeFromParser (p.decimalParse s) parser ctx = some (.ok (makeSpecial .quietNan false), ctx)
  signalingNan : IsSnanText s →
    makeFromParser (p.decimalParse s) parser ctx = some (.ok (makeSpecial .signalingNan false), ctx)

/-- The strings of which that is made. -/
structure TextFits (ctx : DecimalContext) (p parser : TextParser) (s : List Char) : Prop where
  comma : ∀ w : WrittenNumber, w.WellFormed p.isCommaAllowed → w.text = s → w.CommaBetween
  exponent : ∀ w : WrittenNumber, w.WellFormed p.isCommaAllowed → w.text = s →
    ExponentFits ctx parser w
  sign : ∀ isNegative, IsInfinityText isNegative s → (parser.sign < 0 ↔ isNegative = true)

section

variable {p parser q : TextParser} {s : List Char} {w : WrittenNumber} {b : Bool}

/-- A number is set and cleaned up. -/
theorem HasRead.makeFromParser_eq (h : HasRead w q) (hparsed : q.lastParsed = some s)
    {d : Decimal} (hd : numberFromParser q parser s ctx.digits = some d) :
    makeFromParser q parser ctx = d.cleanUp ctx := by
  have hstate : q.state ≠ .error ∧ q.state ≠ .infinity ∧ q.state ≠ .snan ∧ q.state ≠ .nan := by
    rcases h.state with (h | h | h) | h
    · rw [h]
      decide
    · rw [h]
      decide
    · rw [h]
      decide
    · rw [h]
      decide
  obtain ⟨herror, hinfinity, hsnan, hnan⟩ := hstate
  have hlift : (Action.lift (numberFromParser q parser s ctx.digits) >>= cleanUp) ctx =
      d.cleanUp ctx := by
    rw [hd]
    rfl
  rw [← hlift, makeFromParser, hparsed]
  change (ite _ _ _ : Action DecimalContext Decimal) ctx = _
  rw [error, TextParser.isInfinity, isSnan, TextParser.isNan, if_neg (by simpa using herror),
    if_neg (by simpa using hinfinity), if_neg (by simpa using hsnan), if_neg (by simpa using hnan)]

theorem decimalParse_infinity {isNegative : Bool} (h : IsInfinityText isNegative s) :
    makeFromParser (p.decimalParse s) parser ctx =
      some (.ok (makeSpecial .infinity (parser.sign < 0)), ctx) := by
  rw [decimalParse_eq (processFrom_infinity h) (by exact (by decide : Accepting .infinity))
    fun h => nomatch h]
  rfl

theorem decimalParse_nan (h : IsNanText s) : makeFromParser (p.decimalParse s) parser ctx =
    some (.ok (makeSpecial .quietNan false), ctx) := by
  rw [decimalParse_eq (processFrom_nan h) (by exact (by decide : Accepting .nan))
    fun h => nomatch h]
  rfl

theorem decimalParse_snan (h : IsSnanText s) : makeFromParser (p.decimalParse s) parser ctx =
    some (.ok (makeSpecial .signalingNan false), ctx) := by
  rw [decimalParse_eq (processFrom_snan h) (by exact (by decide : Accepting .snan))
    fun h => nomatch h]
  rfl

/-- What has been read of a number that is accepted. -/
theorem hasRead_decimalParse (hw : w.WellFormed p.isCommaAllowed) (hcomma : w.CommaBetween) :
    (p.decimalParse w.text).error = false ∧ HasRead w (p.decimalParse w.text) ∧
      (p.decimalParse w.text).lastParsed = some w.text := by
  have hread := hasRead_of_wellFormed (p := p) (s := w.text) hw hcomma
  have herror : (p.decimalParse w.text).error = false :=
    decimalParse_accepts_iff.mpr (Or.inl ⟨w, hw, hcomma, rfl⟩)
  have heq := decimalParse_eq (p := p) (s := w.text) rfl hread.accepting
    (decimalParse_error_iff.mp herror).2
  refine ⟨herror, ?_, rfl⟩
  rw [heq]
  exact ⟨hread.state, hread.sign_eq, hread.begin_eq, hread.end_eq, hread.point_eq, hread.comma_eq,
    hread.hasExponent_eq, hread.exponentSign_eq, hread.exponentAsDouble_eq, hread.exponentCount_eq⟩

theorem error_of_not_commaBetween (hw : w.WellFormed b) (hcomma : ¬w.CommaBetween) :
    (p.decimalParse w.text).error = true := by
  by_contra h
  exact not_accepting_of_not_commaBetween (p := p) hw hcomma
    (decimalParse_error_iff.mp (Bool.eq_false_iff.mpr h)).1

/-- The number that is set is the one that is written exactly if the exponent fits. -/
theorem exists_numberFromParser (parser : TextParser) (hctx : ctx.Valid)
    (hw : w.WellFormed p.isCommaAllowed) (hs : w.text = s) (hlength : s.length < 2 ^ 31)
    (hcomma : w.CommaBetween) :
    ∃ d, numberFromParser (p.decimalParse s) parser s ctx.digits = some d ∧
      makeFromParser (p.decimalParse s) parser ctx = d.cleanUp ctx ∧
      (IsWritten ctx w d ↔ ExponentFits ctx parser w) := by
  subst hs
  obtain ⟨-, hread, hparsed⟩ := hasRead_decimalParse hw hcomma
  obtain ⟨c, hnumber, hc⟩ := HasRead.exists_number hread hw parser ctx.digits
  refine ⟨_, hnumber, HasRead.makeFromParser_eq hread hparsed hnumber, ?_⟩
  rw [← standsFor_exponent_iff hctx hw hlength, ← HasRead.exponent_eq hread hw]
  exact ⟨fun h => h.exponent, fun h => ⟨hc.valid, hc.toNat_eq, h, rfl, rfl⟩⟩

theorem MakesWritten.textFits (h : MakesWritten ctx p parser s) (hctx : ctx.Valid)
    (hlength : s.length < 2 ^ 31) : TextFits ctx p parser s := by
  have hcomma : ∀ w : WrittenNumber, w.WellFormed p.isCommaAllowed → w.text = s →
      w.CommaBetween := by
    rintro w hw rfl
    by_contra hno
    have haccepts := h.accepts_iff.mpr (Or.inl ⟨w, hw, rfl⟩)
    rw [error_of_not_commaBetween hw hno] at haccepts
    exact Bool.noConfusion haccepts
  refine ⟨hcomma, fun w hw hs => ?_, fun isNegative hs => ?_⟩
  · obtain ⟨d, hnumber, -, hiff⟩ := exists_numberFromParser parser hctx hw hs hlength
      (hcomma w hw hs)
    obtain ⟨d', hnumber', hwritten, -⟩ :=
      h.number (h.accepts_iff.mpr (Or.inl ⟨w, hw, hs⟩)) w hw hs
    rw [hnumber, Option.some.injEq] at hnumber'
    exact hiff.mp (hnumber' ▸ hwritten)
  · have hmade := h.infinity isNegative hs
    rw [decimalParse_infinity hs] at hmade
    simp only [Option.some.injEq, Prod.mk.injEq, Except.ok.injEq, makeSpecial,
      Decimal.mk.injEq] at hmade
    rw [← hmade.1.2.2.1, decide_eq_true_iff]

theorem TextFits.makesWritten (h : TextFits ctx p parser s) (hctx : ctx.Valid)
    (hlength : s.length < 2 ^ 31) : MakesWritten ctx p parser s := by
  obtain ⟨hcomma, hexponent, hsign⟩ := h
  refine ⟨?_, fun _ w hw hs => ?_, fun isNegative hs => ?_, decimalParse_nan, decimalParse_snan⟩
  · rw [decimalParse_accepts_iff, IsDecimalText]
    refine or_congr_left ⟨fun ⟨w, hw, _, hs⟩ => ⟨w, hw, hs⟩, fun ⟨w, hw, hs⟩ => ?_⟩
    exact ⟨w, hw, hcomma w hw hs, hs⟩
  · obtain ⟨d, hnumber, hmade, hiff⟩ := exists_numberFromParser parser hctx hw hs
      hlength (hcomma w hw hs)
    exact ⟨d, hnumber, hiff.mpr (hexponent w hw hs), hmade⟩
  · have hnegative : decide (parser.sign < 0) = isNegative := by
      rw [Bool.eq_iff_iff, decide_eq_true_iff]
      exact hsign isNegative hs
    rw [decimalParse_infinity hs, hnegative]

/-- A parser and `make_from_parser` make of a string the number that is written there exactly if a
comma has digits on both sides, and the shared parser and the range of an `INTEGER` do not change
the sign or the size of the exponent. -/
theorem makesWritten_iff (hctx : ctx.Valid) (hlength : s.length < 2 ^ 31) :
    MakesWritten ctx p parser s ↔ TextFits ctx p parser s :=
  ⟨fun h => h.textFits hctx hlength, fun h => h.makesWritten hctx hlength⟩

theorem makeDefault_valid : makeDefault.Valid := ⟨by decide, by decide, by decide, by decide⟩

theorem comma_mem_text (h : w.point = some ',') : ',' ∈ w.text := by
  simp [WrittenNumber.text, WrittenNumber.mantissa, h]

/-- A small exponent fits if the shared parser has read its sign. -/
theorem exponentFits_of_small (hsign : parser.exponentSign < 0 ↔ w.exponentIsNegative = true)
    (hvalue : w.exponentValue + w.fraction.length < 2 ^ 31) : ExponentFits ctx parser w := by
  have hkept : w.keptExponent ctx.digits = w.exponentValue := if_pos (by omega)
  rw [ExponentFits, hkept]
  split
  · rw [if_pos (hsign.mp ‹_›)]
    omega
  · rw [if_neg fun hneg => ‹¬parser.exponentSign < 0› (hsign.mpr hneg)]
    omega

/-- The shared parser makes the number of `1.5E-2`. -/
theorem makesWritten_iff_exponent : MakesWritten makeDefault TextParser.make
    (TextParser.make.decimalParse "1.5E-2".toList) "1.5E-2".toList := by
  have hcomma : ∀ w : WrittenNumber, w.text = "1.5E-2".toList → w.CommaBetween := by
    intro w hs hpoint
    exact absurd (hs ▸ comma_mem_text hpoint) (by decide)
  refine (makesWritten_iff makeDefault_valid (by decide)).mpr ⟨fun w _ hs => hcomma w hs, ?_, ?_⟩
  · intro w hw hs
    have hread := (hasRead_decimalParse hw (hcomma w hs)).2.1
    have hlength := WrittenNumber.length_le_text (w := w)
    rw [hs] at hread hlength
    have hvalue : w.exponentValue = 2 := hread.exponentAsDouble_eq.symm.trans (by decide)
    refine exponentFits_of_small ?_ ?_
    · rw [hread.exponentSign_eq]
      split <;> simp [*]
    · rw [show "1.5E-2".toList.length = 6 from rfl] at hlength
      omega
  · rintro isNegative ⟨sign, t, hsign, hs, -, ht⟩
    cases sign with
    | none =>
        obtain rfl : "1.5E-2".toList = t := hs
        exact absurd ht (by decide)
    | some c =>
        obtain rfl : '1' = c := (List.cons.inj hs).1
        exact absurd (hsign '1' rfl) (by decide)

/-- `1.23E-2147483647` has an exponent that becomes positive. -/
def smallNumber : WrittenNumber := ⟨none, ['1'], some '.', ['2', '3'],
    some ⟨'E', some '-', ['2', '1', '4', '7', '4', '8', '3', '6', '4', '7']⟩⟩

theorem smallNumber_wellFormed (b : Bool) : smallNumber.WellFormed b := by
  refine ⟨isSign_none, by decide, by decide, ?_, by decide, by decide, ?_⟩
  · rintro c ⟨⟩
    exact Or.inl rfl
  · rintro x ⟨⟩
    refine ⟨Or.inr rfl, ?_, by decide, by decide⟩
    rintro c ⟨⟩
    exact Or.inr rfl

/-- The shared parser does not make the number of `1.23E-2147483647`. -/
theorem makesWritten_smallNumber : ¬MakesWritten makeDefault TextParser.make
    (TextParser.make.decimalParse smallNumber.text) smallNumber.text := by
  intro h
  have hfits := (h.textFits makeDefault_valid (by decide)).exponent smallNumber
    (smallNumber_wellFormed _) rfl
  have hsign : (TextParser.make.decimalParse smallNumber.text).exponentSign < 0 := by decide
  rw [ExponentFits, if_pos hsign, if_pos (by decide)] at hfits
  exact absurd hfits.1 (by decide)

end

end Decimal

end Gobo
