/-
What the automaton has noted when it has read a decimal number: the place of the coefficient in the
string, the position of the point, the signs and the exponent.
-/
import Gobo.DecimalGrammar

namespace Gobo

open Option List

namespace TextParser

/-- The number that a row of digits shows. -/
def digitsValue (ds : List Char) : ℕ := ds.foldl (fun v c => v * 10 + digitValue c) 0

/-- How many digits there are from the first one on that is not zero. -/
def significantDigits (ds : List Char) : ℕ := (ds.dropWhile fun c => digitValue c = 0).length

section

variable {p : TextParser} {s ds : List Char} {i : ℕ} {c : Char}

theorem process_integerPart (h : p.state = .integerPart) :
    p.process c i s = p.processIntegerPart c i := by
  rw [process, h]

theorem process_fractionalPart (h : p.state = .fractionalPart) :
    p.process c i s = p.processFractionalPart c := by
  rw [process, h]

theorem process_exponent (h : p.state = .exponent) : p.process c i s = p.processExponent c := by
  rw [process, h]

theorem processFrom_integerPart (hstate : p.state = .integerPart) (hds : AreDigits ds) :
    processFrom s i ds p = { p with coefficientEnd := p.coefficientEnd + ds.length } := by
  induction ds generalizing i p with
  | nil => rfl
  | cons c ds ih =>
      have hc : c.isDigit = true := hds c mem_cons_self
      rw [processFrom_cons (by rw [hstate]; decide), process_integerPart hstate,
        processIntegerPart, if_pos hc,
        ih (by exact hstate) fun a ha => hds a (mem_cons_of_mem c ha)]
      simp only [length_cons, Nat.add_assoc, Nat.add_comm 1]

theorem processFrom_fractionalPart (hstate : p.state = .fractionalPart) (hds : AreDigits ds) :
    processFrom s i ds p = { p with coefficientEnd := p.coefficientEnd + ds.length } := by
  induction ds generalizing i p with
  | nil => rfl
  | cons c ds ih =>
      have hc : c.isDigit = true := hds c mem_cons_self
      rw [processFrom_cons (by rw [hstate]; decide), process_fractionalPart hstate,
        processFractionalPart, if_pos hc,
        ih (by exact hstate) fun a ha => hds a (mem_cons_of_mem c ha)]
      simp only [length_cons, Nat.add_assoc, Nat.add_comm 1]

/-- The significant digits, once the value read so far is `v`. -/
def significantFrom (v : ℕ) (ds : List Char) : ℕ :=
  if v > 0 then ds.length else significantDigits ds

theorem significantFrom_cons (v : ℕ) : significantFrom v (c :: ds) =
    (if v * 10 + digitValue c > 0 then 1 else 0) + significantFrom (v * 10 + digitValue c) ds := by
  rw [significantFrom, significantFrom, significantDigits, dropWhile_cons]
  rcases Nat.eq_zero_or_pos v with rfl | hv
  · by_cases hc : digitValue c = 0
    · simp [hc, significantDigits]
    · have hpos : 0 < digitValue c := Nat.pos_of_ne_zero hc
      simp [hc, hpos, Nat.add_comm]
  · have hpos : 0 < v * 10 + digitValue c := by omega
    simp [hv, hpos, Nat.add_comm]

theorem processFrom_exponent (hstate : p.state = .exponent) (hds : AreDigits ds) :
    processFrom s i ds p =
      { p with
        exponentAsDouble := ds.foldl (fun v c => v * 10 + digitValue c) p.exponentAsDouble
        exponentEnd := p.exponentEnd + ds.length
        exponentSignificantDigits :=
          p.exponentSignificantDigits + significantFrom p.exponentAsDouble ds } := by
  induction ds generalizing i p with
  | nil =>
      rw [processFrom, significantFrom, significantDigits]
      simp
  | cons c ds ih =>
      have hc : c.isDigit = true := hds c mem_cons_self
      rw [processFrom_cons (by rw [hstate]; decide), process_exponent hstate, processExponent,
        if_pos hc, ih (by exact hstate) fun a ha => hds a (mem_cons_of_mem c ha)]
      simp only [length_cons, foldl_cons, significantFrom_cons, Nat.add_assoc,
        Nat.add_comm 1]
      congr 1
      split_ifs <;> omega

/-- The digits of an exponent. -/
theorem processFrom_startExponentDigits (hstate : p.state = .startExponent ∨
      p.state = .exponentSign) (hzero : p.exponentSignificantDigits = 0) (hds : AreDigits ds)
    (hne : ds ≠ []) :
    ∃ e, processFrom s i ds p =
      { p with
        state := .exponent
        exponentAsDouble := digitsValue ds
        exponentBegin := i
        exponentEnd := e
        exponentSignificantDigits := significantDigits ds } := by
  obtain ⟨c, ds, rfl⟩ := exists_cons_of_ne_nil hne
  have hc : c.isDigit = true := hds c mem_cons_self
  have hprocess : p.process c i s = p.startExponentDigits c i := by
    rcases hstate with h | h
    · rw [process, h]
      exact if_pos hc
    · rw [process, h]
      exact if_pos hc
  have hstopped : ¬Stopped p.state := by
    rcases hstate with h | h
    · rw [h]
      decide
    · rw [h]
      decide
  have hsignificant : significantFrom 0 (c :: ds) =
      (if 0 * 10 + digitValue c > 0 then 1 else 0) + significantFrom (0 * 10 + digitValue c) ds :=
    significantFrom_cons 0
  rw [Nat.zero_mul, Nat.zero_add] at hsignificant
  rw [processFrom_cons hstopped, hprocess, processFrom_exponent (by rfl) fun a ha =>
    hds a (mem_cons_of_mem c ha)]
  refine ⟨i + ds.length, ?_⟩
  simp only [startExponentDigits, digitsValue, foldl_cons, Nat.zero_mul, Nat.zero_add, hzero]
  congr 1
  rw [← hsignificant, significantFrom, if_neg (Nat.lt_irrefl 0)]

/-- The sign of a text that may have one. -/
def signValue (sign : Option Char) : ℤ := if sign = some '-' then -1 else 1

/-- The automaton reads an exponent. -/
theorem processFrom_writtenExponent {x : WrittenExponent} (hx : x.WellFormed)
    (hstate : p.state = .integerPart ∨ p.state = .point ∨ p.state = .fractionalPart)
    (hzero : p.exponentSignificantDigits = 0) (hsign : p.exponentSign = 1) :
    ∃ b e, 0 < b ∧ processFrom s i x.text p =
      { p with
        state := .exponent
        exponentSign := signValue x.sign
        exponentAsDouble := digitsValue x.digits
        exponentBegin := b
        exponentEnd := e
        exponentSignificantDigits := significantDigits x.digits } := by
  have hdigit : ¬x.indicator.isDigit = true := by
    rcases hx.indicator_eq with h | h
    · rw [h]
      decide
    · rw [h]
      decide
  have hprocess : p.process x.indicator i s = { p with state := .startExponent } := by
    rcases hstate with h | h | h
    · rw [process, h]
      dsimp only [processIntegerPart]
      rw [if_neg hdigit, if_pos hx.indicator_eq]
    · rw [process, h]
      dsimp only [processPoint]
      rw [if_neg hdigit, if_pos hx.indicator_eq]
    · rw [process, h]
      dsimp only [processFractionalPart]
      rw [if_neg hdigit, if_pos hx.indicator_eq]
  have hstopped : ¬Stopped p.state := by
    rcases hstate with h | h | h
    · rw [h]
      decide
    · rw [h]
      decide
    · rw [h]
      decide
  rw [WrittenExponent.text, processFrom_cons hstopped, hprocess]
  cases hs : x.sign with
  | none =>
      obtain ⟨e, he⟩ := processFrom_startExponentDigits (s := s) (i := i + 1)
        (p := { p with state := .startExponent }) (Or.inl rfl) hzero hx.digits hx.digits_ne
      refine ⟨i + 1, e, Nat.succ_pos i, he.trans ?_⟩
      rw [signValue, if_neg (by decide), ← hsign]
  | some c =>
      have hc : c = '+' ∨ c = '-' := hx.sign c (by rw [hs]; rfl)
      have hcdigit : ¬c.isDigit = true := by
        rcases hc with h | h
        · rw [h]
          decide
        · rw [h]
          decide
      obtain ⟨e, he⟩ := processFrom_startExponentDigits (s := s) (i := i + 1 + 1)
        (p := { p with state := .exponentSign, exponentSign := signValue (some c) })
        (Or.inr rfl) hzero hx.digits hx.digits_ne
      refine ⟨i + 1 + 1, e, Nat.succ_pos _, ?_⟩
      rw [← he, toList_some, singleton_append,
        processFrom_cons (by exact (by decide : ¬Stopped .startExponent))]
      congr 1
      rw [process]
      dsimp only [processStartExponent]
      rw [if_neg hcdigit, if_pos hc, signValue]
      simp only [some.injEq]

/-- The states after a mantissa. -/
def IsNumberState (state : TextParserState) : Prop :=
  state = .integerPart ∨ state = .point ∨ state = .fractionalPart

/-- The automaton reads the digits in front of a point. -/
theorem processFrom_digits {d : Char} (hstate : p.state = .start ∨ p.state = .sign)
    (hds : AreDigits (d :: ds)) : processFrom s i (d :: ds) p =
      { p with
        state := .integerPart
        coefficientBegin := i
        coefficientEnd := i + ds.length } := by
  have hd : d.isDigit = true := hds d mem_cons_self
  have hstopped : ¬Stopped p.state := by
    rcases hstate with h | h
    · rw [h]
      decide
    · rw [h]
      decide
  have hprocess : p.process d i s = p.startCoefficient i .integerPart := by
    rcases hstate with h | h
    · rw [process, h]
      exact if_pos hd
    · rw [process, h]
      have hi : ¬(d = 'i' ∨ d = 'I') := by
        rintro (rfl | rfl)
        · exact absurd hd (by decide)
        · exact absurd hd (by decide)
      rw [processSign, if_neg hi, if_pos hd]
  rw [processFrom_cons hstopped, hprocess, processFrom_integerPart (by rfl) fun a ha =>
    hds a (mem_cons_of_mem d ha)]
  rfl

/-- The automaton reads a mantissa. -/
theorem processFrom_mantissa {w : WrittenNumber} {b : Bool} (hw : w.WellFormed b)
    (hcomma : w.CommaBetween) (hstate : p.state = .start ∨ p.state = .sign) :
    ∃ state, IsNumberState state ∧ processFrom s i w.mantissa p =
      { p with
        state := state
        coefficientBegin := if w.integer = [] then i + 1 else i
        coefficientEnd := i + w.mantissa.length - 1
        decimalPointIndex := if w.point = none then p.decimalPointIndex else i + w.integer.length
        decimalPointIsComma := p.decimalPointIsComma || w.point = some ',' } := by
  have hstopped : ¬Stopped p.state := by
    rcases hstate with h | h
    · rw [h]
      decide
    · rw [h]
      decide
  obtain ⟨sign, integer, point, fraction, exponent⟩ := w
  obtain ⟨-, hint, hfrac, hpoint, hne, hnone, -⟩ := hw
  dsimp only at hint hfrac hpoint hne hnone
  have hcomma' : point = some ',' → integer ≠ [] ∧ fraction ≠ [] := hcomma
  cases integer with
  | nil =>
      have hfrac' : fraction ≠ [] := hne.resolve_left fun h => h rfl
      obtain ⟨d, fs, rfl⟩ := exists_cons_of_ne_nil hfrac'
      obtain rfl : point = some '.' := by
        cases point with
        | none => exact absurd (hnone rfl) hfrac'
        | some c =>
            rcases hpoint c rfl with rfl | ⟨rfl, -⟩
            · rfl
            · exact absurd rfl (hcomma' rfl).1
      have hd : d.isDigit = true := hfrac d mem_cons_self
      have hprocess : p.process '.' i s = p.startPoint i := by
        rcases hstate with h | h
        · rw [process, h]
          rfl
        · rw [process, h]
          rfl
      refine ⟨.fractionalPart, Or.inr (Or.inr rfl), ?_⟩
      change processFrom s i ('.' :: d :: fs) p = _
      rw [processFrom_cons hstopped, hprocess,
        processFrom_cons (by exact (by decide : ¬Stopped .startingPoint))]
      change processFrom s (i + 1 + 1) fs ((p.startPoint i).processStartingPoint d (i + 1)) = _
      rw [processStartingPoint, if_pos hd, processFrom_fractionalPart (by rfl) fun a ha =>
        hfrac a (mem_cons_of_mem d ha)]
      simp only [startCoefficient, startPoint, WrittenNumber.mantissa, nil_append,
        toList_some, singleton_append, length_cons, length_nil, Nat.add_zero,
        if_pos trivial]
      simp
      omega
  | cons d ds =>
      have hread := processFrom_digits (s := s) (i := i) hstate hint
      rw [show WrittenNumber.mantissa ⟨sign, d :: ds, point, fraction, exponent⟩ =
        (d :: ds) ++ (point.toList ++ fraction) from rfl, processFrom_append, hread]
      cases point with
      | none =>
          obtain rfl := hnone rfl
          refine ⟨.integerPart, Or.inl rfl, ?_⟩
          simp [processFrom]
      | some c =>
          rw [toList_some, singleton_append,
            processFrom_cons (by exact (by decide : ¬Stopped .integerPart)),
            process_integerPart (by rfl)]
          rcases hpoint c rfl with rfl | ⟨rfl, -⟩
          · rw [processIntegerPart, if_neg (by decide), if_neg (by decide), if_pos rfl]
            cases fraction with
            | nil =>
                refine ⟨.point, Or.inr (Or.inl rfl), ?_⟩
                simp [processFrom]
                omega
            | cons f fs =>
                have hf : f.isDigit = true := hfrac f mem_cons_self
                refine ⟨.fractionalPart, Or.inr (Or.inr rfl), ?_⟩
                rw [processFrom_cons (by exact (by decide : ¬Stopped .point)), process]
                dsimp only [processPoint]
                rw [if_pos hf, processFrom_fractionalPart (by rfl) fun a ha =>
                  hfrac a (mem_cons_of_mem f ha)]
                simp
                omega
          · obtain ⟨f, fs, rfl⟩ := exists_cons_of_ne_nil (hcomma' rfl).2
            have hf : f.isDigit = true := hfrac f mem_cons_self
            refine ⟨.fractionalPart, Or.inr (Or.inr rfl), ?_⟩
            rw [processIntegerPart, if_neg (by decide), if_neg (by decide), if_neg (by decide),
              if_pos rfl, processFrom_cons (by exact (by decide : ¬Stopped .comma)), process]
            dsimp only [processComma]
            rw [if_pos hf, processFrom_fractionalPart (by rfl) fun a ha =>
              hfrac a (mem_cons_of_mem f ha)]
            simp
            omega

end

end TextParser

namespace WrittenNumber

open TextParser

variable (w : WrittenNumber)

def isNegative : Bool := w.sign = some '-'

/-- Is the exponent written with the sign `-`? -/
def exponentIsNegative : Bool := w.exponent.bind WrittenExponent.sign = some '-'

/-- The exponent as it is written, without its sign. -/
def exponentValue : ℕ := w.exponent.elim 0 fun x => digitsValue x.digits

/-- How many significant digits the exponent has. -/
def exponentCount : ℕ := w.exponent.elim 0 fun x => significantDigits x.digits

end WrittenNumber

namespace TextParser

/-- What is noted of the number `w`. -/
structure HasRead (w : WrittenNumber) (q : TextParser) : Prop where
  state : IsNumberState q.state ∨ q.state = .exponent
  sign_eq : q.sign = if w.isNegative then -1 else 1
  begin_eq : q.coefficientBegin = w.sign.toList.length + 1 + if w.integer = [] then 1 else 0
  end_eq : q.coefficientEnd = w.sign.toList.length + w.mantissa.length
  point_eq : q.decimalPointIndex =
    if w.point = none then 0 else w.sign.toList.length + 1 + w.integer.length
  comma_eq : q.decimalPointIsComma = decide (w.point = some ',')
  hasExponent_eq : q.hasExponent = w.exponent.isSome
  exponentSign_eq : q.exponentSign = if w.exponentIsNegative then -1 else 1
  exponentAsDouble_eq : q.exponentAsDouble = w.exponentValue
  exponentCount_eq : q.exponentSignificantDigits = w.exponentCount

section

variable {p : TextParser} {s : List Char} {w : WrittenNumber} {b : Bool}

theorem handleI_isCommaAllowed {i : ℕ} :
    (p.handleI s i).isCommaAllowed = p.isCommaAllowed := by
  rw [handleI]
  split_ifs <;> rfl

/-- Reading does not change whether a comma is allowed. -/
theorem process_isCommaAllowed {c : Char} {i : ℕ} :
    (p.process c i s).isCommaAllowed = p.isCommaAllowed := by
  have hI := handleI_isCommaAllowed (p := p) (s := s) (i := i)
  cases hstate : p.state <;> simp only [process, hstate]
  · rw [processStart]
    split_ifs <;> first | rfl | exact hI
  · rw [processStartingPoint]
    split_ifs <;> rfl
  · rw [processIntegerPart]
    split_ifs <;> rfl
  · rw [processPoint]
    split_ifs <;> rfl
  · rw [processFractionalPart]
    split_ifs <;> rfl
  · rw [processExponent]
    split_ifs <;> rfl
  · rw [processSign]
    split_ifs <;> first | rfl | exact hI
  · rw [processComma]
    split_ifs <;> rfl
  · rw [processStartExponent]
    split_ifs <;> rfl
  · rw [processExponentSign]
    split_ifs <;> rfl

theorem processFrom_isCommaAllowed {l : List Char} {i : ℕ} :
    (processFrom s i l p).isCommaAllowed = p.isCommaAllowed := by
  induction l generalizing i p with
  | nil => rfl
  | cons c l ih =>
      by_cases h : Stopped p.state
      · rw [processFrom_of_stopped h]
      · rw [processFrom_cons h, ih, process_isCommaAllowed]

/-- The automaton reads a sign. -/
theorem processFrom_writtenSign {sign : Option Char} (hsign : IsSign sign) :
    ∃ state, (state = .start ∨ state = .sign) ∧ processFrom s 1 sign.toList p.restart =
      { p.restart with state := state, sign := signValue sign } := by
  cases sign with
  | none => exact ⟨.start, Or.inl rfl, rfl⟩
  | some c =>
      have hc := hsign c rfl
      have hdigit : ¬c.isDigit = true := by
        rcases hc with h | h
        · rw [h]
          decide
        · rw [h]
          decide
      refine ⟨.sign, Or.inr rfl, ?_⟩
      change processFrom s 2 [] (p.restart.processStart c 1 s) = _
      rw [processStart, if_neg hdigit, if_pos hc, processFrom, signValue]
      simp only [some.injEq]

/-- The automaton reads a number. -/
theorem hasRead_of_wellFormed (hw : w.WellFormed b) (hcomma : w.CommaBetween) :
    HasRead w (processFrom s 1 w.text p.restart) := by
  obtain ⟨st, hst, hsign⟩ := processFrom_writtenSign (p := p) (s := s) hw.sign
  obtain ⟨st', hst', hmantissa⟩ := processFrom_mantissa (s := s) (i := 1 + w.sign.toList.length)
    (p := { p.restart with state := st, sign := signValue w.sign }) hw hcomma hst
  rw [WrittenNumber.text, processFrom_append, hsign, processFrom_append, hmantissa]
  cases hx : w.exponent with
  | none =>
      rw [WrittenNumber.exponentText, elim_none, processFrom]
      refine ⟨Or.inl hst', ?_, ?_, ?_, ?_, ?_, ?_, ?_, ?_, ?_⟩ <;>
        simp [signValue, WrittenNumber.isNegative, WrittenNumber.exponentIsNegative,
          WrittenNumber.exponentValue, WrittenNumber.exponentCount, hx, restart, hasExponent]
      · split_ifs <;> omega
      · omega
      · split_ifs
        · rfl
        · omega
  | some x =>
      rw [WrittenNumber.exponentText, elim_some]
      obtain ⟨eb, ee, heb, hexponent⟩ := processFrom_writtenExponent (s := s)
        (i := 1 + w.sign.toList.length + w.mantissa.length)
        (p := { p.restart with
            state := st'
            sign := signValue w.sign
            coefficientBegin :=
              if w.integer = [] then 1 + w.sign.toList.length + 1 else 1 + w.sign.toList.length
            coefficientEnd := 1 + w.sign.toList.length + w.mantissa.length - 1
            decimalPointIndex := if w.point = none then p.restart.decimalPointIndex
              else 1 + w.sign.toList.length + w.integer.length
            decimalPointIsComma := p.restart.decimalPointIsComma || w.point = some ',' })
        (hw.exponent x hx) hst' rfl rfl
      rw [hexponent]
      refine ⟨Or.inr rfl, ?_, ?_, ?_, ?_, ?_, ?_, ?_, ?_, ?_⟩ <;>
        simp [signValue, WrittenNumber.isNegative, WrittenNumber.exponentIsNegative,
          WrittenNumber.exponentValue, WrittenNumber.exponentCount, hx, restart, hasExponent, heb]
      · split_ifs <;> omega
      · omega
      · split_ifs
        · rfl
        · omega

/-- A comma must stand between two digits. -/
theorem not_accepting_of_not_commaBetween (hw : w.WellFormed b) (hcomma : ¬w.CommaBetween) :
    ¬Accepting (processFrom s 1 w.text p.restart).state := by
  obtain ⟨st, hst, hsign⟩ := processFrom_writtenSign (p := p) (s := s) hw.sign
  rw [WrittenNumber.CommaBetween, Classical.not_imp, not_and_or, not_not, not_not] at hcomma
  obtain ⟨hpoint, hedge⟩ := hcomma
  rw [WrittenNumber.text, processFrom_append, hsign, WrittenNumber.mantissa, hpoint,
    toList_some]
  cases hint : w.integer with
  | nil =>
      have hstopped : ¬Stopped st := by
        rcases hst with rfl | rfl
        · decide
        · decide
      rw [nil_append, singleton_append, cons_append,
        processFrom_cons (by exact hstopped)]
      rcases hst with rfl | rfl
      · exact not_accepting_fail _
      · exact not_accepting_fail _
  | cons d ds =>
      have hfraction : w.fraction = [] :=
        hedge.resolve_left fun h => cons_ne_nil d ds (hint.symm.trans h)
      rw [hfraction, append_nil, append_assoc, processFrom_append,
        processFrom_digits (by exact hst) (hint ▸ hw.integer), singleton_append,
        processFrom_cons (by exact (by decide : ¬Stopped .integerPart)),
        process_integerPart (by rfl), processIntegerPart, if_neg (by decide), if_neg (by decide),
        if_neg (by decide), if_pos rfl]
      cases hx : w.exponent with
      | none => exact (by decide : ¬Accepting .comma)
      | some x =>
          have hindicator := (hw.exponent x hx).indicator_eq
          have hdigit : ¬x.indicator.isDigit = true := by
            rcases hindicator with h | h
            · rw [h]
              decide
            · rw [h]
              decide
          rw [WrittenNumber.exponentText, elim_some, WrittenExponent.text,
            processFrom_cons (by exact (by decide : ¬Stopped .comma)), process]
          dsimp only [processComma]
          rw [if_neg hdigit]
          exact not_accepting_fail _

/-- The automaton reads an infinity. -/
theorem processFrom_infinity {isNegative : Bool} (h : IsInfinityText isNegative s) :
    processFrom s 1 s p.restart =
      { p.restart with state := .infinity, sign := if isNegative then -1 else 1 } := by
  obtain ⟨sign, t, hsign, hs, rfl, ht⟩ := h
  obtain ⟨c, rest, rfl, hc, hrest⟩ : ∃ c rest, t = c :: rest ∧ (c = 'i' ∨ c = 'I') ∧
      IsInfinityRest rest := by
    cases t with
    | nil => exact absurd ht (by decide)
    | cons c rest =>
        simp only [map_cons, cons.injEq] at ht
        refine ⟨c, rest, rfl, ?_, ht.imp And.right And.right⟩
        exact (toLower_eq_iff (by decide) (by decide) (by decide)).mp
          (ht.elim And.left And.left)
  obtain ⟨st, hst, hread⟩ := processFrom_writtenSign (p := p) (s := s) hsign
  have hstopped : ¬Stopped st := by
    rcases hst with rfl | rfl
    · decide
    · decide
  have hprocess : process { p.restart with state := st, sign := signValue sign } c
      (1 + sign.toList.length) s =
        { p.restart with state := .infinity, sign := signValue sign } := by
    have hI : ∀ q : TextParser, q.handleI s (1 + sign.toList.length) =
        { q with state := .infinity } := fun q => by
      rw [handleI_eq hs (Nat.add_comm _ _), if_pos hrest]
    rcases hst with rfl | rfl
    · rcases hc with rfl | rfl
      · exact hI _
      · exact hI _
    · rcases hc with rfl | rfl
      · exact hI _
      · exact hI _
  have hsplit : processFrom s 1 s p.restart =
      processFrom s 1 (sign.toList ++ c :: rest) p.restart := by
    rw [← hs]
  rw [hsplit, processFrom_append, hread, processFrom_cons (by exact hstopped), hprocess,
    processFrom_of_stopped (Or.inr (Or.inl rfl)), signValue]
  simp only [decide_eq_true_eq]

/-- The word that is no number ends the reading at its first letter. -/
theorem processFrom_word {c : Char} {rest word : List Char} {state : TextParserState}
    (hrest : rest.map Char.toLower = word) (hstopped : Stopped state)
    (hstart : substringEqual (c :: rest) (1 + 1) (c :: rest).length word = true →
      p.restart.process c 1 (c :: rest) = { p.restart with state }) :
    processFrom (c :: rest) 1 (c :: rest) p.restart = { p.restart with state } := by
  have hs : c :: rest = [c] ++ (rest ++ []) := by rw [append_nil]; rfl
  have hequal : substringEqual (c :: rest) (1 + 1) (c :: rest).length word = true :=
    (substringEqual_eq hs rfl (Nat.add_comm _ _)).trans (by rw [hrest, BEq.rfl])
  rw [processFrom_cons (by exact (by decide : ¬Stopped .start)), hstart hequal,
    processFrom_of_stopped hstopped]

theorem processFrom_nan (h : IsNanText s) :
    processFrom s 1 s p.restart = { p.restart with state := .nan } := by
  cases s with
  | nil => exact absurd h (by simp [IsNanText])
  | cons c rest =>
      rw [IsNanText, map_cons, cons.injEq] at h
      refine processFrom_word h.2 (Or.inr (Or.inr (Or.inr rfl))) fun hrest => ?_
      rcases (toLower_eq_iff (u := 'N') (by decide) (by decide) (by decide)).mp h.1 with rfl | rfl
      · exact if_pos hrest
      · exact if_pos hrest

theorem processFrom_snan (h : IsSnanText s) :
    processFrom s 1 s p.restart = { p.restart with state := .snan } := by
  cases s with
  | nil => exact absurd h (by simp [IsSnanText])
  | cons c rest =>
      rw [IsSnanText, map_cons, cons.injEq] at h
      refine processFrom_word h.2 (Or.inr (Or.inr (Or.inl rfl))) fun hrest => ?_
      rcases (toLower_eq_iff (u := 'S') (by decide) (by decide) (by decide)).mp h.1 with rfl | rfl
      · exact if_pos hrest
      · exact if_pos hrest

/-- The parser at the end of `decimal_parse` without an error. -/
theorem decimalParse_eq {q : TextParser} (hq : processFrom s 1 s p.restart = q)
    (hstate : Accepting q.state)
    (hcomma : q.decimalPointIsComma = true → p.isCommaAllowed = true) :
    p.decimalParse s = { q with lastParsed := some s } := by
  have hconclude : q.conclude = q := by
    rw [conclude]
    cases h : q.state <;> first | rfl | (rw [h] at hstate; exact absurd hstate (by decide))
  have hallowed : q.isCommaAllowed = p.isCommaAllowed := by
    rw [← hq, processFrom_isCommaAllowed]
    rfl
  have hno : ¬(q.decimalPointIsComma = true ∧ ¬q.isCommaAllowed = true) := by
    rw [hallowed]
    exact fun h => h.2 (hcomma h.1)
  simp only [decimalParse, hq, hconclude, if_neg hno]

theorem decimalParse_error_iff : (p.decimalParse s).error = false ↔
    Accepting (processFrom s 1 s p.restart).state ∧
      ((processFrom s 1 s p.restart).decimalPointIsComma = true → p.isCommaAllowed = true) := by
  constructor
  · intro h
    have hallowed : (processFrom s 1 s p.restart).conclude.isCommaAllowed = p.isCommaAllowed := by
      have hread : (processFrom s 1 s p.restart).isCommaAllowed = p.isCommaAllowed := by
        rw [processFrom_isCommaAllowed]
        rfl
      rw [← hread, conclude]
      split <;> rfl
    have hcomma : (processFrom s 1 s p.restart).conclude.decimalPointIsComma =
        (processFrom s 1 s p.restart).decimalPointIsComma := by
      rw [conclude]
      split <;> rfl
    rw [error, decide_eq_false_iff_not] at h
    simp only [decimalParse, hallowed, hcomma] at h
    split_ifs at h with hif
    · exact absurd rfl h
    · constructor
      · rw [conclude] at h
        cases hstate : (processFrom s 1 s p.restart).state <;> rw [hstate] at h <;>
          first | decide | exact absurd rfl h | exact absurd hstate h
      · intro hpoint
        by_contra hno
        exact hif ⟨hpoint, hno⟩
  · rintro ⟨hstate, hcomma⟩
    rw [decimalParse_eq rfl hstate hcomma, error, decide_eq_false_iff_not]
    intro herror
    rw [herror] at hstate
    exact absurd hstate (by decide)

theorem HasRead.accepting {q : TextParser} (h : HasRead w q) : Accepting q.state := by
  rcases h.state with (h | h | h) | h
  · exact Or.inl h
  · exact Or.inr (Or.inl h)
  · exact Or.inr (Or.inr (Or.inl h))
  · exact Or.inr (Or.inr (Or.inr (Or.inl h)))

/-- The strings that are accepted: a comma must stand between two digits. -/
theorem decimalParse_accepts_iff : (p.decimalParse s).error = false ↔
    (∃ w : WrittenNumber, w.WellFormed p.isCommaAllowed ∧ w.CommaBetween ∧ w.text = s) ∨
      (∃ isNegative, IsInfinityText isNegative s) ∨ IsNanText s ∨ IsSnanText s := by
  rw [decimalParse_error_iff]
  constructor
  · rintro ⟨hstate, hcomma⟩
    rcases text_of_accepting rfl hstate with ⟨w, hw, hbetween, rfl⟩ | hspecial
    · refine Or.inl ⟨w, ⟨hw.sign, hw.integer, hw.fraction, fun c hc => ?_, hw.digits_ne,
        hw.fraction_eq, hw.exponent⟩, hbetween, rfl⟩
      refine (hw.point_eq c hc).imp id fun h => ⟨h.1, hcomma ?_⟩
      rw [(hasRead_of_wellFormed hw hbetween).comma_eq, mem_def.mp hc, h.1]
      rfl
    · exact Or.inr hspecial
  · rintro (⟨w, hw, hbetween, rfl⟩ | ⟨isNegative, h⟩ | h | h)
    · have hread := hasRead_of_wellFormed (p := p) (s := w.text) hw hbetween
      refine ⟨hread.accepting, fun hcomma => ?_⟩
      rw [hread.comma_eq, decide_eq_true_iff] at hcomma
      rcases hw.point_eq ',' (by rw [hcomma]; rfl) with h | h
      · exact absurd h (by decide)
      · exact h.2
    · rw [processFrom_infinity h]
      exact ⟨(by decide : Accepting .infinity), fun h => (nomatch h)⟩
    · rw [processFrom_nan h]
      exact ⟨(by decide : Accepting .nan), fun h => (nomatch h)⟩
    · rw [processFrom_snan h]
      exact ⟨(by decide : Accepting .snan), fun h => (nomatch h)⟩

end

end TextParser

end Gobo
