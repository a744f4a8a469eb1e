/-
Parsers of decimal numbers (`MA_DECIMAL_TEXT_PARSER`): the automaton that reads a string, and the
decimal number that is made from what has been read.
-/
import Gobo.DecimalProduct

namespace Gobo

/-- The states of the automaton. -/
inductive TextParserState
  | start
  | nan
  | snan
  | startingPoint
  | infinity
  | integerPart
  | point
  | fractionalPart
  | exponent
  | sign
  | comma
  | startExponent
  | exponentSign
  | error
deriving DecidableEq, Repr

/-- A parser.  Up to 2^53 a `DOUBLE` holds natural numbers exactly, and the exponent is only looked
at below 2^31; there it is a natural number. -/
structure TextParser where
  sign : ℤ
  exponentSign : ℤ
  state : TextParserState
  errorCode : ℕ
  coefficientBegin : ℕ
  coefficientEnd : ℕ
  exponentAsDouble : ℕ
  exponentBegin : ℕ
  exponentEnd : ℕ
  exponentSignificantDigits : ℕ
  decimalPointIndex : ℕ
  decimalPointIsComma : Bool
  isCommaAllowed : Bool
  lastParsed : Option (List Char)

namespace TextParser

def errorInvalidValue : ℕ := 101

def errorInvalidCharacter : ℕ := 102

def errorInvalidCharacterInIntegerPart : ℕ := 103

def errorInvalidCharacterInDecimalPart : ℕ := 104

def errorInvalidCharacterInExponent : ℕ := 105

/-- A parser that has not parsed anything. -/
def make : TextParser := ⟨0, 0, .start, 0, 0, 0, 0, 0, 0, 0, 0, false, false, none⟩

/-- `c.code - ('0').code`. -/
def digitValue (c : Char) : ℕ := c.toNat - '0'.toNat

variable (p : TextParser)

def coefficientCount : ℕ := p.coefficientEnd + 1 - p.coefficientBegin

def fractionalPartCount : ℕ :=
  if p.decimalPointIndex > 0 then p.coefficientEnd - p.decimalPointIndex else 0

def exponentCount : ℕ := p.exponentSignificantDigits

def error : Bool := p.state = .error

def isInfinity : Bool := p.state = .infinity

def isNan : Bool := p.state = .nan

def isSnan : Bool := p.state = .snan

def hasPoint : Bool := p.decimalPointIndex ≠ 0

def hasExponent : Bool := p.exponentBegin > 0

/-- `state := State_error`, and `error_code`. -/
def fail (code : ℕ) : TextParser := { p with state := .error, errorCode := code }

/-- `case_insensitive_substring_equal (s, i_begin, i_end, t)`. -/
def substringEqual (s : List Char) (iBegin iEnd : ℕ) (t : List Char) : Bool :=
  (((s.take iEnd).drop (iBegin - 1)).map Char.toLower == t) && iEnd ≤ s.length

/-- `handle_i (s, index)`. -/
def handleI (s : List Char) (index : ℕ) : TextParser :=
  if substringEqual s (index + 1) (index + 2) ['n', 'f'] then
    if s.length - index + 1 = 3 ∨
        substringEqual s (index + 3) s.length ['i', 'n', 'i', 't', 'y'] then
      { p with state := .infinity }
    else p.fail errorInvalidValue
  else p.fail errorInvalidValue

/-- A first digit of the coefficient. -/
def startCoefficient (index : ℕ) (state : TextParserState) : TextParser :=
  { p with coefficientBegin := index, coefficientEnd := index, state := state }

/-- A point in front of all digits. -/
def startPoint (index : ℕ) : TextParser :=
  { p with
    coefficientBegin := index
    coefficientEnd := index
    decimalPointIndex := index
    state := .startingPoint }

section

variable (c : Char)

/-- `process_start (c, index, s)`. -/
def processStart (index : ℕ) (s : List Char) : TextParser :=
  if c.isDigit then p.startCoefficient index .integerPart
  else if c = '+' ∨ c = '-' then
    { p with sign := if c = '-' then -1 else 1, state := .sign }
  else if c = 'n' ∨ c = 'N' then
    if substringEqual s (index + 1) s.length ['a', 'n'] then { p with state := .nan }
    else p.fail errorInvalidValue
  else if c = 's' ∨ c = 'S' then
    if substringEqual s (index + 1) s.length ['n', 'a', 'n'] then { p with state := .snan }
    else p.fail errorInvalidValue
  else if c = 'i' ∨ c = 'I' then p.handleI s index
  else if c = '.' then p.startPoint index
  else p.fail errorInvalidCharacter

/-- `process_sign (c, index, s)`. -/
def processSign (index : ℕ) (s : List Char) : TextParser :=
  if c = 'i' ∨ c = 'I' then p.handleI s index
  else if c.isDigit then p.startCoefficient index .integerPart
  else if c = '.' then p.startPoint index
  else p.fail errorInvalidCharacter

/-- `process_integer_part (c, index)`. -/
def processIntegerPart (index : ℕ) : TextParser :=
  if c.isDigit then { p with coefficientEnd := p.coefficientEnd + 1 }
  else if c = 'e' ∨ c = 'E' then { p with state := .startExponent }
  else if c = '.' then
    { p with
      coefficientEnd := p.coefficientEnd + 1
      decimalPointIndex := index
      state := .point }
  else if c = ',' then
    { p with
      coefficientEnd := p.coefficientEnd + 1
      decimalPointIndex := index
      decimalPointIsComma := true
      state := .comma }
  else p.fail errorInvalidCharacterInIntegerPart

/-- `process_starting_point (c, index)`. -/
def processStartingPoint (index : ℕ) : TextParser :=
  if c.isDigit then p.startCoefficient index .fractionalPart
  else p.fail errorInvalidCharacter

/-- `process_point (c, index)`. -/
def processPoint : TextParser :=
  if c.isDigit then
    { p with coefficientEnd := p.coefficientEnd + 1, state := .fractionalPart }
  else if c = 'e' ∨ c = 'E' then { p with state := .startExponent }
  else p.fail errorInvalidCharacter

/-- `process_comma (c, index)`. -/
def processComma : TextParser :=
  if c.isDigit then
    { p with coefficientEnd := p.coefficientEnd + 1, state := .fractionalPart }
  else p.fail errorInvalidCharacter

/-- `process_fractional_part (c, index)`. -/
def processFractionalPart : TextParser :=
  if c.isDigit then { p with coefficientEnd := p.coefficientEnd + 1 }
  else if c = 'e' ∨ c = 'E' then { p with state := .startExponent }
  else p.fail errorInvalidCharacterInDecimalPart

/-- The first digit of an exponent. -/
def startExponentDigits (index : ℕ) : TextParser :=
  { p with
    exponentAsDouble := digitValue c
    exponentBegin := index
    exponentEnd := index
    exponentSignificantDigits := if digitValue c > 0 then 1 else p.exponentSignificantDigits
    state := .exponent }

/-- `process_start_exponent (c, index)`. -/
def processStartExponent (index : ℕ) : TextParser :=
  if c.isDigit then p.startExponentDigits c index
  else if c = '+' ∨ c = '-' then
    { p with exponentSign := if c = '-' then -1 else 1, state := .exponentSign }
  else p.fail errorInvalidCharacterInExponent

/-- `process_exponent_sign (c, index)`. -/
def processExponentSign (index : ℕ) : TextParser :=
  if c.isDigit then p.startExponentDigits c index
  else p.fail errorInvalidCharacterInExponent

/-- `process_exponent (c, index)`. -/
def processExponent : TextParser :=
  if c.isDigit then
    { p with
      exponentAsDouble := p.exponentAsDouble * 10 + digitValue c
      exponentEnd := p.exponentEnd + 1
      exponentSignificantDigits :=
        if p.exponentAsDouble * 10 + digitValue c > 0 then p.exponentSignificantDigits + 1
        else p.exponentSignificantDigits }
  else p.fail errorInvalidCharacterInExponent

/-- The `inspect state` of `decimal_parse`. -/
def process (index : ℕ) (s : List Char) : TextParser :=
  match p.state with
  | .start => p.processStart c index s
  | .sign => p.processSign c index s
  | .integerPart => p.processIntegerPart c index
  | .startingPoint => p.processStartingPoint c index
  | .point => p.processPoint c
  | .comma => p.processComma c
  | .fractionalPart => p.processFractionalPart c
  | .startExponent => p.processStartExponent c index
  | .exponentSign => p.processExponentSign c index
  | .exponent => p.processExponent c
  | .infinity | .snan | .nan => p
  | .error => { p with state := .error }

end

/-- The loop of `decimal_parse` over the characters from the index `i` on.  It ends in an error, and
as `i := nb` in the states of special values. -/
def processFrom (s : List Char) : ℕ → List Char → TextParser → TextParser
  | _, [], p => p
  | i, c :: rest, p =>
      match p.state with
      | .error | .infinity | .snan | .nan => p
      | _ => processFrom s (i + 1) rest (p.process c i s)

/-- The initialization of `decimal_parse`. -/
def restart : TextParser :=
  { p with
    state := .start
    sign := 1
    exponentSign := 1
    exponentAsDouble := 0
    coefficientBegin := 0
    coefficientEnd := 0
    exponentBegin := 0
    exponentEnd := 0
    exponentSignificantDigits := 0
    decimalPointIndex := 0
    decimalPointIsComma := false }

/-- Some states are no end of a number. -/
def conclude : TextParser :=
  match p.state with
  | .start | .sign | .comma | .startExponent | .exponentSign | .startingPoint =>
      { p with state := .error }
  | _ => p

/-- `decimal_parse (s)`. -/
def decimalParse (s : List Char) : TextParser :=
  let p := (processFrom s 1 s p.restart).conclude
  let p := if p.decimalPointIsComma ∧ ¬p.isCommaAllowed then { p with state := .error } else p
  { p with lastParsed := some s }

end TextParser

namespace Coefficient

/-- A turn of `set_from_substring`: `k` digits have been put. -/
def substringTurn (s : List Char) (i : ℤ) (t : Coefficient × ℕ) : Option (Coefficient × ℕ) := do
  let char ← s[(i - 1).toNat]?
  if char.isDigit then do
    let c ← t.1.put (TextParser.digitValue char) t.2
    some (c, t.2 + 1)
  else some t

/-- `set_from_substring (s, coefficient_begin, coefficient_end)`. -/
def setFromSubstring (c : Coefficient) (s : List Char) (coefficientBegin coefficientEnd : ℕ) :
    Option Coefficient := do
  let grown ← (if c.capacity < s.length then c.grow s.length else some c)
  let t ← forDown (substringTurn s) (coefficientEnd + 1 - coefficientBegin) coefficientEnd
    (grown, 0)
  some { t.1 with count := t.2 }

end Coefficient

namespace Decimal

open DecimalContext

/-- The exponent in `make_from_parser`.  The sign is that of the parser that all numbers share. -/
def exponentFromParser (aDecimalParser parser : TextParser) (digits : ℕ) : ℤ :=
  let exponent :=
    if aDecimalParser.hasExponent then
      let exponent :=
        if aDecimalParser.exponentAsDouble > 2147483647 then
          int32 (maximumExponent + digits + aDecimalParser.exponentCount + 2)
        else aDecimalParser.exponentAsDouble
      if parser.exponentSign < 0 then int32 (-exponent) else exponent
    else 0
  if aDecimalParser.hasPoint then int32 (exponent - aDecimalParser.fractionalPartCount)
  else exponent

/-- The number that `make_from_parser` has set before `clean_up`. -/
def numberFromParser (aDecimalParser parser : TextParser) (s : List Char) (digits : ℕ) :
    Option Decimal := do
  let made := Coefficient.make (max (digits + 1) aDecimalParser.coefficientCount)
  let coefficient ←
    made.setFromSubstring s aDecimalParser.coefficientBegin aDecimalParser.coefficientEnd
  some ⟨coefficient, exponentFromParser aDecimalParser parser digits, aDecimalParser.sign < 0,
    .none⟩

/-- `make_from_parser (a_decimal_parser, a_context)`; `parser` is the parser that all numbers
share. -/
def makeFromParser (aDecimalParser parser : TextParser) : Action DecimalContext Decimal := do
  let ctx ← Action.state
  match aDecimalParser.lastParsed with
  | none => pure (makeSpecial (if ctx.isExtended then .quietNan else .signalingNan) false)
  | some s =>
      if aDecimalParser.error then
        pure (makeSpecial (if ctx.isExtended then .quietNan else .signalingNan) false)
      else if aDecimalParser.isInfinity then pure (makeSpecial .infinity (parser.sign < 0))
      else if aDecimalParser.isSnan then pure (makeSpecial .signalingNan false)
      else if aDecimalParser.isNan then pure (makeSpecial .quietNan false)
      else do
        let d ← Action.lift (numberFromParser aDecimalParser parser s ctx.digits)
        d.cleanUp

/-- `make_from_string_ctx (value_string, ctx)`; it parses with the parser that all numbers share. -/
def makeFromStringCtx (parser : TextParser) (valueString : List Char) :
    Action DecimalContext Decimal :=
  makeFromParser (parser.decimalParse valueString) (parser.decimalParse valueString)

end Decimal

end Gobo
