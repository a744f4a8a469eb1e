/-
Streams that encode what is written to them in base 64
(`UT_BASE64_ENCODING_OUTPUT_STREAM`), and streams that decode what they read
(`UT_BASE64_DECODING_INPUT_STREAM`).
-/
import Gobo.Loop
import Gobo.Text

namespace Gobo

open Text

namespace Base64

def newLine : UInt8 := 10

def carriageReturn : UInt8 := 13

def equalSign : UInt8 := 61

/-- The index of the pad character in the alphabet. -/
def padding : Nat := 64

def fullLineCount : Nat := 76

def base64Alphabet : List UInt8 :=
  [65, 66, 67, 68, 69, 70, 71, 72, 73, 74, 75, 76, 77, 78, 79, 80, 81, 82, 83, 84, 85, 86, 87, 88,
    89, 90, 97, 98, 99, 100, 101, 102, 103, 104, 105, 106, 107, 108, 109, 110, 111, 112, 113, 114,
    115, 116, 117, 118, 119, 120, 121, 122, 48, 49, 50, 51, 52, 53, 54, 55, 56, 57, 43, 47, 61]

/-- `decoded_character`: -1 for white space, -2 for what is no base64 character. -/
def decodedCharacter (c : UInt8) : Int :=
  if 65 ≤ c ∧ c ≤ 90 then c.toNat - 65
  else if 97 ≤ c ∧ c ≤ 122 then c.toNat - 97 + 26
  else if 48 ≤ c ∧ c ≤ 57 then c.toNat - 48 + 52
  else if c = 43 then 62
  else if c = 61 then 0
  else if c = 47 then 63
  else if c = 32 ∨ c = 9 ∨ c = 13 ∨ c = 10 then -1
  else -2

/-- `to_character`. -/
def toCharacter (code : Nat) : Option UInt8 :=
  if code < 256 then some (UInt8.ofNat code) else none

end Base64

open Base64

/-- `base` holds the characters that were put to the base stream. -/
structure Base64EncodingOutputStream where
  isLineBreaking : Bool
  isNormalizing : Bool
  base : List UInt8
  lineCount : Nat
  triplet : List UInt8
  tripletCount : Nat
  isPendingLineBreak : Bool
  triplet_capacity : triplet.length = 3

namespace Base64EncodingOutputStream

/-- `make`, over a base stream that nothing was put to. -/
def make (outputLineBreaks normalizeLineBreaks : Bool) : Base64EncodingOutputStream where
  isLineBreaking := outputLineBreaks
  isNormalizing := normalizeLineBreaks
  base := []
  lineCount := 0
  triplet := [32, 32, 32]
  tripletCount := 0
  isPendingLineBreak := false
  triplet_capacity := rfl

section

variable (s : Base64EncodingOutputStream)

/-- `write_character`: one of the alphabet, and a line break after 76 of them. -/
def writeCharacter (c : Nat) : Option Base64EncodingOutputStream := do
  let character ← base64Alphabet[c]?
  let s := { s with base := s.base ++ [character] }
  if s.isLineBreaking then
    if s.lineCount + 1 = fullLineCount then
      some { s with lineCount := 0, base := s.base ++ [newLine] }
    else some { s with lineCount := s.lineCount + 1 }
  else some s

def writeQuartet : Option Base64EncodingOutputStream := do
  let code ← item s.triplet 1
  let s ← s.writeCharacter (code.toNat / 4)
  let another := code.toNat % 4 * 16
  if s.tripletCount = 1 then
    let s ← s.writeCharacter another
    let s ← s.writeCharacter padding
    let s ← s.writeCharacter padding
    some { s with tripletCount := 0 }
  else
    let code ← item s.triplet 2
    let s ← s.writeCharacter (another + code.toNat / 16)
    let another := code.toNat % 16 * 4
    if s.tripletCount = 2 then
      let s ← s.writeCharacter another
      let s ← s.writeCharacter padding
      some { s with tripletCount := 0 }
    else
      let code ← item s.triplet 3
      let s ← s.writeCharacter (another + code.toNat / 64)
      let s ← s.writeCharacter (code.toNat % 64)
      some { s with tripletCount := 0 }

/-- `triplet` with one more character. -/
def hold (c : UInt8) : Base64EncodingOutputStream :=
  { s with
    triplet := s.triplet.set s.tripletCount c
    tripletCount := s.tripletCount + 1
    triplet_capacity := (List.length_set).trans s.triplet_capacity }

def bufferCharacter (c : UInt8) : Option Base64EncodingOutputStream :=
  if s.tripletCount < s.triplet.length then
    let s := s.hold c
    if s.tripletCount = 3 then s.writeQuartet else some s
  else none

def putCharacter (c : UInt8) : Option Base64EncodingOutputStream :=
  if ¬s.isNormalizing then s.bufferCharacter c
  else if s.isPendingLineBreak then do
    let s := { s with isPendingLineBreak := false }
    if c = newLine then s.bufferCharacter newLine
    else
      let s ← s.bufferCharacter newLine
      let s ← s.bufferCharacter c
      some { s with isPendingLineBreak := decide (c = carriageReturn) }
  else if c = newLine then do
    let s ← s.bufferCharacter carriageReturn
    s.bufferCharacter newLine
  else if c = carriageReturn then do
    let s ← s.bufferCharacter c
    some { s with isPendingLineBreak := true }
  else s.bufferCharacter c

/-- `close`: what is left in `triplet` is written with padding. -/
def close : Option Base64EncodingOutputStream :=
  if s.tripletCount ≠ 0 then s.writeQuartet else some s

end

/-- Characters written with `put_character`, one after the other. -/
def putCharacters (s : Base64EncodingOutputStream) :
    List UInt8 → Option Base64EncodingOutputStream
  | [] => some s
  | c :: characters => (s.putCharacter c).bind fun s => putCharacters s characters

end Base64EncodingOutputStream

/-- An input stream over the characters `rest`; it is at its end when a read found
no more character. -/
structure CharacterSource where
  rest : List UInt8
  lastCharacter : UInt8
  endOfInput : Bool

def CharacterSource.readCharacter (s : CharacterSource) : CharacterSource :=
  match s.rest with
  | [] => { s with endOfInput := true }
  | c :: rest => { s with rest := rest, lastCharacter := c }

structure Base64DecodingInputStream where
  base : CharacterSource
  lastString : List UInt8
  lastCharacter : UInt8
  endOfInput : Bool
  decodedTriplet : List UInt8
  tripletPosition : Nat
  equalSignRead : Bool
  codes : List Nat
  triplet_capacity : decodedTriplet.length = 3
  codes_capacity : codes.length = 4

namespace Base64DecodingInputStream

def make (text : List UInt8) : Base64DecodingInputStream where
  base := { rest := text, lastCharacter := 0, endOfInput := false }
  lastString := []
  lastCharacter := 0
  endOfInput := false
  decodedTriplet := [32, 32, 32]
  tripletPosition := 4
  equalSignRead := false
  codes := [0, 0, 0, 0]
  triplet_capacity := rfl
  codes_capacity := rfl

/-- `codes.put (code, i)`. -/
def setCode (s : Base64DecodingInputStream) (i code : Nat) : Base64DecodingInputStream :=
  { s with
    codes := s.codes.set (i - 1) code
    codes_capacity := (List.length_set).trans s.codes_capacity }

/-- `decoded_triplet.put (c, i)`. -/
def setDecoded (s : Base64DecodingInputStream) (i : Nat) (c : UInt8) :
    Base64DecodingInputStream :=
  { s with
    decodedTriplet := s.decodedTriplet.set (i - 1) c
    triplet_capacity := (List.length_set).trans s.triplet_capacity }

/-- `read_24_bits` in its loop, at the index `i` of `codes`. -/
structure Quartet where
  stream : Base64DecodingInputStream
  i : Nat

/-- One turn of the loop of `read_24_bits`. -/
def readCode (t : Quartet) : Option Quartet :=
  let base := t.stream.base.readCharacter
  let s := { t.stream with base := base }
  if base.endOfInput then some ⟨{ s with endOfInput := true }, 5⟩
  else if base.lastCharacter = equalSign then
    let s := { s with equalSignRead := true }
    match t.i with
    | 1 => some ⟨{ s with endOfInput := true }, 5⟩
    | 2 => some ⟨{ s with endOfInput := true }, 5⟩
    | 3 => some ⟨{ s with base := base.readCharacter, tripletPosition := 3 }, 5⟩
    | 4 => some ⟨{ s with tripletPosition := 2 }, 5⟩
    | _ => none
  else if decodedCharacter base.lastCharacter < 0 then some ⟨s, t.i⟩
  else if 1 ≤ t.i ∧ t.i ≤ t.stream.codes.length then
    some ⟨s.setCode t.i (decodedCharacter base.lastCharacter).toNat, t.i + 1⟩
  else none

section

variable (s : Base64DecodingInputStream)

/-- `decoded_triplet.put (INTEGER_.to_character (code), i)`. -/
def putDecoded (code i : Nat) : Option Base64DecodingInputStream := do
  let c ← toCharacter code
  if 1 ≤ i ∧ i ≤ s.decodedTriplet.length then some (s.setDecoded i c) else none

/-- The bits of `codes` shifted into characters. -/
def shiftCodes : Option Base64DecodingInputStream := do
  let code1 ← item s.codes 1
  let code2 ← item s.codes 2
  let s ← s.putDecoded (code1 * 4 + code2 / 16) s.tripletPosition
  if s.tripletPosition < 3 then
    let code3 ← item s.codes 3
    let s ← s.putDecoded ((code2 * 16 + code3 / 4) % 256) (s.tripletPosition + 1)
    if s.tripletPosition = 1 then
      let code4 ← item s.codes 4
      s.putDecoded ((code3 * 64 + code4) % 256) 3
    else some s
  else some s

/-- `read_24_bits`; every turn of its loop reads a character or ends it. -/
def read24Bits : Option Base64DecodingInputStream :=
  if s.equalSignRead then some { s with tripletPosition := 4, endOfInput := true }
  else if s.base.endOfInput then some { s with tripletPosition := 4, endOfInput := true }
  else do
    let t ← loopUntil (fun t => some (decide (4 < t.i))) readCode (s.base.rest.length + 2)
      ⟨{ s with tripletPosition := 1 }, 1⟩
    if t.stream.endOfInput then some t.stream else t.stream.shiftCodes

/-- The first part of `read_character`. -/
def fetch : Option Base64DecodingInputStream :=
  if s.tripletPosition = 4 then s.read24Bits
  else if s.base.endOfInput then some { s with endOfInput := true }
  else some s

def readCharacter : Option Base64DecodingInputStream := do
  let s ← s.fetch
  if s.endOfInput then some s
  else
    let c ← item s.decodedTriplet s.tripletPosition
    some { s with lastCharacter := c, tripletPosition := s.tripletPosition + 1 }

end

/-- `read_string` in its loop. -/
structure Filling where
  stream : Base64DecodingInputStream
  i : Nat

def fillTurn (nb : Nat) (t : Filling) : Option Filling := do
  let s ← t.stream.readCharacter
  if s.endOfInput then some ⟨s, nb + 1⟩
  else some ⟨{ s with lastString := s.lastString ++ [s.lastCharacter] }, t.i + 1⟩

/-- `read_string`: the end of the input is reached if there is no character. -/
def readString (s : Base64DecodingInputStream) (nb : Nat) :
    Option Base64DecodingInputStream := do
  let t ← loopUntil (fun t => some (decide (nb < t.i))) (fillTurn nb) (nb + 1)
    ⟨{ s with lastString := [] }, 1⟩
  some { t.stream with endOfInput := decide (t.stream.lastString = []) }

/-- What a client reads with. -/
inductive Request where
  | character
  | string (nb : Nat) (nb_pos : 0 < nb)

/-- A read, with the characters it delivers. -/
def read (s : Base64DecodingInputStream) :
    Request → Option (List UInt8 × Base64DecodingInputStream)
  | .character => do
      let s ← s.readCharacter
      some (if s.endOfInput then [] else [s.lastCharacter], s)
  | .string nb _ => do
      let s ← s.readString nb
      some (s.lastString, s)

/-- The requests of a client that reads until `end_of_input`, with all the
characters they deliver. -/
def readAll (s : Base64DecodingInputStream) :
    List Request → Option (List UInt8 × Base64DecodingInputStream)
  | [] => some ([], s)
  | request :: requests =>
      if s.endOfInput then some ([], s)
      else do
        let (delivered, s) ← s.read request
        let (more, s) ← readAll s requests
        some (delivered ++ more, s)

end Base64DecodingInputStream

end Gobo
