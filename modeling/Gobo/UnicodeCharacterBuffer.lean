/-
Filling a buffer of Unicode characters with UTF-8, from a string or from a stream
(`KL_UNICODE_CHARACTER_BUFFER`).
-/
import Gobo.CharacterBuffer
import Gobo.Loop
import Gobo.Utf8Routines

namespace Gobo

open Utf8Routines

structure UnicodeCharacterBuffer where
  /-- One more character than `count`; its first index is 1. -/
  unicodeArea : List Nat
  /-- The string that bytes are read to. -/
  area : Option (List UInt8)
  invalidUnicodeCharacter : Nat

/-- Replace the character at the index `j`. -/
def putCharacter (unicodeArea : List Nat) (c j : Nat) : Option (List Nat) :=
  if 1 ≤ j ∧ j ≤ unicodeArea.length then some (unicodeArea.set (j - 1) c) else none

/-- `resize` and `set_count`: at least `n` bytes. -/
def resizeArea (area : List UInt8) (n : Nat) : List UInt8 :=
  area ++ List.replicate (n - area.length) 0

/-- Read at most `nb` bytes to the beginning of a string. -/
def readToString (area : List UInt8) (stream : InputStream) (nb : Int) :
    Option (Nat × List UInt8 × InputStream) :=
  if stream.endOfInput = false ∧ 0 < nb ∧ nb ≤ area.length then
    let bytes := stream.next nb.toNat
    some (bytes.length, bytes ++ area.drop bytes.length, stream.afterRead nb.toNat)
  else none

/-- Copy the `n` bytes after the index `i` to the beginning of the same string. -/
def moveToFront (area : List UInt8) (i n : Nat) : Option (List UInt8) :=
  if i + n ≤ area.length then some ((area.drop i).take n ++ area.drop n) else none

namespace UnicodeCharacterBuffer

def make (n : Nat) : UnicodeCharacterBuffer where
  unicodeArea := List.replicate (n + 1) 0
  area := none
  invalidUnicodeCharacter := 4294967295

def count (b : UnicodeCharacterBuffer) : Nat := b.unicodeArea.length - 1

def unicodeSubstring (b : UnicodeCharacterBuffer) (s e : Nat) : List Nat :=
  if e < s then [] else (b.unicodeArea.drop s).take (e + 1 - s)

section

variable (b : UnicodeCharacterBuffer)

def twoByteCharacter (byte1 byte2 : UInt8) : Nat :=
  if !isEncodedSecondByte byte2 byte1 then b.invalidUnicodeCharacter
  else twoByteCharacterCode byte1 byte2

def threeByteCharacter (byte1 byte2 byte3 : UInt8) : Nat :=
  if !isEncodedSecondByte byte2 byte1 || !isEncodedNextByte byte3 then b.invalidUnicodeCharacter
  else threeByteCharacterCode byte1 byte2 byte3

def fourByteCharacter (byte1 byte2 byte3 byte4 : UInt8) : Nat :=
  if !isEncodedSecondByte byte2 byte1 || !isEncodedNextByte byte3 || !isEncodedNextByte byte4 then
    b.invalidUnicodeCharacter
  else fourByteCharacterCode byte1 byte2 byte3 byte4

/-- The locals of the loop in `fill_from_utf8_string`. -/
structure StringFill where
  unicodeArea : List Nat
  i : Nat
  j : Nat

/-- The character at `i` and the number of its bytes. -/
def stringCharacter (s : List UInt8) (nb i : Nat) : Option (Nat × Nat) := do
  let byte1 ← s[i]?
  if !isEncodedFirstByte byte1 then
    return (b.invalidUnicodeCharacter, 1)
  else
    match encodedByteCount byte1 with
    | 1 => return (byte1.toNat, 1)
    | 2 =>
        if nb < i + 1 then return (b.invalidUnicodeCharacter, 2)
        else
          let byte2 ← s[i + 1]?
          return (b.twoByteCharacter byte1 byte2, 2)
    | 3 =>
        if nb < i + 2 then return (b.invalidUnicodeCharacter, 3)
        else
          let byte2 ← s[i + 1]?
          let byte3 ← s[i + 2]?
          return (b.threeByteCharacter byte1 byte2 byte3, 3)
    | _ =>
        if nb < i + 3 then return (b.invalidUnicodeCharacter, 4)
        else
          let byte2 ← s[i + 1]?
          let byte3 ← s[i + 2]?
          let byte4 ← s[i + 3]?
          return (b.fourByteCharacter byte1 byte2 byte3 byte4, 4)

def stringStops (nb : Nat) (f : StringFill) : Option Bool := some (decide (nb < f.i))

def stringTurn (s : List UInt8) (nb : Nat) (f : StringFill) : Option StringFill := do
  let (c, n) ← b.stringCharacter s nb f.i
  let unicodeArea ← putCharacter f.unicodeArea c f.j
  return ⟨unicodeArea, f.i + n, f.j + 1⟩

/-- The number of items copied, and the buffer with them. -/
def fillFromUtf8String (s : List UInt8) (pos : Nat) : Option (Nat × UnicodeCharacterBuffer) :=
  if 0 < s.length then do
    let nb := s.length - 1
    let f ← loopUntil (stringStops nb) (b.stringTurn s nb) (s.length + 1)
      ⟨b.unicodeArea, 0, pos + 1⟩
    return (f.j - (pos + 1), { b with unicodeArea := f.unicodeArea })
  else some (0, b)

/-- The locals of the loop in `fill_from_utf8_stream` for the bytes: the string with
those read last, the index of the current one and of the last one. -/
structure Bytes where
  area : List UInt8
  stream : InputStream
  i : Nat
  nbUtf8 : Int

/-- The locals of the loop that reads missing bytes. -/
structure Missing where
  bytes : Bytes
  nb1 : Int

def missingStops (m : Missing) : Option Bool :=
  some (decide (m.nb1 ≤ 0) || m.bytes.stream.endOfInput)

/-- Every read goes to the beginning of the string. -/
def missingTurn (m : Missing) : Option Missing := do
  let (nb2, area, stream) ← readToString m.bytes.area m.bytes.stream m.nb1
  return ⟨{ m.bytes with area, stream, nbUtf8 := m.bytes.nbUtf8 + nb2 }, m.nb1 - nb2⟩

/-- The `k` bytes after the first one of a character are not all there: move those
that are to the front and try to read the others. -/
def readMissing (f : Bytes) (k : Nat) : Option Bytes := do
  let nb1 := f.nbUtf8 - f.i
  let area ← (if 0 < nb1 then moveToFront f.area (f.i + 1) nb1.toNat else some f.area : Option _)
  let missing := k - nb1
  let area := if area.length < missing then resizeArea area missing.toNat else area
  let m ← loopUntil missingStops missingTurn (k + 1)
    ⟨{ f with area, i := 0, nbUtf8 := nb1 - 1 }, missing⟩
  return m.bytes

/-- `%/255/`, where a byte is missing. -/
def invalidByte : UInt8 := 255

/-- Try to read the second byte of a character. -/
def readSecond (f : Bytes) : Option (UInt8 × Bytes) :=
  if f.stream.endOfInput = false then do
    let area := if f.area.length < 1 then resizeArea f.area 1 else f.area
    let (nb2, area, stream) ← readToString area f.stream 1
    let f := { f with area, stream, i := 0, nbUtf8 := nb2 - 1 }
    if (f.i : Int) + 1 ≤ f.nbUtf8 then
      let byte2 ← f.area[f.i + 1]?
      return (byte2, f)
    else return (invalidByte, f)
  else some (invalidByte, f)

/-- The current character, the number of its bytes and what was read meanwhile. -/
def streamCharacter (f : Bytes) : Option (Nat × Nat × Bytes) := do
  let byte1 ← f.area[f.i]?
  if !isEncodedFirstByte byte1 then
    return (b.invalidUnicodeCharacter, 1, f)
  else
    match encodedByteCount byte1 with
    | 1 => return (byte1.toNat, 1, f)
    | 2 =>
        let (byte2, f) ← (if (f.i : Int) + 1 ≤ f.nbUtf8 then do
            let byte2 ← f.area[f.i + 1]?
            return (byte2, f)
          else readSecond f : Option _)
        return (b.twoByteCharacter byte1 byte2, 2, f)
    | 3 =>
        let f ← (if (f.i : Int) + 2 ≤ f.nbUtf8 then some f else readMissing f 2 : Option _)
        if (f.i : Int) + 2 ≤ f.nbUtf8 then
          let byte2 ← f.area[f.i + 1]?
          let byte3 ← f.area[f.i + 2]?
          return (b.threeByteCharacter byte1 byte2 byte3, 3, f)
        else return (b.threeByteCharacter byte1 invalidByte invalidByte, 3, f)
    | _ =>
        let f ← (if (f.i : Int) + 3 ≤ f.nbUtf8 then some f else readMissing f 3 : Option _)
        if (f.i : Int) + 3 ≤ f.nbUtf8 then
          let byte2 ← f.area[f.i + 1]?
          let byte3 ← f.area[f.i + 2]?
          let byte4 ← f.area[f.i + 3]?
          return (b.fourByteCharacter byte1 byte2 byte3 byte4, 4, f)
        else return (b.fourByteCharacter byte1 invalidByte invalidByte invalidByte, 4, f)

/-- The locals of the loop in `fill_from_utf8_stream`. -/
structure StreamFill where
  unicodeArea : List Nat
  bytes : Bytes
  j : Nat

def streamStops (f : StreamFill) : Option Bool :=
  some (decide (f.bytes.nbUtf8 < f.bytes.i))

def streamTurn (f : StreamFill) : Option StreamFill := do
  let (c, n, bytes) ← b.streamCharacter f.bytes
  let unicodeArea ← putCharacter f.unicodeArea c f.j
  return ⟨unicodeArea, { bytes with i := bytes.i + n }, f.j + 1⟩

/-- The string to read at most `nb` bytes to. -/
def workArea (nb : Nat) : List UInt8 :=
  match b.area with
  | none => List.replicate b.count 0
  | some area => if area.length < nb then resizeArea area b.count else area

/-- The number of items read, the buffer with them and the rest of the stream. -/
def fillFromUtf8Stream (stream : InputStream) (pos nb : Nat) :
    Option (Nat × UnicodeCharacterBuffer × InputStream) := do
  let (nbUtf8, area, stream) ← readToString (b.workArea nb) stream nb
  let f ← loopUntil streamStops b.streamTurn (nb + 1)
    ⟨b.unicodeArea, ⟨area, stream, 0, nbUtf8 - 1⟩, pos + 1⟩
  return (f.j - (pos + 1),
    { b with unicodeArea := f.unicodeArea, area := some f.bytes.area }, f.bytes.stream)

end

end UnicodeCharacterBuffer

end Gobo
