/-
Filling a scanner buffer with UTF-8 bytes from a file (`YY_UTF8_FILE_BUFFER`):
the byte order mark, the conversion of ISO-8859-1 characters within the buffer,
and what the client reads of it.
-/
import Gobo.CharacterBuffer
import Gobo.Loop

namespace Gobo

inductive Encoding where
  | unknown
  | utf8
  | iso88591
  deriving DecidableEq

structure Utf8FileBuffer where
  content : CharacterBuffer
  count : Nat
  capacity : Nat
  index : Nat
  filled : Bool
  interactive : Bool
  endOfFile : Bool
  file : InputStream
  encoding : Encoding
  defaultEncoding : Encoding

def defaultCapacity : Nat := 16384

def maxBytesOfIso88591ToUtf8 : Nat := 2

def utf8Bom : List UInt8 := [239, 187, 191]

def isEndianDetectionCharacter (first second third : UInt8) : Bool :=
  [first, second, third] == utf8Bom

namespace Utf8FileBuffer

/-- `make_with_size`. -/
def makeWithSize (file : InputStream) (interactive : Bool) (defaultEncoding : Encoding)
    (size : Nat) : Utf8FileBuffer where
  content := .make (size + 2)
  count := 0
  capacity := size
  index := 1
  filled := true
  interactive := interactive
  endOfFile := file.endOfInput
  file := file
  encoding := .unknown
  defaultEncoding := defaultEncoding

/-- The room that `compact_left` makes at least. -/
def spaceNeeded (b : Utf8FileBuffer) : Nat :=
  match b.encoding with
  | .utf8 => 1
  | .iso88591 => maxBytesOfIso88591ToUtf8
  | .unknown =>
      if b.interactive then maxBytesOfIso88591ToUtf8
      else utf8Bom.length * maxBytesOfIso88591ToUtf8

/-- Double the capacity, or more if that is not enough. -/
def grow (b : Utf8FileBuffer) : Utf8FileBuffer :=
  let capacity := if b.capacity = 0 then defaultCapacity else b.capacity * 2
  let capacity := if capacity < b.capacity + b.spaceNeeded then b.capacity + b.spaceNeeded
    else capacity
  { b with
    capacity
    content := if b.content.count < capacity + 2 then b.content.resize (capacity + 2)
      else b.content }

def compactLeft (b : Utf8FileBuffer) : Option Utf8FileBuffer := do
  let nb := b.count + 1 - b.index
  let b := if b.capacity < nb + b.spaceNeeded then b.grow else b
  if b.index ≠ 1 then
    -- The 2 EOB characters are moved as well.
    let content ← b.content.moveLeft b.index 1 (nb + 2)
    return { b with content, index := 1, count := nb }
  else
    return b

/-- What was read: `nb2` of the `nb` bytes asked for, at `k`. -/
structure Fetch where
  buffer : Utf8FileBuffer
  nb : Nat
  nb2 : Nat
  k : Nat

/-- Reads at most `nb` bytes to `k`. -/
def fetch (b : Utf8FileBuffer) (nb k : Nat) : Option Fetch := do
  let (nb2, content, file) ← b.content.fillFromStream b.file k nb
  return ⟨{ b with content, file }, nb, nb2, k⟩

def fetchUtf8 (b : Utf8FileBuffer) (nb : Nat) : Option Fetch :=
  b.fetch nb (b.count + 1)

/-- Reads far enough on the right, so that the characters can be converted to
the left later. -/
def fetchIso88591 (b : Utf8FileBuffer) (nb : Nat) : Option Fetch :=
  b.fetch nb (b.count + 1 + nb)

/-- One turn of the loop that reads the first bytes. -/
def fetchMore (f : Fetch) : Option Fetch := do
  let g ← f.buffer.fetch (f.nb - f.nb2) (f.k + f.nb2)
  return { f with buffer := g.buffer, nb2 := f.nb2 + g.nb2 }

/-- The encoding is not known yet: is there a byte order mark? -/
def fetchFirst (b : Utf8FileBuffer) : Option Fetch := do
  let f ← b.fetchIso88591 utf8Bom.length
  let f ← loopUntil
    (fun f => some (decide (f.nb ≤ f.nb2) || f.buffer.file.endOfInput)) fetchMore
    (utf8Bom.length + 1) f
  let item := f.buffer.content.item
  if f.nb ≤ f.nb2 ∧ isEndianDetectionCharacter (item f.k) (item (f.k + 1)) (item (f.k + 2)) then
    let b := { f.buffer with encoding := .utf8 }
    b.fetchUtf8 (b.capacity - b.count)
  else if b.defaultEncoding = .utf8 then
    return { f with buffer := { f.buffer with encoding := .utf8 } }
  else
    return { f with buffer := { f.buffer with encoding := .iso88591 } }

def fetchAny (b : Utf8FileBuffer) : Option Fetch :=
  if b.interactive then
    let encoding := if b.encoding = .unknown then
      if b.defaultEncoding = .utf8 then .utf8 else .iso88591
      else b.encoding
    let b := { b with encoding }
    if encoding = .utf8 then b.fetchUtf8 1 else b.fetchIso88591 1
  else
    match b.encoding with
    | .utf8 => b.fetchUtf8 (b.capacity - b.count)
    | .iso88591 => b.fetchIso88591 ((b.capacity - b.count) / maxBytesOfIso88591ToUtf8)
    | .unknown => b.fetchFirst

/-- The locals of the conversion loop. -/
structure Conversion where
  content : CharacterBuffer
  i : Nat
  j : Nat
  k : Nat

/-- One turn of the conversion loop: one or two bytes for a character. -/
def convertStep (c : Conversion) : Option Conversion := do
  let char := c.content.item c.k
  if char.toNat ≤ 0x7F then
    let content ← c.content.put char (c.j + 1)
    return ⟨content, c.i + 1, c.j + 1, c.k + 1⟩
  else
    let content ← c.content.put (UInt8.ofNat (char.toNat / 64 + 192)) (c.j + 1)
    let content ← content.put (UInt8.ofNat (char.toNat % 64 + 128)) (c.j + 2)
    return ⟨content, c.i + 1, c.j + 2, c.k + 1⟩

/-- Convert the ISO-8859-1 characters that have been read on the right. -/
def convert (b : Utf8FileBuffer) (k nb2 : Nat) : Option Utf8FileBuffer := do
  let c ← loopUntil (fun c => some (decide (nb2 < c.i))) convertStep (nb2 + 1)
    ⟨b.content, 1, b.count, k⟩
  return { b with content := c.content, count := c.j }

def fill (b : Utf8FileBuffer) : Option Utf8FileBuffer :=
  if b.filled ∧ b.endOfFile = false then do
    let b ← b.compactLeft
    let f ← b.fetchAny
    let b := f.buffer
    let b := { b with
      endOfFile := if f.nb2 < f.nb then b.file.endOfInput else b.endOfFile }
    let b ← (if b.encoding = .iso88591 then b.convert f.k f.nb2
      else some { b with count := b.count + f.nb2 } : Option _)
    let content ← b.content.put 0 (b.count + 1)
    let content ← content.put 0 (b.count + 2)
    return { b with content, filled := decide (0 < f.nb2) }
  else
    some { b with filled := false }

/-- The characters at `index` to `count`. -/
def available (b : Utf8FileBuffer) : List UInt8 :=
  b.content.slice b.index (b.count + 1 - b.index)

end Utf8FileBuffer

end Gobo
