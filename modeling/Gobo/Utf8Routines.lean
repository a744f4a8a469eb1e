/-
Encoding, decoding and checking UTF-8 (`UC_UTF8_ROUTINES`), on strings of bytes
whose first index is 1.
-/
import Gobo.Text
import Mathlib.Algebra.Ring.Nat

namespace Gobo

namespace Utf8Routines

open Text

/-- `valid_non_surrogate_natural_32_code`, on the constants of `UC_UNICODE_CONSTANTS`. -/
def validNonSurrogateCode (code : Nat) : Bool :=
  decide (0 ≤ code ∧ code < 0xD800 ∨ 0xDFFF < code ∧ code ≤ 0x10FFFF)

def isEncodedFirstByte (byte : UInt8) : Bool :=
  decide (byte.toNat ≤ 127 ∨ 194 ≤ byte.toNat ∧ byte.toNat ≤ 244)

def isEncodedNextByte (byte : UInt8) : Bool :=
  decide (127 < byte.toNat ∧ byte.toNat ≤ 191)

def isEncodedSecondByte (byte first : UInt8) : Bool :=
  if first.toNat = 224 then decide (159 < byte.toNat ∧ byte.toNat ≤ 191)
  else if first.toNat = 237 then decide (127 < byte.toNat ∧ byte.toNat ≤ 159)
  else if first.toNat = 240 then decide (143 < byte.toNat ∧ byte.toNat ≤ 191)
  else if first.toNat = 244 then decide (127 < byte.toNat ∧ byte.toNat ≤ 143)
  else decide (127 < byte.toNat ∧ byte.toNat ≤ 191)

def encodedByteCount (byte : UInt8) : Nat :=
  if byte.toNat ≤ 127 then 1
  else if byte.toNat ≤ 223 then 2
  else if byte.toNat ≤ 239 then 3
  else 4

def encodedFirstValue (byte : UInt8) : Nat :=
  if byte.toNat ≤ 127 then byte.toNat
  else if byte.toNat ≤ 223 then byte.toNat % 32
  else if byte.toNat ≤ 239 then byte.toNat % 16
  else if byte.toNat ≤ 244 then byte.toNat % 8
  else byte.toNat

def encodedNextValue (byte : UInt8) : Nat := byte.toNat % 64

/-- `natural_32_code_byte_count`. -/
def codeByteCount (code : Nat) : Nat :=
  if code < 128 then 1
  else if code < 2048 then 2
  else if code < 0xD800 then 3
  else if code ≤ 0xDFFF then 1
  else if code < 65536 then 3
  else if code ≤ 0x10FFFF then 4
  else 1

def invalidCharacterUtf8Byte : UInt8 := 255

/-- `append_natural_32_code_to_utf8`. -/
def appendCode (s : List UInt8) (code : Nat) : List UInt8 :=
  if code < 128 then s ++ [.ofNat code]
  else if code < 2048 then s ++ [.ofNat (code / 64 + 192), .ofNat (code % 64 + 128)]
  else if code < 65536 then
    if 0xD800 ≤ code ∧ code ≤ 0xDFFF then s ++ [invalidCharacterUtf8Byte]
    else s ++ [.ofNat (code / 64 / 64 + 224), .ofNat (code / 64 % 64 + 128),
      .ofNat (code % 64 + 128)]
  else if code ≤ 0x10FFFF then
    s ++ [.ofNat (code / 64 / 64 / 64 + 240), .ofNat (code / 64 / 64 % 64 + 128),
      .ofNat (code / 64 % 64 + 128), .ofNat (code % 64 + 128)]
  else s ++ [invalidCharacterUtf8Byte]

/-- The `n` bytes from `i` on are all bytes that may follow the second one. -/
def nextBytes (s : List UInt8) : Nat → Nat → Option Bool
  | 0, _ => some true
  | n + 1, i => do
      let byte ← item s i
      if isEncodedNextByte byte then nextBytes s n (i + 1) else some false

/-- The loop of `valid_utf8_substring`, at the byte `i` of those up to `nb`. -/
def validFrom (s : List UInt8) (nb : Nat) : Nat → Nat → Option Bool
  | 0, _ => none
  | fuel + 1, i =>
      if nb < i then some true
      else do
        let first ← item s i
        if isEncodedFirstByte first then
          let bc := encodedByteCount first
          if bc = 1 then validFrom s nb fuel (i + 1)
          else
            let nb2 := i + bc - 1
            if nb < nb2 then some false
            else do
              let byte ← item s (i + 1)
              if isEncodedSecondByte byte first then
                let code := encodedFirstValue first * 64 + encodedNextValue byte
                if bc = 2 ∧ code ≤ 127 ∨ bc = 3 ∧ code ≤ 31 ∨ bc = 4 ∧ code ≤ 15 then some false
                else do
                  let valid ← nextBytes s (nb2 + 1 - (i + 2)) (i + 2)
                  if valid then validFrom s nb fuel (nb2 + 1) else some false
              else some false
        else some false

/-- `valid_utf8_substring (s, start, e)`; every turn goes on by a byte at least. -/
def validUtf8Substring (s : List UInt8) (start e : Nat) : Option Bool :=
  validFrom s e (e + 2 - start) start

def validUtf8 (s : List UInt8) : Option Bool := validUtf8Substring s 1 s.length

/-- The loop of `unicode_substring_character_count`. -/
def countFrom (s : List UInt8) (nb : Nat) : Nat → Nat → Nat → Option Nat
  | 0, _, _ => none
  | fuel + 1, i, n =>
      if nb < i then some n
      else do
        let byte ← item s i
        countFrom s nb fuel (i + encodedByteCount byte) (n + 1)

def unicodeSubstringCharacterCount (s : List UInt8) (start e : Nat) : Option Nat :=
  countFrom s e (e + 2 - start) start 0

def unicodeCharacterCount (s : List UInt8) : Option Nat :=
  unicodeSubstringCharacterCount s 1 s.length

def twoByteCharacterCode (byte1 byte2 : UInt8) : Nat :=
  ((byte1.toNat &&& 0x1F) <<< 6) ||| (byte2.toNat &&& 0x3F)

def threeByteCharacterCode (byte1 byte2 byte3 : UInt8) : Nat :=
  ((byte1.toNat &&& 0x0F) <<< 12) ||| ((byte2.toNat &&& 0x3F) <<< 6) ||| (byte3.toNat &&& 0x3F)

def fourByteCharacterCode (byte1 byte2 byte3 byte4 : UInt8) : Nat :=
  ((byte1.toNat &&& 0x07) <<< 18) ||| ((byte2.toNat &&& 0x3F) <<< 12) |||
    ((byte3.toNat &&& 0x3F) <<< 6) ||| (byte4.toNat &&& 0x3F)

/-- The code of the character whose first byte is at `i`, by the masks of its bytes. -/
def maskedCode (s : List UInt8) (i : Nat) : Option Nat := do
  let byte1 ← item s i
  match encodedByteCount byte1 with
  | 1 => some byte1.toNat
  | 2 => do
      let byte2 ← item s (i + 1)
      some (twoByteCharacterCode byte1 byte2)
  | 3 => do
      let byte2 ← item s (i + 1)
      let byte3 ← item s (i + 2)
      some (threeByteCharacterCode byte1 byte2 byte3)
  | _ => do
      let byte2 ← item s (i + 1)
      let byte3 ← item s (i + 2)
      let byte4 ← item s (i + 3)
      some (fourByteCharacterCode byte1 byte2 byte3 byte4)

/-- The loop of `code_at_byte_index` of `UC_STRING`, over `n` bytes from `k` on. -/
def codeFrom (s : List UInt8) : Nat → Nat → Nat → Option Nat
  | 0, _, code => some code
  | n + 1, k, code => do
      let byte ← item s k
      codeFrom s n (k + 1) (code * 64 + encodedNextValue byte)

def codeAtByteIndex (s : List UInt8) (i : Nat) : Option Nat := do
  let byte ← item s i
  codeFrom s (encodedByteCount byte - 1) (i + 1) (encodedFirstValue byte)

/-- The codes from `i` on, from lead byte to lead byte. -/
def decodeFrom (code : List UInt8 → Nat → Option Nat) (s : List UInt8) :
    Nat → Nat → Option (List Nat)
  | 0, _ => none
  | fuel + 1, i =>
      if s.length < i then some []
      else do
        let byte ← item s i
        let c ← code s i
        let codes ← decodeFrom code s fuel (i + encodedByteCount byte)
        some (c :: codes)

def decode (code : List UInt8 → Nat → Option Nat) (s : List UInt8) : Option (List Nat) :=
  decodeFrom code s (s.length + 1) 1

end Utf8Routines

end Gobo
