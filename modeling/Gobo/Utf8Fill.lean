/-
The characters that a buffer gets from a UTF-8 stream, call by call, and those
that it gets from the whole byte sequence.
-/
import Gobo.UnicodeCharacterBuffer
import Gobo.Utf8RoundTrip

namespace Gobo

open List Utf8Routines

/-- How many bytes a first byte announces. -/
def sequenceLength (byte1 : UInt8) : Nat :=
  if isEncodedFirstByte byte1 then encodedByteCount byte1 else 1

/-- The byte sequence that starts before `n` and ends after it, if there is one. -/
def straddling : List UInt8 → Nat → Option (List UInt8)
  | [], _ => none
  | byte1 :: rest, n =>
      if n = 0 then none
      else if sequenceLength byte1 ≤ n then
        straddling (rest.drop (sequenceLength byte1 - 1)) (n - sequenceLength byte1)
      else some (byte1 :: rest.take (sequenceLength byte1 - 1))
termination_by s => s.length
decreasing_by
  rw [length_drop, length_cons]
  omega

namespace UnicodeCharacterBuffer

/-- The character that a byte sequence encodes, or the one in place of an invalid
sequence. -/
def sequenceCharacter (b : UnicodeCharacterBuffer) : List UInt8 → Nat
  | [byte1] =>
      if isEncodedFirstByte byte1 ∧ encodedByteCount byte1 = 1 then byte1.toNat
      else b.invalidUnicodeCharacter
  | [byte1, byte2] =>
      if isEncodedFirstByte byte1 ∧ encodedByteCount byte1 = 2 then b.twoByteCharacter byte1 byte2
      else b.invalidUnicodeCharacter
  | [byte1, byte2, byte3] =>
      if isEncodedFirstByte byte1 ∧ encodedByteCount byte1 = 3 then
        b.threeByteCharacter byte1 byte2 byte3
      else b.invalidUnicodeCharacter
  | [byte1, byte2, byte3, byte4] =>
      if isEncodedFirstByte byte1 ∧ encodedByteCount byte1 = 4 then
        b.fourByteCharacter byte1 byte2 byte3 byte4
      else b.invalidUnicodeCharacter
  | _ => b.invalidUnicodeCharacter

/-- The characters of a byte sequence, each invalid part replaced. -/
def characters (b : UnicodeCharacterBuffer) : List UInt8 → List Nat
  | [] => []
  | byte1 :: rest =>
      b.sequenceCharacter (byte1 :: rest.take (sequenceLength byte1 - 1)) ::
        b.characters (rest.drop (sequenceLength byte1 - 1))
termination_by s => s.length
decreasing_by
  rw [length_drop, length_cons]
  omega

/-- One of the calls that read a stream: the stream before it, the capacity, and what
the call stores. -/
structure Fill where
  stream : InputStream
  nb : Nat
  stored : List Nat

/-- The byte sequence that the end of the first read of a call cuts, if there is one. -/
def Fill.cut (f : Fill) : Option (List UInt8) :=
  straddling f.stream.rest (f.stream.next f.nb).length

/-- Successive calls, each with its position and capacity, until the end of input. -/
def fillAll (b : UnicodeCharacterBuffer) (stream : InputStream) :
    List (Nat × Nat) → Option (List Fill × InputStream)
  | [] => some ([], stream)
  | (pos, nb) :: calls =>
      if stream.endOfInput then some ([], stream)
      else do
        let (n, b, stream') ← b.fillFromUtf8Stream stream pos nb
        let (fills, last) ← b.fillAll stream' calls
        return (⟨stream, nb, b.unicodeSubstring pos (pos + n - 1)⟩ :: fills, last)

/-- What `fill_from_utf8_string` stores. -/
def storedFromString (b : UnicodeCharacterBuffer) (s : List UInt8) (pos : Nat) :
    Option (List Nat) :=
  (b.fillFromUtf8String s pos).map fun r => r.2.unicodeSubstring pos (pos + r.1 - 1)

section

variable {b : UnicodeCharacterBuffer} {s : List UInt8} {byte1 : UInt8} {rest : List UInt8}

theorem sequenceLength_cases (byte1 : UInt8) :
    isEncodedFirstByte byte1 = false ∧ sequenceLength byte1 = 1 ∨
      isEncodedFirstByte byte1 = true ∧ sequenceLength byte1 = encodedByteCount byte1 ∧
        (encodedByteCount byte1 = 1 ∨ encodedByteCount byte1 = 2 ∨ encodedByteCount byte1 = 3 ∨
          encodedByteCount byte1 = 4) := by
  have hcases := encodedByteCount_cases byte1
  rcases Bool.eq_false_or_eq_true (isEncodedFirstByte byte1) with hfirst | hfirst
  · refine Or.inr ⟨hfirst, if_pos hfirst, ?_⟩
    omega
  · exact Or.inl ⟨hfirst, if_neg (by simp [hfirst])⟩

theorem sequenceLength_pos (byte1 : UInt8) : 0 < sequenceLength byte1 := by
  rcases sequenceLength_cases byte1 with ⟨-, h⟩ | ⟨-, h, hcount⟩ <;> omega

theorem characters_cons : b.characters (byte1 :: rest) =
    b.sequenceCharacter ((byte1 :: rest).take (sequenceLength byte1)) ::
      b.characters ((byte1 :: rest).drop (sequenceLength byte1)) := by
  obtain ⟨n, hn⟩ := Nat.exists_eq_add_of_lt (sequenceLength_pos byte1)
  rw [Nat.zero_add] at hn
  rw [characters, hn]
  rfl

theorem straddling_of_le {n : Nat} (h : sequenceLength byte1 ≤ n) :
    straddling (byte1 :: rest) n =
      straddling ((byte1 :: rest).drop (sequenceLength byte1)) (n - sequenceLength byte1) := by
  have hpos := sequenceLength_pos byte1
  obtain ⟨m, hm⟩ := Nat.exists_eq_add_of_lt hpos
  rw [Nat.zero_add] at hm
  rw [straddling, if_neg (by omega), if_pos h, hm]
  rfl

theorem straddling_of_lt {n : Nat} (hn : 0 < n) (h : n < sequenceLength byte1) :
    straddling (byte1 :: rest) n = some ((byte1 :: rest).take (sequenceLength byte1)) := by
  obtain ⟨m, hm⟩ := Nat.exists_eq_add_of_lt (sequenceLength_pos byte1)
  rw [Nat.zero_add] at hm
  rw [straddling, if_neg (by omega), if_neg (by omega), hm]
  rfl

theorem straddling_zero (s : List UInt8) : straddling s 0 = none := by
  cases s with
  | nil => rw [straddling]
  | cons byte1 rest => rw [straddling, if_pos rfl]

/-- The bytes from the index `i` to `nb` of an area are `bytes`. -/
structure Window (area : List UInt8) (i : Nat) (nb : Int) (bytes : List UInt8) : Prop where
  last : nb + 1 = i + bytes.length
  item : ∀ (k : Nat) (c : UInt8), bytes[k]? = some c → area[i + k]? = some c

theorem Window.drop {area : List UInt8} {i n : Nat} {nb : Int} {bytes : List UInt8}
    (h : Window area i nb bytes) (hn : n ≤ bytes.length) :
      Window area (i + n) nb (bytes.drop n) := by
  have hlast := h.last
  refine ⟨?_, fun k c hc => ?_⟩
  · rw [length_drop]
    omega
  · rw [getElem?_drop] at hc
    rw [Nat.add_assoc]
    exact h.item (n + k) c hc

theorem stringCharacter_eq {area : List UInt8} {i nb : Nat}
    (h : Window area i nb (byte1 :: rest)) :
    b.stringCharacter area nb i =
      some (b.sequenceCharacter ((byte1 :: rest).take (sequenceLength byte1)),
        sequenceLength byte1) := by
  have hlast := h.last
  have hfirst : area[i]? = some byte1 := h.item 0 byte1 rfl
  rw [length_cons] at hlast
  rw [stringCharacter, hfirst, some_bind]
  rcases sequenceLength_cases byte1 with ⟨hbyte, hlength⟩ | ⟨hbyte, hlength, hcount⟩
  · simp [hbyte, hlength, sequenceCharacter]
  rcases hcount with hcount | hcount | hcount | hcount
  · simp [hbyte, hlength, hcount, sequenceCharacter]
  · cases rest with
    | nil =>
        have hlt : nb < i + 1 := by simp only [length_nil] at hlast; omega
        simp [hbyte, hlength, hcount, hlt, sequenceCharacter]
    | cons byte2 rest =>
        have hge : ¬nb < i + 1 := by simp only [length_cons] at hlast; omega
        have hsecond : area[i + 1]? = some byte2 := h.item 1 byte2 rfl
        simp [hbyte, hlength, hcount, hge, hsecond, sequenceCharacter]
  · match rest, hlast, h with
    | [], hlast, _ =>
        have hlt : nb < i + 2 := by simp only [length_nil] at hlast; omega
        simp [hbyte, hlength, hcount, hlt, sequenceCharacter]
    | [byte2], hlast, _ =>
        have hlt : nb < i + 2 := by simp only [length_cons, length_nil] at hlast; omega
        simp [hbyte, hlength, hcount, hlt, sequenceCharacter]
    | byte2 :: byte3 :: rest, hlast, h =>
        have hge : ¬nb < i + 2 := by simp only [length_cons] at hlast; omega
        have hsecond : area[i + 1]? = some byte2 := h.item 1 byte2 rfl
        have hthird : area[i + 2]? = some byte3 := h.item 2 byte3 rfl
        simp [hbyte, hlength, hcount, hge, hsecond, hthird, sequenceCharacter]
  · match rest, hlast, h with
    | [], hlast, _ =>
        have hlt : nb < i + 3 := by simp only [length_nil] at hlast; omega
        simp [hbyte, hlength, hcount, hlt, sequenceCharacter]
    | [byte2], hlast, _ =>
        have hlt : nb < i + 3 := by simp only [length_cons, length_nil] at hlast; omega
        simp [hbyte, hlength, hcount, hlt, sequenceCharacter]
    | [byte2, byte3], hlast, _ =>
        have hlt : nb < i + 3 := by simp only [length_cons, length_nil] at hlast; omega
        simp [hbyte, hlength, hcount, hlt, sequenceCharacter]
    | byte2 :: byte3 :: byte4 :: rest, hlast, h =>
        have hge : ¬nb < i + 3 := by simp only [length_cons] at hlast; omega
        have hsecond : area[i + 1]? = some byte2 := h.item 1 byte2 rfl
        have hthird : area[i + 2]? = some byte3 := h.item 2 byte3 rfl
        have hfourth : area[i + 3]? = some byte4 := h.item 3 byte4 rfl
        simp [hbyte, hlength, hcount, hge, hsecond, hthird, hfourth, sequenceCharacter]

/-- A character whose bytes are all there. -/
theorem streamCharacter_eq {f : Bytes} (h : Window f.area f.i f.nbUtf8 (byte1 :: rest))
    (hthere : sequenceLength byte1 ≤ (byte1 :: rest).length) :
    b.streamCharacter f =
      some (b.sequenceCharacter ((byte1 :: rest).take (sequenceLength byte1)),
        sequenceLength byte1, f) := by
  have hlast := h.last
  have hfirst : f.area[f.i]? = some byte1 := h.item 0 byte1 rfl
  rw [length_cons] at hlast hthere
  rw [streamCharacter, hfirst, some_bind]
  rcases sequenceLength_cases byte1 with ⟨hbyte, hlength⟩ | ⟨hbyte, hlength, hcount⟩
  · simp [hbyte, hlength, sequenceCharacter]
  rw [hlength] at hthere
  rcases hcount with hcount | hcount | hcount | hcount
  · simp [hbyte, hlength, hcount, sequenceCharacter]
  · obtain ⟨byte2, rest, rfl⟩ := exists_cons_of_length_pos (by omega : 0 < rest.length)
    rw [length_cons] at hlast
    have hle : (f.i : Int) + 1 ≤ f.nbUtf8 := by omega
    have hsecond : f.area[f.i + 1]? = some byte2 := h.item 1 byte2 rfl
    simp [hbyte, hlength, hcount, hle, hsecond, sequenceCharacter]
  · match rest, hlast, hthere, h with
    | [], _, hthere, _ => exact absurd hthere (by simp [hcount])
    | [byte2], _, hthere, _ => exact absurd hthere (by simp [hcount])
    | byte2 :: byte3 :: rest, hlast, _, h =>
        have hle : (f.i : Int) + 2 ≤ f.nbUtf8 := by simp only [length_cons] at hlast; omega
        have hsecond : f.area[f.i + 1]? = some byte2 := h.item 1 byte2 rfl
        have hthird : f.area[f.i + 2]? = some byte3 := h.item 2 byte3 rfl
        simp [hbyte, hlength, hcount, hle, hsecond, hthird, sequenceCharacter]
  · match rest, hlast, hthere, h with
    | [], _, hthere, _ => exact absurd hthere (by simp [hcount])
    | [byte2], _, hthere, _ => exact absurd hthere (by simp [hcount])
    | [byte2, byte3], _, hthere, _ => exact absurd hthere (by simp [hcount])
    | byte2 :: byte3 :: byte4 :: rest, hlast, _, h =>
        have hle : (f.i : Int) + 3 ≤ f.nbUtf8 := by simp only [length_cons] at hlast; omega
        have hsecond : f.area[f.i + 1]? = some byte2 := h.item 1 byte2 rfl
        have hthird : f.area[f.i + 2]? = some byte3 := h.item 2 byte3 rfl
        have hfourth : f.area[f.i + 3]? = some byte4 := h.item 3 byte4 rfl
        simp [hbyte, hlength, hcount, hle, hsecond, hthird, hfourth, sequenceCharacter]

theorem exists_readToString {area : List UInt8} {stream : InputStream} {nb : Nat}
    (hgo : stream.endOfInput = false) (hnb : 0 < nb) (hroom : nb ≤ area.length) :
    ∃ area', readToString area stream nb =
        some ((stream.next nb).length, area', stream.afterRead nb) ∧
      area'.length = area.length ∧
      ∀ k < (stream.next nb).length, area'[k]? = (stream.next nb)[k]? := by
  have hle : (stream.next nb).length ≤ nb := stream.length_next_le
  refine ⟨stream.next nb ++ area.drop (stream.next nb).length, ?_, ?_, fun k hk => ?_⟩
  · rw [readToString, if_pos ⟨hgo, by omega, by omega⟩, Int.toNat_natCast]
  · rw [length_append, length_drop]
    omega
  · exact getElem?_append_left hk

/-- What is left of a stream after a read. -/
theorem rest_afterRead (stream : InputStream) (nb : Nat) :
    (stream.afterRead nb).rest = stream.rest.drop (stream.next nb).length := rfl

/-- The loop that reads missing bytes takes them from the stream, but for those
that it does not have. -/
theorem exists_missingLoop {fuel nb1 : Nat} {f : Bytes} (hends : f.stream.Ends)
    (hroom : nb1 ≤ f.area.length) (hfuel : nb1 < fuel) :
    ∃ m, loopUntil missingStops missingTurn fuel ⟨f, nb1⟩ = some m ∧ m.bytes.i = f.i ∧
      m.bytes.nbUtf8 ≤ f.nbUtf8 + nb1 ∧
      m.bytes.stream.Ends ∧ m.bytes.stream.rest = f.stream.rest.drop nb1 := by
  induction fuel generalizing nb1 f with
  | zero => omega
  | succ fuel ih =>
      by_cases hzero : nb1 = 0
      · subst hzero
        have hle : f.nbUtf8 ≤ f.nbUtf8 + (0 : Nat) := by omega
        exact ⟨⟨f, 0⟩, loopUntil_of_stop rfl, rfl, hle, hends, rfl⟩
      rcases Bool.eq_false_or_eq_true f.stream.endOfInput with hend | hgo
      · have hle : f.nbUtf8 ≤ f.nbUtf8 + nb1 := by omega
        refine ⟨⟨f, nb1⟩, loopUntil_of_stop ?_, rfl, hle, hends, ?_⟩
        · rw [missingStops, hend, Bool.or_true]
        · change f.stream.rest = f.stream.rest.drop nb1
          rw [hends hend, drop_nil]
      · obtain ⟨area, hread, hlength, -⟩ := exists_readToString hgo (Nat.pos_of_ne_zero hzero) hroom
        have hle : (f.stream.next nb1).length ≤ nb1 := f.stream.length_next_le
        have hgoes : missingStops ⟨f, nb1⟩ = some false := by
          have hpos : ¬(nb1 : Int) ≤ 0 := by omega
          rw [missingStops, decide_eq_false hpos, hgo]
          rfl
        have hsub : (nb1 : Int) - (f.stream.next nb1).length =
            ((nb1 - (f.stream.next nb1).length : Nat) : Int) := by omega
        have hbody : missingTurn ⟨f, nb1⟩ = some
            ⟨{ f with area, stream := f.stream.afterRead nb1,
                      nbUtf8 := f.nbUtf8 + (f.stream.next nb1).length },
              (nb1 - (f.stream.next nb1).length : Nat)⟩ := by
          rw [missingTurn, hread, some_bind, ← hsub]
          rfl
        rcases Nat.eq_zero_or_pos (f.stream.next nb1).length with hnone | hsome
        · obtain ⟨hrest, hend⟩ := f.stream.of_next_eq_nil (Nat.pos_of_ne_zero hzero)
            (length_eq_zero_iff.mp hnone)
          obtain ⟨fuel, rfl⟩ : ∃ n, fuel = n + 1 := ⟨fuel - 1, by omega⟩
          refine ⟨_, (loopUntil_of_go hgoes hbody).trans (loopUntil_of_stop ?_), rfl, ?_,
            f.stream.ends_afterRead, ?_⟩
          · rw [missingStops, hend, Bool.or_true]
          · change f.nbUtf8 + (f.stream.next nb1).length ≤ f.nbUtf8 + nb1
            omega
          · rw [rest_afterRead, hrest, drop_nil, drop_nil]
        · obtain ⟨m, hrun, hi, hnb, hm, hrest⟩ :=
            @ih (nb1 - (f.stream.next nb1).length)
              { f with area, stream := f.stream.afterRead nb1,
                       nbUtf8 := f.nbUtf8 + (f.stream.next nb1).length }
              f.stream.ends_afterRead (by change _ ≤ area.length; omega) (by omega)
          refine ⟨m, (loopUntil_of_go hgoes hbody).trans hrun, hi, ?_, hm, ?_⟩
          · change _ ≤ f.nbUtf8 + (f.stream.next nb1).length + _ at hnb
            omega
          · rw [hrest, rest_afterRead, drop_drop]
            congr 1
            omega

theorem length_resizeArea {area : List UInt8} {n : Nat} (h : area.length < n) :
    (resizeArea area n).length = n := by
  rw [resizeArea, length_append, length_replicate]
  omega

/-- What was read of a cut character is never enough for the indexes that follow. -/
theorem Window.exists_readMissing {f : Bytes} {k : Nat}
    (h : Window f.area f.i f.nbUtf8 (byte1 :: rest)) (harea : f.i + rest.length < f.area.length)
    (hk : rest.length < k) (hends : f.stream.Ends) :
    ∃ f', readMissing f k = some f' ∧ f'.i = 0 ∧ f'.nbUtf8 < k ∧ f'.stream.Ends ∧
      f'.stream.rest = f.stream.rest.drop (k - rest.length) := by
  have hlast := h.last
  rw [length_cons] at hlast
  have hnb1 : f.nbUtf8 - f.i = (rest.length : Int) := by omega
  obtain ⟨area, hmove⟩ : ∃ area, (if (0 : Int) < rest.length then
      moveToFront f.area (f.i + 1) (rest.length : Int).toNat else some f.area) = some area := by
    split
    · exact ⟨_, if_pos (by omega)⟩
    · exact ⟨_, rfl⟩
  have hmissing : (k : Int) - rest.length = ((k - rest.length : Nat) : Int) := by omega
  have hroom : k - rest.length ≤ (if (area.length : Int) < ((k - rest.length : Nat) : Int) then
      resizeArea area ((k - rest.length : Nat) : Int).toNat else area).length := by
    split
    · exact Nat.le_of_eq (length_resizeArea (by omega)).symm
    · omega
  obtain ⟨m, hrun, hi, hnb, hm, hrest⟩ := exists_missingLoop (f := { f with
      area := if (area.length : Int) < ((k - rest.length : Nat) : Int) then
        resizeArea area ((k - rest.length : Nat) : Int).toNat else area,
      i := 0, nbUtf8 := rest.length - 1 }) hends hroom (by omega : k - rest.length < k + 1)
  refine ⟨m.bytes, ?_, hi, ?_, hm, hrest⟩
  · rw [readMissing, hnb1, hmove, some_bind, hmissing]
    exact bind_of_some hrun rfl
  · change m.bytes.nbUtf8 ≤ (rest.length : Int) - 1 + _ at hnb
    omega

/-- The byte that is read is at the index 0, not at 1. -/
theorem exists_readSecond {f : Bytes} (hends : f.stream.Ends) (hnb : f.nbUtf8 = f.i) :
    ∃ f', readSecond f = some (invalidByte, f') ∧ f'.nbUtf8 < (f'.i + 2 : Nat) ∧
      f'.stream.Ends ∧ f'.stream.rest = f.stream.rest.drop 1 := by
  rcases Bool.eq_false_or_eq_true f.stream.endOfInput with hend | hgo
  · refine ⟨f, if_neg (by simp [hend]), by omega, hends, ?_⟩
    rw [hends hend, drop_nil]
  · have hroom : 1 ≤ (if f.area.length < 1 then resizeArea f.area 1 else f.area).length := by
      split
      · exact Nat.le_of_eq (length_resizeArea (by omega)).symm
      · omega
    obtain ⟨area, hread, -, -⟩ := exists_readToString hgo Nat.one_pos hroom
    have hle : (f.stream.next 1).length ≤ 1 := f.stream.length_next_le
    have hnone : ¬((0 : Nat) : Int) + 1 ≤ (f.stream.next 1).length - 1 := by omega
    refine ⟨⟨area, f.stream.afterRead 1, 0, (f.stream.next 1).length - 1⟩, ?_, ?_,
      f.stream.ends_afterRead, ?_⟩
    · rw [readSecond, if_pos hgo]
      refine bind_of_some hread (if_neg hnone)
    · change ((f.stream.next 1).length : Int) - 1 < ((0 + 2 : Nat) : Int)
      omega
    · rw [rest_afterRead]
      rcases Nat.eq_zero_or_pos (f.stream.next 1).length with hzero | hpos
      · obtain ⟨hrest, -⟩ := f.stream.of_next_eq_nil Nat.one_pos (length_eq_zero_iff.mp hzero)
        rw [hrest, drop_nil, drop_nil]
      · rw [(by omega : (f.stream.next 1).length = 1)]

theorem isEncodedSecondByte_invalidByte (byte1 : UInt8) :
    isEncodedSecondByte invalidByte byte1 = false := by
  unfold isEncodedSecondByte
  split_ifs <;> rfl

/-- A character that the end of a read cuts is never delivered. -/
theorem exists_streamCharacter_cut {f : Bytes}
    (h : Window f.area f.i f.nbUtf8 (byte1 :: rest)) (harea : f.i + rest.length < f.area.length)
    (hcut : (byte1 :: rest).length < sequenceLength byte1) (hends : f.stream.Ends) :
    ∃ f', b.streamCharacter f = some (b.invalidUnicodeCharacter, sequenceLength byte1, f') ∧
      f'.nbUtf8 < (f'.i + sequenceLength byte1 : Nat) ∧ f'.stream.Ends ∧
      f'.stream.rest = f.stream.rest.drop (sequenceLength byte1 - (byte1 :: rest).length) := by
  have hlast := h.last
  have hfirst : f.area[f.i]? = some byte1 := h.item 0 byte1 rfl
  have hsecond := isEncodedSecondByte_invalidByte byte1
  rw [length_cons] at hlast hcut
  rw [streamCharacter, hfirst, some_bind]
  rcases sequenceLength_cases byte1 with ⟨hbyte, hlength⟩ | ⟨hbyte, hlength, hcount⟩
  · exact absurd hcut (by omega)
  rcases hcount with hcount | hcount | hcount | hcount
  · exact absurd hcut (by omega)
  · have hzero : rest.length = 0 := by omega
    have hgt : ¬(f.i : Int) + 1 ≤ f.nbUtf8 := by omega
    obtain ⟨f', hread, hnb, hf', hrest⟩ := exists_readSecond hends (by omega : f.nbUtf8 = f.i)
    refine ⟨f', ?_, by rw [hlength, hcount]; exact hnb, hf', ?_⟩
    · simp [hbyte, hlength, hcount, hgt, hread, twoByteCharacter, hsecond]
    · rw [hrest, hlength, hcount, length_cons, hzero]
  · have hgt : ¬(f.i : Int) + 2 ≤ f.nbUtf8 := by omega
    obtain ⟨f', hread, hi, hnb, hf', hrest⟩ :=
      h.exists_readMissing harea (by omega : rest.length < 2) hends
    have hgt' : ¬(f'.i : Int) + 2 ≤ f'.nbUtf8 := by omega
    refine ⟨f', ?_, by omega, hf', ?_⟩
    · simp [hbyte, hlength, hcount, hgt, hread, hgt', threeByteCharacter, hsecond]
    · rw [hrest, hlength, hcount, length_cons]
      congr 1
      omega
  · have hgt : ¬(f.i : Int) + 3 ≤ f.nbUtf8 := by omega
    obtain ⟨f', hread, hi, hnb, hf', hrest⟩ :=
      h.exists_readMissing harea (by omega : rest.length < 3) hends
    have hgt' : ¬(f'.i : Int) + 3 ≤ f'.nbUtf8 := by omega
    refine ⟨f', ?_, by omega, hf', ?_⟩
    · simp [hbyte, hlength, hcount, hgt, hread, hgt', fourByteCharacter, hsecond]
    · rw [hrest, hlength, hcount, length_cons]
      congr 1
      omega

/-- The characters from the position `pos` on are `cs`. -/
structure Stored (unicodeArea : List Nat) (total pos : Nat) (cs : List Nat) : Prop where
  total : unicodeArea.length = total
  take_eq : (unicodeArea.drop pos).take cs.length = cs

theorem Stored.exists_put {unicodeArea : List Nat} {total pos : Nat} {cs : List Nat}
    (h : Stored unicodeArea total pos cs) (hroom : pos + cs.length < total) (c : Nat) :
    ∃ unicodeArea', putCharacter unicodeArea c (pos + 1 + cs.length) = some unicodeArea' ∧
      Stored unicodeArea' total pos (cs ++ [c]) := by
  have htotal := h.total
  refine ⟨unicodeArea.set (pos + cs.length) c, ?_, ?_, ?_⟩
  · rw [putCharacter, if_pos (by omega), (by omega : pos + 1 + cs.length - 1 = pos + cs.length)]
  · rw [length_set]
    exact htotal
  · have hlt : cs.length < (unicodeArea.drop pos).length := by
      rw [length_drop]
      omega
    rw [length_append, length_singleton, ← set_drop, take_add_one,
      take_set_of_le (Nat.le_refl _), h.take_eq, getElem?_set_self hlt]
    rfl

theorem Stored.unicodeSubstring_eq {total pos : Nat} {cs : List Nat} (hpos : 1 ≤ pos)
    (h : Stored b.unicodeArea total pos cs) :
    b.unicodeSubstring pos (pos + cs.length - 1) = cs := by
  rw [unicodeSubstring]
  rcases Nat.eq_zero_or_pos cs.length with hzero | hlength
  · rw [if_pos (by omega), length_eq_zero_iff.mp hzero]
  · rw [if_neg (by omega), (by omega : pos + cs.length - 1 + 1 - pos = cs.length), h.take_eq]

/-- What is stored of the bytes `s`, of which `n` are read at first: whole characters,
and a cut one as invalid. -/
def Delivers (b : UnicodeCharacterBuffer) (s : List UInt8) (n : Nat) (cs : List Nat)
    (after : List UInt8) : Prop :=
  ∃ whole, cs = whole ++ (straddling s n).toList.map (fun _ => b.invalidUnicodeCharacter) ∧
    b.characters s = whole ++ (straddling s n).toList.map b.sequenceCharacter ++
      b.characters after

theorem streamTurn_eq {f : StreamFill} {bytes : Bytes} {unicodeArea : List Nat} {c n : Nat}
    (hchar : b.streamCharacter f.bytes = some (c, n, bytes))
    (hput : putCharacter f.unicodeArea c f.j = some unicodeArea) :
    b.streamTurn f = some ⟨unicodeArea, { bytes with i := bytes.i + n }, f.j + 1⟩ := by
  rw [streamTurn, hchar, some_bind]
  exact bind_of_some hput rfl

theorem exists_streamLoop {fuel total pos : Nat} {f : StreamFill} {bytes : List UInt8}
    {front : List Nat} (h : Window f.bytes.area f.bytes.i f.bytes.nbUtf8 bytes)
    (harea : f.bytes.i + bytes.length ≤ f.bytes.area.length) (hends : f.bytes.stream.Ends)
    (hstored : Stored f.unicodeArea total pos front) (hj : f.j = pos + 1 + front.length)
    (hroom : pos + front.length + bytes.length ≤ total) (hfuel : bytes.length < fuel) :
    ∃ f' more, loopUntil streamStops b.streamTurn fuel f = some f' ∧
      Stored f'.unicodeArea total pos (front ++ more) ∧ f'.j = pos + 1 + (front ++ more).length ∧
      more.length ≤ bytes.length ∧ f'.bytes.stream.Ends ∧
      b.Delivers (bytes ++ f.bytes.stream.rest) bytes.length more f'.bytes.stream.rest := by
  induction fuel generalizing f bytes front with
  | zero => omega
  | succ fuel ih =>
      have hlast := h.last
      cases bytes with
      | nil =>
          rw [length_nil] at hlast
          have hstop : f.bytes.nbUtf8 < f.bytes.i := by omega
          refine ⟨f, [], loopUntil_of_stop (congrArg some (decide_eq_true hstop)), ?_, ?_,
            Nat.le_refl 0, hends, [], ?_, ?_⟩
          · rw [append_nil]
            exact hstored
          · rw [append_nil]
            exact hj
          · rw [length_nil, straddling_zero]
            rfl
          · rw [length_nil, straddling_zero]
            rfl
      | cons byte1 rest =>
          have hgo : streamStops f = some false := by
            rw [length_cons] at hlast
            exact congrArg some (decide_eq_false (by omega))
          have hpos := sequenceLength_pos byte1
          rcases Nat.lt_or_ge (byte1 :: rest).length (sequenceLength byte1) with hcut | hthere
          · have hcutlt := hcut
            rw [length_cons] at hroom hfuel hcutlt harea
            obtain ⟨g, hturn, hnb, hg, hrest⟩ :=
                b.exists_streamCharacter_cut h (by omega) hcut hends
            obtain ⟨unicodeArea, hput, hstored'⟩ :=
                hstored.exists_put (by omega) b.invalidUnicodeCharacter
            obtain ⟨fuel, rfl⟩ : ∃ n, fuel = n + 1 := ⟨fuel - 1, by omega⟩
            have hbody := streamTurn_eq hturn (hj ▸ hput)
            refine ⟨_, [b.invalidUnicodeCharacter],
              (loopUntil_of_go hgo hbody).trans (loopUntil_of_stop ?_), hstored', ?_, ?_, hg,
              [], ?_⟩
            · exact congrArg some (decide_eq_true hnb)
            · rw [length_append, ← Nat.add_assoc, ← hj]
              rfl
            · rw [length_cons]
              exact Nat.succ_le_succ (Nat.zero_le _)
            · have hq : straddling (byte1 :: (rest ++ f.bytes.stream.rest)) (byte1 :: rest).length =
                  some ((byte1 :: (rest ++ f.bytes.stream.rest)).take (sequenceLength byte1)) :=
                straddling_of_lt (by rw [length_cons]; omega) hcut
              rw [cons_append, hq, characters_cons, hrest]
              refine ⟨rfl, ?_⟩
              rw [← cons_append, drop_append, drop_eq_nil_of_le (Nat.le_of_lt hcut)]
              rfl
          · obtain ⟨unicodeArea, hput, hstored'⟩ := hstored.exists_put
              (by rw [length_cons] at hroom; omega)
              (b.sequenceCharacter ((byte1 :: rest).take (sequenceLength byte1)))
            have hbody := streamTurn_eq (b.streamCharacter_eq h hthere) (hj ▸ hput)
            have hlength : ((byte1 :: rest).drop (sequenceLength byte1)).length =
                (byte1 :: rest).length - sequenceLength byte1 := length_drop
            obtain ⟨f', more, hrun, hstored'', hj', hmore, hends', whole, hcs, hchars⟩ :=
              @ih ⟨unicodeArea, { f.bytes with i := f.bytes.i + sequenceLength byte1 }, f.j + 1⟩
                ((byte1 :: rest).drop (sequenceLength byte1)) _ (h.drop hthere)
                (by change f.bytes.i + sequenceLength byte1 + _ ≤ f.bytes.area.length; omega) hends
                hstored' (by rw [length_append, ← Nat.add_assoc, ← hj]; rfl)
                (by rw [length_append, length_singleton]; omega) (by omega)
            have hq : straddling (byte1 :: (rest ++ f.bytes.stream.rest)) (byte1 :: rest).length =
                straddling ((byte1 :: (rest ++ f.bytes.stream.rest)).drop (sequenceLength byte1))
                  ((byte1 :: rest).length - sequenceLength byte1) := straddling_of_le hthere
            rw [← cons_append, drop_append_of_le_length hthere, ← hlength] at hq
            refine ⟨f', b.sequenceCharacter ((byte1 :: rest).take (sequenceLength byte1)) :: more,
              (loopUntil_of_go hgo hbody).trans hrun, ?_, ?_, ?_, hends',
              b.sequenceCharacter ((byte1 :: rest).take (sequenceLength byte1)) :: whole, ?_, ?_⟩
            · rw [append_cons]
              exact hstored''
            · rw [append_cons]
              exact hj'
            · rw [length_cons]
              omega
            · rw [hq, hcs]
              rfl
            · rw [hq, cons_append, characters_cons, ← cons_append,
                take_append_of_le_length hthere, drop_append_of_le_length hthere, hchars]
              rfl

theorem stringTurn_eq {nb : Nat} {f : StringFill} {unicodeArea : List Nat} {c n : Nat}
    (hchar : b.stringCharacter s nb f.i = some (c, n))
    (hput : putCharacter f.unicodeArea c f.j = some unicodeArea) :
    b.stringTurn s nb f = some ⟨unicodeArea, f.i + n, f.j + 1⟩ := by
  rw [stringTurn, hchar, some_bind]
  exact bind_of_some hput rfl

theorem exists_stringLoop {fuel total pos nb : Nat} {f : StringFill} {bytes : List UInt8}
    {front : List Nat} (h : Window s f.i nb bytes)
    (hstored : Stored f.unicodeArea total pos front) (hj : f.j = pos + 1 + front.length)
    (hroom : pos + front.length + bytes.length ≤ total) (hfuel : bytes.length < fuel) :
    ∃ f', loopUntil (stringStops nb) (b.stringTurn s nb) fuel f = some f' ∧
      Stored f'.unicodeArea total pos (front ++ b.characters bytes) ∧
      f'.j = pos + 1 + (front ++ b.characters bytes).length := by
  induction fuel generalizing f bytes front with
  | zero => omega
  | succ fuel ih =>
      have hlast := h.last
      cases bytes with
      | nil =>
          rw [length_nil] at hlast
          have hstop : nb < f.i := by omega
          rw [characters, append_nil]
          exact ⟨f, loopUntil_of_stop (congrArg some (decide_eq_true hstop)), hstored, hj⟩
      | cons byte1 rest =>
          have hpos := sequenceLength_pos byte1
          rw [length_cons] at hroom hfuel hlast
          have hgo : stringStops nb f = some false := congrArg some (decide_eq_false (by omega))
          obtain ⟨unicodeArea, hput, hstored'⟩ := hstored.exists_put (by omega)
            (b.sequenceCharacter ((byte1 :: rest).take (sequenceLength byte1)))
          have hbody := stringTurn_eq (b.stringCharacter_eq h) (hj ▸ hput)
          have hj' : f.j + 1 = pos + 1 + (front ++
              [b.sequenceCharacter ((byte1 :: rest).take (sequenceLength byte1))]).length := by
            rw [length_append, length_singleton, hj, Nat.add_assoc _ _ 1]
          rw [characters_cons, append_cons, loopUntil_of_go hgo hbody]
          rcases Nat.lt_or_ge (byte1 :: rest).length (sequenceLength byte1) with hcut | hthere
          · obtain ⟨fuel, rfl⟩ : ∃ n, fuel = n + 1 := ⟨fuel - 1, by omega⟩
            rw [drop_eq_nil_of_le (Nat.le_of_lt hcut), characters, append_nil]
            rw [length_cons] at hcut
            have hstop : nb < f.i + sequenceLength byte1 := by omega
            exact ⟨_, loopUntil_of_stop (congrArg some (decide_eq_true hstop)), hstored', hj'⟩
          · apply ih (h.drop hthere) hstored' hj'
            · rw [length_append, length_singleton, length_drop, length_cons]
              omega
            · rw [length_drop, length_cons]
              omega

theorem window_of_append {area bytes junk : List UInt8} (h : area = bytes ++ junk) :
    Window area 0 ((bytes.length : Int) - 1) bytes := by
  refine ⟨by omega, fun k c hc => ?_⟩
  rw [Nat.zero_add, h, List.getElem?_append_left (List.getElem?_eq_some_iff.mp hc).1, hc]

theorem stored_nil (b : UnicodeCharacterBuffer) (pos : Nat) :
    Stored b.unicodeArea b.unicodeArea.length pos [] :=
  ⟨rfl, rfl⟩

/-- A string call stores the characters of the byte sequence. -/
theorem storedFromString_eq {pos : Nat} (hpos : 1 ≤ pos) (hroom : pos + s.length ≤ b.count + 1) :
    b.storedFromString s pos = some (b.characters s) := by
  rcases Nat.eq_zero_or_pos s.length with hzero | hlength
  · rw [storedFromString, fillFromUtf8String, length_eq_zero_iff.mp hzero, if_neg (by simp),
      characters]
    exact congrArg some ((stored_nil b pos).unicodeSubstring_eq hpos)
  · have hcount : b.count = b.unicodeArea.length - 1 := rfl
    have hwindow : Window s 0 ((s.length - 1 : Nat) : Int) s := by
      have h := window_of_append (append_nil s).symm
      rwa [(by omega : (s.length : Int) - 1 = ((s.length - 1 : Nat) : Int))] at h
    obtain ⟨f, hrun, hstored, hj⟩ := b.exists_stringLoop (f := ⟨b.unicodeArea, 0, pos + 1⟩) hwindow
      (stored_nil b pos) rfl (by rw [length_nil]; omega) (Nat.lt_succ_self s.length)
    rw [nil_append] at hstored hj
    have hfill : b.fillFromUtf8String s pos =
        some ((b.characters s).length, { b with unicodeArea := f.unicodeArea }) := by
      rw [fillFromUtf8String, if_pos hlength]
      refine bind_of_some hrun ?_
      rw [hj, Nat.add_sub_cancel_left]
      rfl
    rw [storedFromString, hfill]
    have hb : Stored ({ b with unicodeArea := f.unicodeArea } : UnicodeCharacterBuffer).unicodeArea
      b.unicodeArea.length pos (b.characters s) := hstored
    exact congrArg some (hb.unicodeSubstring_eq hpos)

/-- A stream call stores at most `nb` characters, of the bytes that it takes. -/
theorem exists_fillFromUtf8Stream {stream : InputStream} {pos nb : Nat}
    (hgo : stream.endOfInput = false) (hpos : 1 ≤ pos) (hnb : 0 < nb)
    (hroom : pos + nb ≤ b.count + 1) :
    ∃ b' stream' cs, b.fillFromUtf8Stream stream pos nb = some (cs.length, b', stream') ∧
      b'.unicodeSubstring pos (pos + cs.length - 1) = cs ∧ cs.length ≤ nb ∧
      b'.count = b.count ∧ b'.invalidUnicodeCharacter = b.invalidUnicodeCharacter ∧
      stream'.Ends ∧ b.Delivers stream.rest (stream.next nb).length cs stream'.rest := by
  have hcount : b.count = b.unicodeArea.length - 1 := rfl
  have harea : nb ≤ (b.workArea nb).length := by
    unfold workArea
    split
    · rw [List.length_replicate]
      omega
    · split
      · rw [length_resizeArea (by omega)]
        omega
      · omega
  obtain ⟨area', hread, hlength, hitem⟩ := exists_readToString hgo hnb harea
  have hnext : (stream.next nb).length ≤ nb := stream.length_next_le
  have hwindow : Window area' 0 (((stream.next nb).length : Int) - 1) (stream.next nb) := by
    refine ⟨by omega, fun k c hc => ?_⟩
    rw [Nat.zero_add, hitem k (List.getElem?_eq_some_iff.mp hc).1, hc]
  obtain ⟨f, cs, hrun, hstored, hj, hcs, hends', hdelivers⟩ := b.exists_streamLoop
    (f := ⟨b.unicodeArea, ⟨area', stream.afterRead nb, 0, (stream.next nb).length - 1⟩, pos + 1⟩)
    hwindow (by change 0 + _ ≤ area'.length; omega) stream.ends_afterRead (stored_nil b pos) rfl
    (by rw [List.length_nil]; omega) (Nat.lt_succ_of_le hnext)
  rw [List.nil_append] at hstored hj
  rw [stream.next_append_rest] at hdelivers
  refine ⟨{ b with unicodeArea := f.unicodeArea, area := some f.bytes.area }, f.bytes.stream, cs,
    ?_, ?_, Nat.le_trans hcs hnext, ?_, rfl, hends', hdelivers⟩
  · rw [fillFromUtf8Stream, hread, some_bind]
    refine bind_of_some hrun ?_
    rw [hj, Nat.add_sub_cancel_left]
    rfl
  · exact Stored.unicodeSubstring_eq hpos hstored
  · exact congrArg (fun n => n - 1) hstored.total

theorem sequenceCharacter_congr {b' : UnicodeCharacterBuffer}
    (h : b'.invalidUnicodeCharacter = b.invalidUnicodeCharacter) (q : List UInt8) :
    b'.sequenceCharacter q = b.sequenceCharacter q := by
  unfold sequenceCharacter
  split <;> simp only [h, twoByteCharacter, threeByteCharacter, fourByteCharacter]

theorem characters_congr {b' : UnicodeCharacterBuffer}
    (h : b'.invalidUnicodeCharacter = b.invalidUnicodeCharacter) (s : List UInt8) :
    b'.characters s = b.characters s := by
  induction s using characters.induct with
  | case1 => rw [characters, characters]
  | case2 byte1 rest ih => rw [characters, characters, ih, sequenceCharacter_congr h]

/-- A call stores the characters of what it takes, unless it cuts a valid one. -/
theorem Delivers.eq_iff {n : Nat} {cs more : List Nat} {after : List UInt8}
    (h : b.Delivers s n cs after) :
    cs ++ more = b.characters s ↔
      (∀ q, straddling s n = some q → b.sequenceCharacter q = b.invalidUnicodeCharacter) ∧
        more = b.characters after := by
  obtain ⟨whole, rfl, hchars⟩ := h
  rw [hchars, append_assoc, append_assoc, append_cancel_left_eq]
  cases straddling s n with
  | none => simp
  | some q =>
      constructor
      · intro heq
        obtain ⟨hinvalid, hmore⟩ := cons.inj heq
        refine ⟨?_, hmore⟩
        rintro q' hq'
        obtain rfl := Option.some.inj hq'
        exact hinvalid.symm
      · rintro ⟨hinvalid, rfl⟩
        rw [Option.toList_some, map_singleton, map_singleton, hinvalid q rfl]

/-- Over successive calls. -/
theorem exists_fillAll {stream : InputStream} {calls : List (Nat × Nat)} (hends : stream.Ends)
    (hcalls : ∀ c ∈ calls, 1 ≤ c.1 ∧ 0 < c.2 ∧ c.1 + c.2 ≤ b.count + 1) :
    ∃ fills last, b.fillAll stream calls = some (fills, last) ∧
      (∀ f ∈ fills, f.stored.length ≤ f.nb) ∧
      (fills.flatMap Fill.stored ++ b.characters last.rest = b.characters stream.rest ↔
        ∀ f ∈ fills, ∀ q, f.cut = some q → b.sequenceCharacter q = b.invalidUnicodeCharacter) := by
  induction calls generalizing b stream with
  | nil => exact ⟨[], stream, rfl, by simp, by simp⟩
  | cons call calls ih =>
      obtain ⟨pos, nb⟩ := call
      rcases Bool.eq_false_or_eq_true stream.endOfInput with hend | hgo
      · exact ⟨[], stream, if_pos hend, by simp, by simp⟩
      · obtain ⟨hpos, hnb, hroom⟩ := hcalls (pos, nb) mem_cons_self
        obtain ⟨b', stream', cs, hfill, hsubstring, hlength, hcount, hinvalid, hends', hdelivers⟩ :=
          b.exists_fillFromUtf8Stream hgo hpos hnb hroom
        obtain ⟨fills, last, hrun, hall, hiff⟩ := @ih b' stream' hends' fun c hc => by
          rw [hcount]
          exact hcalls c (mem_cons_of_mem _ hc)
        refine ⟨⟨stream, nb, cs⟩ :: fills, last, ?_, ?_, ?_⟩
        · rw [fillAll, if_neg (by simp [hgo]), hfill, Option.bind_eq_bind, Option.bind_some]
          refine bind_of_some hrun ?_
          rw [hsubstring]
          rfl
        · exact forall_mem_cons.mpr ⟨hlength, hall⟩
        · rw [characters_congr hinvalid, characters_congr hinvalid] at hiff
          rw [flatMap_cons, append_assoc, hdelivers.eq_iff, hiff, forall_mem_cons]
          simp only [sequenceCharacter_congr hinvalid, hinvalid]
          exact Iff.rfl

end

/-- The bytes of one e with acute, of which each read delivers `n`. -/
def acuteStream (n : Nat) : InputStream :=
  ⟨[0xC3, 0xA9], false, 0, fun _ => ⟨n, false⟩⟩

end UnicodeCharacterBuffer

end Gobo
