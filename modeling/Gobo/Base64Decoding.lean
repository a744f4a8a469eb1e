/-
`UT_BASE64_DECODING_INPUT_STREAM` delivers what was encoded, however it is read.
-/
import Gobo.Base64Encoding

namespace Gobo

open Option List Text Base64

namespace Base64

theorem decodedCharacter_symbol :
    ∀ code < 64, decodedCharacter (symbol code) = code ∧ symbol code ≠ equalSign := by
  decide

theorem toCharacter_toNat (c : UInt8) : toCharacter c.toNat = some c := by
  rw [toCharacter, if_pos c.toNat_lt, UInt8.ofNat_toNat]

end Base64

namespace Base64DecodingInputStream

variable {s : Base64DecodingInputStream} {t : Quartet} {rest text content : List UInt8}
  {code : Nat} {a b c : UInt8}

/-- The stream after a character of its base stream was read. -/
def advance (s : Base64DecodingInputStream) (c : UInt8) (rest : List UInt8) :
    Base64DecodingInputStream :=
  { s with base := { s.base with rest := rest, lastCharacter := c } }

theorem readCharacter_base (hrest : s.base.rest = c :: rest) :
    s.base.readCharacter = { s.base with rest := rest, lastCharacter := c } := by
  unfold CharacterSource.readCharacter
  rw [hrest]

theorem readCharacter_nil (hrest : s.base.rest = []) :
    s.base.readCharacter = { s.base with endOfInput := true } := by
  unfold CharacterSource.readCharacter
  rw [hrest]
  dsimp only
  rw [hrest]

/-- A line break is not read as a code. -/
theorem readCode_newLine {i : Nat} (hrest : s.base.rest = newLine :: rest)
    (hend : s.base.endOfInput = false) :
    readCode ⟨s, i⟩ = some ⟨s.advance newLine rest, i⟩ := by
  have hgo : ¬s.base.endOfInput = true := Bool.not_eq_true _ ▸ hend
  unfold readCode
  rw [readCharacter_base hrest]
  dsimp only
  rw [if_neg hgo, if_neg (by decide), if_pos (by decide)]
  rfl

theorem readCode_symbol {i : Nat} (hrest : s.base.rest = symbol code :: rest) (hcode : code < 64)
    (hi : 1 ≤ i) (hi4 : i ≤ 4) (hend : s.base.endOfInput = false) :
    readCode ⟨s, i⟩ = some ⟨(s.advance (symbol code) rest).setCode i code, i + 1⟩ := by
  obtain ⟨hdecoded, hne⟩ := decodedCharacter_symbol code hcode
  have hindex : 1 ≤ i ∧ i ≤ s.codes.length := ⟨hi, s.codes_capacity ▸ hi4⟩
  have hgo : ¬s.base.endOfInput = true := Bool.not_eq_true _ ▸ hend
  unfold readCode
  rw [readCharacter_base hrest]
  rw [if_neg hgo, if_neg hne, hdecoded, if_neg (by omega), if_pos hindex, Int.toNat_natCast]
  rfl

/-- The padding was read, which has the decoded characters begin at `position`. -/
def pad (s : Base64DecodingInputStream) (position : Nat) : Base64DecodingInputStream :=
  { s with equalSignRead := true, tripletPosition := position }

theorem readCode_padding_two (hrest : s.base.rest = equalSign :: equalSign :: rest)
    (hend : s.base.endOfInput = false) :
    readCode ⟨s, 3⟩ = some ⟨(s.advance equalSign rest).pad 3, 5⟩ := by
  have hgo : ¬s.base.endOfInput = true := Bool.not_eq_true _ ▸ hend
  unfold readCode
  rw [readCharacter_base hrest]
  rw [if_neg hgo, if_pos rfl]
  rfl

theorem readCode_padding_one (hrest : s.base.rest = equalSign :: rest)
    (hend : s.base.endOfInput = false) :
    readCode ⟨s, 4⟩ = some ⟨(s.advance equalSign rest).pad 2, 5⟩ := by
  have hgo : ¬s.base.endOfInput = true := Bool.not_eq_true _ ▸ hend
  unfold readCode
  rw [readCharacter_base hrest]
  rw [if_neg hgo, if_pos rfl]
  rfl

/-- The stream after a read found no character. -/
def finish (s : Base64DecodingInputStream) : Base64DecodingInputStream :=
  { s with base := { s.base with endOfInput := true }, endOfInput := true }

theorem readCode_nil {i : Nat} (hrest : s.base.rest = []) :
    readCode ⟨s, i⟩ = some ⟨s.finish, 5⟩ := by
  unfold readCode
  rw [readCharacter_nil hrest]
  exact if_pos rfl

theorem putDecoded_eq {i : Nat} (hi : 1 ≤ i) (hi3 : i ≤ 3) (hcode : code = c.toNat) :
    s.putDecoded code i = some (s.setDecoded i c) := by
  unfold putDecoded
  rw [hcode, toCharacter_toNat, some_bind]
  exact if_pos ⟨hi, s.triplet_capacity ▸ hi3⟩

theorem shiftCodes_one (hcode1 : item s.codes 1 = some (a.toNat / 4))
    (hcode2 : item s.codes 2 = some (a.toNat % 4 * 16)) (hposition : s.tripletPosition = 3) :
    s.shiftCodes = some (s.setDecoded 3 a) := by
  have hput : s.putDecoded (a.toNat / 4 * 4 + a.toNat % 4 * 16 / 16) s.tripletPosition =
      some (s.setDecoded 3 a) := by
    rw [hposition]
    exact putDecoded_eq (by omega) (by omega) (by omega)
  have hlast : ¬(s.setDecoded 3 a).tripletPosition < 3 :=
    Nat.not_lt.mpr (Nat.le_of_eq hposition.symm)
  unfold shiftCodes
  rw [hcode1, some_bind, hcode2, some_bind, hput, some_bind, if_neg hlast]

theorem shiftCodes_two (hcode1 : item s.codes 1 = some (a.toNat / 4))
    (hcode2 : item s.codes 2 = some (a.toNat % 4 * 16 + b.toNat / 16))
    (hcode3 : item s.codes 3 = some (b.toNat % 16 * 4)) (hposition : s.tripletPosition = 2) :
    s.shiftCodes = some ((s.setDecoded 2 a).setDecoded 3 b) := by
  have hltb := b.toNat_lt
  have hput1 : s.putDecoded (a.toNat / 4 * 4 + (a.toNat % 4 * 16 + b.toNat / 16) / 16)
      s.tripletPosition = some (s.setDecoded 2 a) := by
    rw [hposition]
    exact putDecoded_eq (by omega) (by omega) (by omega)
  let s1 := s.setDecoded 2 a
  have hposition1 : s1.tripletPosition = 2 := hposition
  have hmore : s1.tripletPosition < 3 := hposition1 ▸ by decide
  have hitem : item s1.codes 3 = some (b.toNat % 16 * 4) := hcode3
  have hput2 : s1.putDecoded (((a.toNat % 4 * 16 + b.toNat / 16) * 16 + b.toNat % 16 * 4 / 4) % 256)
      (s1.tripletPosition + 1) = some (s1.setDecoded 3 b) := by
    rw [hposition1]
    exact putDecoded_eq (by omega) (by omega) (by omega)
  have hlast : (s1.setDecoded 3 b).tripletPosition ≠ 1 := by
    change s.tripletPosition ≠ 1
    omega
  unfold shiftCodes
  rw [hcode1, some_bind, hcode2, some_bind,
    hput1, some_bind, if_pos hmore, hitem, some_bind, hput2, some_bind,
    if_neg hlast]

/-- The codes of a quartet give its characters back. -/
theorem shiftCodes_three (hcode1 : item s.codes 1 = some (a.toNat / 4))
    (hcode2 : item s.codes 2 = some (a.toNat % 4 * 16 + b.toNat / 16))
    (hcode3 : item s.codes 3 = some (b.toNat % 16 * 4 + c.toNat / 64))
    (hcode4 : item s.codes 4 = some (c.toNat % 64)) (hposition : s.tripletPosition = 1) :
    s.shiftCodes = some (((s.setDecoded 1 a).setDecoded 2 b).setDecoded 3 c) := by
  have hltb := b.toNat_lt
  have hltc := c.toNat_lt
  have hput1 : s.putDecoded (a.toNat / 4 * 4 + (a.toNat % 4 * 16 + b.toNat / 16) / 16)
      s.tripletPosition = some (s.setDecoded 1 a) := by
    rw [hposition]
    exact putDecoded_eq (by omega) (by omega) (by omega)
  let s1 := s.setDecoded 1 a
  have hposition1 : s1.tripletPosition = 1 := hposition
  have hmore : s1.tripletPosition < 3 := hposition1 ▸ by decide
  have hitem3 : item s1.codes 3 = some (b.toNat % 16 * 4 + c.toNat / 64) := hcode3
  have hput2 : s1.putDecoded (((a.toNat % 4 * 16 + b.toNat / 16) * 16 +
      (b.toNat % 16 * 4 + c.toNat / 64) / 4) % 256) (s1.tripletPosition + 1) =
        some (s1.setDecoded 2 b) := by
    rw [hposition1]
    exact putDecoded_eq (by omega) (by omega) (by omega)
  let s2 := s1.setDecoded 2 b
  have hposition2 : s2.tripletPosition = 1 := hposition
  have hitem4 : item s2.codes 4 = some (c.toNat % 64) := hcode4
  have hput3 : s2.putDecoded (((b.toNat % 16 * 4 + c.toNat / 64) * 64 + c.toNat % 64) % 256) 3 =
      some (s2.setDecoded 3 c) := putDecoded_eq (by omega) (by omega) (by omega)
  unfold shiftCodes
  rw [hcode1, some_bind, hcode2, some_bind,
    hput1, some_bind, if_pos hmore, hitem3, some_bind, hput2, some_bind,
    if_pos hposition2, hitem4, some_bind, hput3]

/-- What is left to deliver: `held` is decoded, `more` still encoded. -/
structure Live (s : Base64DecodingInputStream) (held more : List UInt8) : Prop where
  position_pos : 1 ≤ s.tripletPosition
  position_le : s.tripletPosition ≤ 4
  held_eq : s.decodedTriplet.drop (s.tripletPosition - 1) = held
  base_eq : s.base.endOfInput = false
  more_eq : s.equalSignRead = true → more = []
  rest_encodes : s.equalSignRead = false → Encodes s.base.rest more

/-- There is nothing left to deliver, and a read will find this. -/
structure Finished (s : Base64DecodingInputStream) : Prop where
  position_eq : s.tripletPosition = 1
  base_eq : s.base.endOfInput = true

/-- The loop of `read_24_bits` led to `s'`, from a stream whose text encodes `content`. -/
inductive Filled : Base64DecodingInputStream → List UInt8 → Prop where
  | nothing {s' : Base64DecodingInputStream} :
      s'.endOfInput = true → s'.Finished → Filled s' []
  | some {s' : Base64DecodingInputStream} {a : UInt8} {held more : List UInt8} :
      s'.Live (a :: held) more → s'.endOfInput = false → Filled s' (a :: held ++ more)

/-- A stream at the begin of a quartet. -/
structure Begins (s : Base64DecodingInputStream) (text : List UInt8) : Prop where
  rest_eq : s.base.rest = text
  base_eq : s.base.endOfInput = false
  goes_on : s.endOfInput = false
  no_padding : s.equalSignRead = false
  position_eq : s.tripletPosition = 1

/-- The exit test of the loop of `read_24_bits`. -/
abbrev isFilled (t : Quartet) : Option Bool := some (decide (4 < t.i))

/-- From `s` to `u` characters were read and made codes, and `rest` is left. -/
structure Reads (s u : Base64DecodingInputStream) (rest : List UInt8) : Prop where
  rest_eq : u.base.rest = rest
  base_eq : u.base.endOfInput = false
  string_eq : u.lastString = s.lastString
  end_eq : u.endOfInput = s.endOfInput
  triplet_eq : u.decodedTriplet = s.decodedTriplet
  position_eq : u.tripletPosition = s.tripletPosition
  equal_eq : u.equalSignRead = s.equalSignRead

/-- The code at the index `i` is read, and those before it stay. -/
theorem Reads.symbol {u : Base64DecodingInputStream} (i : Nat)
    (hu : s.Reads u (symbol code :: rest)) (hcode : code < 64) (hi : 1 ≤ i) (hi4 : i ≤ 4) :
    ∃ u', Turns isFilled readCode 1 ⟨u, i⟩ ⟨u', i + 1⟩ ∧ s.Reads u' rest ∧
      item u'.codes i = some code ∧ ∀ j < i, item u'.codes j = item u.codes j := by
  obtain ⟨hrest, hbase, hstring, hend, htriplet, hposition, hequal⟩ := hu
  refine ⟨_, Turns.one (congrArg some (decide_eq_false (Nat.not_lt.mpr hi4)))
    (readCode_symbol hrest hcode hi hi4 hbase),
    ⟨rfl, hbase, hstring, hend, htriplet, hposition, hequal⟩, ?_, fun j hj => ?_⟩
  · cases i with
    | zero => exact absurd hi (Nat.not_succ_le_zero 0)
    | succ i => exact getElem?_set_self (u.codes_capacity ▸ hi4)
  · cases j with
    | zero => rfl
    | succ j => exact getElem?_set_ne (by omega)

theorem Reads.two {code1 code2 : Nat}
    (hs : s.Reads s (Base64.symbol code1 :: Base64.symbol code2 :: rest))
    (hcode1 : code1 < 64) (hcode2 : code2 < 64) :
    ∃ u, Turns isFilled readCode 2 ⟨s, 1⟩ ⟨u, 3⟩ ∧ s.Reads u rest ∧ item u.codes 1 = some code1 ∧
      item u.codes 2 = some code2 := by
  obtain ⟨u₁, hturn₁, hu₁, hitem₁, -⟩ := hs.symbol 1 hcode1 (by omega) (by omega)
  obtain ⟨u₂, hturn₂, hu₂, hitem₂, hbefore⟩ := hu₁.symbol 2 hcode2 (by omega) (by omega)
  exact ⟨u₂, hturn₁.trans hturn₂, hu₂, (hbefore 1 (by omega)).trans hitem₁, hitem₂⟩

theorem Reads.three {code1 code2 code3 : Nat}
    (hs : s.Reads s (Base64.symbol code1 :: Base64.symbol code2 :: Base64.symbol code3 :: rest))
    (hcode1 : code1 < 64) (hcode2 : code2 < 64) (hcode3 : code3 < 64) :
    ∃ u, Turns isFilled readCode 3 ⟨s, 1⟩ ⟨u, 4⟩ ∧ s.Reads u rest ∧ item u.codes 1 = some code1 ∧
      item u.codes 2 = some code2 ∧ item u.codes 3 = some code3 := by
  obtain ⟨u₂, hturns, hu₂, hitem₁, hitem₂⟩ := hs.two hcode1 hcode2
  obtain ⟨u₃, hturn₃, hu₃, hitem₃, hbefore⟩ := hu₂.symbol 3 hcode3 (by omega) (by omega)
  exact ⟨u₃, hturns.trans hturn₃, hu₃, (hbefore 1 (by omega)).trans hitem₁,
    (hbefore 2 (by omega)).trans hitem₂, hitem₃⟩

theorem Begins.reads (hs : s.Begins text) : s.Reads s text :=
  ⟨hs.rest_eq, hs.base_eq, rfl, rfl, rfl, rfl, rfl⟩

/-- The end of `read_24_bits`. -/
def shift (s : Base64DecodingInputStream) : Option Base64DecodingInputStream :=
  if s.endOfInput then some s else s.shiftCodes

/-- The loop of `read_24_bits` reads a quartet in at most `turns` turns. -/
def Fills (s : Base64DecodingInputStream) (turns : Nat) (content : List UInt8) : Prop :=
  ∃ n q s', Turns isFilled readCode n ⟨s, 1⟩ q ∧ n ≤ turns ∧ 4 < q.i ∧ q.stream.shift = some s' ∧
    s'.lastString = s.lastString ∧ Filled s' content

theorem fills_one (hs : s.Begins (quartet1 a ++ text)) : s.Fills 3 [a] := by
  have hlta := a.toNat_lt
  have hcode1 : a.toNat / 4 < 64 := by omega
  have hcode2 : a.toNat % 4 * 16 < 64 := by omega
  obtain ⟨u, hturns, hu, hitem1, hitem2⟩ := hs.reads.two hcode1 hcode2
  have hpadding : Turns isFilled readCode 1 ⟨u, 3⟩ ⟨(u.advance equalSign text).pad 3, 5⟩ :=
    Turns.one rfl (readCode_padding_two hu.rest_eq hu.base_eq)
  have hgo : u.endOfInput = false := hu.end_eq.trans hs.goes_on
  have hshift := shiftCodes_one (s := (u.advance equalSign text).pad 3) hitem1 hitem2 rfl
  have hlive : (((u.advance equalSign text).pad 3).setDecoded 3 a).Live [a] [] := by
    obtain ⟨x, y, z, htriplet⟩ := length_eq_three.mp u.triplet_capacity
    refine ⟨Nat.le_add_left 1 2, Nat.le_succ 3, ?_, hu.base_eq, fun _ => rfl, nofun⟩
    change (u.decodedTriplet.set 2 a).drop 2 = [a]
    rw [htriplet]
    rfl
  exact ⟨3, _, _, hturns.trans hpadding, Nat.le_refl 3, Nat.lt_succ_self 4,
    (if_neg (Bool.not_eq_true _ ▸ hgo)).trans hshift, hu.string_eq, .some hlive hgo⟩

theorem fills_two (hs : s.Begins (quartet2 a b ++ text)) : s.Fills 4 [a, b] := by
  have hlta := a.toNat_lt
  have hltb := b.toNat_lt
  have hcode1 : a.toNat / 4 < 64 := by omega
  have hcode2 : a.toNat % 4 * 16 + b.toNat / 16 < 64 := by omega
  have hcode3 : b.toNat % 16 * 4 < 64 := by omega
  obtain ⟨u, hturns, hu, hitem1, hitem2, hitem3⟩ := hs.reads.three hcode1 hcode2 hcode3
  have hpadding : Turns isFilled readCode 1 ⟨u, 4⟩ ⟨(u.advance equalSign text).pad 2, 5⟩ :=
    Turns.one rfl (readCode_padding_one hu.rest_eq hu.base_eq)
  have hgo : u.endOfInput = false := hu.end_eq.trans hs.goes_on
  have hshift := shiftCodes_two (s := (u.advance equalSign text).pad 2) hitem1 hitem2 hitem3 rfl
  have hlive : ((((u.advance equalSign text).pad 2).setDecoded 2 a).setDecoded 3 b).Live
      [a, b] [] := by
    obtain ⟨x, y, z, htriplet⟩ := length_eq_three.mp u.triplet_capacity
    refine ⟨Nat.le_add_left 1 1, Nat.le_add_left 2 2, ?_, hu.base_eq, fun _ => rfl, nofun⟩
    change ((u.decodedTriplet.set 1 a).set 2 b).drop 1 = [a, b]
    rw [htriplet]
    rfl
  exact ⟨4, _, _, hturns.trans hpadding, Nat.le_refl 4, Nat.lt_succ_self 4,
    (if_neg (Bool.not_eq_true _ ▸ hgo)).trans hshift, hu.string_eq, .some hlive hgo⟩

theorem fills_three (hs : s.Begins (quartet3 a b c ++ text)) (htext : Encodes text content) :
    s.Fills 4 (a :: b :: c :: content) := by
  have hlta := a.toNat_lt
  have hltb := b.toNat_lt
  have hltc := c.toNat_lt
  have hcode1 : a.toNat / 4 < 64 := by omega
  have hcode2 : a.toNat % 4 * 16 + b.toNat / 16 < 64 := by omega
  have hcode3 : b.toNat % 16 * 4 + c.toNat / 64 < 64 := by omega
  have hcode4 : c.toNat % 64 < 64 := by omega
  obtain ⟨u, hturns, hu, hitem1, hitem2, hitem3⟩ := hs.reads.three hcode1 hcode2 hcode3
  obtain ⟨v, hturn, hv, hitem4, hbefore⟩ := hu.symbol 4 hcode4 (by omega) (by omega)
  have hgo : v.endOfInput = false := hv.end_eq.trans hs.goes_on
  have hposition : v.tripletPosition = 1 := hv.position_eq.trans hs.position_eq
  have hpadding : v.equalSignRead = false := hv.equal_eq.trans hs.no_padding
  have hshift := shiftCodes_three ((hbefore 1 (by omega)).trans hitem1)
    ((hbefore 2 (by omega)).trans hitem2) ((hbefore 3 (by omega)).trans hitem3) hitem4 hposition
  have hlive : (((v.setDecoded 1 a).setDecoded 2 b).setDecoded 3 c).Live [a, b, c] content := by
    obtain ⟨x, y, z, htriplet⟩ := length_eq_three.mp v.triplet_capacity
    have hvalid : 1 ≤ v.tripletPosition ∧ v.tripletPosition ≤ 4 := by omega
    refine ⟨hvalid.1, hvalid.2, ?_, hv.base_eq,
      fun heq => absurd (hpadding.symm.trans heq) Bool.false_ne_true,
      fun _ => hv.rest_eq.symm ▸ htext⟩
    change (((v.decodedTriplet.set 0 a).set 1 b).set 2 c).drop (v.tripletPosition - 1) = [a, b, c]
    rw [htriplet, hposition]
    rfl
  exact ⟨4, _, _, hturns.trans hturn, Nat.le_refl 4, Nat.lt_succ_self 4,
    (if_neg (Bool.not_eq_true _ ▸ hgo)).trans hshift, hv.string_eq, .some hlive hgo⟩

/-- The loop of `read_24_bits` reads the next quartet of an encoding, and the
line breaks before it. -/
theorem fills_of_encodes (htext : Encodes text content) (hs : s.Begins text) :
    s.Fills (text.length + 1) content := by
  induction htext generalizing s with
  | nil =>
      have hturn : Turns isFilled readCode 1 ⟨s, 1⟩ ⟨s.finish, 5⟩ :=
        Turns.one rfl (readCode_nil hs.rest_eq)
      exact ⟨1, _, _, hturn, Nat.le_refl 1, Nat.lt_succ_self 4, if_pos rfl, rfl,
        .nothing rfl ⟨hs.position_eq, rfl⟩⟩
  | lineBreak htext ih =>
      rename_i text content
      have hturn : Turns isFilled readCode 1 ⟨s, 1⟩ ⟨s.advance newLine text, 1⟩ :=
        Turns.one rfl (readCode_newLine hs.rest_eq hs.base_eq)
      have hbegins : (s.advance newLine text).Begins text :=
        ⟨rfl, hs.base_eq, hs.goes_on, hs.no_padding, hs.position_eq⟩
      obtain ⟨n, q, s', hturns, hn, hi, hshift, hstring, hfilled⟩ := ih hbegins
      exact ⟨1 + n, q, s', hturn.trans hturns, by rw [length_cons]; omega, hi, hshift,
        hstring, hfilled⟩
  | one a =>
      obtain ⟨n, q, s', hturns, hn, hrest⟩ := fills_one hs
      exact ⟨n, q, s', hturns, by simp [quartet1]; omega, hrest⟩
  | two a b =>
      obtain ⟨n, q, s', hturns, hn, hrest⟩ := fills_two hs
      exact ⟨n, q, s', hturns, by simp [quartet2]; omega, hrest⟩
  | three a b c htext =>
      obtain ⟨n, q, s', hturns, hn, hrest⟩ := fills_three hs htext
      exact ⟨n, q, s', hturns, by simp [quartet3]; omega, hrest⟩

/-- What reads can still deliver. -/
def Remaining (s : Base64DecodingInputStream) (content : List UInt8) : Prop :=
  (∃ held more, content = held ++ more ∧ s.Live held more) ∨ content = [] ∧ s.Finished

/-- A character is held, or the end of the input was found. -/
def Fetched (s' : Base64DecodingInputStream) (content : List UInt8) : Prop :=
  content = [] ∧ s'.endOfInput = true ∧ s'.Remaining [] ∨
    ∃ a held more, content = a :: held ++ more ∧ s'.endOfInput = false ∧ s'.Live (a :: held) more

theorem read24Bits_spec {more : List UInt8} (hs : s.Live [] more)
    (hposition : s.tripletPosition = 4) (hgo : s.endOfInput = false) :
    ∃ s', s.read24Bits = some s' ∧ s'.lastString = s.lastString ∧ s'.Fetched more := by
  unfold read24Bits
  by_cases hequal : s.equalSignRead = true
  · rw [if_pos hequal]
    refine ⟨_, rfl, rfl, Or.inl ⟨hs.more_eq hequal, rfl, Or.inl ⟨[], [], rfl, ?_⟩⟩⟩
    have hheld := hs.held_eq
    rw [hposition] at hheld
    exact ⟨Nat.le_add_left 1 3, Nat.le_refl 4, hheld, hs.base_eq, fun _ => rfl,
      fun heq => absurd hequal (Bool.not_eq_true _ ▸ heq)⟩
  · have hpadding : s.equalSignRead = false := Bool.not_eq_true _ ▸ hequal
    have hend : ¬s.base.endOfInput = true := Bool.not_eq_true _ ▸ hs.base_eq
    have hbegins : Begins { s with tripletPosition := 1 } s.base.rest :=
      ⟨rfl, hs.base_eq, hgo, hpadding, rfl⟩
    obtain ⟨n, q, s', hturns, hn, hi, hshift, hstring, hfilled⟩ :=
      fills_of_encodes (hs.rest_encodes hpadding) hbegins
    have hrun := hturns.loopUntil_eq (congrArg some (decide_eq_true hi))
      (Nat.lt_succ_of_le hn)
    rw [if_neg hequal, if_neg hend, hrun, some_bind]
    refine ⟨s', hshift, hstring, ?_⟩
    cases hfilled with
    | nothing hend' hfinished => exact Or.inl ⟨rfl, hend', Or.inr ⟨rfl, hfinished⟩⟩
    | some hlive hgo' => exact Or.inr ⟨_, _, _, rfl, hgo', hlive⟩

theorem fetch_spec (hs : s.Remaining content) (hgo : s.endOfInput = false) :
    ∃ s', s.fetch = some s' ∧ s'.lastString = s.lastString ∧ s'.Fetched content := by
  unfold fetch
  rcases hs with ⟨held, more, rfl, hlive⟩ | ⟨rfl, hfinished⟩
  · have hlength : held.length = 3 - (s.tripletPosition - 1) := by
      rw [← hlive.held_eq, length_drop, s.triplet_capacity]
    have hle := hlive.position_le
    cases held with
    | nil =>
        have hposition : s.tripletPosition = 4 := by
          rw [length_nil] at hlength
          omega
        rw [if_pos hposition, nil_append]
        exact read24Bits_spec hlive hposition hgo
    | cons a held =>
        have hposition : s.tripletPosition ≠ 4 := by
          rw [length_cons] at hlength
          omega
        rw [if_neg hposition, if_neg (Bool.not_eq_true _ ▸ hlive.base_eq)]
        exact ⟨s, rfl, rfl, Or.inr ⟨a, held, more, rfl, hgo, hlive⟩⟩
  · have hposition : s.tripletPosition ≠ 4 := by
      rw [hfinished.position_eq]
      decide
    rw [if_neg hposition, if_pos hfinished.base_eq]
    exact ⟨_, rfl, rfl, Or.inl ⟨rfl, rfl, Or.inr ⟨rfl, hfinished.position_eq, hfinished.base_eq⟩⟩⟩

/-- `read_character` delivers the next character, or finds that there is none. -/
theorem readCharacter_spec (hs : s.Remaining content) (hgo : s.endOfInput = false) :
    ∃ s', s.readCharacter = some s' ∧ s'.lastString = s.lastString ∧
      (content = [] ∧ s'.endOfInput = true ∧ s'.Remaining [] ∨
        ∃ a rest, content = a :: rest ∧ s'.endOfInput = false ∧ s'.lastCharacter = a ∧
          s'.Remaining rest) := by
  obtain ⟨s', hfetch, hstring, hfetched⟩ := fetch_spec hs hgo
  unfold readCharacter
  rw [hfetch, some_bind]
  rcases hfetched with ⟨rfl, hend, hremaining⟩ | ⟨a, held, more, rfl, hgo', hlive⟩
  · exact ⟨s', if_pos hend, hstring, Or.inl ⟨rfl, hend, hremaining⟩⟩
  · have hpos := hlive.position_pos
    have hheld := hlive.held_eq
    have hlt : s'.tripletPosition - 1 < s'.decodedTriplet.length := by
      have hlength := congrArg length hheld
      rw [length_drop, length_cons] at hlength
      omega
    rw [drop_eq_getElem_cons hlt, Nat.sub_add_cancel hpos] at hheld
    obtain ⟨hhead, htail⟩ := cons.inj hheld
    have hitem : item s'.decodedTriplet s'.tripletPosition = some a := by
      rw [← Nat.sub_add_cancel hpos, ← hhead]
      exact getElem?_eq_getElem hlt
    rw [if_neg (Bool.not_eq_true _ ▸ hgo'), hitem, some_bind]
    refine ⟨_, rfl, hstring, Or.inr ⟨a, held ++ more, rfl, hgo', rfl, Or.inl ⟨held, more, rfl, ?_⟩⟩⟩
    have hlength := s'.triplet_capacity
    exact ⟨Nat.le_add_left 1 _, by dsimp only; omega, htail, hlive.base_eq, hlive.more_eq,
      hlive.rest_encodes⟩

/-- The last string and `end_of_input` do not matter to what is left. -/
theorem Remaining.congr {s' : Base64DecodingInputStream} (hs : s.Remaining content)
    (hbase : s'.base = s.base) (htriplet : s'.decodedTriplet = s.decodedTriplet)
    (hposition : s'.tripletPosition = s.tripletPosition)
    (hequal : s'.equalSignRead = s.equalSignRead) : s'.Remaining content := by
  rcases hs with ⟨held, more, hcontent, hpos, hle, hheld, hend, hmore, hrest⟩ |
    ⟨hcontent, hposition', hend⟩
  · rw [← hposition] at hpos hle hheld
    rw [← hequal] at hmore hrest
    rw [← hbase] at hend hrest
    exact Or.inl ⟨held, more, hcontent, hpos, hle, htriplet ▸ hheld, hend, hmore, hrest⟩
  · exact Or.inr ⟨hcontent, hposition.trans hposition', hbase ▸ hend⟩

/-- A state of the loop of `read_string`: what it read, and what is left. -/
structure FillsString (content : List UInt8) (nb : Nat) (t : Filling) : Prop where
  index_pos : 1 ≤ t.i
  index_le : t.i ≤ nb + 1
  string_eq : t.stream.lastString = content.take (t.i - 1)
  remaining : t.stream.Remaining (content.drop (t.i - 1))
  goes_on : t.i ≤ nb → t.stream.endOfInput = false

theorem FillsString.fillTurn {nb : Nat} {t : Filling} (ht : FillsString content nb t)
    (hle : t.i ≤ nb) :
    ∃ t', fillTurn nb t = some t' ∧ t.i < t'.i ∧ FillsString content nb t' := by
  obtain ⟨stream, i⟩ := t
  obtain ⟨hpos, -, hstring, hremaining, hgo⟩ := ht
  obtain ⟨j, rfl⟩ := Nat.exists_eq_add_of_le' hpos
  have hj : j < nb := hle
  obtain ⟨s', hread, hsame, hnext⟩ := readCharacter_spec hremaining (hgo hle)
  dsimp only at hstring hread hsame
  rw [Nat.add_sub_cancel] at hstring hnext
  unfold Base64DecodingInputStream.fillTurn
  rw [hread, some_bind]
  rcases hnext with ⟨hnil, hend, hnothing⟩ | ⟨a, rest, hcons, hgo', hlast, hrest⟩
  · have hall : content.length ≤ j := drop_eq_nil_iff.mp hnil
    rw [if_pos hend]
    refine ⟨_, rfl, Nat.succ_lt_succ hj, Nat.le_add_left 1 _, Nat.le_refl _, ?_, ?_, ?_⟩
    · dsimp only
      rw [hsame, hstring, Nat.add_sub_cancel, take_of_length_le hall,
        take_of_length_le (Nat.le_trans hall (Nat.le_of_lt hj))]
    · dsimp only
      rw [Nat.add_sub_cancel, drop_of_length_le (Nat.le_trans hall (Nat.le_of_lt hj))]
      exact hnothing
    · exact fun h => absurd h (Nat.not_succ_le_self nb)
  · have hlt : j < content.length := by
      have hlength := congrArg length hcons
      rw [length_drop, length_cons] at hlength
      omega
    rw [drop_eq_getElem_cons hlt] at hcons
    obtain ⟨hhead, htail⟩ := cons.inj hcons
    rw [if_neg (Bool.not_eq_true _ ▸ hgo')]
    refine ⟨_, rfl, Nat.lt_succ_self _, Nat.le_add_left 1 _, Nat.succ_le_succ hj, ?_, ?_,
      fun _ => hgo'⟩
    · dsimp only
      rw [hsame, hstring, hlast, Nat.add_sub_cancel, take_add_one,
        getElem?_eq_getElem hlt, hhead]
      rfl
    · dsimp only
      rw [Nat.add_sub_cancel, htail]
      exact hrest.congr rfl rfl rfl rfl

/-- `read_string` delivers as many characters as are left, `nb` at most. -/
theorem readString_spec (nb : Nat) (hs : s.Remaining content) (hgo : s.endOfInput = false) :
    ∃ s', s.readString nb = some s' ∧ s'.lastString = content.take nb ∧
      s'.endOfInput = decide (content.take nb = []) ∧ s'.Remaining (content.drop nb) := by
  have hstart : FillsString content nb ⟨{ s with lastString := [] }, 1⟩ :=
    ⟨Nat.le_refl 1, Nat.le_add_left 1 nb, rfl, hs.congr rfl rfl rfl rfl, fun _ => hgo⟩
  obtain ⟨t, hrun, hend, ht⟩ : ∃ t, loopUntil (fun t => some (decide (nb < t.i)))
      (Base64DecodingInputStream.fillTurn nb) (nb + 1) _ = some t ∧ nb < t.i ∧
        FillsString content nb t :=
    loopUntil_index _ (fun _ => rfl) (fun t ht hle => ht.fillTurn hle) hstart
      (Nat.lt_succ_self nb)
  have hlast : t.i - 1 = nb := by
    have hle := ht.index_le
    omega
  have hstring := ht.string_eq
  have hremaining := ht.remaining
  rw [hlast] at hstring hremaining
  unfold readString
  rw [hrun, some_bind, hstring]
  exact ⟨_, rfl, hstring, rfl, hremaining.congr rfl rfl rfl rfl⟩

/-- A read delivers some of the characters that are left, and ends the input
exactly when there are none. -/
theorem read_spec (request : Request) (hs : s.Remaining content) (hgo : s.endOfInput = false) :
    ∃ delivered rest s', s.read request = some (delivered, s') ∧ content = delivered ++ rest ∧
      s'.endOfInput = decide (content = []) ∧ s'.Remaining rest ∧
        (content ≠ [] → delivered ≠ []) := by
  cases request with
  | character =>
      obtain ⟨s', hread, -, hnext⟩ := readCharacter_spec hs hgo
      unfold read
      rw [hread, some_bind]
      rcases hnext with ⟨rfl, hend, hnothing⟩ | ⟨a, rest, rfl, hgo', hlast, hrest⟩
      · exact ⟨[], [], s', by rw [if_pos hend], rfl, hend, hnothing, fun h => absurd rfl h⟩
      · exact ⟨[a], rest, s', by rw [if_neg (Bool.not_eq_true _ ▸ hgo'), hlast], rfl, hgo', hrest,
          fun _ => cons_ne_nil a []⟩
  | string nb hnb =>
      obtain ⟨s', hread, hstring, hend, hrest⟩ := readString_spec nb hs hgo
      have hempty : content.take nb = [] ↔ content = [] := by
        rw [take_eq_nil_iff, or_iff_right (Nat.ne_of_gt hnb)]
      unfold read
      dsimp only
      rw [hread, some_bind, hstring]
      exact ⟨_, _, s', rfl, (take_append_drop nb content).symm,
        hend.trans (decide_eq_decide.mpr hempty), hrest, fun hne heq => hne (hempty.mp heq)⟩

/-- Reads deliver what is left in its order, all of it once they end the input,
and they end it. -/
theorem readAll_spec (requests : List Request) (hs : s.Remaining content)
    (hgo : s.endOfInput = false) :
    ∃ delivered rest s', s.readAll requests = some (delivered, s') ∧ content = delivered ++ rest ∧
      (s'.endOfInput = true → rest = []) ∧
        (content.length < requests.length → s'.endOfInput = true) := by
  induction requests generalizing s content with
  | nil =>
      exact ⟨[], content, s, rfl, rfl, fun heq => absurd (hgo.symm.trans heq) Bool.false_ne_true,
        fun h => absurd h (Nat.not_lt_zero _)⟩
  | cons request requests ih =>
      obtain ⟨delivered, rest, s₁, hread, hcontent, hend, hrest, hsome⟩ := read_spec request hs hgo
      unfold readAll
      rw [if_neg (Bool.not_eq_true _ ▸ hgo), hread, bind_eq_bind, bind_some]
      by_cases hnil : content = []
      · have hend₁ : s₁.endOfInput = true := hend.trans (decide_eq_true hnil)
        have hrun : s₁.readAll requests = some ([], s₁) := by
          cases requests with
          | nil => rfl
          | cons request requests => exact if_pos hend₁
        have hnone : delivered = [] ∧ rest = [] := by
          rw [hnil] at hcontent
          exact append_eq_nil_iff.mp hcontent.symm
        refine ⟨delivered, rest, s₁, ?_, hcontent, fun _ => hnone.2, fun _ => hend₁⟩
        dsimp only
        rw [hrun, bind_some, append_nil]
      · have hgo₁ : s₁.endOfInput = false := hend.trans (decide_eq_false hnil)
        obtain ⟨more, rest', s', hrun, hmore, hfinal, hends⟩ := ih hrest hgo₁
        refine ⟨delivered ++ more, rest', s', ?_, ?_, hfinal, fun hlt => hends ?_⟩
        · dsimp only
          rw [hrun, bind_some]
        · rw [hcontent, hmore, append_assoc]
        · have hpos := length_pos_iff.mpr (hsome hnil)
          have hlength := congrArg length hcontent
          rw [length_append] at hlength
          rw [length_cons] at hlt
          omega

example : ((make [84, 87, 69, 61]).readAll [.character, .string 5 (by decide), .character]).map
    (fun r => (r.1, r.2.endOfInput)) = some ([77, 97], true) := by decide

end Base64DecodingInputStream

end Gobo
