/-
The text that `UT_BASE64_ENCODING_OUTPUT_STREAM` writes: quartets of the
alphabet, a line break after some of them, padding in the last one only.
-/
import Gobo.Base64Streams

namespace Gobo

open Option List Text Base64

namespace Base64

/-- The character of a code, 64 for the padding. -/
def symbol (code : Nat) : UInt8 := base64Alphabet.getD code 0

def quartet1 (a : UInt8) : List UInt8 :=
  [symbol (a.toNat / 4), symbol (a.toNat % 4 * 16), equalSign, equalSign]

def quartet2 (a b : UInt8) : List UInt8 :=
  [symbol (a.toNat / 4), symbol (a.toNat % 4 * 16 + b.toNat / 16), symbol (b.toNat % 16 * 4),
    equalSign]

def quartet3 (a b c : UInt8) : List UInt8 :=
  [symbol (a.toNat / 4), symbol (a.toNat % 4 * 16 + b.toNat / 16),
    symbol (b.toNat % 16 * 4 + c.toNat / 64), symbol (c.toNat % 64)]

/-- `Encodes text content`: the text is `content` in quartets and line breaks. -/
inductive Encodes : List UInt8 → List UInt8 → Prop where
  | nil : Encodes [] []
  | lineBreak {text content : List UInt8} :
      Encodes text content → Encodes (newLine :: text) content
  | one (a : UInt8) {text : List UInt8} : Encodes text [] → Encodes (quartet1 a ++ text) [a]
  | two (a b : UInt8) {text : List UInt8} :
      Encodes text [] → Encodes (quartet2 a b ++ text) [a, b]
  | three (a b c : UInt8) {text content : List UInt8} :
      Encodes text content → Encodes (quartet3 a b c ++ text) (a :: b :: c :: content)

theorem alphabet_eq {code : Nat} (hcode : code ≤ 64) :
    base64Alphabet[code]? = some (symbol code) := by
  have hlt : code < base64Alphabet.length := Nat.lt_succ_of_le hcode
  rw [symbol, getD_eq_getElem?_getD, getElem?_eq_getElem hlt, getD_some]

/-- A line break or none. -/
def IsBreak (text : List UInt8) : Prop := text = [] ∨ text = [newLine]

theorem IsBreak.encodes {lineBreak text content : List UInt8} (hbreak : IsBreak lineBreak)
    (h : Encodes text content) : Encodes (lineBreak ++ text) content := by
  rcases hbreak with rfl | rfl
  · exact h
  · exact h.lineBreak

end Base64

namespace Base64EncodingOutputStream

/-- The stream after `text` was put to its base stream. -/
def after (s : Base64EncodingOutputStream) (text : List UInt8) (lineCount : Nat) :
    Base64EncodingOutputStream :=
  { s with base := s.base ++ text, lineCount := lineCount }

/-- Lines are broken after whole quartets, which are `column` characters away. -/
def Column (s : Base64EncodingOutputStream) (column : Nat) : Prop :=
  s.isLineBreaking = true → s.lineCount % 4 = column

/-- Nothing is buffered and no quartet is begun. -/
structure Aligned (s : Base64EncodingOutputStream) : Prop where
  count_eq : s.tripletCount = 0
  not_normalizing : s.isNormalizing = false
  column_eq : s.Column 0

variable {s : Base64EncodingOutputStream} {code column : Nat} {a b c : UInt8}

/-- Within a quartet there is no line break. -/
theorem writeCharacter_within (hcode : code ≤ 64) (hs : s.Column column) (hcolumn : column < 3) :
    ∃ n, s.writeCharacter code = some (s.after [symbol code] n) ∧
      (s.after [symbol code] n).Column (column + 1) := by
  unfold writeCharacter
  rw [alphabet_eq hcode, some_bind]
  by_cases hbreaking : s.isLineBreaking = true
  · have hcount := hs hbreaking
    have hne : s.lineCount + 1 ≠ fullLineCount := by
      unfold fullLineCount
      omega
    refine ⟨s.lineCount + 1, ?_, fun _ => ?_⟩
    · dsimp only
      rw [if_pos hbreaking, if_neg hne]
      rfl
    · change (s.lineCount + 1) % 4 = column + 1
      omega
  · refine ⟨s.lineCount, ?_, fun h => absurd h hbreaking⟩
    rw [if_neg hbreaking]
    rfl

/-- After a quartet there may be one. -/
theorem writeCharacter_last (hcode : code ≤ 64) (hs : s.Column 3) :
    ∃ n lineBreak, IsBreak lineBreak ∧
      s.writeCharacter code = some (s.after (symbol code :: lineBreak) n) ∧
      (s.after (symbol code :: lineBreak) n).Column 0 := by
  unfold writeCharacter
  rw [alphabet_eq hcode, some_bind]
  by_cases hbreaking : s.isLineBreaking = true
  · have hcount := hs hbreaking
    rw [if_pos hbreaking]
    by_cases hfull : s.lineCount + 1 = fullLineCount
    · refine ⟨0, [newLine], Or.inr rfl, ?_, fun _ => rfl⟩
      rw [if_pos hfull, append_assoc]
      rfl
    · refine ⟨s.lineCount + 1, [], Or.inl rfl, if_neg hfull, fun _ => ?_⟩
      change (s.lineCount + 1) % 4 = 0
      omega
  · exact ⟨s.lineCount, [], Or.inl rfl, if_neg hbreaking, fun h => absurd h hbreaking⟩

/-- Four characters written one after the other, the first of which begins a quartet. -/
theorem writeCharacter_four {code1 code2 code3 code4 : Nat} (hcode1 : code1 ≤ 64)
    (hcode2 : code2 ≤ 64) (hcode3 : code3 ≤ 64) (hcode4 : code4 ≤ 64) (hs : s.Column 0) :
    ∃ s1 s2 s3 n lineBreak, s.writeCharacter code1 = some s1 ∧ s1.writeCharacter code2 = some s2 ∧
      s2.writeCharacter code3 = some s3 ∧
      s3.writeCharacter code4 = some (s.after ([symbol code1, symbol code2, symbol code3,
        symbol code4] ++ lineBreak) n) ∧
      s1.triplet = s.triplet ∧ s2.triplet = s.triplet ∧ s1.tripletCount = s.tripletCount ∧
      s2.tripletCount = s.tripletCount ∧ IsBreak lineBreak ∧
      (s.after ([symbol code1, symbol code2, symbol code3, symbol code4] ++ lineBreak) n).Column
        0 := by
  obtain ⟨n1, hwrite1, hs1⟩ := writeCharacter_within hcode1 hs (by omega)
  obtain ⟨n2, hwrite2, hs2⟩ := writeCharacter_within hcode2 hs1 (by omega)
  obtain ⟨n3, hwrite3, hs3⟩ := writeCharacter_within hcode3 hs2 (by omega)
  obtain ⟨n4, lineBreak, hbreak, hwrite4, hs4⟩ := writeCharacter_last hcode4 hs3
  refine ⟨_, _, _, n4, lineBreak, hwrite1, hwrite2, hwrite3, hwrite4.trans ?_, rfl, rfl, rfl, rfl,
    hbreak, hs4⟩
  unfold after
  simp only [append_assoc, cons_append, nil_append]

/-- What `write_quartet` leaves: nothing is buffered and a quartet written. -/
def flushed (s : Base64EncodingOutputStream) (text : List UInt8) (lineCount : Nat) :
    Base64EncodingOutputStream :=
  { s.after text lineCount with tripletCount := 0 }

/-- The stream wrote the quartet `text`, and a line break or none. -/
def Flushes (s : Base64EncodingOutputStream) (text : List UInt8) : Prop :=
  ∃ n lineBreak, IsBreak lineBreak ∧ s.writeQuartet = some (s.flushed (text ++ lineBreak) n) ∧
    (s.flushed (text ++ lineBreak) n).Column 0

theorem writeQuartet_one (hcount : s.tripletCount = 1) (ha : item s.triplet 1 = some a)
    (hs : s.Column 0) : s.Flushes (quartet1 a) := by
  have hlta := a.toNat_lt
  have hcode1 : a.toNat / 4 ≤ 64 := by omega
  have hcode2 : a.toNat % 4 * 16 ≤ 64 := by omega
  obtain ⟨s1, s2, s3, n, lineBreak, hwrite1, hwrite2, hwrite3, hwrite4, -, -, hcount1, -, hbreak,
    hcolumn⟩ := writeCharacter_four hcode1 hcode2 (Nat.le_refl padding) (Nat.le_refl padding) hs
  refine ⟨n, lineBreak, hbreak, ?_, hcolumn⟩
  unfold writeQuartet
  rw [ha, some_bind, hwrite1, some_bind]
  rw [hcount1, if_pos hcount, hwrite2, some_bind, hwrite3, some_bind, hwrite4,
    some_bind]
  rfl

theorem writeQuartet_two (hcount : s.tripletCount = 2) (ha : item s.triplet 1 = some a)
    (hb : item s.triplet 2 = some b) (hs : s.Column 0) : s.Flushes (quartet2 a b) := by
  have hlta := a.toNat_lt
  have hltb := b.toNat_lt
  have hcode1 : a.toNat / 4 ≤ 64 := by omega
  have hcode2 : a.toNat % 4 * 16 + b.toNat / 16 ≤ 64 := by omega
  have hcode3 : b.toNat % 16 * 4 ≤ 64 := by omega
  obtain ⟨s1, s2, s3, n, lineBreak, hwrite1, hwrite2, hwrite3, hwrite4, htriplet1, -, hcount1,
    hcount2, hbreak, hcolumn⟩ := writeCharacter_four hcode1 hcode2 hcode3 (Nat.le_refl padding) hs
  refine ⟨n, lineBreak, hbreak, ?_, hcolumn⟩
  unfold writeQuartet
  rw [ha, some_bind, hwrite1, some_bind]
  rw [hcount1, if_neg (by omega), htriplet1, hb, some_bind, hwrite2, some_bind,
    hcount2, if_pos hcount, hwrite3, some_bind, hwrite4, some_bind]
  rfl

theorem writeQuartet_three (hcount : s.tripletCount = 3) (ha : item s.triplet 1 = some a)
    (hb : item s.triplet 2 = some b) (hc : item s.triplet 3 = some c) (hs : s.Column 0) :
    s.Flushes (quartet3 a b c) := by
  have hlta := a.toNat_lt
  have hltb := b.toNat_lt
  have hltc := c.toNat_lt
  have hcode1 : a.toNat / 4 ≤ 64 := by omega
  have hcode2 : a.toNat % 4 * 16 + b.toNat / 16 ≤ 64 := by omega
  have hcode3 : b.toNat % 16 * 4 + c.toNat / 64 ≤ 64 := by omega
  have hcode4 : c.toNat % 64 ≤ 64 := by omega
  obtain ⟨s1, s2, s3, n, lineBreak, hwrite1, hwrite2, hwrite3, hwrite4, htriplet1, htriplet2,
    hcount1, hcount2, hbreak, hcolumn⟩ := writeCharacter_four hcode1 hcode2 hcode3 hcode4 hs
  refine ⟨n, lineBreak, hbreak, ?_, hcolumn⟩
  unfold writeQuartet
  rw [ha, some_bind, hwrite1, some_bind]
  rw [hcount1, if_neg (by omega), htriplet1, hb, some_bind, hwrite2, some_bind,
    hcount2, if_neg (by omega), htriplet2, hc, some_bind, hwrite3, some_bind, hwrite4,
    some_bind]
  rfl

/-- A character is only buffered while the triplet is not full. -/
theorem putCharacter_hold (hnormalizing : s.isNormalizing = false) (hcount : s.tripletCount < 2)
    (c : UInt8) : s.putCharacter c = some (s.hold c) := by
  have hlt : s.tripletCount < s.triplet.length := by
    rw [s.triplet_capacity]
    omega
  have hne : (s.hold c).tripletCount ≠ 3 := by
    change s.tripletCount + 1 ≠ 3
    omega
  unfold putCharacter bufferCharacter
  rw [if_pos (by simp [hnormalizing]), if_pos hlt]
  exact if_neg hne

theorem putCharacter_flush (hnormalizing : s.isNormalizing = false) (hcount : s.tripletCount = 2)
    (c : UInt8) : s.putCharacter c = (s.hold c).writeQuartet := by
  have hlt : s.tripletCount < s.triplet.length := by
    rw [s.triplet_capacity]
    omega
  have hfull : (s.hold c).tripletCount = 3 := congrArg Nat.succ hcount
  unfold putCharacter bufferCharacter
  rw [if_pos (by simp [hnormalizing]), if_pos hlt]
  exact if_pos hfull

/-- The characters that are held are the items of the triplet. -/
theorem item_hold (hcount : s.tripletCount < 3) :
    item (s.hold c).triplet (s.tripletCount + 1) = some c := by
  have hlt : s.tripletCount < s.triplet.length := by
    rw [s.triplet_capacity]
    exact hcount
  exact getElem?_set_self hlt

theorem item_hold_of_le {i : Nat} (hi : i ≤ s.tripletCount) (ha : item s.triplet i = some a) :
    item (s.hold c).triplet i = some a := by
  cases i with
  | zero => exact ha
  | succ i => exact (getElem?_set_ne (by omega)).trans ha

/-- The stream holds `a`, and nothing before it. -/
structure HoldsOne (s : Base64EncodingOutputStream) (a : UInt8) : Prop where
  count_eq : s.tripletCount = 1
  not_normalizing : s.isNormalizing = false
  column_eq : s.Column 0
  first_eq : item s.triplet 1 = some a

structure HoldsTwo (s : Base64EncodingOutputStream) (a b : UInt8) : Prop where
  count_eq : s.tripletCount = 2
  not_normalizing : s.isNormalizing = false
  column_eq : s.Column 0
  first_eq : item s.triplet 1 = some a
  second_eq : item s.triplet 2 = some b

theorem Aligned.putCharacter (hs : s.Aligned) (a : UInt8) :
    s.putCharacter a = some (s.hold a) ∧ (s.hold a).HoldsOne a := by
  have hcount := hs.count_eq
  have hitem := item_hold (s := s) (c := a) (by omega)
  rw [hcount] at hitem
  exact ⟨putCharacter_hold hs.not_normalizing (by omega) a, congrArg Nat.succ hcount,
    hs.not_normalizing, hs.column_eq, hitem⟩

theorem HoldsOne.putCharacter (hs : s.HoldsOne a) (b : UInt8) :
    s.putCharacter b = some (s.hold b) ∧ (s.hold b).HoldsTwo a b := by
  have hcount := hs.count_eq
  have hitem := item_hold (s := s) (c := b) (by omega)
  rw [hcount] at hitem
  exact ⟨putCharacter_hold hs.not_normalizing (by omega) b, congrArg Nat.succ hcount,
    hs.not_normalizing, hs.column_eq, item_hold_of_le (by omega) hs.first_eq, hitem⟩

/-- The third character of a triplet has it written. -/
theorem HoldsTwo.putCharacter (hs : s.HoldsTwo a b) (c : UInt8) :
    ∃ s' lineBreak, IsBreak lineBreak ∧ s.putCharacter c = some s' ∧ s'.Aligned ∧
      s'.base = s.base ++ (quartet3 a b c ++ lineBreak) := by
  have hcount := hs.count_eq
  have hitem := item_hold (s := s) (c := c) (by omega)
  rw [hcount] at hitem
  obtain ⟨n, lineBreak, hbreak, hwrite, hcolumn⟩ :=
    writeQuartet_three (congrArg Nat.succ hcount) (item_hold_of_le (by omega) hs.first_eq)
      (item_hold_of_le (by omega) hs.second_eq) hitem hs.column_eq
  exact ⟨_, lineBreak, hbreak, (putCharacter_flush hs.not_normalizing hcount c).trans hwrite,
    ⟨rfl, hs.not_normalizing, hcolumn⟩, rfl⟩

/-- What is written for characters, from a stream that holds none of a triplet. -/
theorem putCharacters_encodes :
    ∀ (characters : List UInt8) (s : Base64EncodingOutputStream), s.Aligned →
      ∃ s' text, (s.putCharacters characters).bind close = some s' ∧ s'.base = s.base ++ text ∧
        Encodes text characters
  | [], s, hs =>
      ⟨s, [], if_neg (not_not_intro hs.count_eq), (append_nil _).symm, .nil⟩
  | [a], s, hs => by
      obtain ⟨hput, hone⟩ := hs.putCharacter a
      obtain ⟨n, lineBreak, hbreak, hwrite, -⟩ :=
        writeQuartet_one hone.count_eq hone.first_eq hone.column_eq
      refine ⟨(s.hold a).flushed (quartet1 a ++ lineBreak) n, quartet1 a ++ lineBreak, ?_, rfl,
        .one a ?_⟩
      · rw [putCharacters, hput, bind_some, putCharacters, bind_some, close, hwrite,
          hone.count_eq]
        rfl
      · exact append_nil lineBreak ▸ hbreak.encodes .nil
  | [a, b], s, hs => by
      obtain ⟨hput, hone⟩ := hs.putCharacter a
      obtain ⟨hput', htwo⟩ := hone.putCharacter b
      obtain ⟨n, lineBreak, hbreak, hwrite, -⟩ :=
        writeQuartet_two htwo.count_eq htwo.first_eq htwo.second_eq htwo.column_eq
      refine ⟨((s.hold a).hold b).flushed (quartet2 a b ++ lineBreak) n,
        quartet2 a b ++ lineBreak, ?_, rfl, .two a b ?_⟩
      · rw [putCharacters, hput, bind_some, putCharacters, hput', bind_some,
          putCharacters, bind_some, close, hwrite, htwo.count_eq]
        rfl
      · exact append_nil lineBreak ▸ hbreak.encodes .nil
  | a :: b :: c :: characters, s, hs => by
      obtain ⟨hput, hone⟩ := hs.putCharacter a
      obtain ⟨hput', htwo⟩ := hone.putCharacter b
      obtain ⟨s₁, lineBreak, hbreak, hput'', hs₁, hbase₁⟩ := htwo.putCharacter c
      obtain ⟨s', text, hrun, hbase, htext⟩ := putCharacters_encodes characters s₁ hs₁
      refine ⟨s', quartet3 a b c ++ (lineBreak ++ text), ?_, ?_,
        .three a b c (hbreak.encodes htext)⟩
      · rw [putCharacters, hput, bind_some, putCharacters, hput', bind_some,
          putCharacters, hput'', bind_some, hrun]
      · rw [hbase, hbase₁, append_assoc, append_assoc]
        rfl

end Base64EncodingOutputStream

end Gobo
