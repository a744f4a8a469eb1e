/-
What `UT_BASE64_ENCODING_OUTPUT_STREAM` writes when it normalizes line breaks: the text that it
buffers is that of a stream which does not, put its characters with the breaks replaced.
-/
import Gobo.Base64Decoding

namespace Gobo

open Option List Text Base64

namespace Base64

/-- The characters with every line break replaced by a carriage return and a line feed. -/
def normalized : List UInt8 → List UInt8
  | [] => []
  | [c] => if c = carriageReturn ∨ c = newLine then [carriageReturn, newLine] else [c]
  | c :: d :: characters =>
      if c = carriageReturn ∧ d = newLine then
        carriageReturn :: newLine :: normalized characters
      else if c = carriageReturn ∨ c = newLine then
        carriageReturn :: newLine :: normalized (d :: characters)
      else c :: normalized (d :: characters)

/-- The characters that the stream buffers; `pending` tells that it has buffered a carriage
return whose line feed is still missing. -/
def buffered (pending : Bool) : List UInt8 → List UInt8
  | [] => []
  | c :: characters =>
      if pending then
        if c = newLine then newLine :: buffered false characters
        else newLine :: c :: buffered (decide (c = carriageReturn)) characters
      else if c = newLine then carriageReturn :: newLine :: buffered false characters
      else c :: buffered (decide (c = carriageReturn)) characters

/-- A break is buffered as it should be, save that a carriage return at the end of the
characters is left without its line feed. -/
theorem normalized_eq (characters : List UInt8) :
    normalized characters = buffered false characters ++
      if characters.getLast? = some carriageReturn then [newLine] else [] := by
  induction characters using normalized.induct with
  | case1 => rfl
  | case2 c hbreak =>
      rcases hbreak with rfl | rfl
      · rfl
      · rfl
  | case3 c hbreak =>
      rw [not_or] at hbreak
      simp [normalized, buffered, hbreak]
  | case4 c d characters hbreak ih =>
      obtain ⟨rfl, rfl⟩ := hbreak
      have hlast : (carriageReturn :: newLine :: characters).getLast? = some carriageReturn ↔
          characters.getLast? = some carriageReturn := by
        cases characters with
        | nil => exact iff_of_false (by decide) (by decide)
        | cons e characters => rw [getLast?_cons_cons, getLast?_cons_cons]
      have hnormalized : normalized (carriageReturn :: newLine :: characters) =
          carriageReturn :: newLine :: normalized characters := if_pos ⟨rfl, rfl⟩
      rw [hnormalized, ih]
      simp only [hlast]
      rfl
  | case5 c d characters hnot hbreak ih =>
      rw [normalized, if_neg hnot, if_pos hbreak, ih, getLast?_cons_cons]
      rcases hbreak with rfl | rfl
      · have hd : d ≠ newLine := fun h => hnot ⟨rfl, h⟩
        have hcr : carriageReturn ≠ newLine := by decide
        simp [buffered, hd, hcr]
      · simp [buffered]
  | case6 c d characters hnot hbreak ih =>
      rw [not_or] at hbreak
      rw [normalized, if_neg hnot, if_neg (not_or.mpr hbreak), ih, getLast?_cons_cons]
      simp [buffered, hbreak]

end Base64

namespace Base64EncodingOutputStream

/-- The stream with other flags of the normalization. -/
def withFlags (s : Base64EncodingOutputStream) (isNormalizing isPendingLineBreak : Bool) :
    Base64EncodingOutputStream :=
  { s with isNormalizing := isNormalizing, isPendingLineBreak := isPendingLineBreak }

variable {s : Base64EncodingOutputStream} {n p : Bool}

/-- What writes to the base stream takes no notice of the flags. -/
def Ignores (f : Base64EncodingOutputStream → Option Base64EncodingOutputStream) : Prop :=
  ∀ s n p, f (withFlags s n p) = (f s).map (withFlags · n p)

theorem ignores_writeCharacter (c : Nat) : Ignores (writeCharacter · c) := by
  intro s n p
  simp only [writeCharacter]
  cases base64Alphabet[c]? with
  | none => rfl
  | some character =>
      by_cases hbreaking : s.isLineBreaking = true
      · by_cases hfull : s.lineCount + 1 = fullLineCount
        · simp [withFlags, hbreaking, hfull]
        · simp [withFlags, hbreaking, hfull]
      · simp [withFlags, hbreaking]

theorem ignores_writeQuartet : Ignores writeQuartet := by
  intro s n p
  have hwrite : ∀ (s : Base64EncodingOutputStream) (c : Nat), (s.withFlags n p).writeCharacter c =
      (s.writeCharacter c).map (withFlags · n p) := fun s c => ignores_writeCharacter c s n p
  have htriplet : ∀ s : Base64EncodingOutputStream, (s.withFlags n p).triplet = s.triplet :=
    fun _ => rfl
  have hcount : ∀ s : Base64EncodingOutputStream,
      (s.withFlags n p).tripletCount = s.tripletCount := fun _ => rfl
  simp only [writeQuartet, Option.bind_eq_bind, htriplet, hwrite, Option.bind_map,
    Option.map_bind, Function.comp_def, hcount, apply_ite (Option.map (withFlags · n p)),
    Option.map_some]
  rfl

theorem ignores_bufferCharacter (c : UInt8) : Ignores (bufferCharacter · c) := by
  intro s n p
  have hwrite := ignores_writeQuartet (s.hold c) n p
  change (if s.tripletCount < s.triplet.length then
      if (s.hold c).tripletCount = 3 then ((s.hold c).withFlags n p).writeQuartet
      else some ((s.hold c).withFlags n p)
    else none) = (s.bufferCharacter c).map (withFlags · n p)
  unfold bufferCharacter
  by_cases hroom : s.tripletCount < s.triplet.length
  · by_cases hfull : (s.hold c).tripletCount = 3
    · simp only [if_pos hroom, if_pos hfull, hwrite]
    · simp only [if_pos hroom, if_neg hfull, map_some]
  · simp only [if_neg hroom, map_none]

section

variable (s : Base64EncodingOutputStream)

theorem bufferCharacter_withFlags (n p : Bool) (c : UInt8) :
    (s.withFlags n p).bufferCharacter c = (s.bufferCharacter c).map (withFlags · n p) :=
  ignores_bufferCharacter c s n p

/-- A stream that does not normalize buffers the characters that are put to it. -/
theorem putCharacter_plain (p : Bool) (c : UInt8) :
    (s.withFlags false p).putCharacter c = (s.withFlags false p).bufferCharacter c :=
  if_pos Bool.false_ne_true

/-- Which characters one character has buffered, and whether a line feed is then missing. -/
def emitted (pending : Bool) (c : UInt8) : List UInt8 × Bool :=
  if pending then
    if c = newLine then ([newLine], false) else ([newLine, c], decide (c = carriageReturn))
  else if c = newLine then ([carriageReturn, newLine], false)
  else ([c], decide (c = carriageReturn))

theorem buffered_cons (pending : Bool) (c : UInt8) (characters : List UInt8) :
    buffered pending (c :: characters) =
      (emitted pending c).1 ++ buffered (emitted pending c).2 characters := by
  simp only [buffered, emitted]
  split_ifs <;> rfl

theorem putCharacters_append (front back : List UInt8) :
    s.putCharacters (front ++ back) =
      (s.putCharacters front).bind (putCharacters · back) := by
  induction front generalizing s with
  | nil => rfl
  | cons c front ih =>
      rw [cons_append, putCharacters, putCharacters, bind_assoc]
      exact bind_congr fun t _ => ih t

/-- Neither flag changes when characters are put to a stream that does not normalize. -/
theorem putCharacters_plain (p q : Bool) (characters : List UInt8) :
    (s.withFlags false p).putCharacters characters =
      ((s.withFlags false q).putCharacters characters).map (withFlags · false p) := by
  induction characters generalizing s with
  | nil => rfl
  | cons c characters ih =>
      rw [putCharacters, putCharacters, putCharacter_plain, putCharacter_plain,
        bufferCharacter_withFlags, bufferCharacter_withFlags]
      cases s.bufferCharacter c with
      | none => rfl
      | some t => exact ih t

theorem putCharacters_one (d : UInt8) : (s.withFlags false false).putCharacters [d] =
      (s.bufferCharacter d).map (withFlags · false false) := by
  rw [putCharacters, putCharacter_plain, bufferCharacter_withFlags]
  cases s.bufferCharacter d <;> rfl

theorem putCharacters_two (d e : UInt8) :
    (s.withFlags false false).putCharacters [d, e] =
      ((s.bufferCharacter d).bind (bufferCharacter · e)).map (withFlags · false false) := by
  rw [putCharacters, putCharacter_plain, bufferCharacter_withFlags]
  cases s.bufferCharacter d with
  | none => rfl
  | some t => exact putCharacters_one t e

/-- A character put to a stream that normalizes has the same effect as the characters it has
buffered, put to one that does not. -/
theorem putCharacter_normalizing (p : Bool) (c : UInt8) :
    (s.withFlags true p).putCharacter c =
      ((s.withFlags false false).putCharacters (emitted p c).1).map
        (withFlags · true (emitted p c).2) := by
  unfold putCharacter emitted
  rw [if_neg (by simp [withFlags])]
  cases p with
  | true =>
      have hpending : (s.withFlags true true).isPendingLineBreak = true := rfl
      rw [if_pos hpending, if_pos rfl]
      by_cases hnew : c = newLine
      · rw [if_pos hnew, if_pos hnew, putCharacters_one, Option.map_map]
        exact bufferCharacter_withFlags s true false newLine
      · rw [if_neg hnew, if_neg hnew, putCharacters_two, Option.map_map]
        change ((s.withFlags true false).bufferCharacter newLine).bind _ = _
        rw [bufferCharacter_withFlags]
        cases s.bufferCharacter newLine with
        | none => rfl
        | some t =>
            change ((t.withFlags true false).bufferCharacter c).bind _ = _
            rw [bufferCharacter_withFlags]
            cases hput : t.bufferCharacter c with
            | none => simp [hput]
            | some u => simp [hput, withFlags]
  | false =>
      rw [if_neg (by simp [withFlags]), if_neg Bool.false_ne_true]
      by_cases hnew : c = newLine
      · rw [if_pos hnew, if_pos hnew, putCharacters_two, Option.map_map, Option.bind_eq_bind,
          bufferCharacter_withFlags]
        cases s.bufferCharacter carriageReturn with
        | none => rfl
        | some t => exact bufferCharacter_withFlags t true false newLine
      · rw [if_neg hnew, if_neg hnew, putCharacters_one, Option.map_map]
        by_cases hreturn : c = carriageReturn
        · rw [if_pos hreturn, Option.bind_eq_bind, bufferCharacter_withFlags]
          cases s.bufferCharacter c with
          | none => rfl
          | some t => simp [withFlags, hreturn]
        · rw [if_neg hreturn, bufferCharacter_withFlags]
          simp [withFlags, hreturn, Function.comp_def]

/-- A stream that normalizes writes what another one writes of the buffered characters. -/
theorem putCharacters_normalizing (p : Bool) (characters : List UInt8) :
    ∃ q, (s.withFlags true p).putCharacters characters =
      ((s.withFlags false false).putCharacters (buffered p characters)).map
        (withFlags · true q) := by
  induction characters generalizing s p with
  | nil => exact ⟨p, rfl⟩
  | cons c characters ih =>
      rw [putCharacters, putCharacter_normalizing, buffered_cons, putCharacters_append]
      cases hput : (s.withFlags false false).putCharacters (emitted p c).1 with
      | none => exact ⟨p, rfl⟩
      | some t =>
          rw [putCharacters_plain s false false] at hput
          obtain ⟨u, -, rfl⟩ := map_eq_some_iff.mp hput
          exact ih u (emitted p c).2

theorem close_withFlags (n p : Bool) :
    (s.withFlags n p).close = s.close.map (withFlags · n p) := by
  change (if s.tripletCount ≠ 0 then (s.withFlags n p).writeQuartet
    else some (s.withFlags n p)) = _
  unfold close
  by_cases hcount : s.tripletCount ≠ 0
  · rw [if_pos hcount, if_pos hcount]
    exact ignores_writeQuartet s n p
  · rw [if_neg hcount, if_neg hcount, map_some]

end

/-- What is written, when the stream is closed at the end, is an encoding of the buffered
characters. -/
theorem putCharacters_normalizing_encodes (isLineBreaking : Bool) (characters : List UInt8) :
    ∃ encoder, ((make isLineBreaking true).putCharacters characters).bind close = some encoder ∧
      Encodes encoder.base (buffered false characters) := by
  have haligned : (make isLineBreaking false).Aligned := ⟨rfl, rfl, fun _ => rfl⟩
  obtain ⟨encoder, text, hrun, hbase, htext⟩ :=
    putCharacters_encodes (buffered false characters) _ haligned
  obtain ⟨q, hput⟩ := putCharacters_normalizing (make isLineBreaking true) false characters
  change (make isLineBreaking true).putCharacters characters =
    ((make isLineBreaking false).putCharacters (buffered false characters)).map _ at hput
  obtain ⟨t, ht, hclose⟩ := bind_eq_some_iff.mp hrun
  have hbase : encoder.base = text := hbase
  refine ⟨encoder.withFlags true q, ?_, hbase ▸ htext⟩
  rw [hput, ht, map_some, bind_some, close_withFlags, hclose, map_some]

end Base64EncodingOutputStream

namespace Base64DecodingInputStream

/-- `Delivers text content`: decoding the text gives `content`, in whatever way it is read. -/
def Delivers (text content : List UInt8) : Prop :=
  ∀ requests : List Request, ∃ delivered rest s,
    (make text).readAll requests = some (delivered, s) ∧ content = delivered ++ rest ∧
      (s.endOfInput = true → delivered = content) ∧
        (content.length < requests.length → s.endOfInput = true)

theorem delivers_of_encodes {text content : List UInt8} (htext : Encodes text content) :
    Delivers text content := by
  intro requests
  have hlive : (make text).Live [] content :=
    ⟨Nat.le_add_left 1 3, Nat.le_refl 4, rfl, rfl, nofun, fun _ => htext⟩
  have hremaining : (make text).Remaining content := Or.inl ⟨[], content, rfl, hlive⟩
  obtain ⟨delivered, rest, s, hread, hcontent, hfinal, hends⟩ :=
    readAll_spec requests hremaining rfl
  refine ⟨delivered, rest, s, hread, hcontent, fun hend => ?_, hends⟩
  rw [hcontent, hfinal hend, append_nil]

/-- A text has one content only: enough requests deliver all of it. -/
theorem Delivers.unique {text content content' : List UInt8} (h : Delivers text content)
    (h' : Delivers text content') : content = content' := by
  have hlength : content.length < (replicate (content.length + content'.length + 1)
      Request.character).length := by
    rw [length_replicate]
    omega
  have hlength' : content'.length < (replicate (content.length + content'.length + 1)
      Request.character).length := by
    rw [length_replicate]
    omega
  obtain ⟨delivered, -, s, hread, -, hall, hends⟩ := h (replicate _ .character)
  obtain ⟨delivered', -, s', hread', -, hall', hends'⟩ := h' (replicate _ .character)
  rw [hread, some.injEq, Prod.mk.injEq] at hread'
  obtain ⟨rfl, rfl⟩ := hread'
  exact (hall (hends hlength)).symm.trans (hall' (hends' hlength'))

end Base64DecodingInputStream

end Gobo
