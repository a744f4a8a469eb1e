/-
What the UTF-8 routines accept and decode is what they encode.
-/
import Gobo.Utf8Routines

namespace Gobo

open Option List

namespace Utf8Routines

open Text

/-- The bytes of one character. -/
def encode (code : Nat) : List UInt8 := appendCode [] code

/-- The value of the bytes of a character. -/
def value : List UInt8 → Nat
  | [] => 0
  | first :: rest =>
      rest.foldl (fun code byte => code * 64 + encodedNextValue byte) (encodedFirstValue first)

/-- As many bytes as the first one asks for, each in its range. -/
def IsCharacter : List UInt8 → Prop
  | [] => False
  | [first] => isEncodedFirstByte first = true ∧ encodedByteCount first = 1
  | first :: second :: rest =>
      isEncodedFirstByte first = true ∧ encodedByteCount first = rest.length + 2 ∧
        isEncodedSecondByte second first = true ∧ ∀ byte ∈ rest, isEncodedNextByte byte = true

section

variable {b₁ b₂ b₃ b₄ : UInt8}

theorem isEncodedFirstByte_iff :
    isEncodedFirstByte b₁ = true ↔ b₁.toNat ≤ 127 ∨ 194 ≤ b₁.toNat ∧ b₁.toNat ≤ 244 :=
  decide_eq_true_iff

theorem isEncodedNextByte_iff :
    isEncodedNextByte b₁ = true ↔ 128 ≤ b₁.toNat ∧ b₁.toNat ≤ 191 :=
  decide_eq_true_iff

theorem isEncodedSecondByte_iff : isEncodedSecondByte b₂ b₁ = true ↔
    128 ≤ b₂.toNat ∧ b₂.toNat ≤ 191 ∧ (b₁.toNat = 224 → 160 ≤ b₂.toNat) ∧
      (b₁.toNat = 237 → b₂.toNat ≤ 159) ∧ (b₁.toNat = 240 → 144 ≤ b₂.toNat) ∧
      (b₁.toNat = 244 → b₂.toNat ≤ 143) := by
  unfold isEncodedSecondByte
  split_ifs <;> rw [decide_eq_true_eq] <;> omega

theorem encodedByteCount_cases (b : UInt8) : encodedByteCount b = 1 ∧ b.toNat ≤ 127 ∨
      encodedByteCount b = 2 ∧ 128 ≤ b.toNat ∧ b.toNat ≤ 223 ∨
      encodedByteCount b = 3 ∧ 224 ≤ b.toNat ∧ b.toNat ≤ 239 ∨
      encodedByteCount b = 4 ∧ 240 ≤ b.toNat := by
  unfold encodedByteCount
  split_ifs <;> omega

theorem isCharacter_one : IsCharacter [b₁] ↔ b₁.toNat ≤ 127 := by
  have hcount := encodedByteCount_cases b₁
  rw [IsCharacter, isEncodedFirstByte_iff]
  omega

theorem isCharacter_two : IsCharacter [b₁, b₂] ↔
    194 ≤ b₁.toNat ∧ b₁.toNat ≤ 223 ∧ 128 ≤ b₂.toNat ∧ b₂.toNat ≤ 191 := by
  have hcount := encodedByteCount_cases b₁
  rw [IsCharacter, isEncodedFirstByte_iff, isEncodedSecondByte_iff, length_nil,
    and_iff_left (forall_mem_nil _)]
  omega

theorem isCharacter_three : IsCharacter [b₁, b₂, b₃] ↔
    224 ≤ b₁.toNat ∧ b₁.toNat ≤ 239 ∧ 128 ≤ b₂.toNat ∧ b₂.toNat ≤ 191 ∧
      128 ≤ b₃.toNat ∧ b₃.toNat ≤ 191 ∧ (b₁.toNat = 224 → 160 ≤ b₂.toNat) ∧
      (b₁.toNat = 237 → b₂.toNat ≤ 159) := by
  have hcount := encodedByteCount_cases b₁
  rw [IsCharacter, isEncodedFirstByte_iff, isEncodedSecondByte_iff, length_singleton,
    forall_mem_singleton, isEncodedNextByte_iff]
  omega

theorem isCharacter_four : IsCharacter [b₁, b₂, b₃, b₄] ↔
    240 ≤ b₁.toNat ∧ b₁.toNat ≤ 244 ∧ 128 ≤ b₂.toNat ∧ b₂.toNat ≤ 191 ∧
      128 ≤ b₃.toNat ∧ b₃.toNat ≤ 191 ∧ 128 ≤ b₄.toNat ∧ b₄.toNat ≤ 191 ∧
      (b₁.toNat = 240 → 144 ≤ b₂.toNat) ∧ (b₁.toNat = 244 → b₂.toNat ≤ 143) := by
  have hcount := encodedByteCount_cases b₁
  rw [IsCharacter, isEncodedFirstByte_iff, isEncodedSecondByte_iff, length_cons,
    length_singleton, forall_mem_cons, forall_mem_singleton, isEncodedNextByte_iff,
    isEncodedNextByte_iff]
  omega

theorem value_one (h : b₁.toNat ≤ 127) : value [b₁] = b₁.toNat := if_pos h

theorem value_two (h : 194 ≤ b₁.toNat ∧ b₁.toNat ≤ 223) :
    value [b₁, b₂] = b₁.toNat % 32 * 64 + b₂.toNat % 64 := by
  simp only [value, foldl, encodedFirstValue, encodedNextValue]
  rw [if_neg (by omega), if_pos h.2]

theorem value_three (h : 224 ≤ b₁.toNat ∧ b₁.toNat ≤ 239) :
    value [b₁, b₂, b₃] = (b₁.toNat % 16 * 64 + b₂.toNat % 64) * 64 + b₃.toNat % 64 := by
  simp only [value, foldl, encodedFirstValue, encodedNextValue]
  rw [if_neg (by omega), if_neg (by omega), if_pos h.2]

theorem value_four (h : 240 ≤ b₁.toNat ∧ b₁.toNat ≤ 244) : value [b₁, b₂, b₃, b₄] =
      ((b₁.toNat % 8 * 64 + b₂.toNat % 64) * 64 + b₃.toNat % 64) * 64 + b₄.toNat % 64 := by
  simp only [value, foldl, encodedFirstValue, encodedNextValue]
  rw [if_neg (by omega), if_neg (by omega), if_neg (by omega), if_pos h.2]

end

section

variable {s w rest : List UInt8} {code : Nat}

theorem appendCode_eq (s : List UInt8) (code : Nat) : appendCode s code = s ++ encode code := by
  unfold encode appendCode
  split_ifs <;> rfl

theorem toNat_ofNat {n : Nat} (h : n < 256) : (UInt8.ofNat n).toNat = n :=
  UInt8.toNat_ofNat_of_lt h

theorem ofNat_eq {n : Nat} {b : UInt8} (h : n = b.toNat) : UInt8.ofNat n = b := by
  rw [h, UInt8.ofNat_toNat]

theorem encode_spec (h : validNonSurrogateCode code = true) :
    IsCharacter (encode code) ∧ value (encode code) = code ∧
      (encode code).length = codeByteCount code := by
  unfold validNonSurrogateCode at h
  rw [decide_eq_true_eq] at h
  unfold encode appendCode codeByteCount
  split_ifs <;> try omega
  · have h1 := toNat_ofNat (show code < 256 by omega)
    refine ⟨isCharacter_one.mpr (by omega), ?_, rfl⟩
    rw [nil_append, value_one (by omega), h1]
  · have h1 := toNat_ofNat (show code / 64 + 192 < 256 by omega)
    have h2 := toNat_ofNat (show code % 64 + 128 < 256 by omega)
    refine ⟨isCharacter_two.mpr (by omega), ?_, rfl⟩
    rw [nil_append, value_two (by omega), h1, h2]
    omega
  · have h1 := toNat_ofNat (show code / 64 / 64 + 224 < 256 by omega)
    have h2 := toNat_ofNat (show code / 64 % 64 + 128 < 256 by omega)
    have h3 := toNat_ofNat (show code % 64 + 128 < 256 by omega)
    refine ⟨isCharacter_three.mpr (by omega), ?_, rfl⟩
    rw [nil_append, value_three (by omega), h1, h2, h3]
    omega
  · have h1 := toNat_ofNat (show code / 64 / 64 + 224 < 256 by omega)
    have h2 := toNat_ofNat (show code / 64 % 64 + 128 < 256 by omega)
    have h3 := toNat_ofNat (show code % 64 + 128 < 256 by omega)
    refine ⟨isCharacter_three.mpr (by omega), ?_, rfl⟩
    rw [nil_append, value_three (by omega), h1, h2, h3]
    omega
  · have h1 := toNat_ofNat (show code / 64 / 64 / 64 + 240 < 256 by omega)
    have h2 := toNat_ofNat (show code / 64 / 64 % 64 + 128 < 256 by omega)
    have h3 := toNat_ofNat (show code / 64 % 64 + 128 < 256 by omega)
    have h4 := toNat_ofNat (show code % 64 + 128 < 256 by omega)
    refine ⟨isCharacter_four.mpr (by omega), ?_, rfl⟩
    rw [nil_append, value_four (by omega), h1, h2, h3, h4]
    omega

/-- The first byte tells how many there are. -/
theorem length_of_isCharacter (h : IsCharacter w) :
    ∃ first tail, w = first :: tail ∧ isEncodedFirstByte first = true ∧
      encodedByteCount first = tail.length + 1 := by
  match w with
  | [first] => exact ⟨first, [], rfl, h⟩
  | first :: second :: tail => exact ⟨first, second :: tail, rfl, h.1, h.2.1⟩

/-- What a character's bytes stand for is what they encode. -/
theorem encode_value (h : IsCharacter w) :
    validNonSurrogateCode (value w) = true ∧ encode (value w) = w := by
  obtain ⟨first, tail, rfl, -, hcount⟩ := length_of_isCharacter h
  have hle := encodedByteCount_cases first
  unfold validNonSurrogateCode
  rw [decide_eq_true_eq]
  match tail with
  | [] =>
    have hb := isCharacter_one.mp h
    rw [value_one hb]
    refine ⟨by omega, ?_⟩
    unfold encode appendCode
    rw [if_pos (by omega), UInt8.ofNat_toNat]
    rfl
  | [b₂] =>
    have hb := isCharacter_two.mp h
    rw [value_two (by omega)]
    refine ⟨by omega, ?_⟩
    unfold encode appendCode
    rw [if_neg (by omega), if_pos (by omega), ofNat_eq (b := first) (by omega),
      ofNat_eq (b := b₂) (by omega)]
    rfl
  | [b₂, b₃] =>
    have hb := isCharacter_three.mp h
    rw [value_three (by omega)]
    refine ⟨by omega, ?_⟩
    unfold encode appendCode
    rw [if_neg (by omega), if_neg (by omega), if_pos (by omega), if_neg (by omega),
      ofNat_eq (b := first) (by omega), ofNat_eq (b := b₂) (by omega),
      ofNat_eq (b := b₃) (by omega)]
    rfl
  | [b₂, b₃, b₄] =>
    have hb := isCharacter_four.mp h
    rw [value_four (by omega)]
    refine ⟨by omega, ?_⟩
    unfold encode appendCode
    rw [if_neg (by omega), if_neg (by omega), if_neg (by omega), if_pos (by omega),
      ofNat_eq (b := first) (by omega), ofNat_eq (b := b₂) (by omega),
      ofNat_eq (b := b₃) (by omega), ofNat_eq (b := b₄) (by omega)]
    rfl
  | _ :: _ :: _ :: _ :: _ =>
    rw [length_cons, length_cons, length_cons, length_cons] at hcount
    omega

end

/-- The second byte excludes the codes that fewer bytes encode. -/
theorem code_large {first second : UInt8} (hfirst : isEncodedFirstByte first = true)
    (hsecond : isEncodedSecondByte second first = true) :
    ¬(encodedByteCount first = 2 ∧
          encodedFirstValue first * 64 + encodedNextValue second ≤ 127 ∨
        encodedByteCount first = 3 ∧
          encodedFirstValue first * 64 + encodedNextValue second ≤ 31 ∨
        encodedByteCount first = 4 ∧
          encodedFirstValue first * 64 + encodedNextValue second ≤ 15) := by
  have hcount := encodedByteCount_cases first
  rw [isEncodedFirstByte_iff] at hfirst
  rw [isEncodedSecondByte_iff] at hsecond
  unfold encodedFirstValue encodedNextValue
  split_ifs <;> omega

section

variable {pre w rest : List UInt8} {fuel k n : Nat}

/-- The bytes from `pre` on, which the loops look at one by one. -/
theorem nextBytes_eq (pre w rest : List UInt8) :
    nextBytes (pre ++ w ++ rest) w.length (pre.length + 1) = some (w.all isEncodedNextByte) := by
  induction w generalizing pre with
  | nil => rfl
  | cons byte w ih =>
      have htail := ih (pre ++ [byte])
      rw [length_append, length_singleton, append_assoc, append_assoc,
        singleton_append] at htail
      have hitem : item (pre ++ (byte :: w) ++ rest) (pre.length + 1) = some byte := by
        rw [append_assoc]
        exact item_append pre _ 0
      rw [length_cons, nextBytes, hitem, bind_eq_bind, bind_some, all_cons]
      rw [append_assoc]
      cases hbyte : isEncodedNextByte byte
      · rfl
      · exact htail

/-- A character is accepted, whatever follows it. -/
theorem validFrom_of_isCharacter (hw : IsCharacter w) :
    validFrom (pre ++ w ++ rest) (pre ++ w ++ rest).length (fuel + 1) (pre.length + 1) =
      validFrom (pre ++ w ++ rest) (pre ++ w ++ rest).length fuel (pre.length + 1 + w.length) := by
  have hlength : (pre ++ w ++ rest).length = pre.length + w.length + rest.length := by
    rw [length_append, length_append]
  match w with
  | [first] =>
    have hitem : item (pre ++ [first] ++ rest) (pre.length + 1) = some first := by
      rw [append_assoc]
      exact item_append pre _ 0
    rw [length_singleton] at hlength
    rw [validFrom, if_neg (by omega), hitem, bind_eq_bind, bind_some, if_pos hw.1,
      if_pos hw.2, length_singleton]
  | first :: second :: tail =>
    obtain ⟨hfirst, hcount, hsecond, htail⟩ := hw
    have hitem : item (pre ++ first :: second :: tail ++ rest) (pre.length + 1) = some first := by
      rw [append_assoc]
      exact item_append pre _ 0
    have hitem' : item (pre ++ first :: second :: tail ++ rest) (pre.length + 1 + 1) =
        some second := by
      rw [append_assoc]
      exact item_append pre _ 1
    have hnext := nextBytes_eq (pre ++ [first, second]) tail rest
    rw [length_append, append_assoc pre, cons_append, singleton_append,
      all_eq_true.mpr htail] at hnext
    rw [length_cons, length_cons] at hlength
    rw [validFrom, if_neg (by omega), hitem, bind_eq_bind, bind_some, if_pos hfirst,
      if_neg (by omega)]
    rw [if_neg (by omega), hitem', bind_some, if_pos hsecond,
      if_neg (code_large hfirst hsecond), hcount,
      show pre.length + 1 + (tail.length + 2) - 1 + 1 - (pre.length + 1 + 2) = tail.length by omega]
    rw [show pre.length + [first, second].length + 1 = pre.length + 1 + 2 by
      rw [length_cons, length_singleton]] at hnext
    rw [hnext, bind_eq_bind, bind_some, if_pos rfl, length_cons, length_cons]
    rfl

/-- Anything else is rejected. -/
theorem validFrom_eq_false (hrest : rest ≠ [])
    (hw : ∀ w rest', rest = w ++ rest' → ¬IsCharacter w) :
    validFrom (pre ++ rest) (pre ++ rest).length (fuel + 1) (pre.length + 1) = some false := by
  have hlength : (pre ++ rest).length = pre.length + rest.length := length_append
  obtain ⟨first, tail, rfl⟩ := exists_cons_of_ne_nil hrest
  have hitem : item (pre ++ first :: tail) (pre.length + 1) = some first := item_append pre _ 0
  rw [length_cons] at hlength
  rw [validFrom, if_neg (by omega), hitem, bind_eq_bind, bind_some]
  by_cases hfirst : isEncodedFirstByte first = true
  · rw [if_pos hfirst]
    have hone : encodedByteCount first ≠ 1 := fun hone => hw [first] tail rfl ⟨hfirst, hone⟩
    have hcount := encodedByteCount_cases first
    rw [if_neg hone]
    by_cases hshort : tail.length + 1 < encodedByteCount first
    · rw [if_pos (by omega)]
    · rw [if_neg (by omega)]
      obtain ⟨second, tail, rfl⟩ := exists_cons_of_length_pos (show 0 < tail.length by omega)
      have hitem' : item (pre ++ first :: second :: tail) (pre.length + 1 + 1) = some second :=
        item_append pre _ 1
      rw [hitem', bind_some]
      by_cases hsecond : isEncodedSecondByte second first = true
      · rw [length_cons] at hshort
        rw [if_pos hsecond, if_neg (code_large hfirst hsecond)]
        have hsplit := take_append_drop (encodedByteCount first - 2) tail
        have htake : (tail.take (encodedByteCount first - 2)).length =
            encodedByteCount first - 2 := by
          rw [length_take]
          omega
        have hnext := nextBytes_eq (pre ++ [first, second])
          (tail.take (encodedByteCount first - 2)) (tail.drop (encodedByteCount first - 2))
        rw [append_assoc, hsplit, htake, length_append, append_assoc,
          cons_append, singleton_append,
          show pre.length + [first, second].length + 1 = pre.length + 1 + 2 by
            rw [length_cons, length_singleton]] at hnext
        rw [show pre.length + 1 + encodedByteCount first - 1 + 1 - (pre.length + 1 + 2) =
          encodedByteCount first - 2 by omega, hnext, bind_eq_bind, bind_some]
        refine if_neg fun hall => ?_
        refine hw (first :: second :: tail.take (encodedByteCount first - 2))
          (tail.drop (encodedByteCount first - 2)) ?_
          ⟨hfirst, by omega, hsecond, all_eq_true.mp hall⟩
        rw [cons_append, cons_append, hsplit]
      · rw [if_neg hsecond]
  · rw [if_neg hfirst]

end

section

variable {pre w w' rest rest' : List UInt8} {codes : List Nat} {fuel n : Nat}

/-- Two characters at the same place are one. -/
theorem isCharacter_unique (hw : IsCharacter w) (hw' : IsCharacter w')
    (h : w ++ rest = w' ++ rest') : w = w' ∧ rest = rest' := by
  obtain ⟨first, tail, rfl, -, hcount⟩ := length_of_isCharacter hw
  obtain ⟨first', tail', rfl, -, hcount'⟩ := length_of_isCharacter hw'
  obtain rfl : first = first' := (cons.inj h).1
  exact append_inj h (by rw [length_cons, length_cons, ← hcount, hcount'])

theorem length_pos_of_isCharacter (hw : IsCharacter w) : 0 < w.length := by
  obtain ⟨first, tail, rfl, -⟩ := length_of_isCharacter hw
  exact Nat.succ_pos _

theorem exists_first (pre rest : List UInt8) (hw : IsCharacter w) :
    ∃ first, item (pre ++ (w ++ rest)) (pre.length + 1) = some first ∧
      encodedByteCount first = w.length := by
  obtain ⟨first, tail, rfl, -, hcount⟩ := length_of_isCharacter hw
  exact ⟨first, item_append pre _ 0, hcount⟩

/-- What is left is accepted when it is a sequence of characters. -/
theorem validFrom_spec (pre rest : List UInt8) (hfuel : rest.length < fuel) :
    ∃ r, validFrom (pre ++ rest) (pre ++ rest).length fuel (pre.length + 1) = some r ∧
      (r = true ↔ ∃ codes : List Nat, (∀ code ∈ codes, validNonSurrogateCode code = true) ∧
        rest = codes.flatMap encode) := by
  induction fuel generalizing pre rest with
  | zero => omega
  | succ fuel ih =>
      by_cases hw : ∃ w rest', rest = w ++ rest' ∧ IsCharacter w
      · obtain ⟨w, rest', rfl, hw⟩ := hw
        have hpos := length_pos_of_isCharacter hw
        rw [length_append] at hfuel
        obtain ⟨r, hrun, hr⟩ := ih (pre ++ w) rest' (by omega)
        rw [← append_assoc, validFrom_of_isCharacter hw]
        rw [length_append_succ] at hrun
        refine ⟨r, hrun, hr.trans ⟨?_, ?_⟩⟩
        · rintro ⟨codes, hcodes, rfl⟩
          obtain ⟨hvalue, hencode⟩ := encode_value hw
          refine ⟨value w :: codes, ?_, ?_⟩
          · exact forall_mem_cons.mpr ⟨hvalue, hcodes⟩
          · rw [flatMap_cons, hencode]
        · rintro ⟨codes, hcodes, hsplit⟩
          cases codes with
          | nil =>
              rw [flatMap_nil] at hsplit
              rw [append_eq_nil_iff.mp hsplit |>.1] at hpos
              exact absurd hpos (Nat.lt_irrefl 0)
          | cons code codes =>
              obtain ⟨hcode, hcodes⟩ := forall_mem_cons.mp hcodes
              rw [flatMap_cons] at hsplit
              exact ⟨codes, hcodes, (isCharacter_unique hw (encode_spec hcode).1 hsplit).2⟩
      · by_cases hrest : rest = []
        · subst hrest
          refine ⟨true, ?_, fun _ => ⟨[], fun _ h => absurd h (not_mem_nil), rfl⟩, fun _ => rfl⟩
          rw [append_nil, validFrom, if_pos (Nat.lt_succ_self _)]
        · refine ⟨false, validFrom_eq_false hrest fun w rest' hsplit hchar =>
            hw ⟨w, rest', hsplit, hchar⟩, ?_⟩
          refine iff_of_false (by decide) ?_
          rintro ⟨codes, hcodes, rfl⟩
          cases codes with
          | nil => exact hrest rfl
          | cons code codes =>
              obtain ⟨hcode, -⟩ := forall_mem_cons.mp hcodes
              exact hw ⟨encode code, codes.flatMap encode, rfl, (encode_spec hcode).1⟩

theorem countFrom_eq (pre : List UInt8) (hcodes : ∀ code ∈ codes, validNonSurrogateCode code = true)
    (hfuel : (codes.flatMap encode).length < fuel) :
    countFrom (pre ++ codes.flatMap encode) (pre ++ codes.flatMap encode).length fuel
      (pre.length + 1) n = some (n + codes.length) := by
  induction codes generalizing pre fuel n with
  | nil =>
      obtain ⟨fuel, rfl⟩ := Nat.exists_eq_succ_of_ne_zero (Nat.ne_zero_of_lt hfuel)
      rw [flatMap_nil, append_nil, countFrom, if_pos (Nat.lt_succ_self _)]
      rfl
  | cons code codes ih =>
      obtain ⟨fuel, rfl⟩ := Nat.exists_eq_succ_of_ne_zero (Nat.ne_zero_of_lt hfuel)
      obtain ⟨hcode, hcodes⟩ := forall_mem_cons.mp hcodes
      obtain ⟨hchar, -⟩ := encode_spec hcode
      have hpos := length_pos_of_isCharacter hchar
      rw [flatMap_cons, length_append] at hfuel
      have htail := ih (pre ++ encode code) (n := n + 1) hcodes (show _ < fuel by omega)
      rw [length_append_succ, append_assoc] at htail
      obtain ⟨first, hitem, hcount⟩ := exists_first pre (codes.flatMap encode) hchar
      have hlength : (pre ++ (encode code ++ codes.flatMap encode)).length =
          pre.length + ((encode code).length + (codes.flatMap encode).length) := by
        rw [length_append, length_append]
      rw [flatMap_cons, countFrom, if_neg (by omega), hitem, bind_eq_bind,
        bind_some, hcount, htail, length_cons, Nat.add_assoc, Nat.add_comm 1]

end

section

variable {code : List UInt8 → Nat → Option Nat} {w : List UInt8} {codes : List Nat} {fuel n : Nat}

theorem or_shiftLeft {a b k : Nat} (hb : b < 2 ^ k) : (a <<< k) ||| b = a * 2 ^ k + b := by
  rw [← Nat.shiftLeft_add_eq_or_of_lt hb, Nat.shiftLeft_eq]

theorem twoByteCharacterCode_eq (b₁ b₂ : UInt8) :
    twoByteCharacterCode b₁ b₂ = b₁.toNat % 32 * 64 + b₂.toNat % 64 := by
  have h₁ : b₁.toNat &&& 0x1F = b₁.toNat % 32 := Nat.and_two_pow_sub_one_eq_mod _ 5
  have h₂ : b₂.toNat &&& 0x3F = b₂.toNat % 64 := Nat.and_two_pow_sub_one_eq_mod _ 6
  unfold twoByteCharacterCode
  rw [h₁, h₂]
  exact or_shiftLeft (k := 6) (Nat.mod_lt _ (by decide))

theorem threeByteCharacterCode_eq (b₁ b₂ b₃ : UInt8) : threeByteCharacterCode b₁ b₂ b₃ =
    (b₁.toNat % 16 * 64 + b₂.toNat % 64) * 64 + b₃.toNat % 64 := by
  have h₁ : b₁.toNat &&& 0x0F = b₁.toNat % 16 := Nat.and_two_pow_sub_one_eq_mod _ 4
  have h₂ : b₂.toNat &&& 0x3F = b₂.toNat % 64 := Nat.and_two_pow_sub_one_eq_mod _ 6
  have h₃ : b₃.toNat &&& 0x3F = b₃.toNat % 64 := Nat.and_two_pow_sub_one_eq_mod _ 6
  have hhigh : (b₁.toNat % 16) <<< 12 ||| (b₂.toNat % 64) <<< 6 =
      (b₁.toNat % 16 * 64 + b₂.toNat % 64) <<< 6 := by
    rw [Nat.shiftLeft_eq (b₂.toNat % 64), or_shiftLeft (by omega), Nat.shiftLeft_eq]
    omega
  unfold threeByteCharacterCode
  rw [h₁, h₂, h₃, hhigh]
  exact or_shiftLeft (k := 6) (Nat.mod_lt _ (by decide))

theorem fourByteCharacterCode_eq (b₁ b₂ b₃ b₄ : UInt8) : fourByteCharacterCode b₁ b₂ b₃ b₄ =
    ((b₁.toNat % 8 * 64 + b₂.toNat % 64) * 64 + b₃.toNat % 64) * 64 + b₄.toNat % 64 := by
  have h₁ : b₁.toNat &&& 0x07 = b₁.toNat % 8 := Nat.and_two_pow_sub_one_eq_mod _ 3
  have h₂ : b₂.toNat &&& 0x3F = b₂.toNat % 64 := Nat.and_two_pow_sub_one_eq_mod _ 6
  have h₃ : b₃.toNat &&& 0x3F = b₃.toNat % 64 := Nat.and_two_pow_sub_one_eq_mod _ 6
  have h₄ : b₄.toNat &&& 0x3F = b₄.toNat % 64 := Nat.and_two_pow_sub_one_eq_mod _ 6
  have hhigh : (b₁.toNat % 8) <<< 18 ||| (b₂.toNat % 64) <<< 12 =
      (b₁.toNat % 8 * 64 + b₂.toNat % 64) <<< 12 := by
    rw [Nat.shiftLeft_eq (b₂.toNat % 64), or_shiftLeft (by omega), Nat.shiftLeft_eq]
    omega
  have hmiddle : (b₁.toNat % 8 * 64 + b₂.toNat % 64) <<< 12 ||| (b₃.toNat % 64) <<< 6 =
      ((b₁.toNat % 8 * 64 + b₂.toNat % 64) * 64 + b₃.toNat % 64) <<< 6 := by
    rw [Nat.shiftLeft_eq (b₃.toNat % 64), or_shiftLeft (by omega), Nat.shiftLeft_eq]
    omega
  unfold fourByteCharacterCode
  rw [h₁, h₂, h₃, h₄, hhigh, hmiddle]
  exact or_shiftLeft (k := 6) (Nat.mod_lt _ (by decide))

/-- The masks give the value of a character. -/
theorem maskedCode_eq (pre rest : List UInt8) (hw : IsCharacter w) :
    maskedCode (pre ++ (w ++ rest)) (pre.length + 1) = some (value w) := by
  obtain ⟨first, tail, rfl, -, hcount⟩ := length_of_isCharacter hw
  have hcases := encodedByteCount_cases first
  have hitem := item_append pre (first :: tail ++ rest)
  unfold maskedCode
  match tail with
  | [] =>
    have hb := isCharacter_one.mp hw
    rw [show item _ (pre.length + 1) = some first from hitem 0, bind_eq_bind,
      bind_some, hcount, value_one hb]
    rfl
  | [b₂] =>
    have hb := isCharacter_two.mp hw
    rw [show item _ (pre.length + 1) = some first from hitem 0, bind_eq_bind,
      bind_some, hcount, value_two (by omega), ← twoByteCharacterCode_eq]
    exact bind_eq_some_iff.mpr ⟨b₂, hitem 1, rfl⟩
  | [b₂, b₃] =>
    have hb := isCharacter_three.mp hw
    rw [show item _ (pre.length + 1) = some first from hitem 0, bind_eq_bind,
      bind_some, hcount, value_three (by omega), ← threeByteCharacterCode_eq]
    exact bind_eq_some_iff.mpr ⟨b₂, hitem 1, bind_eq_some_iff.mpr ⟨b₃, hitem 2, rfl⟩⟩
  | [b₂, b₃, b₄] =>
    have hb := isCharacter_four.mp hw
    rw [show item _ (pre.length + 1) = some first from hitem 0, bind_eq_bind,
      bind_some, hcount, value_four (by omega), ← fourByteCharacterCode_eq]
    exact bind_eq_some_iff.mpr ⟨b₂, hitem 1, bind_eq_some_iff.mpr ⟨b₃, hitem 2,
      bind_eq_some_iff.mpr ⟨b₄, hitem 3, rfl⟩⟩⟩
  | _ :: _ :: _ :: _ :: _ =>
    rw [length_cons, length_cons, length_cons, length_cons] at hcount
    omega

theorem codeFrom_eq (pre tail rest : List UInt8) (n : Nat) :
    codeFrom (pre ++ (tail ++ rest)) tail.length (pre.length + 1) n =
      some (tail.foldl (fun code byte => code * 64 + encodedNextValue byte) n) := by
  induction tail generalizing pre n with
  | nil => rfl
  | cons byte tail ih =>
      have htail := ih (pre ++ [byte]) (n * 64 + encodedNextValue byte)
      rw [length_append_succ, append_assoc] at htail
      have hitem : item (pre ++ (byte :: tail ++ rest)) (pre.length + 1) = some byte :=
        item_append pre _ 0
      rw [length_cons, codeFrom, hitem, bind_eq_bind, bind_some]
      exact htail

/-- So do the values of the bytes. -/
theorem codeAtByteIndex_eq (pre rest : List UInt8) (hw : IsCharacter w) :
    codeAtByteIndex (pre ++ (w ++ rest)) (pre.length + 1) = some (value w) := by
  obtain ⟨first, tail, rfl, -, hcount⟩ := length_of_isCharacter hw
  have hitem : item (pre ++ (first :: tail ++ rest)) (pre.length + 1) = some first :=
    item_append pre _ 0
  have hcode := codeFrom_eq (pre ++ [first]) tail rest (encodedFirstValue first)
  rw [length_append_succ, append_assoc] at hcode
  unfold codeAtByteIndex
  rw [hitem, bind_eq_bind, bind_some, hcount, Nat.add_sub_cancel]
  exact hcode

theorem decodeFrom_eq (hcode : ∀ (pre w rest : List UInt8), IsCharacter w →
      code (pre ++ (w ++ rest)) (pre.length + 1) = some (value w))
    (pre : List UInt8) (hcodes : ∀ c ∈ codes, validNonSurrogateCode c = true)
    (hfuel : (codes.flatMap encode).length < fuel) :
    decodeFrom code (pre ++ codes.flatMap encode) fuel (pre.length + 1) = some codes := by
  induction codes generalizing pre fuel with
  | nil =>
      obtain ⟨fuel, rfl⟩ := Nat.exists_eq_succ_of_ne_zero (Nat.ne_zero_of_lt hfuel)
      rw [flatMap_nil, append_nil, decodeFrom, if_pos (Nat.lt_succ_self _)]
  | cons c codes ih =>
      obtain ⟨fuel, rfl⟩ := Nat.exists_eq_succ_of_ne_zero (Nat.ne_zero_of_lt hfuel)
      obtain ⟨hc, hcodes⟩ := forall_mem_cons.mp hcodes
      obtain ⟨hchar, hvalue, -⟩ := encode_spec hc
      have hpos := length_pos_of_isCharacter hchar
      rw [flatMap_cons, length_append] at hfuel
      have htail := ih (pre ++ encode c) hcodes (show _ < fuel by omega)
      rw [length_append_succ, append_assoc] at htail
      obtain ⟨first, hitem, hcount⟩ := exists_first pre (codes.flatMap encode) hchar
      have hlength : (pre ++ (encode c ++ codes.flatMap encode)).length =
          pre.length + ((encode c).length + (codes.flatMap encode).length) := by
        rw [length_append, length_append]
      rw [flatMap_cons, decodeFrom, if_neg (by omega), hitem, bind_eq_bind,
        bind_some, hcode pre _ _ hchar, hvalue, bind_eq_bind, bind_some,
        hcount, htail]
      rfl

theorem foldl_appendCode (s : List UInt8) (codes : List Nat) :
    codes.foldl appendCode s = s ++ codes.flatMap encode := by
  induction codes generalizing s with
  | nil => exact (append_nil s).symm
  | cons c codes ih =>
      rw [foldl_cons, ih, appendCode_eq, flatMap_cons, append_assoc]

theorem length_flatMap_encode (hcodes : ∀ c ∈ codes, validNonSurrogateCode c = true) :
    (codes.flatMap encode).length = (codes.map codeByteCount).sum := by
  induction codes with
  | nil => rfl
  | cons c codes ih =>
      obtain ⟨hc, hcodes⟩ := forall_mem_cons.mp hcodes
      rw [flatMap_cons, length_append, (encode_spec hc).2.2, ih hcodes, map_cons,
        sum_cons]

end

end Utf8Routines

end Gobo
