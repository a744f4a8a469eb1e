/-
Checking UTF-16 (`UC_UTF16_ROUTINES`), on strings of bytes whose first index is 1, and the sequences
of 16-bit units in which all surrogates are in pairs.
-/
import Gobo.Loop
import Gobo.Text
import Mathlib.Tactic.Common

namespace Gobo

open Option List

namespace Utf16Routines

open Text

def isSurrogate (most : UInt8) : Bool := decide (0xD8 ≤ most.toNat ∧ most.toNat < 0xE0)

def isHighSurrogate (most : UInt8) : Bool := decide (0xD8 ≤ most.toNat ∧ most.toNat < 0xDC)

def isLowSurrogate (most : UInt8) : Bool := decide (0xDC ≤ most.toNat ∧ most.toNat < 0xE0)

/-- `is_endian_detection_character_least_first_natural_32`. -/
def isEndianDetectionCharacterLeastFirst (first second : UInt8) : Bool :=
  decide (first.toNat = 255 ∧ second.toNat = 254)

/-- The turn of the three loops: the index of a most significant byte, and the result so far. -/
def validTurn (s : List UInt8) (cnt : ℕ) (state : ℕ × Bool) : Option (ℕ × Bool) := do
  let most ← item s state.1
  if isSurrogate most then do
    let i := state.1 + 2
    let isLow ← (if i ≤ cnt then (item s i).map isLowSurrogate else some false)
    some (i + 2, isHighSurrogate most && isLow)
  else some (state.1 + 2, true)

/-- The loop from the most significant byte at the index `i` on. -/
def validFrom (s : List UInt8) (cnt i : ℕ) : Option Bool :=
  (loopUntil (fun state => some (decide (cnt < state.1 ∨ state.2 = false))) (validTurn s cnt)
    (s.length + 1) (i, true)).map Prod.snd

/-- `valid_utf16be (a_string)`. -/
def validUtf16be (s : List UInt8) : Option Bool :=
  if s.length % 2 = 0 ∧ 0 < s.length then validFrom s s.length 1
  else some (decide (s.length % 2 = 0))

/-- `valid_utf16le (a_string)`.  There is no assignment to `cnt`. -/
def validUtf16le (s : List UInt8) : Option Bool :=
  if s.length % 2 = 0 ∧ 0 < s.length then validFrom s 0 2
  else some (decide (s.length % 2 = 0))

/-- `valid_utf16 (a_string)`. -/
def validUtf16 (s : List UInt8) : Option Bool :=
  if s.length % 2 = 0 ∧ 0 < s.length then do
    let first ← item s 1
    let second ← item s 2
    validFrom s s.length (if isEndianDetectionCharacterLeastFirst first second then 2 else 1)
  else some (decide (s.length % 2 = 0))

/-- The unit of two bytes. -/
def unit (isMostFirst : Bool) (first second : UInt8) : ℕ :=
  (if isMostFirst then first else second).toNat * 256 +
    (if isMostFirst then second else first).toNat

/-- The 16-bit units of a string, if it is a sequence of them. -/
def units (isMostFirst : Bool) : List UInt8 → Option (List ℕ)
  | [] => some []
  | [_] => none
  | first :: second :: rest => (units isMostFirst rest).map (unit isMostFirst first second :: ·)

def IsHigh (unit : ℕ) : Prop := 0xD800 ≤ unit ∧ unit ≤ 0xDBFF

instance : DecidablePred IsHigh := fun _ => inferInstanceAs (Decidable (_ ∧ _))

def IsLow (unit : ℕ) : Prop := 0xDC00 ≤ unit ∧ unit ≤ 0xDFFF

/-- Every high surrogate is directly followed by a low one, and every low one directly preceded by
a high one. -/
structure Paired (us : List ℕ) : Prop where
  followed : ∀ (i u : ℕ), us[i]? = some u → IsHigh u → ∃ v, us[i + 1]? = some v ∧ IsLow v
  preceded : ∀ (i v : ℕ), us[i]? = some v → IsLow v →
    ∃ (j u : ℕ), i = j + 1 ∧ us[j]? = some u ∧ IsHigh u

/-- The string is a sequence of units whose surrogates are in pairs. -/
def IsPaired (isMostFirst : Bool) (s : List UInt8) : Prop :=
  ∃ us, units isMostFirst s = some us ∧ Paired us

section

variable {u v : ℕ} {us : List ℕ}

theorem IsHigh.not_isLow (h : IsHigh u) : ¬IsLow u := fun hlow =>
  absurd (Nat.le_trans hlow.1 h.2) (by decide)

theorem paired_nil : Paired [] :=
  ⟨fun i u h => absurd h (by simp), fun i v h => absurd h (by simp)⟩

/-- A low surrogate is not the first unit. -/
theorem not_paired_of_isLow (h : IsLow u) : ¬Paired (u :: us) := by
  intro hus
  obtain ⟨j, v, hj, -⟩ := hus.preceded 0 u rfl h
  exact nomatch hj

theorem paired_cons_iff (hhigh : ¬IsHigh u) (hlow : ¬IsLow u) :
    Paired (u :: us) ↔ Paired us := by
  constructor
  · intro h
    constructor
    · intro i w hw
      exact h.followed (i + 1) w hw
    · intro i w hw hwlow
      obtain ⟨j, x, hj, hx, hxhigh⟩ := h.preceded (i + 1) w hw hwlow
      obtain rfl := Nat.succ.inj hj
      cases i with
      | zero =>
          obtain rfl := some.inj hx
          exact absurd hxhigh hhigh
      | succ k => exact ⟨k, x, rfl, hx, hxhigh⟩
  · intro h
    constructor
    · intro i w hw hwhigh
      cases i with
      | zero =>
          obtain rfl := some.inj hw
          exact absurd hwhigh hhigh
      | succ k => exact h.followed k w hw hwhigh
    · intro i w hw hwlow
      cases i with
      | zero =>
          obtain rfl := some.inj hw
          exact absurd hwlow hlow
      | succ k =>
          obtain ⟨j, x, rfl, hx, hxhigh⟩ := h.preceded k w hw hwlow
          exact ⟨j + 1, x, rfl, hx, hxhigh⟩

/-- A pair of surrogates may stand before other units. -/
theorem paired_cons_cons_iff (hu : IsHigh u) :
    Paired (u :: v :: us) ↔ IsLow v ∧ Paired us := by
  constructor
  · intro h
    obtain ⟨w, hw, hlow⟩ := h.followed 0 u rfl hu
    obtain rfl := some.inj hw
    refine ⟨hlow, fun i w hw => h.followed (i + 2) w hw, fun i w hw hwlow => ?_⟩
    obtain ⟨j, x, hj, hx, hxhigh⟩ := h.preceded (i + 2) w hw hwlow
    obtain rfl := Nat.succ.inj hj
    cases i with
    | zero =>
        obtain rfl := some.inj hx
        exact absurd hlow hxhigh.not_isLow
    | succ k => exact ⟨k, x, rfl, hx, hxhigh⟩
  · rintro ⟨hlow, h⟩
    constructor
    · intro i w hw hwhigh
      match i with
      | 0 => exact ⟨v, rfl, hlow⟩
      | 1 =>
          obtain rfl := some.inj hw
          exact absurd hlow hwhigh.not_isLow
      | k + 2 => exact h.followed k w hw hwhigh
    · intro i w hw hwlow
      match i with
      | 0 =>
          obtain rfl := some.inj hw
          exact absurd hwlow hu.not_isLow
      | 1 => exact ⟨0, u, rfl, rfl, hu⟩
      | k + 2 =>
          obtain ⟨j, x, rfl, hx, hxhigh⟩ := h.preceded k w hw hwlow
          exact ⟨j + 2, x, rfl, hx, hxhigh⟩

theorem not_paired_singleton (hu : IsHigh u) : ¬Paired [u] := by
  intro h
  obtain ⟨w, hw, -⟩ := h.followed 0 u rfl hu
  exact nomatch hw

end

section

variable {isMostFirst : Bool} {s pre rest : List UInt8} {first second : UInt8}
  {us : List ℕ} {fuel i cnt : ℕ}

/-- The most significant of two bytes. -/
def most (isMostFirst : Bool) (first second : UInt8) : UInt8 :=
  if isMostFirst then first else second

/-- The index of the first most significant byte. -/
def startIndex (isMostFirst : Bool) : ℕ := if isMostFirst then 1 else 2

theorem isHigh_unit : IsHigh (unit isMostFirst first second) ↔
    isHighSurrogate (most isMostFirst first second) = true := by
  have hleast := (if isMostFirst then second else first).toNat_lt
  rw [IsHigh, unit, isHighSurrogate, most, decide_eq_true_iff]
  omega

theorem isLow_unit : IsLow (unit isMostFirst first second) ↔
    isLowSurrogate (most isMostFirst first second) = true := by
  have hleast := (if isMostFirst then second else first).toNat_lt
  rw [IsLow, unit, isLowSurrogate, most, decide_eq_true_iff]
  omega

theorem isSurrogate_iff (byte : UInt8) : isSurrogate byte = true ↔
    isHighSurrogate byte = true ∨ isLowSurrogate byte = true := by
  rw [isSurrogate, isHighSurrogate, isLowSurrogate, decide_eq_true_iff, decide_eq_true_iff,
    decide_eq_true_iff]
  omega

theorem item_most (pre rest : List UInt8) (isMostFirst : Bool) (first second : UInt8) :
    item (pre ++ first :: second :: rest) (pre.length + startIndex isMostFirst) =
      some (most isMostFirst first second) := by
  cases isMostFirst with
  | true => exact item_append pre (first :: second :: rest) 0
  | false => exact item_append pre (first :: second :: rest) 1

/-- The exit test of the loops. -/
def validStop (cnt : ℕ) (state : ℕ × Bool) : Option Bool :=
  some (decide (cnt < state.1 ∨ state.2 = false))

/-- The loop accepts what is left from the index `i` on exactly if the units `us` are paired. -/
def Decides (s : List UInt8) (fuel i : ℕ) (us : List ℕ) : Prop :=
  ∃ j r, loopUntil (validStop s.length) (validTurn s s.length) fuel (i, true) = some (j, r) ∧
    (r = true ↔ Paired us)

theorem validStop_of_le (hi : i ≤ cnt) : validStop cnt (i, true) = some false := by
  apply congrArg some
  apply decide_eq_false
  rintro (h | h)
  · exact absurd hi (Nat.not_le.mpr h)
  · exact nomatch h

theorem Decides.of_turn {j : ℕ} {vs : List ℕ} (hi : i ≤ s.length)
    (hturn : validTurn s s.length (i, true) = some (j, true)) (h : Decides s fuel j vs)
    (hus : Paired us ↔ Paired vs) : Decides s (fuel + 1) i us := by
  obtain ⟨k, r, hrun, hr⟩ := h
  exact ⟨k, r, (loopUntil_of_go (validStop_of_le hi) hturn).trans hrun, hr.trans hus.symm⟩

/-- A turn that rejects is the last one. -/
theorem Decides.of_reject {j : ℕ} (hi : i ≤ s.length) (hfuel : 0 < fuel)
    (hturn : validTurn s s.length (i, true) = some (j, false)) (hus : ¬Paired us) :
    Decides s (fuel + 1) i us := by
  obtain ⟨fuel, rfl⟩ := Nat.exists_eq_succ_of_ne_zero (Nat.ne_of_gt hfuel)
  have hstop : validStop s.length (j, false) = some true :=
    congrArg some (decide_eq_true (Or.inr rfl))
  exact ⟨j, false, (loopUntil_of_go (validStop_of_le hi) hturn).trans (loopUntil_of_stop hstop),
    iff_of_false Bool.false_ne_true hus⟩

theorem startIndex_bounds (isMostFirst : Bool) :
    1 ≤ startIndex isMostFirst ∧ startIndex isMostFirst ≤ 2 := by
  cases isMostFirst with
  | true => decide
  | false => decide

theorem validTurn_of_not_surrogate (pre rest : List UInt8) (cnt : ℕ)
    (h : isSurrogate (most isMostFirst first second) = false) :
    validTurn (pre ++ first :: second :: rest) cnt (pre.length + startIndex isMostFirst, true) =
      some ((pre ++ [first, second]).length + startIndex isMostFirst, true) := by
  have hlength : (pre ++ [first, second]).length = pre.length + 2 := length_append
  rw [validTurn, item_most, hlength, Nat.add_right_comm]
  simp only [some_bind, h, Bool.false_eq_true, if_false]

/-- The last unit is no pair. -/
theorem validTurn_of_last (pre : List UInt8)
    (h : isSurrogate (most isMostFirst first second) = true) :
    ∃ i, validTurn (pre ++ [first, second]) (pre ++ [first, second]).length
      (pre.length + startIndex isMostFirst, true) = some (i, false) := by
  have hlength : (pre ++ [first, second]).length = pre.length + 2 := length_append
  have hstart := startIndex_bounds isMostFirst
  refine ⟨pre.length + startIndex isMostFirst + 2 + 2, ?_⟩
  rw [validTurn, item_most]
  simp only [some_bind, h, if_true]
  rw [if_neg (by omega), some_bind, Bool.and_false]

theorem validTurn_of_surrogate (pre rest : List UInt8) (third fourth : UInt8)
    (h : isSurrogate (most isMostFirst first second) = true) :
    validTurn (pre ++ first :: second :: third :: fourth :: rest)
        (pre ++ first :: second :: third :: fourth :: rest).length
        (pre.length + startIndex isMostFirst, true) =
      some ((pre ++ [first, second, third, fourth]).length + startIndex isMostFirst,
        isHighSurrogate (most isMostFirst first second) &&
          isLowSurrogate (most isMostFirst third fourth)) := by
  have hlength : (pre ++ [first, second, third, fourth]).length = pre.length + 4 :=
    length_append
  have hcnt : (pre ++ first :: second :: third :: fourth :: rest).length =
      pre.length + (rest.length + 4) := length_append
  have hstart := startIndex_bounds isMostFirst
  have hsecond : item (pre ++ first :: second :: third :: fourth :: rest)
      (pre.length + startIndex isMostFirst + 2) = some (most isMostFirst third fourth) := by
    have hitem := item_most (pre ++ [first, second]) rest isMostFirst third fourth
    rw [append_assoc, length_append, Nat.add_right_comm] at hitem
    exact hitem
  rw [validTurn, item_most]
  simp only [some_bind, h, if_true]
  rw [if_pos (by omega), hsecond, map_some, some_bind, hlength,
    Nat.add_right_comm pre.length 4]

/-- A low surrogate is no beginning of a pair. -/
theorem exists_validTurn_of_low (pre rest : List UInt8) {vs : List ℕ}
    (hunits : units isMostFirst rest = some vs)
    (h : isLowSurrogate (most isMostFirst first second) = true) :
    ∃ j, validTurn (pre ++ first :: second :: rest) (pre ++ first :: second :: rest).length
      (pre.length + startIndex isMostFirst, true) = some (j, false) := by
  have hsurrogate : isSurrogate (most isMostFirst first second) = true :=
    (isSurrogate_iff _).mpr (Or.inr h)
  have hhigh : isHighSurrogate (most isMostFirst first second) = false := by
    rw [Bool.eq_false_iff, ne_eq, ← isHigh_unit]
    exact fun hhigh => hhigh.not_isLow (isLow_unit.mpr h)
  match rest with
  | [] => exact validTurn_of_last pre hsurrogate
  | [_] => exact nomatch hunits
  | third :: fourth :: rest =>
      have hturn := validTurn_of_surrogate pre rest third fourth hsurrogate
      rw [hhigh, Bool.false_and] at hturn
      exact ⟨_, hturn⟩

/-- What is left from any even place on is decided with `fuel` turns. -/
def DecidesShort (isMostFirst : Bool) (fuel : ℕ) : Prop :=
  ∀ (pre rest : List UInt8) (us : List ℕ), units isMostFirst rest = some us →
    rest.length < fuel → Decides (pre ++ rest) fuel (pre.length + startIndex isMostFirst) us

theorem startIndex_le_length (isMostFirst : Bool) (pre : List UInt8) (first second : UInt8)
    (rest : List UInt8) : pre.length + startIndex isMostFirst ≤
    (pre ++ first :: second :: rest).length := by
  have hlength : (pre ++ first :: second :: rest).length = pre.length + (rest.length + 2) :=
    length_append
  have hstart := startIndex_bounds isMostFirst
  omega

theorem decides_of_low (pre rest : List UInt8) (hunits : units isMostFirst rest = some us)
    (hfuel : rest.length < fuel) (h : isLowSurrogate (most isMostFirst first second) = true) :
    Decides (pre ++ first :: second :: rest) (fuel + 1) (pre.length + startIndex isMostFirst)
      (unit isMostFirst first second :: us) := by
  obtain ⟨j, hturn⟩ := exists_validTurn_of_low pre rest hunits h
  exact Decides.of_reject (startIndex_le_length isMostFirst pre first second rest)
    (Nat.zero_lt_of_lt hfuel) hturn
    (not_paired_of_isLow (isLow_unit.mpr h))

/-- A high surrogate and the unit after it are accepted together. -/
theorem decides_of_high (ih : DecidesShort isMostFirst fuel) (pre rest : List UInt8)
    (hunits : units isMostFirst rest = some us) (hfuel : rest.length < fuel)
    (h : isHighSurrogate (most isMostFirst first second) = true) :
    Decides (pre ++ first :: second :: rest) (fuel + 1) (pre.length + startIndex isMostFirst)
      (unit isMostFirst first second :: us) := by
  have hi := startIndex_le_length isMostFirst pre first second rest
  have hpos : 0 < fuel := Nat.zero_lt_of_lt hfuel
  have hsurrogate := (isSurrogate_iff _).mpr (Or.inl h)
  match rest with
  | [] =>
      obtain rfl := some.inj hunits
      obtain ⟨j, hturn⟩ := validTurn_of_last pre hsurrogate
      exact Decides.of_reject hi hpos hturn (not_paired_singleton (isHigh_unit.mpr h))
  | [_] => exact nomatch hunits
  | third :: fourth :: rest =>
      obtain ⟨vs, hvs, rfl⟩ := map_eq_some_iff.mp hunits
      have hturn := validTurn_of_surrogate pre rest third fourth hsurrogate
      have hpaired : Paired (unit isMostFirst first second :: unit isMostFirst third fourth :: vs) ↔
          IsLow (unit isMostFirst third fourth) ∧ Paired vs :=
        paired_cons_cons_iff (isHigh_unit.mpr h)
      rw [h, Bool.true_and] at hturn
      cases hsecond : isLowSurrogate (most isMostFirst third fourth) with
      | false =>
          rw [hsecond] at hturn
          refine Decides.of_reject hi hpos hturn fun hus => ?_
          rw [isLow_unit.mp (hpaired.mp hus).1] at hsecond
          exact nomatch hsecond
      | true =>
          rw [hsecond] at hturn
          have hrest := ih (pre ++ [first, second, third, fourth]) rest vs hvs (by
            rw [length_cons, length_cons] at hfuel
            omega)
          rw [append_assoc] at hrest
          exact Decides.of_turn hi hturn hrest
            (hpaired.trans (and_iff_right (isLow_unit.mpr hsecond)))

theorem decides_of_not_surrogate (ih : DecidesShort isMostFirst fuel) (pre rest : List UInt8)
    (hunits : units isMostFirst rest = some us) (hfuel : rest.length < fuel)
    (hhigh : ¬isHighSurrogate (most isMostFirst first second) = true)
    (hlow : ¬isLowSurrogate (most isMostFirst first second) = true) :
    Decides (pre ++ first :: second :: rest) (fuel + 1) (pre.length + startIndex isMostFirst)
      (unit isMostFirst first second :: us) := by
  have hplain : isSurrogate (most isMostFirst first second) = false := by
    rw [Bool.eq_false_iff, ne_eq, isSurrogate_iff]
    exact not_or.mpr ⟨hhigh, hlow⟩
  have hturn := validTurn_of_not_surrogate pre rest (pre ++ first :: second :: rest).length hplain
  have hrest := ih (pre ++ [first, second]) rest us hunits hfuel
  rw [append_assoc] at hrest
  exact Decides.of_turn (startIndex_le_length isMostFirst pre first second rest) hturn hrest
    (paired_cons_iff (fun h => hhigh (isHigh_unit.mp h)) fun h => hlow (isLow_unit.mp h))

/-- The units that are left are accepted when their surrogates are in pairs. -/
theorem decides_units (isMostFirst : Bool) (fuel : ℕ) : DecidesShort isMostFirst fuel := by
  induction fuel with
  | zero => exact fun _ rest _ _ hfuel => absurd hfuel (Nat.not_lt_zero _)
  | succ fuel ih =>
      intro pre rest us hunits hfuel
      match rest with
      | [] =>
          obtain rfl := some.inj hunits
          have hstart := startIndex_bounds isMostFirst
          refine ⟨pre.length + startIndex isMostFirst, true, loopUntil_of_stop ?_,
            iff_of_true rfl paired_nil⟩
          rw [append_nil]
          exact congrArg some (decide_eq_true (Or.inl (by omega)))
      | [_] => exact nomatch hunits
      | first :: second :: rest =>
          obtain ⟨vs, hvs, rfl⟩ := map_eq_some_iff.mp hunits
          rw [length_cons, length_cons] at hfuel
          have hrest : rest.length < fuel := by omega
          by_cases hlow : isLowSurrogate (most isMostFirst first second) = true
          · exact decides_of_low pre rest hvs hrest hlow
          by_cases hhigh : isHighSurrogate (most isMostFirst first second) = true
          · exact decides_of_high ih pre rest hvs hrest hhigh
          · exact decides_of_not_surrogate ih pre rest hvs hrest hhigh hlow

theorem units_eq_some_iff (isMostFirst : Bool) (s : List UInt8) :
    (∃ us, units isMostFirst s = some us) ↔ s.length % 2 = 0 := by
  induction s using units.induct with
  | case1 => exact iff_of_true ⟨[], rfl⟩ rfl
  | case2 byte => exact iff_of_false (fun h => nomatch h.choose_spec) (by simp)
  | case3 first second rest ih =>
      rw [length_cons, length_cons, Nat.add_assoc, Nat.add_mod_right, ← ih]
      constructor
      · rintro ⟨us, hus⟩
        obtain ⟨vs, hvs, -⟩ := Option.map_eq_some_iff.mp hus
        exact ⟨vs, hvs⟩
      · rintro ⟨us, hus⟩
        exact ⟨_, congrArg (Option.map _) hus⟩

/-- The loop over the whole string. -/
theorem validFrom_spec (isMostFirst : Bool) (heven : s.length % 2 = 0) :
    ∃ r, validFrom s s.length (startIndex isMostFirst) = some r ∧
      (r = true ↔ IsPaired isMostFirst s) := by
  obtain ⟨us, hus⟩ := (units_eq_some_iff isMostFirst s).mpr heven
  obtain ⟨j, r, hrun, hr⟩ :=
    decides_units isMostFirst (s.length + 1) [] s us hus (Nat.lt_succ_self _)
  refine ⟨r, ?_, hr.trans ⟨fun h => ⟨us, hus, h⟩, ?_⟩⟩
  · rw [nil_append, length_nil, Nat.zero_add] at hrun
    exact congrArg (Option.map Prod.snd) hrun
  · rintro ⟨vs, hvs, h⟩
    rwa [Option.some.inj (hus.symm.trans hvs)]

theorem not_isPaired_of_odd (hodd : s.length % 2 ≠ 0) : ¬IsPaired isMostFirst s := by
  rintro ⟨us, hus, -⟩
  exact hodd ((units_eq_some_iff _ s).mp ⟨us, hus⟩)

/-- The three queries without their loops. -/
theorem decides_odd_or_empty (h : ¬(s.length % 2 = 0 ∧ 0 < s.length)) :
    decide (s.length % 2 = 0) = true ↔ IsPaired isMostFirst s := by
  rw [decide_eq_true_iff]
  by_cases heven : s.length % 2 = 0
  · obtain rfl : s = [] := length_eq_zero_iff.mp (by omega)
    exact iff_of_true heven ⟨[], rfl, paired_nil⟩
  · exact iff_of_false heven (not_isPaired_of_odd heven)

/-- The string starts with the byte order mark of UTF-16LE. -/
def hasLeastFirstMark (s : List UInt8) : Bool := [255, 254].isPrefixOf s

theorem validUtf16be_spec (s : List UInt8) :
    ∃ r, validUtf16be s = some r ∧ (r = true ↔ IsPaired true s) := by
  rw [validUtf16be]
  split
  · rename_i h
    exact validFrom_spec true h.1
  · rename_i h
    exact ⟨_, rfl, decides_odd_or_empty h⟩

theorem isEndianDetectionCharacterLeastFirst_eq (first second : UInt8) (rest : List UInt8) :
    isEndianDetectionCharacterLeastFirst first second =
      hasLeastFirstMark (first :: second :: rest) := by
  have hbyte : ∀ byte : UInt8, ∀ n : ℕ, n < 256 → (byte.toNat = n ↔ UInt8.ofNat n = byte) := by
    intro byte n hn
    have htoNat : (UInt8.ofNat n).toNat = n := UInt8.toNat_ofNat_of_lt hn
    rw [← UInt8.toNat_inj, htoNat, eq_comm]
  have hfirst := hbyte first 255 (by decide)
  have hsecond := hbyte second 254 (by decide)
  rw [isEndianDetectionCharacterLeastFirst, hasLeastFirstMark, Bool.eq_iff_iff, decide_eq_true_iff,
    isPrefixOf_iff_prefix, cons_prefix_cons, cons_prefix_cons, hfirst, hsecond]
  exact and_congr_right fun _ => (and_iff_left nil_prefix).symm

theorem validUtf16_spec (s : List UInt8) :
    ∃ r, validUtf16 s = some r ∧ (r = true ↔ IsPaired (!hasLeastFirstMark s) s) := by
  rw [validUtf16]
  split
  · rename_i h
    match s with
    | [] => exact absurd h.2 (Nat.lt_irrefl 0)
    | [_] => exact absurd h.1 Nat.one_ne_zero
    | first :: second :: rest =>
        obtain ⟨r, hrun, hr⟩ := validFrom_spec
          (!hasLeastFirstMark (first :: second :: rest)) h.1
        refine ⟨r, Eq.trans ?_ hrun, hr⟩
        change validFrom _ _
          (if isEndianDetectionCharacterLeastFirst first second then 2 else 1) = _
        rw [isEndianDetectionCharacterLeastFirst_eq first second rest, startIndex]
        cases hasLeastFirstMark (first :: second :: rest) with
        | true => rfl
        | false => rfl
  · rename_i h
    exact ⟨_, rfl, decides_odd_or_empty h⟩

/-- The loop of `valid_utf16le` ends before its first turn. -/
theorem validUtf16le_eq (s : List UInt8) :
    validUtf16le s = some (decide (s.length % 2 = 0)) := by
  rw [validUtf16le]
  split
  · rename_i h
    rw [decide_eq_true h.1]
    rfl
  · rfl

/-- What the three queries are to tell. -/
structure IsChecked (s : List UInt8) : Prop where
  mostFirst : ∃ r, validUtf16be s = some r ∧ (r = true ↔ IsPaired true s)
  leastFirst : ∃ r, validUtf16le s = some r ∧ (r = true ↔ IsPaired false s)
  marked : ∃ r, validUtf16 s = some r ∧ (r = true ↔ IsPaired (!hasLeastFirstMark s) s)

end

end Utf16Routines

end Gobo
