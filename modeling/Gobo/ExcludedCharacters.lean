/-
The characters that are excluded from URLs (`UT_URL_ENCODING`): two scans with an index that is set
beyond the end to leave the loop.
-/
import Gobo.Integer32
import Gobo.UrlEncoding

namespace Gobo

open List

namespace UrlEncoding

open Text

/-- The characters of the branches of `has_excluded_characters`. -/
def isExcludedCharacter (c : ℕ) : Bool :=
  decide (c ≤ 31) || decide (c = 32 ∨ 128 ≤ c ∧ c ≤ 255) || (codes "<>\"").contains c ||
    (codes "\x7b\x7d|\\^`").contains c

/-- The turn of `has_excluded_characters`, with the index and the result. -/
def excludedCharacterTurn (s : List ℕ) (state : ℤ × Bool) : Option (ℤ × Bool) := do
  let c ← (item s state.1.toNat).map character
  let state : ℤ × Bool := if isExcludedCharacter c then (s.length + 1, true) else state
  some (int32 (state.1 + 1), state.2)

/-- The exit test of both loops. -/
def isBehind (s : List ℕ) (state : ℤ × Bool) : Option Bool := some (decide (s.length < state.1))

/-- `has_excluded_characters (s)`, if the loop ends after less than `fuel` turns. -/
def hasExcludedCharacters (fuel : ℕ) (s : List ℕ) : Option Bool :=
  (loopUntil (isBehind s) (excludedCharacterTurn s) fuel (1, false)).map Prod.snd

/-- The codes of the branches of `has_excluded_iri_codes`. -/
def isExcludedIriCode (c : ℕ) : Bool :=
  decide (c ≤ 32) || decide (128 ≤ c ∧ c ≤ 159) || [34, 60, 62].contains c ||
    [40, 41, 92, 94, 96, 124].contains c || decide (55296 ≤ c ∧ c ≤ 57343) ||
    decide (64976 ≤ c ∧ c ≤ 65007) || decide (65520 ≤ c ∧ c ≤ 65536) ||
    [131070, 131071, 196606, 196607, 262142, 262143, 327678, 327679, 393214, 393215, 458750, 458751,
      524286, 524287, 589822, 589823, 655358, 655359, 720894, 720895, 786430, 786431, 851966,
      851967, 917502, 917503, 983038, 983039, 1048574, 1048575, 1114110, 1114111].contains c

/-- The turn of `has_excluded_iri_codes`.  No branch goes on to the next index. -/
def excludedIriCodeTurn (s : List ℕ) (state : ℤ × Bool) : Option (ℤ × Bool) := do
  let c ← item s state.1.toNat
  some (if isExcludedIriCode c then (s.length + 1, true) else state)

/-- `has_excluded_iri_codes (s)`, if the loop ends after less than `fuel` turns. -/
def hasExcludedIriCodes (fuel : ℕ) (s : List ℕ) : Option Bool :=
  (loopUntil (isBehind s) (excludedIriCodeTurn s) fuel (1, false)).map Prod.snd

/-- Control characters, the space, characters that are not ASCII, and the delimiters and unwise
characters. -/
def IsExcluded (c : ℕ) : Prop :=
  c < 32 ∨ c = 32 ∨ 127 < c ∨ c ∈ codes "<>\"" ∨ c ∈ codes "\x7b\x7d|\\^`"

/-- The last two codes of a plane, and 32 more. -/
def IsNoncharacter (c : ℕ) : Prop := c ≤ 0x10FFFF ∧ 0xFFFE ≤ c % 0x10000 ∨ 0xFDD0 ≤ c ∧ c ≤ 0xFDEF

/-- The codes that the comments exclude. -/
def IsExcludedCode (c : ℕ) : Prop :=
  c ≤ 32 ∨ c ∈ codes "\"<>" ∨ c ∈ codes "\x7b\x7d|\\^`" ∨ 128 ≤ c ∧ c ≤ 159 ∨
    0xD800 ≤ c ∧ c ≤ 0xDFFF ∨ IsNoncharacter c

section

variable {s : List ℕ} {c fuel : ℕ}

theorem isExcludedCharacter_iff (c : ℕ) :
    isExcludedCharacter (character c) = true ↔ IsExcluded c := by
  rw [isExcludedCharacter, IsExcluded, character]
  split
  · simp only [Bool.or_eq_true, decide_eq_true_iff, contains_iff_mem, or_assoc]
    constructor
    · rintro (h | h | h | h | h)
      · exact Or.inl (by omega)
      · exact Or.inr (Or.inl h)
      · exact Or.inr (Or.inr (Or.inl (by omega)))
      · exact Or.inr (Or.inr (Or.inr (Or.inl h)))
      · exact Or.inr (Or.inr (Or.inr (Or.inr h)))
    · rintro (h | h | h | h | h)
      · exact Or.inl (by omega)
      · exact Or.inr (Or.inl h)
      · exact Or.inr (Or.inr (Or.inl (by omega)))
      · exact Or.inr (Or.inr (Or.inr (Or.inl h)))
      · exact Or.inr (Or.inr (Or.inr (Or.inr h)))
  · exact iff_of_true (by decide) (Or.inr (Or.inr (Or.inl (by omega))))

theorem isBehind_append_cons (pre : List ℕ) (c : ℕ) (rest : List ℕ) (r : Bool) :
    isBehind (pre ++ c :: rest) (pre.length + 1, r) = some false := by
  rw [isBehind, length_append, length_cons]
  exact congrArg some (decide_eq_false (by push_cast; omega))

/-- After an excluded character the index is set beyond the end, and incremented. -/
theorem excludedCharacterTurn_append_cons (pre : List ℕ) (c : ℕ) (rest : List ℕ)
    (hlength : (pre ++ c :: rest).length < 2147483647) :
    excludedCharacterTurn (pre ++ c :: rest) (pre.length + 1, false) =
      some (if isExcludedCharacter (character c) then
        (int32 ((pre ++ c :: rest).length + 1 + 1), true) else
          (((pre ++ [c]).length + 1 : ℤ), false)) := by
  have hindex : ((pre.length + 1 : ℤ)).toNat = pre.length + 1 := by omega
  rw [excludedCharacterTurn, hindex, item_append_cons, Option.map_some, some_bind]
  dsimp only
  split
  · rfl
  · rw [length_append, length_cons] at hlength
    rw [length_append, length_singleton, int32_of_mem (by omega) (by omega)]
    push_cast
    rfl

/-- The scan of the characters that are left. -/
theorem exists_excludedCharacterLoop (pre rest : List ℕ) (hfuel : rest.length < fuel)
    (hlength : (pre ++ rest).length < 2147483646) :
    ∃ i r, loopUntil (isBehind (pre ++ rest)) (excludedCharacterTurn (pre ++ rest)) fuel
        (pre.length + 1, false) = some (i, r) ∧ (r = true ↔ ∃ c ∈ rest, IsExcluded c) := by
  induction rest generalizing pre fuel with
  | nil =>
      obtain ⟨fuel, rfl⟩ := Nat.exists_eq_succ_of_ne_zero (Nat.ne_zero_of_lt hfuel)
      refine ⟨pre.length + 1, false, loopUntil_of_stop ?_, ?_⟩
      · rw [append_nil]
        exact congrArg some (decide_eq_true (Int.lt_succ _))
      · exact iff_of_false Bool.false_ne_true (fun h => absurd h.choose_spec.1 not_mem_nil)
  | cons c rest ih =>
      obtain ⟨fuel, rfl⟩ := Nat.exists_eq_succ_of_ne_zero (Nat.ne_zero_of_lt hfuel)
      rw [length_cons, Nat.succ_lt_succ_iff] at hfuel
      have hgo := isBehind_append_cons pre c rest false
      have hturn := excludedCharacterTurn_append_cons pre c rest (Nat.lt_succ_of_lt hlength)
      by_cases hc : isExcludedCharacter (character c) = true
      · obtain ⟨fuel, rfl⟩ := Nat.exists_eq_succ_of_ne_zero (Nat.ne_zero_of_lt hfuel)
        rw [if_pos hc, int32_of_mem (by omega) (by omega)] at hturn
        refine ⟨_, true, (loopUntil_of_go hgo hturn).trans (loopUntil_of_stop ?_),
          iff_of_true rfl ⟨c, mem_cons_self, (isExcludedCharacter_iff c).mp hc⟩⟩
        exact congrArg some (decide_eq_true (by dsimp only; omega))
      · rw [if_neg hc] at hturn
        rw [append_cons] at hlength hgo hturn ⊢
        obtain ⟨i, r, hrun, hr⟩ := ih (pre ++ [c]) hfuel hlength
        refine ⟨i, r, (loopUntil_of_go hgo hturn).trans hrun, hr.trans ?_⟩
        rw [exists_mem_cons_iff]
        exact (or_iff_right fun h => hc ((isExcludedCharacter_iff c).mpr h)).symm

theorem exists_hasExcludedCharacters (hlength : s.length < 2147483646) :
    ∃ r, hasExcludedCharacters (s.length + 1) s = some r ∧
      (r = true ↔ ∃ c ∈ s, IsExcluded c) := by
  obtain ⟨i, r, hrun, hr⟩ :=
    exists_excludedCharacterLoop [] s (Nat.lt_succ_self s.length) hlength
  exact ⟨r, congrArg (Option.map Prod.snd) hrun, hr⟩

/-- In the longest strings, the index wraps to a negative one after an excluded character. -/
theorem excludedCharacterLoop_eq_none (pre rest : List ℕ)
    (hlength : (pre ++ rest).length = 2147483646) (hexcluded : ∃ c ∈ rest, IsExcluded c) :
    loopUntil (isBehind (pre ++ rest)) (excludedCharacterTurn (pre ++ rest)) fuel
      (pre.length + 1, false) = none := by
  induction rest generalizing pre fuel with
  | nil => exact absurd hexcluded.choose_spec.1 not_mem_nil
  | cons c rest ih =>
      cases fuel with
      | zero => rfl
      | succ fuel =>
          have hgo := isBehind_append_cons pre c rest false
          have hturn := excludedCharacterTurn_append_cons pre c rest (by omega)
          by_cases hc : isExcludedCharacter (character c) = true
          · have hwrap : int32 ((pre ++ c :: rest).length + 1 + 1) = -2147483648 := by
              rw [hlength]
              decide
            rw [if_pos hc, hwrap] at hturn
            rw [loopUntil_of_go hgo hturn]
            exact loopUntil_of_fail (congrArg some (decide_eq_false (by dsimp only; omega))) rfl
          · rw [if_neg hc] at hturn
            rw [append_cons] at hlength hgo hturn ⊢
            rw [loopUntil_of_go hgo hturn]
            refine ih (pre ++ [c]) hlength ?_
            obtain ⟨a, ha, hexcluded⟩ := hexcluded
            rcases mem_cons.mp ha with rfl | ha
            · exact absurd ((isExcludedCharacter_iff a).mpr hexcluded) hc
            · exact ⟨a, ha, hexcluded⟩

/-- The codes that the comments exclude are those of excluded characters. -/
theorem IsExcludedCode.isExcluded (h : IsExcludedCode c) : IsExcluded c := by
  rw [IsExcluded]
  rcases h with h | h | h | h | h | h
  · omega
  · have hmem : ∀ a ∈ codes "\"<>", a ∈ codes "<>\"" := by decide
    exact Or.inr (Or.inr (Or.inr (Or.inl (hmem c h))))
  · exact Or.inr (Or.inr (Or.inr (Or.inr h)))
  · omega
  · omega
  · rw [IsNoncharacter] at h
    omega

/-- The first code decides: the loop is left at it, or never. -/
theorem hasExcludedIriCodes_cons (fuel c : ℕ) (rest : List ℕ) :
    hasExcludedIriCodes (fuel + 2) (c :: rest) =
      if isExcludedIriCode c then some true else none := by
  have hgo : isBehind (c :: rest) (1, false) = some false := isBehind_append_cons [] c rest false
  have hturn : excludedIriCodeTurn (c :: rest) (1, false) =
      some (if isExcludedIriCode c then (((c :: rest).length + 1 : ℤ), true) else (1, false)) := rfl
  rw [hasExcludedIriCodes]
  by_cases hc : isExcludedIriCode c = true
  · rw [if_pos hc] at hturn ⊢
    have hstop : isBehind (c :: rest) ((c :: rest).length + 1, true) = some true :=
      congrArg some (decide_eq_true (Int.lt_succ _))
    exact congrArg (Option.map Prod.snd)
      ((loopUntil_of_go hgo hturn).trans (loopUntil_of_stop hstop))
  · rw [if_neg hc] at hturn ⊢
    have hnone : loopUntil (isBehind (c :: rest)) (excludedIriCodeTurn (c :: rest)) (fuel + 2)
        (1, false) = none :=
      loopUntil_eq_none (fun state => state = (1, false)) (fun state h => h ▸ hgo)
        (fun state h => Or.inr ⟨(1, false), h ▸ hturn, rfl⟩) rfl
    exact congrArg (Option.map Prod.snd) hnone

/-- Both scans end with the right answer. -/
structure AnswersExcluded (s : List ℕ) : Prop where
  characters : ∃ fuel r, hasExcludedCharacters fuel s = some r ∧
    (r = true ↔ ∃ c ∈ s, IsExcluded c)
  iriCodes : ∃ fuel r, hasExcludedIriCodes fuel s = some r ∧
    (r = true ↔ ∃ c ∈ s, IsExcludedCode c)

theorem hasExcludedIriCodes_of_some {r : Bool} (h : hasExcludedIriCodes fuel (c :: s) = some r) :
    isExcludedIriCode c = true ∧ r = true := by
  match fuel with
  | 0 => exact nomatch h
  | 1 =>
      have hgo : isBehind (c :: s) (1, false) = some false := isBehind_append_cons [] c s false
      have hturn : excludedIriCodeTurn (c :: s) (1, false) =
          some (if isExcludedIriCode c then (((c :: s).length + 1 : ℤ), true)
            else (1, false)) := rfl
      have hnone : hasExcludedIriCodes 1 (c :: s) = none :=
        congrArg (Option.map Prod.snd) (loopUntil_of_go hgo hturn)
      exact nomatch hnone.symm.trans h
  | fuel + 2 =>
      rw [hasExcludedIriCodes_cons] at h
      split at h
      · exact ⟨‹_›, (Option.some.inj h).symm⟩
      · exact nomatch h

/-- The scans end with the right answer where there is no code, or where the second one is left at
the first code, some code is indeed excluded, and the string is not one of the longest. -/
theorem answersExcluded_iff (s : List ℕ) (hs : s.length < 2147483647) : AnswersExcluded s ↔
    s = [] ∨ s.length < 2147483646 ∧ (∃ c rest, s = c :: rest ∧ isExcludedIriCode c = true) ∧
      ∃ c ∈ s, IsExcludedCode c := by
  constructor
  · intro h
    obtain ⟨fuel, r, hrun, hr⟩ := h.iriCodes
    cases s with
    | nil => exact Or.inl rfl
    | cons c rest =>
        obtain ⟨hc, hr'⟩ := hasExcludedIriCodes_of_some hrun
        refine Or.inr ⟨Nat.lt_of_le_of_ne (Nat.le_of_lt_succ hs) fun hlength => ?_,
          ⟨c, rest, rfl, hc⟩, hr.mp hr'⟩
        obtain ⟨fuel', r', hrun', -⟩ := h.characters
        obtain ⟨a, ha, hexcluded⟩ := hr.mp hr'
        have hnone : loopUntil _ _ fuel' _ = none :=
          excludedCharacterLoop_eq_none [] (c :: rest) hlength ⟨a, ha, hexcluded.isExcluded⟩
        exact nomatch (congrArg (Option.map Prod.snd) hnone).symm.trans hrun'
  · intro h
    rcases h with rfl | ⟨hlength, ⟨c, rest, rfl, hc⟩, hexcluded⟩
    · obtain ⟨r, hcharacters⟩ := exists_hasExcludedCharacters (s := []) (by decide)
      exact ⟨⟨_, r, hcharacters⟩, 1, false, rfl, iff_of_false Bool.false_ne_true
        fun h => absurd h.choose_spec.1 not_mem_nil⟩
    · obtain ⟨r, hcharacters⟩ := exists_hasExcludedCharacters hlength
      refine ⟨⟨_, r, hcharacters⟩, ?_⟩
      refine ⟨2, true, ?_, iff_of_true rfl hexcluded⟩
      have hrun := hasExcludedIriCodes_cons 0 c rest
      rwa [if_pos hc] at hrun

/-- A delimiter before a letter. -/
theorem answersExcluded_delimiter : AnswersExcluded (codes "<a") :=
  (answersExcluded_iff _ (by decide)).mpr
    (Or.inr ⟨by decide, ⟨60, _, rfl, by decide⟩, 60, by decide, Or.inr (Or.inl (by decide))⟩)

/-- The scan of the codes of a letter does not end. -/
theorem not_answersExcluded_letter :
    ¬∀ s : List ℕ, s.length < 2147483647 → AnswersExcluded s := by
  intro h
  obtain ⟨fuel, r, hrun, -⟩ := (h [97] (by decide)).iriCodes
  exact absurd (hasExcludedIriCodes_of_some hrun).1 (by decide)

end

end UrlEncoding

end Gobo
