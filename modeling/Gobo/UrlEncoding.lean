/-
Escaping of the characters of a string for URLs (`UT_URL_ENCODING`).  The strings are edited while
they are scanned; an index that is out of range has no result.
-/
import Gobo.Loop
import Gobo.Utf8RoundTrip
import Mathlib.Tactic.Common

namespace Gobo

open List

namespace UrlEncoding

open Text Utf8Routines

/-- `item` of a string of Unicode characters: `%U` where the character is not of 8 bits. -/
def character (code : ℕ) : ℕ := if code ≤ 255 then code else 0

/-- The codes of the characters of a constant. -/
def codes (s : String) : List ℕ := s.toList.map Char.toNat

/-- The test of `is_hexadecimal`. -/
def isHexadecimalCode (c : ℕ) : Bool :=
  !decide ((c < 48 ∨ 57 < c) ∧ (c < 97 ∨ 102 < c) ∧ (c < 65 ∨ 70 < c))

/-- `is_hexadecimal (a_string)`. -/
def isHexadecimal (s : List ℕ) : Bool := !s.isEmpty && s.all isHexadecimalCode

/-- The digits of `hexadecimal_to_integer`, which has no branch for other characters. -/
def hexadecimalValue (c : ℕ) : Option ℕ :=
  if 48 ≤ c ∧ c ≤ 57 then some (c - 48)
  else if 97 ≤ c ∧ c ≤ 102 then some (c - 87)
  else if 65 ≤ c ∧ c ≤ 70 then some (c - 55)
  else none

/-- `hexadecimal_to_integer (a_string)`. -/
def hexadecimalToInteger (s : List ℕ) : Option ℕ :=
  s.foldlM (fun n c => (hexadecimalValue c).map fun v => n * 16 + v) 0

/-- The digits of `append_hexadecimal_integer`, in upper case. -/
def hexadecimalDigit (k : ℕ) : ℕ := if k < 10 then 48 + k else 55 + k

/-- `to_hexadecimal (an_int, True)`. -/
def toHexadecimal (n : ℕ) : List ℕ :=
  if n = 0 then [48]
  else (if n / 16 ≠ 0 then toHexadecimal (n / 16) else []) ++ [hexadecimalDigit (n % 16)]
decreasing_by omega

/-- `maximum_character_code_in_string (a_string)`. -/
def maximumCharacterCode (s : List ℕ) : ℕ := s.foldl max 0

/-- A string that is edited while it is scanned: `nb` is its count, `i` the index. -/
structure Edited where
  result : List ℕ
  nb : ℕ
  i : ℕ

def Edited.ended (s : Edited) : Option Bool := some (decide (s.nb < s.i))

/-- The turn of `unescape_string`. -/
def unescapeTurn (s : Edited) : Option Edited := do
  let c ← (item s.result s.i).map character
  if c = 43 then do
    let result ← putItem s.result 32 s.i
    some ⟨result, s.nb, s.i + 1⟩
  else if c = 37 then
    if s.i + 2 ≤ s.nb then
      let d := substring s.result (s.i + 1) (s.i + 2)
      if isHexadecimal d then do
        let v ← hexadecimalToInteger d
        let result ← putItem s.result v s.i
        let result ← removeItem result (s.i + 1)
        let result ← removeItem result (s.i + 1)
        some ⟨result, s.nb - 2, s.i + 1⟩
      else some { s with i := s.i + 1 }
    else some { s with i := s.i + 1 }
  else some { s with i := s.i + 1 }

/-- `unescape_string (a_string)`. -/
def unescapeString (s : List ℕ) : Option (List ℕ) :=
  (loopUntil Edited.ended unescapeTurn (s.length + 1) ⟨s, s.length, 1⟩).map Edited.result

/-- `unescape_utf8 (a_string)`; `none` inside stands for `Void`. -/
def unescapeUtf8 (s : List ℕ) : Option (Option (List ℕ)) := do
  let result ← unescapeString s
  let highCode := maximumCharacterCode result
  if 255 < highCode then some none
  else if 127 < highCode then do
    let bytes := result.map UInt8.ofNat
    let valid ← validUtf8 bytes
    if valid then (decode codeAtByteIndex bytes).map some else some none
  else some (some result)

/-- `Default_unescaped`. -/
def defaultUnescaped : List ℕ :=
  codes "abcdefghijklmnopqrstuvwxyz" ++ codes "ABCDEFGHIJKLMNOPQRSTUVWXYZ" ++
    (codes "0123456789" ++ codes "-_.!~*'()")

/-- The turn of `escape_custom`. -/
def escapeTurn (unescapedChars : List ℕ) (escapeSpaceAsPlus : Bool) (s : Edited) :
    Option Edited := do
  let c ← (item s.result s.i).map character
  if escapeSpaceAsPlus ∧ c = 32 then do
    let result ← putItem s.result 43 s.i
    some ⟨result, s.nb, s.i + 1⟩
  else if unescapedChars.contains c then some { s with i := s.i + 1 }
  else do
    let result ← putItem s.result 37 s.i
    let high ← item (toHexadecimal (c / 16 % 16)) 1
    let result ← insertItem result high (s.i + 1)
    let low ← item (toHexadecimal (c % 16)) 1
    let result ← insertItem result low (s.i + 2)
    some ⟨result, s.nb + 2, s.i + 3⟩

/-- `escape_custom (a_string, unescaped_chars, escape_space_as_plus)`. -/
def escapeCustom (s unescapedChars : List ℕ) (escapeSpaceAsPlus : Bool) : Option (List ℕ) :=
  (loopUntil Edited.ended (escapeTurn unescapedChars escapeSpaceAsPlus) (s.length + 1)
    ⟨s, s.length, 1⟩).map Edited.result

/-- `escape_string (a_string)`. -/
def escapeString (s : List ℕ) : Option (List ℕ) := escapeCustom s defaultUnescaped true

/-- `escape_utf8 (a_string)`. -/
def escapeUtf8 (s : List ℕ) : Option (List ℕ) :=
  escapeCustom ((s.foldl appendCode []).map UInt8.toNat) defaultUnescaped true

section

variable {pre rest : List ℕ} {c v high low : ℕ}

/-- The scan where `rest` is left. -/
def Edited.at (pre rest : List ℕ) : Edited :=
  ⟨pre ++ rest, (pre ++ rest).length, pre.length + 1⟩

theorem Edited.at_append (pre w rest : List ℕ) : Edited.at (pre ++ w) rest =
    ⟨pre ++ (w ++ rest), (pre ++ (w ++ rest)).length, pre.length + w.length + 1⟩ := by
  have hlength : (pre ++ w).length = pre.length + w.length := length_append
  rw [Edited.at, append_assoc, hlength]

theorem Edited.ended_at_nil (pre : List ℕ) : (Edited.at pre []).ended = some true := by
  rw [Edited.at, append_nil, Edited.ended]
  exact congrArg some (decide_eq_true (Nat.lt_succ_self _))

theorem Edited.nb_at (pre rest : List ℕ) : (Edited.at pre rest).nb = pre.length + rest.length :=
  length_append

theorem Edited.i_at (pre rest : List ℕ) : (Edited.at pre rest).i = pre.length + 1 := rfl

theorem Edited.ended_at_cons (pre : List ℕ) (c : ℕ) (rest : List ℕ) :
    (Edited.at pre (c :: rest)).ended = some false := by
  rw [Edited.ended, Edited.nb_at, Edited.i_at, length_cons]
  exact congrArg some (decide_eq_false (by omega))

/-- Pieces of a string are replaced one after the other. -/
theorem loop_of_pieces {A : Type*} {turn : Edited → Option Edited} (source target : A → List ℕ)
    {l : List A} (pre : List ℕ) (hne : ∀ a, source a ≠ [])
    (hturn : ∀ a ∈ l, ∀ pre rest, turn (Edited.at pre (source a ++ rest)) =
      some (Edited.at (pre ++ target a) rest)) {fuel : ℕ} (hfuel : l.length < fuel) :
    loopUntil Edited.ended turn fuel (Edited.at pre (l.flatMap source)) =
      some (Edited.at (pre ++ l.flatMap target) []) := by
  induction l generalizing pre fuel with
  | nil =>
      obtain ⟨fuel, rfl⟩ := Nat.exists_eq_succ_of_ne_zero (Nat.ne_zero_of_lt hfuel)
      rw [flatMap_nil, flatMap_nil, append_nil]
      exact loopUntil_of_stop (Edited.ended_at_nil pre)
  | cons a l ih =>
      obtain ⟨fuel, rfl⟩ := Nat.exists_eq_succ_of_ne_zero (Nat.ne_zero_of_lt hfuel)
      have hgo : (Edited.at pre (source a ++ l.flatMap source)).ended = some false := by
        obtain ⟨c, w, hw⟩ := exists_cons_of_ne_nil (hne a)
        rw [hw]
        exact Edited.ended_at_cons pre c _
      have hrest := ih (pre ++ target a)
        (fun b hb => hturn b (mem_cons_of_mem a hb)) (Nat.lt_of_succ_lt_succ hfuel)
      rw [flatMap_cons, flatMap_cons,
        loopUntil_of_go hgo (hturn a mem_cons_self pre _), hrest, append_assoc]

theorem character_of_lt (h : c < 256) : character c = c := if_pos (Nat.le_of_lt_succ h)

theorem item_at (pre : List ℕ) (c : ℕ) (rest : List ℕ) :
    item (Edited.at pre (c :: rest)).result (Edited.at pre (c :: rest)).i = some c :=
  item_append_cons pre c rest

theorem unescapeTurn_plus (h : character c = 43) :
    unescapeTurn (Edited.at pre (c :: rest)) = some (Edited.at (pre ++ [32]) rest) := by
  have hput : putItem (Edited.at pre (c :: rest)).result 32 (Edited.at pre (c :: rest)).i =
      some (pre ++ 32 :: rest) := putItem_append_cons pre c 32 rest
  have hcount : (Edited.at pre (c :: rest)).nb = (pre ++ 32 :: rest).length := by
    rw [Edited.at, length_append, length_append, length_cons, length_cons]
  rw [unescapeTurn, item_at, Option.map_some, some_bind, if_pos h, hput,
    Edited.at_append, hcount]
  rfl

/-- The two characters after a percent sign. -/
theorem substring_at (pre : List ℕ) (c high low : ℕ) (rest : List ℕ) :
    substring (Edited.at pre (c :: high :: low :: rest)).result
      ((Edited.at pre (c :: high :: low :: rest)).i + 1)
      ((Edited.at pre (c :: high :: low :: rest)).i + 2) = [high, low] := by
  have hmiddle := substring_middle (pre ++ [c]) [high, low] rest
  rw [append_assoc, length_append] at hmiddle
  exact hmiddle

/-- The escape sequence of a character. -/
theorem unescapeTurn_hexadecimal (hc : character c = 37)
    (hhex : isHexadecimal [high, low] = true) (hv : hexadecimalToInteger [high, low] = some v) :
    unescapeTurn (Edited.at pre (c :: high :: low :: rest)) =
      some (Edited.at (pre ++ [v]) rest) := by
  have hput : putItem (Edited.at pre (c :: high :: low :: rest)).result v (pre.length + 1) =
      some (pre ++ v :: high :: low :: rest) :=
    putItem_append_cons pre c v (high :: low :: rest)
  have hremove (d : ℕ) (rest : List ℕ) : removeItem (pre ++ v :: d :: rest) (pre.length + 1 + 1) =
      some (pre ++ v :: rest) := by
    have hd := removeItem_append_cons (pre ++ [v]) d rest
    rw [append_assoc, append_assoc, length_append] at hd
    exact hd
  have hcount : (Edited.at pre (c :: high :: low :: rest)).nb - 2 = (pre ++ v :: rest).length := by
    rw [Edited.nb_at, length_append]
    rfl
  have hnb : (Edited.at pre (c :: high :: low :: rest)).i + 2 ≤
      (Edited.at pre (c :: high :: low :: rest)).nb := by
    rw [Edited.nb_at, Edited.i_at, length_cons, length_cons, length_cons]
    omega
  rw [unescapeTurn, item_at, Option.map_some, Option.bind_eq_bind, Option.bind_some,
    if_neg (by rw [hc]; decide), if_pos hc, if_pos hnb, substring_at]
  rw [if_pos hhex, hv, hcount]
  simp only [Option.bind_eq_bind, Option.bind_some, hput, Edited.i_at, hremove]
  rw [Edited.at_append]
  rfl

/-- A character that stays as it is. -/
theorem unescapeTurn_other (hplus : character c ≠ 43)
    (h : character c = 37 → ∀ high low rest', rest = high :: low :: rest' →
      isHexadecimal [high, low] = false) :
    unescapeTurn (Edited.at pre (c :: rest)) = some (Edited.at (pre ++ [c]) rest) := by
  have hnext : Edited.at (pre ++ [c]) rest =
      { Edited.at pre (c :: rest) with i := (Edited.at pre (c :: rest)).i + 1 } := by
    rw [Edited.at_append]
    rfl
  rw [unescapeTurn, item_at, Option.map_some, some_bind, if_neg hplus, hnext]
  by_cases hpercent : character c = 37
  · rw [if_pos hpercent]
    split
    · rename_i hnb
      rw [Edited.nb_at, Edited.i_at, length_cons] at hnb
      obtain ⟨high, low, rest', rfl⟩ : ∃ high low rest', rest = high :: low :: rest' := by
        match rest with
        | [] => exact absurd hnb (by rw [length_nil]; omega)
        | [_] => exact absurd hnb (by rw [length_singleton]; omega)
        | high :: low :: rest => exact ⟨high, low, rest, rfl⟩
      rw [substring_at, if_neg]
      rw [h hpercent high low rest' rfl]
      exact Bool.false_ne_true
    · rfl
  · rw [if_neg hpercent]

theorem exists_hexadecimalValue (h : isHexadecimalCode c = true) :
    ∃ v, hexadecimalValue c = some v := by
  rw [isHexadecimalCode, Bool.not_eq_true', decide_eq_false_iff_not] at h
  rw [hexadecimalValue]
  split
  · exact ⟨_, rfl⟩
  split
  · exact ⟨_, rfl⟩
  split
  · exact ⟨_, rfl⟩
  · omega

theorem exists_hexadecimalToInteger {s : List ℕ} (h : isHexadecimal s = true) :
    ∃ v, hexadecimalToInteger s = some v := by
  rw [isHexadecimal, Bool.and_eq_true, all_eq_true] at h
  obtain ⟨v, hv, -⟩ := foldlM_spec (fun _ _ => True) (l := s)
    (f := fun n c => (hexadecimalValue c).map fun v => n * 16 + v) (s := 0)
    (fun done c rest n hs _ => by
      obtain ⟨v, hv⟩ := exists_hexadecimalValue
        (h.2 c (hs ▸ mem_append_right done mem_cons_self))
      exact ⟨n * 16 + v, by rw [hv]; rfl, trivial⟩) trivial
  exact ⟨v, hv⟩

/-- Every turn goes on by one character, which may replace three. -/
theorem exists_unescapeTurn (pre : List ℕ) (c : ℕ) (rest : List ℕ) :
    ∃ v rest', unescapeTurn (Edited.at pre (c :: rest)) = some (Edited.at (pre ++ [v]) rest') ∧
      rest'.length ≤ rest.length := by
  by_cases hplus : character c = 43
  · exact ⟨32, rest, unescapeTurn_plus hplus, Nat.le_refl _⟩
  by_cases hhex : character c = 37 ∧ ∃ high low rest', rest = high :: low :: rest' ∧
      isHexadecimal [high, low] = true
  · obtain ⟨hc, high, low, rest, rfl, hhex⟩ := hhex
    obtain ⟨v, hv⟩ := exists_hexadecimalToInteger hhex
    exact ⟨v, rest, unescapeTurn_hexadecimal hc hhex hv, Nat.le_add_right _ 2⟩
  · refine ⟨c, rest, unescapeTurn_other hplus ?_, Nat.le_refl _⟩
    intro hc high low rest' hrest
    rw [Bool.eq_false_iff]
    exact fun h => hhex ⟨hc, high, low, rest', hrest, h⟩

/-- The loop of `unescape_string` ends, and makes no string longer. -/
theorem exists_unescapeLoop (pre rest : List ℕ) {fuel : ℕ} (hfuel : rest.length < fuel) :
    ∃ result, loopUntil Edited.ended unescapeTurn fuel (Edited.at pre rest) =
      some (Edited.at result []) ∧ result.length ≤ pre.length + rest.length := by
  induction fuel generalizing pre rest with
  | zero => omega
  | succ fuel ih =>
      cases rest with
      | nil => exact ⟨pre, loopUntil_of_stop (Edited.ended_at_nil pre), Nat.le_refl _⟩
      | cons c rest =>
          obtain ⟨v, rest', hturn, hle⟩ := exists_unescapeTurn pre c rest
          rw [length_cons] at hfuel
          obtain ⟨result, hrun, hresult⟩ := ih (pre ++ [v]) rest' (by omega)
          rw [length_append, length_singleton] at hresult
          refine ⟨result, (loopUntil_of_go (Edited.ended_at_cons pre c rest) hturn).trans hrun, ?_⟩
          rw [length_cons]
          omega

theorem result_at_nil (pre : List ℕ) : (Edited.at pre []).result = pre := append_nil pre

/-- `unescape_string` has a result for every string. -/
theorem exists_unescapeString (s : List ℕ) :
    ∃ result, unescapeString s = some result ∧ result.length ≤ s.length := by
  obtain ⟨result, hrun, hle⟩ := exists_unescapeLoop [] s (Nat.lt_succ_self s.length)
  rw [length_nil, Nat.zero_add] at hle
  refine ⟨result, ?_, hle⟩
  rw [unescapeString]
  exact (congrArg (Option.map Edited.result) hrun).trans (congrArg some (result_at_nil result))

end

section

variable {pre rest : List ℕ} {c k : ℕ} {unescapedChars : List ℕ}

/-- What `escape_string` writes for a character. -/
def escaped (c : ℕ) : List ℕ :=
  if c = 32 then [43]
  else if defaultUnescaped.contains c then [c]
  else [37, hexadecimalDigit (c / 16 % 16), hexadecimalDigit (c % 16)]

theorem toHexadecimal_of_lt (h : k < 16) : toHexadecimal k = [hexadecimalDigit k] := by
  rw [toHexadecimal]
  split
  · rename_i hzero
    rw [hzero]
    rfl
  · rw [if_neg (by omega), nil_append, Nat.mod_eq_of_lt h]

theorem escapeTurn_eq (hc : c < 256) :
    escapeTurn defaultUnescaped true (Edited.at pre (c :: rest)) =
      some (Edited.at (pre ++ escaped c) rest) := by
  have hhigh : toHexadecimal (c / 16 % 16) = [hexadecimalDigit (c / 16 % 16)] :=
    toHexadecimal_of_lt (Nat.mod_lt _ (by decide))
  have hlow : toHexadecimal (c % 16) = [hexadecimalDigit (c % 16)] :=
    toHexadecimal_of_lt (Nat.mod_lt _ (by decide))
  have hput (v : ℕ) : putItem (Edited.at pre (c :: rest)).result v (pre.length + 1) =
      some (pre ++ v :: rest) := putItem_append_cons pre c v rest
  have hinsert (v d : ℕ) (rest : List ℕ) :
      insertItem (pre ++ v :: rest) d (pre.length + 1 + 1) = some (pre ++ v :: d :: rest) := by
    have hd := insertItem_append (pre ++ [v]) d rest
    rw [append_assoc, append_assoc, length_append] at hd
    exact hd
  have hinsert' (v w d : ℕ) (rest : List ℕ) :
      insertItem (pre ++ v :: w :: rest) d (pre.length + 1 + 2) =
        some (pre ++ v :: w :: d :: rest) := by
    have hd := insertItem_append (pre ++ [v, w]) d rest
    rw [append_assoc, append_assoc, length_append] at hd
    exact hd
  rw [escapeTurn, item_at, Option.map_some, character_of_lt hc, some_bind, escaped]
  by_cases hspace : c = 32
  · rw [if_pos ⟨rfl, hspace⟩, if_pos hspace]
    simp only [Edited.i_at, hput, some_bind]
    rw [Edited.at_append, Edited.nb_at, length_append]
    rfl
  rw [if_neg (fun h => hspace h.2), if_neg hspace]
  by_cases hkept : defaultUnescaped.contains c = true
  · rw [if_pos hkept, if_pos hkept, Edited.at_append]
    rfl
  · rw [if_neg hkept, if_neg hkept, hhigh, hlow]
    simp only [Edited.i_at, hput, hinsert, hinsert', item, getElem?_cons_zero,
      some_bind]
    rw [Edited.at_append, Edited.nb_at, length_append]
    rfl

theorem escapeCustom_eq {s : List ℕ} (hs : ∀ c ∈ s, c < 256) :
    escapeCustom s defaultUnescaped true = some (s.flatMap escaped) := by
  have hrun := loop_of_pieces (fun c => [c]) escaped []
    (fun c => cons_ne_nil c []) (fun c hc pre rest => escapeTurn_eq (hs c hc))
    (Nat.lt_succ_self s.length)
  rw [flatMap_singleton', nil_append] at hrun
  exact (congrArg (Option.map Edited.result) hrun).trans
    (congrArg some (result_at_nil (s.flatMap escaped)))

theorem defaultUnescaped_spec (h : defaultUnescaped.contains c = true) :
    c ≠ 43 ∧ c ≠ 37 ∧ c < 128 := by
  have hall : ∀ c ∈ defaultUnescaped, c ≠ 43 ∧ c ≠ 37 ∧ c < 128 := by decide
  exact hall c (contains_iff_mem.mp h)

theorem hexadecimalDigit_spec (h : k < 16) : isHexadecimalCode (hexadecimalDigit k) = true ∧
    hexadecimalValue (hexadecimalDigit k) = some k ∧ hexadecimalDigit k < 128 := by
  have hall : ∀ k < 16, isHexadecimalCode (hexadecimalDigit k) = true ∧
      hexadecimalValue (hexadecimalDigit k) = some k ∧ hexadecimalDigit k < 128 := by decide
  exact hall k h

/-- The characters that stand for a character are read as this one. -/
theorem unescapeTurn_escaped (hc : c < 256) :
    unescapeTurn (Edited.at pre (escaped c ++ rest)) = some (Edited.at (pre ++ [c]) rest) := by
  rw [escaped]
  split
  · rename_i hspace
    rw [hspace]
    exact unescapeTurn_plus rfl
  split
  · rename_i hkept
    obtain ⟨hplus, hpercent, -⟩ := defaultUnescaped_spec hkept
    apply unescapeTurn_other
    · rwa [character_of_lt hc]
    · rw [character_of_lt hc]
      exact fun h => absurd h hpercent
  · obtain ⟨hhigh, hhigh', -⟩ := hexadecimalDigit_spec (Nat.mod_lt (c / 16) (by decide : 0 < 16))
    obtain ⟨hlow, hlow', -⟩ := hexadecimalDigit_spec (Nat.mod_lt c (by decide : 0 < 16))
    apply unescapeTurn_hexadecimal rfl
    · rw [isHexadecimal, all_cons, all_cons, hhigh, hlow]
      rfl
    · rw [hexadecimalToInteger, foldlM_cons, hhigh', Option.map_some, some_bind, foldlM_cons,
        hlow', Option.map_some, some_bind]
      change some _ = some _
      rw [Option.some.injEq]
      omega

theorem escaped_ne_nil (c : ℕ) : escaped c ≠ [] := by
  rw [escaped]
  split
  · exact cons_ne_nil _ _
  split
  · exact cons_ne_nil _ _
  · exact cons_ne_nil _ _

theorem length_le_flatMap_escaped (s : List ℕ) : s.length ≤ (s.flatMap escaped).length := by
  induction s with
  | nil => exact Nat.le_refl _
  | cons c s ih =>
      have hpos := length_pos_of_ne_nil (escaped_ne_nil c)
      rw [flatMap_cons, length_append, length_cons]
      omega

theorem unescapeString_escaped {s : List ℕ} (hs : ∀ c ∈ s, c < 256) :
    unescapeString (s.flatMap escaped) = some s := by
  have hrun := loop_of_pieces escaped (fun c => [c]) []
    escaped_ne_nil (fun c hc pre rest => unescapeTurn_escaped (hs c hc))
    (Nat.lt_succ_of_le (length_le_flatMap_escaped s))
  rw [flatMap_singleton', nil_append] at hrun
  exact (congrArg (Option.map Edited.result) hrun).trans (congrArg some (result_at_nil s))

theorem escaped_lt {d : ℕ} (hd : d ∈ escaped c) : d < 128 := by
  rw [escaped] at hd
  split at hd
  · rw [mem_singleton.mp hd]
    decide
  split at hd
  · rename_i hkept
    rw [mem_singleton.mp hd]
    exact (defaultUnescaped_spec hkept).2.2
  · rcases mem_cons.mp hd with rfl | hd
    · decide
    rcases mem_cons.mp hd with rfl | hd
    · exact (hexadecimalDigit_spec (Nat.mod_lt _ (by decide))).2.2
    · rw [mem_singleton.mp hd]
      exact (hexadecimalDigit_spec (Nat.mod_lt _ (by decide))).2.2

end

section

variable {u s : List ℕ} {c n : ℕ}

theorem foldl_max_le_iff (a : ℕ) : s.foldl max a ≤ n ↔ a ≤ n ∧ ∀ c ∈ s, c ≤ n := by
  induction s generalizing a with
  | nil => exact (and_iff_left (forall_mem_nil _)).symm
  | cons c s ih =>
      rw [foldl_cons, ih, Nat.max_le, forall_mem_cons, and_assoc]

theorem maximumCharacterCode_le_iff : maximumCharacterCode s ≤ n ↔ ∀ c ∈ s, c ≤ n := by
  rw [maximumCharacterCode, foldl_max_le_iff]
  exact and_iff_right (Nat.zero_le n)

/-- A code that is not ASCII is encoded with such a byte. -/
theorem exists_mem_encode (hc : validNonSurrogateCode c = true) (hlt : 127 < c) :
    ∃ byte ∈ encode c, 127 < byte.toNat := by
  obtain ⟨hchar, hvalue, -⟩ := encode_spec hc
  obtain ⟨first, tail, hencode, -, hcount⟩ := length_of_isCharacter hchar
  refine ⟨first, hencode ▸ mem_cons_self, ?_⟩
  by_contra hle
  have hone : encodedByteCount first = 1 := if_pos (Nat.not_lt.mp hle)
  obtain rfl : tail = [] := length_eq_zero_iff.mp (by omega)
  rw [hencode, value_one (Nat.not_lt.mp hle)] at hvalue
  omega

theorem encode_of_ascii (hc : c < 128) : (encode c).map UInt8.toNat = [c] := by
  rw [encode, appendCode, if_pos hc]
  exact congrArg (· :: []) (toNat_ofNat (by omega))

/-- ASCII characters are their own encoding. -/
theorem encode_ascii (hu : ∀ c ∈ u, validNonSurrogateCode c = true)
    (h : ∀ byte ∈ u.flatMap encode, byte.toNat ≤ 127) :
    (u.flatMap encode).map UInt8.toNat = u := by
  induction u with
  | nil => rfl
  | cons c u ih =>
      obtain ⟨hc, hu⟩ := forall_mem_cons.mp hu
      rw [flatMap_cons] at h
      have hascii : c < 128 := by
        by_contra hlt
        obtain ⟨byte, hmem, hbyte⟩ := exists_mem_encode hc (by omega)
        exact absurd (h byte (mem_append_left _ hmem)) (Nat.not_le.mpr hbyte)
      rw [flatMap_cons, map_append, encode_of_ascii hascii,
        ih hu fun byte hbyte => h byte (mem_append_right _ hbyte)]
      rfl

theorem map_toNat_lt (bytes : List UInt8) : ∀ c ∈ bytes.map UInt8.toNat, c < 256 := by
  intro c hc
  obtain ⟨byte, -, rfl⟩ := mem_map.mp hc
  exact byte.toNat_lt

theorem map_ofNat_toNat (bytes : List UInt8) :
    (bytes.map UInt8.toNat).map UInt8.ofNat = bytes := by
  rw [map_map]
  exact (map_congr_left fun byte _ => UInt8.ofNat_toNat).trans bytes.map_id

/-- The bytes of valid codes are decoded as these codes. -/
theorem unescapeUtf8_of_bytes (hu : ∀ c ∈ u, validNonSurrogateCode c = true)
    (hs : unescapeString s = some ((u.flatMap encode).map UInt8.toNat)) :
    unescapeUtf8 s = some (some u) := by
  have hbyte : ¬255 < maximumCharacterCode ((u.flatMap encode).map UInt8.toNat) := by
    rw [Nat.not_lt, maximumCharacterCode_le_iff]
    exact fun c hc => Nat.le_of_lt_succ (map_toNat_lt _ c hc)
  rw [unescapeUtf8, hs, some_bind]
  dsimp only
  rw [if_neg hbyte]
  split
  · obtain ⟨r, hrun, hr⟩ := Utf8Routines.validFrom_spec [] (u.flatMap encode)
      (Nat.lt_succ_self (u.flatMap encode).length)
    have hvalid : validUtf8 (u.flatMap encode) = some true := by
      rw [hr.mpr ⟨u, hu, rfl⟩] at hrun
      exact hrun
    have hdecode : decode codeAtByteIndex (u.flatMap encode) = some u :=
      decodeFrom_eq (fun pre w rest => codeAtByteIndex_eq pre rest) [] hu (Nat.lt_succ_self _)
    rw [map_ofNat_toNat, hvalid, some_bind, if_pos rfl, hdecode]
    rfl
  · rename_i hascii
    rw [Nat.not_lt, maximumCharacterCode_le_iff] at hascii
    rw [encode_ascii hu fun byte hbyte => hascii byte.toNat (mem_map_of_mem hbyte)]

/-- What is escaped is unescaped as what it was, and unescaping never fails. -/
theorem escape_round_trip : (∀ s : List ℕ, (∀ c ∈ s, c < 256) →
      ∃ e, escapeString s = some e ∧ unescapeString e = some s) ∧
    (∀ u : List ℕ, (∀ c ∈ u, validNonSurrogateCode c = true) →
      ∃ e, escapeUtf8 u = some e ∧ (∀ c ∈ e, c ≤ 127) ∧ unescapeUtf8 e = some (some u)) ∧
    ∀ s : List ℕ, ∃ result, unescapeString s = some result := by
  refine ⟨fun s hs => ?_, fun u hu => ?_, fun s => ?_⟩
  · exact ⟨s.flatMap escaped, escapeCustom_eq hs, unescapeString_escaped hs⟩
  · have hfold : u.foldl appendCode [] = u.flatMap encode := foldl_appendCode [] u
    have hlt := map_toNat_lt (u.flatMap encode)
    refine ⟨((u.flatMap encode).map UInt8.toNat).flatMap escaped, ?_, fun c hc => ?_, ?_⟩
    · rw [escapeUtf8, hfold]
      exact escapeCustom_eq hlt
    · obtain ⟨d, -, hd⟩ := mem_flatMap.mp hc
      exact Nat.le_of_lt_succ (escaped_lt hd)
    · exact unescapeUtf8_of_bytes hu (unescapeString_escaped hlt)
  · obtain ⟨result, hrun, -⟩ := exists_unescapeString s
    exact ⟨result, hrun⟩

theorem escape_round_trip_euro : ∃ e, escapeUtf8 [0x20, 0x2B, 0x25, 0x20AC] = some e ∧
    (∀ c ∈ e, c ≤ 127) ∧ unescapeUtf8 e = some (some [0x20, 0x2B, 0x25, 0x20AC]) :=
  escape_round_trip.2.1 _ (by decide)

end

end UrlEncoding

end Gobo
