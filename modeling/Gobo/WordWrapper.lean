/-
Word wrapping (`ST_WORD_WRAPPER`): the text is cut into lines of a given width, at spaces if there
are any.
-/
import Gobo.Integer32
import Gobo.Loop
import Gobo.Text
import Gobo.Words
import Mathlib.Algebra.Ring.Nat
import Mathlib.Data.List.Induction

namespace Gobo

open Option List Text

/-- The last number of the type `INTEGER`. -/
def maximumInteger : ℕ := 2147483647

structure WordWrapper where
  maximumTextWidth : ℕ
  newLineIndentation : ℕ
  indentation_lt : newLineIndentation < maximumTextWidth
  width_le : maximumTextWidth ≤ maximumInteger

namespace WordWrapper

/-- `is_space`. -/
def isSpace (c : Char) : Bool := c = ' ' || c = '\t' || c = '\n' || c = '\r'

/-- One turn of the loop of `canonify_whitespace`. -/
def canonifyTurn (position : ℕ) (text : List Char) : Option (List Char) := do
  let char ← item text position
  if isSpace char then putItem text ' ' position else some text

def canonifyWhitespace (text : List Char) : Option (List Char) :=
  forUp canonifyTurn text.length 1 text

/-- `item (i)`; there is none before the first one. -/
def itemAt (s : List Char) (i : ℤ) : Option Char := if i < 1 then none else item s i.toNat

/-- `search_position = position or unwrapped_text.item (search_position) = ' '`. -/
def stopsSearch (s : List Char) (position searchPosition : ℤ) : Option Bool :=
  if searchPosition = position then some true
  else (itemAt s searchPosition).map fun c => decide (c = ' ')

/-- The search for a space, backwards from `i`. -/
def searchSpace (s : List Char) (position i : ℤ) : Option ℤ :=
  loopUntil (stopsSearch s position) (fun i => some (i - 1)) (s.length + 1) i

/-- The result of `wrapped_string`, `broken_words` and the locals of the loop. -/
structure Wrapping where
  result : List Char
  brokenWords : ℕ
  position : ℤ
  lineLength : ℤ

/-- One turn of the loop of `wrapped_string`.  Where a text has fewer than 2147483646 characters,
only `position + line_length` can be more than an `INTEGER`. -/
def wrapTurn (w : WordWrapper) (s : List Char) (t : Wrapping) : Option Wrapping := do
  let textLength : ℤ := s.length
  let fillString := replicate w.newLineIndentation ' '
  let searchPosition ← if int32 (t.position + t.lineLength) ≤ textLength then
      searchSpace s t.position (int32 (t.position + t.lineLength))
    else some (textLength + 1)
  let (line, brokenWords, searchPosition) :=
    if searchPosition = t.position then
      let searchPosition := int32 (t.position + t.lineLength) - 1
      (substring s t.position.toNat searchPosition.toNat, t.brokenWords + 1, searchPosition)
    else (substring s t.position.toNat (searchPosition - 1).toNat, t.brokenWords, searchPosition)
  let position := searchPosition + 1
  let lineBreak := if position ≤ textLength then '\n' :: fillString else []
  some {
    result := t.result ++ line ++ lineBreak
    brokenWords := brokenWords
    position := position
    lineLength := w.maximumTextWidth - w.newLineIndentation }

/-- The result of `wrapped_string`, and `broken_words` after it. -/
def wrappedString (w : WordWrapper) (text : List Char) : Option (List Char × ℕ) := do
  let unwrapped ← canonifyWhitespace text
  let t ← loopUntil (fun t => some (decide (t.position > (unwrapped.length : ℤ))))
    (wrapTurn w unwrapped) (unwrapped.length + 1) ⟨[], 0, 1, w.maximumTextWidth⟩
  some (t.result, t.brokenWords)

/-- The width that is available on a line. -/
def available (w : WordWrapper) : ℕ → ℕ
  | 0 => w.maximumTextWidth
  | _ + 1 => w.maximumTextWidth - w.newLineIndentation

def lines (s : List Char) : List (List Char) := s.splitOn '\n'

/-- The words of lines, with the widths that are available on these. -/
def wordsOnLines (w : WordWrapper) (s : List Char) : List (ℕ × List Char) :=
  ((lines s).zipIdx.map fun line => (wordsBy isSpace line.1).map (w.available line.2, ·)).flatten

/-- The word that pieces on lines make up. -/
def joined (pieces : List (ℕ × List Char)) : List Char := (pieces.map Prod.snd).flatten

/-- What is expected of a wrapped text and the number of words that were broken: the words of the
text are in pieces on the lines, and no word is in more than one piece that fits on the lines where
it is broken. -/
structure IsWrapped (w : WordWrapper) (text result : List Char) (brokenWords : ℕ) : Prop where
  width_le : ∀ line ∈ lines result, line.length ≤ w.maximumTextWidth
  same_text : result.filter (!isSpace ·) = text.filter (!isSpace ·)
  exists_pieces : ∃ words : List (List (ℕ × List Char)), (∀ word ∈ words, word ≠ []) ∧
    wordsBy isSpace text = words.map joined ∧ w.wordsOnLines result = words.flatten ∧
      (∀ word ∈ words, ∀ piece ∈ word.dropLast, piece.1 < (joined word).length) ∧
        brokenWords = (words.map fun word => word.length - 1).sum

/-- `Breaks width rest line rest' broken`: the first line of `rest` is `line`, after which
`rest'` is left; `broken` tells whether a line without a space, save perhaps the first
character, was cut. -/
inductive Breaks (width : ℕ) : List Char → List Char → List Char → ℕ → Prop where
  | last (rest : List Char) (hwidth : rest.length ≤ width) : Breaks width rest rest [] 0
  | space (line after more : List Char) (hline : line ≠ [])
      (hwidth : line.length + after.length = width) (hafter : ' ' ∉ after) :
      Breaks width (line ++ ' ' :: (after ++ more)) line (after ++ more) 0
  | broken (c : Char) (word more : List Char) (hwidth : word.length = width)
      (hword : ' ' ∉ word) :
      Breaks width (c :: (word ++ more)) ((c :: word).take width)
        ((c :: word).drop width ++ more) 1

section

variable {w : WordWrapper} {s pre rest line rest' after more word : List Char} {c : Char}
  {t : Wrapping} {width k : ℕ}

theorem exists_lastSpace (s : List Char) :
    ' ' ∉ s ∨ ∃ line after, s = line ++ ' ' :: after ∧ ' ' ∉ after := by
  induction s with
  | nil => exact Or.inl (by simp)
  | cons c s ih =>
    rcases ih with hs | ⟨line, after, rfl, hafter⟩
    · by_cases hc : c = ' '
      · exact Or.inr ⟨[], s, by rw [hc]; rfl, hs⟩
      · exact Or.inl (by simp [hs, Ne.symm hc])
    · exact Or.inr ⟨c :: line, after, rfl, hafter⟩

/-- There is always a first line. -/
theorem exists_breaks (width : ℕ) (hrest : rest ≠ []) :
    ∃ line rest' k, Breaks width rest line rest' k := by
  rcases Nat.lt_or_ge width rest.length with hlt | hle
  · obtain ⟨c, tail, rfl⟩ := exists_cons_of_ne_nil hrest
    rw [length_cons] at hlt
    have hlength : (tail.take width).length = width :=
      length_take_of_le (Nat.le_of_lt_succ hlt)
    have hsplit := take_append_drop width tail
    rcases exists_lastSpace (tail.take width) with hfree | ⟨line, after, heq, hafter⟩
    · rw [← hsplit]
      exact ⟨_, _, _, .broken c (tail.take width) (tail.drop width) hlength hfree⟩
    · rw [heq, length_append, length_cons] at hlength
      have hrest : c :: tail = (c :: line) ++ ' ' :: (after ++ tail.drop width) := by
        calc c :: tail = c :: (tail.take width ++ tail.drop width) := by rw [hsplit]
          _ = (c :: line) ++ ' ' :: (after ++ tail.drop width) := by rw [heq]; simp
      rw [hrest]
      exact ⟨_, _, _, .space (c :: line) after _ (cons_ne_nil _ _)
        (by rw [length_cons]; omega) hafter⟩
  · exact ⟨_, _, _, .last rest hle⟩

/-- The line and what is left after it are parts of the text. -/
theorem Breaks.exists_pre (h : Breaks width rest line rest' k) (hwidth : 0 < width)
    (hrest : rest ≠ []) : line ≠ [] ∧ line.length ≤ width ∧
      ((rest' = [] ∧ rest = line) ∨ rest = line ++ ' ' :: rest' ∨ rest = line ++ rest') := by
  cases h with
  | last rest hle => exact ⟨hrest, hle, Or.inl ⟨rfl, rfl⟩⟩
  | space line after more hline hlength hafter =>
    exact ⟨hline, by omega, Or.inr (Or.inl rfl)⟩
  | broken c word more hlength hword =>
    refine ⟨?_, ?_, Or.inr (Or.inr ?_)⟩
    · rw [← length_pos_iff, length_take, length_cons]
      omega
    · exact length_take_le _ _
    · rw [← append_assoc, take_append_drop]
      rfl

theorem itemAt_append_cons (pre : List Char) (c : Char) (rest : List Char) :
    itemAt (pre ++ c :: rest) (pre.length + 1) = some c := by
  rw [itemAt, if_neg (by omega)]
  exact item_append_cons pre c rest

/-- The search goes back over what has no space. -/
theorem turns_search (front : List Char) (position : ℤ) (hposition : position ≤ front.length)
    (hafter : ' ' ∉ after) (more : List Char) :
    Turns (stopsSearch (front ++ (after ++ more)) position) (fun i => some (i - 1)) after.length
      (front.length + after.length : ℤ) (front.length : ℤ) := by
  induction after using reverseRecOn generalizing more with
  | nil =>
    have hzero : (front.length + ([] : List Char).length : ℤ) = front.length := Int.add_zero _
    rw [hzero]
    exact Turns.refl _
  | append_singleton after c ih =>
    rw [mem_append, not_or, mem_singleton] at hafter
    have hrest := ih hafter.1 (c :: more)
    have hlength : (front.length + (after ++ [c]).length : ℤ) = (front ++ after).length + 1 := by
      rw [length_append, length_append, length_singleton]
      omega
    rw [append_assoc, singleton_append, hlength, length_append,
      length_singleton, Nat.add_comm]
    refine Turns.trans (Turns.one ?_ rfl) ?_
    · have hitem := itemAt_append_cons (front ++ after) c more
      rw [append_assoc] at hitem
      rw [stopsSearch, if_neg (by rw [length_append]; omega), hitem, map_some,
        decide_eq_false (Ne.symm hafter.2)]
    · rw [length_append, Int.natCast_add, Int.add_sub_cancel]
      exact hrest

/-- The search stops at the last space. -/
theorem searchSpace_space (pre : List Char) (hline : line ≠ []) (hafter : ' ' ∉ after)
    (more : List Char) :
    searchSpace (pre ++ (line ++ ' ' :: (after ++ more))) (pre.length + 1)
      (pre.length + 1 + (line.length + after.length : ℕ)) =
        some (pre.length + line.length + 1 : ℤ) := by
  have hs : pre ++ (line ++ ' ' :: (after ++ more)) =
      (pre ++ line ++ [' ']) ++ (after ++ more) := by
    simp
  have hfront : ((pre ++ line ++ [' ']).length : ℤ) = pre.length + line.length + 1 := by
    rw [length_append, length_append]
    rfl
  have hpos := length_pos_iff.mpr hline
  have hturns := turns_search (pre ++ line ++ [' ']) (pre.length + 1) (by rw [hfront]; omega)
    hafter more
  have hitem := itemAt_append_cons (pre ++ line) ' ' (after ++ more)
  rw [length_append, Int.natCast_add, append_assoc] at hitem
  rw [hfront] at hturns
  have hstart : (pre.length + 1 + (line.length + after.length : ℕ) : ℤ) =
      pre.length + line.length + 1 + after.length := by
    omega
  rw [searchSpace, hstart, hs]
  refine hturns.loopUntil_eq ?_ ?_
  · rw [← hs, stopsSearch, if_neg (by omega), hitem]
    rfl
  · simp only [length_append]
    omega

/-- The search stops at the beginning of a line that has no space. -/
theorem searchSpace_broken (pre : List Char) (c : Char) (hword : ' ' ∉ word) (more : List Char) :
    searchSpace (pre ++ c :: (word ++ more)) (pre.length + 1)
      (pre.length + 1 + (word.length : ℕ)) = some (pre.length + 1 : ℤ) := by
  have hs : pre ++ c :: (word ++ more) = (pre ++ [c]) ++ (word ++ more) := by
    simp
  have hfront : ((pre ++ [c]).length : ℤ) = pre.length + 1 := by
    rw [length_append]
    rfl
  have hturns := turns_search (pre ++ [c]) (pre.length + 1) (Int.le_of_eq hfront.symm) hword more
  rw [hfront] at hturns
  rw [searchSpace, hs]
  refine hturns.loopUntil_eq (if_pos rfl) ?_
  simp only [length_append]
  omega

/-- There is nothing to search before the text. -/
theorem searchSpace_neg {position i : ℤ} (hi : i < 1) (hposition : 1 ≤ position) :
    searchSpace s position i = none := by
  rw [searchSpace, loopUntil, stopsSearch, if_neg (by omega), itemAt, if_pos hi]
  rfl

/-- The position of what is left of the text; if nothing is left it is behind the text. -/
def At (s : List Char) (position : ℤ) (rest : List Char) : Prop :=
  (rest = [] ∧ (s.length : ℤ) < position) ∨
    (rest ≠ [] ∧ ∃ pre, s = pre ++ rest ∧ position = pre.length + 1)

/-- What stands between two lines. -/
def separator (w : WordWrapper) (rest : List Char) : List Char :=
  if rest = [] then [] else '\n' :: replicate w.newLineIndentation ' '

theorem int32_position {n width : ℕ} (hmax : n + 1 + width ≤ maximumInteger) :
    int32 ((n : ℤ) + 1 + width) = n + 1 + width := by
  have hmax' : n + 1 + width ≤ 2147483647 := hmax
  exact int32_of_mem (by omega) (by omega)

/-- A turn of the loop writes the first line of what is left. -/
theorem Breaks.exists_wrapTurn (h : Breaks width rest line rest' k) (hwidth : 0 < width)
    (hrest : rest ≠ []) (hmax : pre.length + 1 + width ≤ maximumInteger) (result : List Char)
    (brokenWords : ℕ) : ∃ position, At (pre ++ rest) position rest' ∧
      wrapTurn w (pre ++ rest) ⟨result, brokenWords, pre.length + 1, width⟩ =
        some ⟨result ++ line ++ separator w rest', brokenWords + k, position,
          w.maximumTextWidth - w.newLineIndentation⟩ := by
  have hsum := int32_position hmax
  have hstart : ((pre.length : ℤ) + 1).toNat = pre.length + 1 := by omega
  unfold wrapTurn
  dsimp only
  rw [hsum]
  cases h with
  | last rest hle =>
    have hpos := length_pos_iff.mpr hrest
    have hend : (((pre ++ rest).length : ℤ) + 1 - 1).toNat = pre.length + rest.length := by
      rw [length_append]
      omega
    have hline := substring_middle pre rest []
    rw [append_nil] at hline
    refine ⟨(pre ++ rest).length + 1 + 1, Or.inl ⟨rfl, by omega⟩, ?_⟩
    rw [if_neg (by rw [length_append]; omega), bind_eq_bind, bind_some,
      if_neg (by rw [length_append]; omega)]
    dsimp only
    rw [if_neg (by omega), hstart, hend, hline]
    rfl
  | space line after more hline hlength hafter =>
    have hpos := length_pos_iff.mpr hline
    have hsearch := searchSpace_space pre hline hafter more
    rw [hlength] at hsearch
    have hend : ((pre.length : ℤ) + line.length + 1 - 1).toNat = pre.length + line.length := by
      omega
    have hlines := substring_middle pre line (' ' :: (after ++ more))
    have hall : (pre ++ (line ++ ' ' :: (after ++ more))).length =
        pre.length + line.length + 1 + (after ++ more).length := by
      rw [length_append, length_append, length_cons]
      omega
    have hle : width ≤ line.length + (after ++ more).length := by
      rw [length_append]
      omega
    refine ⟨pre.length + line.length + 1 + 1, ?_, ?_⟩
    · by_cases hmore : after ++ more = []
      · refine Or.inl ⟨hmore, ?_⟩
        rw [hall, hmore, length_nil]
        omega
      · refine Or.inr ⟨hmore, pre ++ line ++ [' '], by simp, ?_⟩
        rw [length_append, length_append]
        rfl
    · rw [if_pos (by rw [hall]; omega), hsearch, bind_eq_bind, bind_some,
        if_neg (by omega)]
      dsimp only
      rw [hstart, hend, hlines, hall, separator]
      by_cases hmore : after ++ more = []
      · rw [if_pos hmore, if_neg (by rw [hmore, length_nil]; omega)]
        rfl
      · have hpos' := length_pos_iff.mpr hmore
        rw [if_neg hmore, if_pos (by omega)]
        rfl
  | broken c word more hlength hword =>
    have hsearch := searchSpace_broken pre c hword more
    rw [hlength] at hsearch
    have hcut : c :: (word ++ more) =
        (c :: word).take width ++ ((c :: word).drop width ++ more) := by
      rw [← append_assoc, take_append_drop]
      rfl
    have htake : ((c :: word).take width).length = width := by
      rw [length_take, length_cons]
      omega
    have hdrop : (c :: word).drop width ++ more ≠ [] := by
      rw [← length_pos_iff, length_append, length_drop, length_cons]
      omega
    have hend : ((pre.length : ℤ) + 1 + width - 1).toNat = pre.length + width := by
      omega
    have hlines := substring_middle pre ((c :: word).take width) ((c :: word).drop width ++ more)
    rw [← hcut, htake] at hlines
    have hall : (pre ++ c :: (word ++ more)).length = pre.length + 1 + width + more.length := by
      rw [length_append, length_cons, length_append, hlength]
      omega
    refine ⟨pre.length + 1 + width - 1 + 1,
      Or.inr ⟨hdrop, pre ++ (c :: word).take width, ?_, ?_⟩, ?_⟩
    · rw [hcut, append_assoc]
    · rw [length_append, htake]
      omega
    · rw [if_pos (by rw [hall]; omega), hsearch, bind_eq_bind, bind_some,
        if_pos rfl]
      dsimp only
      rw [hstart, hend, hlines, separator, if_neg hdrop, if_pos (by rw [hall]; omega)]

/-- A turn fails when the end of the line is beyond the numbers. -/
theorem wrapTurn_eq_none (hwidth : width ≤ maximumInteger) (hs : s.length < maximumInteger)
    (hmax : maximumInteger < pre.length + 1 + width) (hle : pre.length < s.length)
    (result : List Char) (brokenWords : ℕ) :
    wrapTurn w s ⟨result, brokenWords, pre.length + 1, width⟩ = none := by
  have hmaximum : maximumInteger = 2147483647 := rfl
  have hsum : int32 ((pre.length : ℤ) + 1 + width) = pre.length + 1 + width - 4294967296 := by
    rw [hmaximum] at hmax hs hwidth
    rw [int32_of_ge (by omega) (by omega)]
    rfl
  have hneg : (pre.length : ℤ) + 1 + width - 4294967296 < 1 := by omega
  unfold wrapTurn
  dsimp only
  rw [hsum, if_pos (by omega), searchSpace_neg hneg (by omega)]
  rfl

/-- A character of the text that is wrapped. -/
def blank (c : Char) : Char := if isSpace c then ' ' else c

theorem canonifyWhitespace_eq (text : List Char) :
    canonifyWhitespace text = some (text.map blank) := by
  have hrun : ∀ todo done, forUp canonifyTurn todo.length (done.length + 1) (done ++ todo) =
      some (done ++ todo.map blank) := by
    intro todo
    induction todo with
    | nil => exact fun done => rfl
    | cons c todo ih =>
      intro done
      have hturn : canonifyTurn (done.length + 1) (done ++ c :: todo) =
          some (done ++ blank c :: todo) := by
        rw [canonifyTurn, item_append_cons, some_bind, putItem_append_cons, blank]
        split_ifs <;> rfl
      have hnext := ih (done ++ [blank c])
      rw [length_append, append_assoc, append_assoc] at hnext
      rw [length_cons, forUp, hturn, bind_some]
      exact hnext
  exact hrun text []

/-- The lines of a text, with the width and what was left of the text before each; the lines after
the first one have the width `more`. -/
inductive Wraps (more : ℕ) :
    ℕ → List Char → List (ℕ × List Char × List Char) → ℕ → Prop where
  | done (width : ℕ) : Wraps more width [] [] 0
  | line {width k b : ℕ} {rest line rest' : List Char}
      {path : List (ℕ × List Char × List Char)} (hrest : rest ≠ [])
      (hbreaks : Breaks width rest line rest' k) (hwraps : Wraps more more rest' path b) :
      Wraps more width rest ((width, rest, line) :: path) (k + b)

/-- A line that starts with `r` has the width `width'`, if the first one starts with `rest` and has
the width `width`. -/
inductive LineStart (more : ℕ) : ℕ → List Char → ℕ → List Char → Prop where
  | first (width : ℕ) (rest : List Char) : LineStart more width rest width rest
  | next {width width' k : ℕ} {rest line rest' r : List Char} (hrest : rest ≠ [])
      (hbreaks : Breaks width rest line rest' k) (hstart : LineStart more more rest' width' r) :
      LineStart more width rest width' r

/-- The end of the line is a number. -/
def Fits (length width : ℕ) (rest : List Char) : Prop :=
  length - rest.length + 1 + width ≤ maximumInteger

/-- The text on the lines. -/
def pathText (w : WordWrapper) : List (ℕ × List Char × List Char) → List Char
  | [] => []
  | x :: path => x.2.2 ++
      (if path = [] then [] else '\n' :: replicate w.newLineIndentation ' ') ++
        w.pathText path

/-- The text on the lines is a `STRING`. -/
def HasString (w : WordWrapper) (text : List Char) : Prop :=
  ∃ path b, Wraps (w.available 1) w.maximumTextWidth (text.map blank) path b ∧
    (w.pathText path).length < maximumInteger

section

variable {path : List (ℕ × List Char × List Char)} {b width' fuel : ℕ} {r : List Char}
  {position : ℤ}

theorem Wraps.eq_nil_iff (h : Wraps k width rest path b) : path = [] ↔ rest = [] := by
  cases h with
  | done => exact iff_of_true rfl rfl
  | line hrest => exact iff_of_false (cons_ne_nil _ _) hrest

theorem Breaks.length_lt (h : Breaks width rest line rest' k) (hwidth : 0 < width)
    (hrest : rest ≠ []) : rest'.length < rest.length := by
  obtain ⟨hline, -, hparts⟩ := h.exists_pre hwidth hrest
  have hpos := length_pos_iff.mpr hline
  rcases hparts with ⟨rfl, rfl⟩ | rfl | rfl
  · exact hpos
  · rw [length_append, length_cons]
    omega
  · rw [length_append]
    omega

/-- Every text has lines. -/
theorem exists_wraps {more : ℕ} (hmore : 0 < more) (hwidth : 0 < width) (rest : List Char) :
    ∃ path b, Wraps more width rest path b := by
  induction hn : rest.length using Nat.strongRecOn generalizing rest width with
  | _ n ih =>
    subst hn
    by_cases hrest : rest = []
    · rw [hrest]
      exact ⟨[], 0, .done width⟩
    · obtain ⟨line, rest', k, hbreaks⟩ := exists_breaks width hrest
      obtain ⟨path, b, hwraps⟩ := ih rest'.length (hbreaks.length_lt hwidth hrest) hmore rest' rfl
      exact ⟨_, _, .line hrest hbreaks hwraps⟩

/-- The loop of `wrapped_string`. -/
def wrapLoop (w : WordWrapper) (s : List Char) : ℕ → Wrapping → Option Wrapping :=
  loopUntil (fun t => some (decide (t.position > (s.length : ℤ)))) (wrapTurn w s)

theorem goesOn (pre : List Char) (hrest : rest ≠ []) :
    decide (((pre.length : ℤ) + 1) > ((pre ++ rest).length : ℤ)) = false := by
  have hpos := length_pos_iff.mpr hrest
  refine decide_eq_false ?_
  rw [length_append]
  omega

/-- While something is left of the text, there is a turn. -/
theorem wrapLoop_succ (pre : List Char) (hrest : rest ≠ []) (result : List Char)
    (brokenWords fuel : ℕ) (lineLength : ℤ) :
    wrapLoop w (pre ++ rest) (fuel + 1) ⟨result, brokenWords, pre.length + 1, lineLength⟩ =
      (wrapTurn w (pre ++ rest) ⟨result, brokenWords, pre.length + 1, lineLength⟩).bind
        (wrapLoop w (pre ++ rest) fuel) := by
  rw [wrapLoop, loopUntil]
  rw [goesOn pre hrest]

theorem available_pos (w : WordWrapper) (i : ℕ) : 0 < w.available i := by
  have hlt := w.indentation_lt
  cases i with
  | zero => exact Nat.zero_lt_of_lt hlt
  | succ i => exact Nat.sub_pos_of_lt hlt

theorem natCast_available (w : WordWrapper) :
    ((w.available 1 : ℕ) : ℤ) = w.maximumTextWidth - w.newLineIndentation :=
  Int.ofNat_sub (Nat.le_of_lt w.indentation_lt)

/-- The loop writes the lines, if their ends are numbers. -/
theorem Wraps.exists_wrapLoop (h : Wraps (w.available 1) width rest path b) (hwidth : 0 < width)
    (hat : At s position rest) (hfits : ∀ x ∈ path, Fits s.length x.1 x.2.1)
    (hfuel : rest.length < fuel) (result : List Char) (brokenWords : ℕ) :
    ∃ t, wrapLoop w s fuel ⟨result, brokenWords, position, width⟩ = some t ∧
      t.result = result ++ w.pathText path ∧ t.brokenWords = brokenWords + b := by
  induction h generalizing position fuel result brokenWords with
  | done width =>
    obtain ⟨fuel, rfl⟩ := Nat.exists_eq_add_of_lt hfuel
    have hbehind : position > s.length := by
      rcases hat with ⟨-, hlt⟩ | ⟨hne, -⟩
      · exact hlt
      · exact absurd rfl hne
    exact ⟨_, loopUntil_of_stop (congrArg some (decide_eq_true hbehind)),
      (append_nil result).symm, rfl⟩
  | @line width k b rest line rest' path hrest hbreaks hwraps ih =>
    rcases hat with ⟨hnil, -⟩ | ⟨-, pre, rfl, rfl⟩
    · exact absurd hnil hrest
    · have hfit : pre.length + 1 + width ≤ maximumInteger := by
        have hfirst := hfits _ mem_cons_self
        rw [Fits, length_append, Nat.add_sub_cancel] at hfirst
        exact hfirst
      obtain ⟨position', hat', hturn⟩ :=
        hbreaks.exists_wrapTurn hwidth hrest hfit result brokenWords (w := w)
      have hlt := hbreaks.length_lt hwidth hrest
      obtain ⟨fuel, rfl⟩ := Nat.exists_eq_add_of_lt hfuel
      rw [← natCast_available] at hturn
      obtain ⟨t, hrun, hresult, hbroken⟩ := ih (w.available_pos 1) hat'
        (fun x hx => hfits x (mem_cons_of_mem _ hx))
        (show rest'.length < rest.length + fuel by omega) _ _
      refine ⟨t, ?_, ?_, ?_⟩
      · rw [wrapLoop_succ pre hrest, hturn]
        exact hrun
      · rw [hresult, separator, pathText]
        simp only [hwraps.eq_nil_iff, append_assoc]
      · rw [hbroken, Nat.add_assoc]

/-- The loop fails at the first line whose end is not a number. -/
theorem LineStart.wrapLoop_eq_none (h : LineStart (w.available 1) width rest width' r)
    (hwidth : 0 < width) (hmaximum : width ≤ maximumInteger) (hat : At s position rest)
    (hs : s.length < maximumInteger) (hr : r ≠ []) (hfits : ¬Fits s.length width' r)
    (result : List Char) (brokenWords : ℕ) :
    wrapLoop w s fuel ⟨result, brokenWords, position, width⟩ = none := by
  -- A line from here on whose end is not a number.
  have hfail : ∀ {pre rest : List Char} {width fuel : ℕ}, rest ≠ [] → width ≤ maximumInteger →
      s = pre ++ rest → maximumInteger < pre.length + 1 + width → ∀ result brokenWords,
        wrapLoop w s fuel ⟨result, brokenWords, pre.length + 1, width⟩ = none := by
    intro pre rest width fuel hrest hmaximum heq hlt result brokenWords
    have hpos := length_pos_iff.mpr hrest
    have hlength : s.length = pre.length + rest.length := by rw [heq, length_append]
    cases fuel with
    | zero => rfl
    | succ fuel =>
      rw [heq] at hs ⊢
      rw [wrapLoop_succ pre hrest, wrapTurn_eq_none hmaximum hs hlt (by rw [← heq]; omega)]
      rfl
  induction h generalizing position fuel result brokenWords with
  | first width rest =>
    rcases hat with ⟨hnil, -⟩ | ⟨-, pre, heq, rfl⟩
    · exact absurd hnil hr
    · refine hfail hr hmaximum heq ?_ result brokenWords
      rw [Fits, heq, length_append, Nat.add_sub_cancel] at hfits
      omega
  | @next width width' k rest line rest' r hrest hbreaks hstart ih =>
    rcases hat with ⟨hnil, -⟩ | ⟨-, pre, heq, rfl⟩
    · exact absurd hnil hrest
    · by_cases hfit : pre.length + 1 + width ≤ maximumInteger
      · obtain ⟨position', hat', hturn⟩ :=
          hbreaks.exists_wrapTurn hwidth hrest hfit result brokenWords (w := w)
        rw [← natCast_available] at hturn
        cases fuel with
        | zero => rfl
        | succ fuel =>
          have hle : w.available 1 ≤ maximumInteger := Nat.le_trans (Nat.sub_le _ _) w.width_le
          rw [heq, wrapLoop_succ pre hrest, hturn, bind_some, ← heq]
          exact ih (w.available_pos 1) hle (heq ▸ hat') hr hfits _ _
      · exact hfail hrest hmaximum heq (by omega) result brokenWords

end

end

end WordWrapper

end Gobo
