/-
Replacing all matches of a regular expression and splitting at them (`RX_REGULAR_EXPRESSION`),
for any matcher.
-/
import Gobo.Loop
import Mathlib.Tactic.SplitIfs
import Mathlib.Algebra.Ring.Nat

namespace Gobo

open List

/-- The offsets of a match: its first position, the position after its last one, and the offsets
of the other captured substrings. -/
structure Match where
  start : Nat
  after : Nat
  captured : List (Nat × Nat)
deriving DecidableEq

namespace Match

/-- `j > k`. -/
def IsEmpty (m : Match) : Prop := m.after ≤ m.start

instance (m : Match) : Decidable m.IsEmpty := inferInstanceAs (Decidable (_ ≤ _))

/-- Where the next match is looked for. -/
def next (m : Match) : Nat := if m.IsEmpty then m.start + 1 else m.after

end Match

/-- What `match_unbounded_substring` finds between a position and the one before `bound`. -/
structure Matcher (bound : Nat) where
  find : Nat → Option Match
  valid : ∀ i m, find i = some m → i ≤ m.start ∧ m.start ≤ m.after ∧ m.after ≤ bound

variable {C : Type}

namespace Matcher

/-- The characters from the position `i` to the one before `j`. -/
def substring (subject : List C) (i j : Nat) : List C := (subject.drop (i - 1)).take (j - i)

variable {bound : Nat}

/-- The data of the loop of `append_replace_all_to_string`. -/
structure Replacing (C : Type) where
  subjectStart : Nat
  matched : Option Match
  string : List C

/-- `not has_matched`. -/
def Replacing.ended (s : Replacing C) : Option Bool := some s.matched.isNone

/-- A turn of the loop of `append_replace_all_to_string`; `subject_end` is `bound - 1`. -/
def replaceTurn (M : Matcher bound) (subject : List C) (replacement : Match → List C)
    (s : Replacing C) : Option (Replacing C) := do
  let m ← s.matched
  let string := s.string ++ substring subject s.subjectStart m.start ++ replacement m
  if m.IsEmpty then
    if m.start < bound then do
      let c ← subject[m.start - 1]?
      some ⟨m.start + 1, M.find (m.start + 1), string ++ [c]⟩
    else some ⟨bound, none, string⟩
  else some ⟨m.after, M.find m.after, string⟩

/-- `append_replace_all_to_string`, which also gives `subject_start`; `matched` is the match that
has been found last. -/
def replaceAll (M : Matcher bound) (fuel : Nat) (subject : List C) (replacement : Match → List C)
    (subjectStart : Nat) (matched : Option Match) (string : List C) : Option (List C × Nat) := do
  let s ← loopUntil Replacing.ended (M.replaceTurn subject replacement) fuel
    ⟨subjectStart, matched, string⟩
  some (s.string ++ substring subject s.subjectStart bound, subjectStart)

/-- The data of the loop of `append_split_to_array`. -/
structure Splitting (C : Type) where
  i : Nat
  lastCharMatched : Nat
  subjectStart : Nat
  matched : Option Match
  array : List (List C)

/-- `not has_matched`. -/
def Splitting.ended (s : Splitting C) : Option Bool := some s.matched.isNone

/-- A turn of the loop of `append_split_to_array`. -/
def splitTurn (M : Matcher bound) (subject : List C) (s : Splitting C) : Option (Splitting C) := do
  let m ← s.matched
  if m.IsEmpty then
    let array :=
      if s.i ≤ m.start ∧ m.start < bound then s.array ++ [substring subject s.i (m.start + 1)]
      else s.array
    if m.after + 1 < bound then
      some ⟨m.after + 1, s.lastCharMatched, m.after + 1, M.find (m.after + 1), array⟩
    else some ⟨bound + 1, s.lastCharMatched, s.subjectStart, none, array⟩
  else
    let array :=
      if s.i < m.start then s.array ++ [substring subject s.i m.start]
      else if s.i = m.start ∧ s.lastCharMatched = s.i - 1 then s.array ++ [[]]
      else s.array
    some ⟨m.after, m.after - 1, m.after, M.find m.after, array⟩

/-- `append_split_to_array`, which also gives `subject_start`. -/
def split (M : Matcher bound) (fuel : Nat) (subject : List C) (subjectStart : Nat)
    (matched : Option Match) (array : List (List C)) : Option (List (List C) × Nat) := do
  let s ← loopUntil Splitting.ended (M.splitTurn subject) fuel
    ⟨subjectStart, subjectStart - 1, subjectStart, matched, array⟩
  some (if s.i ≤ bound then s.array ++ [substring subject s.i bound] else s.array, subjectStart)

/-- The successive matches: after each match the next one is looked for after its last character,
or after one character when it is empty. -/
inductive Successive (M : Matcher bound) : Option Match → List Match → Prop
  | none : Successive M none []
  | last {m : Match} : bound < m.next → Successive M (some m) [m]
  | cons {m : Match} {ms : List Match} : m.next ≤ bound → Successive M (M.find m.next) ms →
      Successive M (some m) (m :: ms)

/-- The match that has been found from the position `i`. -/
def FoundFrom (bound i : Nat) (matched : Option Match) : Prop :=
  ∀ m, matched = some m → i ≤ m.start ∧ m.start ≤ m.after ∧ m.after ≤ bound

/-- The characters from the position `p` on with each of the matches replaced. -/
def replaced (bound : Nat) (subject : List C) (replacement : Match → List C) (p : Nat) :
    List Match → List C
  | [] => substring subject p bound
  | m :: ms =>
      substring subject p m.start ++ replacement m ++ replaced bound subject replacement m.after ms

/-- A part of the subject: a piece of `split`, or a match between two pieces. -/
inductive Part (C : Type)
  | piece (text : List C)
  | matched (m : Match)

def Part.piece? : Part C → Option (List C)
  | .piece text => some text
  | .matched _ => none

def Part.matched? : Part C → Option Match
  | .piece _ => none
  | .matched m => some m

def Part.text (subject : List C) : Part C → List C
  | .piece text => text
  | .matched m => substring subject m.start m.after

/-- The parts give the characters from the position `i` to the one before `j`, their matches are
those that are not empty, and an empty match ends a piece after the next character. -/
structure Parted (bound : Nat) (subject : List C) (i j : Nat) (ms : List Match)
    (parts : List (Part C)) : Prop where
  matched : parts.filterMap Part.matched? = ms.filter (fun m => ¬ m.IsEmpty)
  text : parts.flatMap (Part.text subject) = substring subject i j
  cut : ∀ m ∈ ms, m.IsEmpty → m.start < bound → ∃ before text after,
    parts = before ++ Part.piece text :: after ∧
    before.flatMap (Part.text subject) ++ text = substring subject i (m.start + 1)

/-- The pieces interleaved with the matches that are not empty give the characters of the subject
from the position `i` on. -/
def Interleaved (bound : Nat) (subject : List C) (i : Nat) (ms : List Match)
    (pieces : List (List C)) : Prop :=
  ∃ parts, parts.filterMap Part.piece? = pieces ∧ Parted bound subject i bound ms parts

/-- No match is found after the last character while there are still characters to be split. -/
def Keeps (bound : Nat) : Nat → List Match → Prop
  | _, [] => True
  | i, m :: ms => (m.start = bound → i = bound) ∧ Keeps bound m.next ms

end Matcher

variable {subject : List C} {i j k : Nat}

namespace Match

variable {m : Match} {bound : Nat}

theorem next_of_isEmpty (hempty : m.IsEmpty) : m.next = m.start + 1 := if_pos hempty

theorem next_of_not_isEmpty (hempty : ¬ m.IsEmpty) : m.next = m.after := if_neg hempty

theorem lt_next (hstart : i ≤ m.start) : i < m.next := by
  rcases Decidable.em m.IsEmpty with hempty | hempty
  · rw [next_of_isEmpty hempty]
    exact Nat.lt_succ_of_le hstart
  · rw [next_of_not_isEmpty hempty]
    exact Nat.lt_of_le_of_lt hstart (Nat.lt_of_not_le hempty)

end Match

namespace Matcher

theorem substring_append (hi : 1 ≤ i) (hij : i ≤ j) (hjk : j ≤ k) :
    substring subject i j ++ substring subject j k = substring subject i k := by
  rw [substring, substring, substring]
  have hdrop : subject.drop (j - 1) = (subject.drop (i - 1)).drop (j - i) := by
    rw [drop_drop]
    congr 1
    omega
  have hlength : k - i = (j - i) + (k - j) := by omega
  rw [hdrop, hlength, take_add]

theorem substring_self (i : Nat) : substring subject i i = [] := by
  rw [substring, Nat.sub_self, take_zero]

theorem substring_succ (hi : i - 1 < subject.length) :
    substring subject i (i + 1) = [subject[i - 1]] := by
  rw [substring, Nat.add_sub_cancel_left, drop_eq_getElem_cons hi]
  rfl

theorem length_substring (hi : 1 ≤ i) (hj : j ≤ subject.length + 1) :
    (substring subject i j).length = j - i := by
  rw [substring, length_take, length_drop]
  omega

variable {bound : Nat} {M : Matcher bound} {matched : Option Match} {ms : List Match}
  {replacement : Match → List C}

theorem foundFrom_find (M : Matcher bound) (i : Nat) : FoundFrom bound i (M.find i) :=
  fun m hm => M.valid i m hm

theorem exists_successive (M : Matcher bound) (hfound : FoundFrom bound i matched) :
    ∃ ms, M.Successive matched ms := by
  induction hn : bound + 1 - i using Nat.strongRecOn generalizing i matched with
  | ind n ih =>
      cases matched with
      | none => exact ⟨[], .none⟩
      | some m =>
          obtain ⟨hstart, -, -⟩ := hfound m rfl
          have hlt := Match.lt_next hstart
          rcases Nat.lt_or_ge bound m.next with hlast | hle
          · exact ⟨[m], .last hlast⟩
          · obtain ⟨ms, hms⟩ := ih (bound + 1 - m.next) (by omega) (M.foundFrom_find m.next) rfl
            exact ⟨m :: ms, .cons hle hms⟩

theorem Successive.head?_eq (hms : M.Successive matched ms) : ms.head? = matched := by
  cases hms <;> rfl

theorem substring_append_replaced (subject : List C) (replacement : Match → List C)
    (hi : 1 ≤ i) (hij : i ≤ j) (hjb : j ≤ bound)
    (hms : ∀ m, ms.head? = some m → j ≤ m.start) :
    substring subject i j ++ replaced bound subject replacement j ms =
      replaced bound subject replacement i ms := by
  cases ms with
  | nil => exact substring_append hi hij hjb
  | cons m ms =>
      rw [replaced, replaced, ← append_assoc, ← append_assoc,
        substring_append hi hij (hms m rfl)]

/-- A turn replaces a match; it leads to a position from which the text is replaced like from the
position after the match. -/
theorem replaceTurn_spec (replacement : Match → List C) {m : Match}
    (hms : m.next ≤ bound → M.Successive (M.find m.next) ms)
    (hlast : bound < m.next → ms = []) (hfound : FoundFrom bound i (some m)) (hi : 1 ≤ i)
    (hbound : bound ≤ subject.length + 1) (string : List C) :
    ∃ s, M.replaceTurn subject replacement ⟨i, some m, string⟩ = some s ∧
      s.matched = (if m.next ≤ bound then M.find m.next else none) ∧
      s.subjectStart = min m.next bound ∧
      s.string ++ replaced bound subject replacement s.subjectStart ms =
        string ++ replaced bound subject replacement i (m :: ms) := by
  obtain ⟨hstart, hafter, hmb⟩ := hfound m rfl
  by_cases hempty : m.IsEmpty
  · have hnext := Match.next_of_isEmpty hempty
    have hsame : m.after = m.start := Nat.le_antisymm hempty hafter
    by_cases hlt : m.start < bound
    · have hle : m.next ≤ bound := by omega
      have hchar : m.start - 1 < subject.length := by omega
      refine ⟨⟨m.start + 1, M.find (m.start + 1), string ++ substring subject i m.start ++
        replacement m ++ [subject[m.start - 1]]⟩, ?_, ?_, ?_, ?_⟩
      · simp [replaceTurn, hempty, hlt, getElem?_eq_getElem hchar]
      · rw [if_pos hle, hnext]
      · rw [Nat.min_eq_left hle, hnext]
      · have htext := substring_append_replaced subject replacement
          (by omega : 1 ≤ m.start) (Nat.le_succ m.start) (hnext ▸ hle) fun m' hm' => by
            rw [(hms hle).head?_eq, hnext] at hm'
            exact (M.valid _ _ hm').1
        rw [substring_succ hchar] at htext
        simp only [replaced, hsame, ← htext, append_assoc]
    · have hlt' : bound < m.next := by omega
      refine ⟨⟨bound, none, string ++ substring subject i m.start ++ replacement m⟩, ?_, ?_, ?_, ?_⟩
      · simp [replaceTurn, hempty, hlt]
      · rw [if_neg (Nat.not_le_of_lt hlt')]
      · rw [Nat.min_eq_right (Nat.le_of_lt hlt')]
      · have hend : m.after = bound := by omega
        simp only [hlast hlt', replaced, hend, append_assoc]
  · have hnext := Match.next_of_not_isEmpty hempty
    refine ⟨⟨m.after, M.find m.after, string ++ substring subject i m.start ++ replacement m⟩,
      ?_, ?_, ?_, ?_⟩
    · simp [replaceTurn, hempty]
    · rw [hnext, if_pos hmb]
    · rw [hnext, Nat.min_eq_left hmb]
    · simp only [replaced, append_assoc]

/-- The loop replaces the successive matches. -/
theorem replaceAll_loop (replacement : Match → List C) (hms : M.Successive matched ms)
    (hfound : FoundFrom bound i matched)
    (hi : 1 ≤ i) (hbound : bound ≤ subject.length + 1) (string : List C) :
    ∃ s, loopUntil Replacing.ended (M.replaceTurn subject replacement) (ms.length + 1)
        ⟨i, matched, string⟩ = some s ∧
      s.string ++ substring subject s.subjectStart bound =
        string ++ replaced bound subject replacement i ms := by
  induction hms generalizing i string with
  | none => exact ⟨_, loopUntil_of_stop rfl, rfl⟩
  | @last m hlast =>
      obtain ⟨s, hturn, hmatched, -, hstring⟩ := replaceTurn_spec replacement
        (fun hle => absurd hle (Nat.not_le_of_lt hlast)) (fun _ => rfl) hfound hi hbound string
      rw [if_neg (Nat.not_le_of_lt hlast)] at hmatched
      refine ⟨s, ?_, hstring⟩
      have hgo : Replacing.ended ⟨i, some m, string⟩ = some false := rfl
      rw [length_singleton, loopUntil_of_go hgo hturn]
      refine loopUntil_of_stop ?_
      rw [Replacing.ended, hmatched]
      rfl
  | @cons m ms hle hms ih =>
      obtain ⟨⟨subjectStart, matched, string'⟩, hturn, hmatched, hsubject, hstring⟩ :=
        replaceTurn_spec replacement (fun _ => hms)
          (fun hlt => absurd hle (Nat.not_le_of_lt hlt)) hfound hi hbound string
      rw [if_pos hle] at hmatched
      rw [Nat.min_eq_left hle] at hsubject
      obtain rfl : subjectStart = m.next := hsubject
      obtain rfl : matched = M.find m.next := hmatched
      obtain ⟨s, hrun, hs⟩ := ih (M.foundFrom_find m.next)
        (Nat.le_trans hi (Nat.le_of_lt (Match.lt_next (hfound m rfl).1))) string'
      have hgo : Replacing.ended ⟨i, some m, string⟩ = some false := rfl
      exact ⟨s, (loopUntil_of_go hgo hturn).trans hrun, hs.trans hstring⟩

/-- The successive matches are replaced, for every replacement. -/
theorem replaceAll_eq (replacement : Match → List C) (hms : M.Successive matched ms)
    (hfound : FoundFrom bound i matched)
    (hi : 1 ≤ i) (hbound : bound ≤ subject.length + 1) (string : List C) :
    M.replaceAll (ms.length + 1) subject replacement i matched string =
      some (string ++ replaced bound subject replacement i ms, i) := by
  obtain ⟨s, hrun, hs⟩ := replaceAll_loop replacement hms hfound hi hbound string
  rw [replaceAll, hrun, ← hs]
  rfl

theorem Successive.le_start (hms : M.Successive matched ms) (hfound : FoundFrom bound i matched) :
    ∀ m ∈ ms, i ≤ m.start := by
  induction hms generalizing i with
  | none => exact fun m hm => absurd hm not_mem_nil
  | @last m hlast =>
      intro m' hm
      obtain rfl := mem_singleton.mp hm
      exact (hfound m' rfl).1
  | @cons m ms hle hms ih =>
      intro m' hm
      have hstart := (hfound m rfl).1
      rcases mem_cons.mp hm with rfl | hm
      · exact hstart
      · exact Nat.le_trans (Nat.le_of_lt (Match.lt_next hstart))
          (ih (M.foundFrom_find m.next) m' hm)

namespace Parted

variable {parts rest : List (Part C)} {m : Match}

theorem append (hi : 1 ≤ i) (hij : i ≤ j) (hjk : j ≤ k)
    (hparts : Parted bound subject i j [m] parts) (hrest : Parted bound subject j k ms rest)
    (hms : ∀ m ∈ ms, j ≤ m.start) : Parted bound subject i k (m :: ms) (parts ++ rest) := by
  constructor
  · rw [filterMap_append, hparts.matched, hrest.matched, ← filter_append]
    rfl
  · rw [flatMap_append, hparts.text, hrest.text, substring_append hi hij hjk]
  · intro m' hm hempty hlt
    rcases mem_cons.mp hm with rfl | hm
    · obtain ⟨before, text, after, rfl, htext⟩ :=
        hparts.cut m' (mem_singleton_self m') hempty hlt
      exact ⟨before, text, after ++ rest, by rw [append_assoc, cons_append], htext⟩
    · obtain ⟨before, text, after, rfl, htext⟩ := hrest.cut m' hm hempty hlt
      refine ⟨parts ++ before, text, after, (append_assoc _ _ _).symm, ?_⟩
      have hstart := hms m' hm
      rw [flatMap_append, append_assoc, htext, hparts.text,
        substring_append hi hij (by omega)]

/-- The number of the characters of the parts is given by the pieces and the matches. -/
theorem length_text (subject : List C) (parts : List (Part C)) :
    (parts.flatMap (Part.text subject)).length =
      ((parts.filterMap Part.piece?).map length).sum +
        ((parts.filterMap Part.matched?).map
          (fun m => (substring subject m.start m.after).length)).sum := by
  induction parts with
  | nil => rfl
  | cons part parts ih =>
      cases part with
      | piece text =>
          simp only [flatMap_cons, length_append, ih, filterMap_cons, Part.piece?,
            Part.matched?, Part.text, map_cons, sum_cons, Nat.add_assoc]
      | matched m =>
          simp only [flatMap_cons, length_append, ih, filterMap_cons, Part.piece?,
            Part.matched?, Part.text, map_cons, sum_cons, Nat.add_left_comm]

theorem of_isEmpty (hempty : m.IsEmpty) :
    Parted bound subject i m.next [m] [.piece (substring subject i (m.start + 1))] := by
  rw [Match.next_of_isEmpty hempty]
  constructor
  · rw [filter_cons_of_neg (by simpa using hempty)]
    rfl
  · exact append_nil _
  · intro m' hm _ _
    obtain rfl := mem_singleton.mp hm
    exact ⟨[], _, [], rfl, rfl⟩

/-- The part of a match that is not empty, after the piece before it when there is one. -/
theorem of_not_isEmpty (hempty : ¬ m.IsEmpty) (hi : 1 ≤ i) (hstart : i ≤ m.start)
    {pieces : List (List C)} (hpieces : pieces.flatten = substring subject i m.start) :
    Parted bound subject i m.next [m] (pieces.map Part.piece ++ [.matched m]) := by
  rw [Match.next_of_not_isEmpty hempty]
  constructor
  · have hnone : (pieces.map Part.piece).filterMap Part.matched? = [] := by
      induction pieces <;> simp_all [Part.matched?]
    rw [filterMap_append, hnone, filter_cons_of_pos (by simpa using hempty)]
    rfl
  · rw [flatMap_append, flatMap_map, ← substring_append hi hstart
      (Nat.le_of_not_le hempty), ← hpieces, ← flatMap_id']
    exact congrArg _ (append_nil _)
  · intro m' hm hempty'
    obtain rfl := mem_singleton.mp hm
    exact absurd hempty' hempty

theorem piece (i j : Nat) : Parted bound subject i j [] [.piece (substring subject i j)] := by
  constructor
  · rfl
  · exact append_nil _
  · exact fun m hm => absurd hm not_mem_nil

/-- No part for empty matches that are after the last character. -/
theorem nil (hms : ∀ m ∈ ms, m.IsEmpty ∧ bound ≤ m.start) : Parted bound subject i i ms [] := by
  constructor
  · rw [filter_eq_nil_iff.mpr fun m hm => by simpa using (hms m hm).1]
    rfl
  · exact (substring_self i).symm
  · exact fun m hm _ hlt => absurd hlt (Nat.not_lt_of_le (hms m hm).2)

end Parted

/-- A turn at an empty match splits after the next character; but when there is none the
characters that are not split yet are lost. -/
theorem splitTurn_of_isEmpty (M : Matcher bound) (subject : List C) {m : Match}
    (hempty : m.IsEmpty) (hfound : FoundFrom bound i (some m)) (last subjectStart : Nat)
    (array : List (List C)) :
    ∃ s parts, M.splitTurn subject ⟨i, last, subjectStart, some m, array⟩ = some s ∧
      s.array = array ++ parts.filterMap Part.piece? ∧
      (m.start < bound → Parted bound subject i m.next [m] parts) ∧
      (m.start = bound → parts = []) ∧
      (m.next < bound → s.i = m.next ∧ s.matched = M.find m.next) ∧
      (bound ≤ m.next → s.i = bound + 1 ∧ s.matched = none) := by
  obtain ⟨hstart, hafter, hmb⟩ := hfound m rfl
  have hsame : m.after = m.start := Nat.le_antisymm hempty hafter
  have hnext : m.next = m.after + 1 := (Match.next_of_isEmpty hempty).trans (by rw [hsame])
  have harray : ∃ parts : List (Part C),
      (if i ≤ m.start ∧ m.start < bound then array ++ [substring subject i (m.start + 1)]
        else array) = array ++ parts.filterMap Part.piece? ∧
      (m.start < bound → Parted bound subject i m.next [m] parts) ∧
      (m.start = bound → parts = []) := by
    rcases Nat.lt_or_eq_of_le (hsame ▸ hmb) with hlt | heq
    · refine ⟨_, ?_, fun _ => Parted.of_isEmpty hempty, fun heq => absurd heq (Nat.ne_of_lt hlt)⟩
      rw [if_pos ⟨hstart, hlt⟩]
      rfl
    · refine ⟨[], ?_, fun hlt => absurd heq (Nat.ne_of_lt hlt), fun _ => rfl⟩
      rw [if_neg (fun h => Nat.ne_of_lt h.2 heq)]
      exact (append_nil _).symm
  obtain ⟨parts, harray, hparted, hlast⟩ := harray
  rw [splitTurn]
  simp only [some_bind, if_pos hempty, harray, ← hnext]
  by_cases hlt : m.next < bound
  · exact ⟨_, parts, if_pos hlt, rfl, hparted, hlast, fun _ => ⟨rfl, rfl⟩,
      fun hle => absurd hlt (Nat.not_lt_of_le hle)⟩
  · exact ⟨_, parts, if_neg hlt, rfl, hparted, hlast, fun hlt' => absurd hlt' hlt,
      fun _ => ⟨rfl, rfl⟩⟩

/-- A turn at a match that is not empty splits before it and goes on after it. -/
theorem splitTurn_of_not_isEmpty (M : Matcher bound) (subject : List C) {m : Match}
    (hempty : ¬ m.IsEmpty) (hi : 1 ≤ i) (hfound : FoundFrom bound i (some m))
    (last subjectStart : Nat)
    (array : List (List C)) :
    ∃ s parts, M.splitTurn subject ⟨i, last, subjectStart, some m, array⟩ = some s ∧
      s.array = array ++ parts.filterMap Part.piece? ∧
      Parted bound subject i m.next [m] parts ∧ s.i = m.next ∧ s.matched = M.find m.next := by
  obtain ⟨hstart, hafter, hmb⟩ := hfound m rfl
  have harray : ∃ pieces : List (List C),
      (if i < m.start then array ++ [substring subject i m.start]
        else if i = m.start ∧ last = i - 1 then array ++ [[]] else array) = array ++ pieces ∧
      pieces.flatten = substring subject i m.start := by
    rcases Nat.lt_or_eq_of_le hstart with hlt | heq
    · exact ⟨_, if_pos hlt, append_nil _⟩
    · rw [if_neg (Nat.not_lt_of_le (Nat.le_of_eq heq.symm)), heq, substring_self]
      split_ifs
      · exact ⟨[[]], rfl, rfl⟩
      · exact ⟨[], (append_nil _).symm, rfl⟩
  obtain ⟨pieces, harray, hpieces⟩ := harray
  have hparted : Parted bound subject i m.next [m] (pieces.map Part.piece ++ [.matched m]) :=
    Parted.of_not_isEmpty hempty hi hstart hpieces
  rw [splitTurn]
  simp only [some_bind, if_neg hempty, harray]
  refine ⟨_, _, rfl, ?_, hparted, (Match.next_of_not_isEmpty hempty).symm, ?_⟩
  · have htexts : (pieces.map Part.piece).filterMap Part.piece? = pieces := by
      rw [filterMap_map]
      exact filterMap_some
    rw [filterMap_append, htexts]
    exact congrArg _ (append_nil _).symm
  · rw [Match.next_of_not_isEmpty hempty]

/-- At the last position there is at most one more match, which is empty. -/
theorem Successive.at_bound (hms : M.Successive (M.find bound) ms) :
    (∀ m ∈ ms, m.IsEmpty ∧ bound ≤ m.start) ∧ Keeps bound bound ms := by
  have hfound := M.foundFrom_find bound
  generalize M.find bound = matched at hms hfound
  cases hms with
  | none => exact ⟨fun m hm => absurd hm not_mem_nil, trivial⟩
  | @last m hlast =>
      obtain ⟨hstart, -, hmb⟩ := hfound m rfl
      refine ⟨fun m' hm => ?_, fun _ => rfl, trivial⟩
      obtain rfl := mem_singleton.mp hm
      exact ⟨Nat.le_trans hmb hstart, hstart⟩
  | @cons m ms hle hms =>
      exact absurd (Match.lt_next (hfound m rfl).1) (Nat.not_lt_of_le hle)

theorem Splitting.ended_some (i last subjectStart : Nat) (m : Match) (array : List (List C)) :
    Splitting.ended ⟨i, last, subjectStart, some m, array⟩ = some false := rfl

/-- The loop splits at the successive matches, up to the position `j`. -/
theorem split_loop (subject : List C) (hms : M.Successive matched ms)
    (hfound : FoundFrom bound i matched)
    (hi : 1 ≤ i) (hib : i ≤ bound) (last subjectStart : Nat) (array : List (List C)) :
    ∃ s parts j, loopUntil Splitting.ended (M.splitTurn subject) (ms.length + 1)
        ⟨i, last, subjectStart, matched, array⟩ = some s ∧
      (if s.i ≤ bound then s.array ++ [substring subject s.i bound] else s.array) =
        array ++ parts.filterMap Part.piece? ∧
      Parted bound subject i j ms parts ∧ i ≤ j ∧ j ≤ bound ∧ (Keeps bound i ms ↔ j = bound) := by
  induction hms generalizing i last subjectStart array with
  | none =>
      exact ⟨_, _, bound, loopUntil_of_stop rfl, if_pos hib, Parted.piece i bound, hib,
        Nat.le_refl bound, iff_of_true trivial rfl⟩
  | @last m hlast =>
      obtain ⟨hstart, hafter, hmb⟩ := hfound m rfl
      have hempty : m.IsEmpty := Decidable.byContradiction fun hempty =>
        absurd (Match.next_of_not_isEmpty hempty ▸ hlast) (Nat.not_lt_of_le hmb)
      have heq : m.start = bound := by
        rw [Match.next_of_isEmpty hempty] at hlast
        omega
      obtain ⟨s, parts, hturn, harray, -, hparts, -, hend⟩ :=
        splitTurn_of_isEmpty M subject hempty hfound last subjectStart array
      obtain ⟨hs, hmatched⟩ := hend (Nat.le_of_lt hlast)
      refine ⟨s, parts, i, (loopUntil_of_go (Splitting.ended_some ..) hturn).trans
        (loopUntil_of_stop ?_), ?_, ?_, Nat.le_refl i, hib, ?_⟩
      · rw [Splitting.ended, hmatched]
        rfl
      · rw [if_neg (by omega), harray]
      · rw [hparts heq]
        refine Parted.nil fun m' hm => ?_
        obtain rfl := mem_singleton.mp hm
        exact ⟨hempty, Nat.le_of_eq heq.symm⟩
      · exact ⟨fun hkeeps => hkeeps.1 heq, fun hi => ⟨fun _ => hi, trivial⟩⟩
  | @cons m ms hle hms ih =>
      have hlt := Match.lt_next (hfound m rfl).1
      have hnext : 1 ≤ m.next := by omega
      have hstart : m.start < bound := Nat.lt_of_lt_of_le (Match.lt_next (Nat.le_refl _)) hle
      have hturn : ∃ s parts, M.splitTurn subject ⟨i, last, subjectStart, some m, array⟩ = some s ∧
          s.array = array ++ parts.filterMap Part.piece? ∧
          Parted bound subject i m.next [m] parts ∧
          (s.i = m.next ∧ s.matched = M.find m.next ∨
            s.i = bound + 1 ∧ s.matched = none ∧ m.next = bound) := by
        by_cases hempty : m.IsEmpty
        · obtain ⟨s, parts, hturn, harray, hparted, -, hgo, hend⟩ :=
            splitTurn_of_isEmpty M subject hempty hfound last subjectStart array
          refine ⟨s, parts, hturn, harray, hparted hstart, ?_⟩
          rcases Nat.lt_or_eq_of_le hle with hlt | heq
          · exact Or.inl (hgo hlt)
          · exact Or.inr ⟨(hend (Nat.le_of_eq heq.symm)).1, (hend (Nat.le_of_eq heq.symm)).2, heq⟩
        · obtain ⟨s, parts, hturn, harray, hparted, hgo⟩ :=
            splitTurn_of_not_isEmpty M subject hempty hi hfound last subjectStart array
          exact ⟨s, parts, hturn, harray, hparted, Or.inl hgo⟩
      have hkeeps : ∀ j, (Keeps bound m.next ms ↔ j = bound) →
          (Keeps bound i (m :: ms) ↔ j = bound) := fun j hj =>
        (and_iff_right fun heq => absurd heq (Nat.ne_of_lt hstart)).trans hj
      obtain ⟨⟨i', last', subjectStart', matched', array'⟩, parts, hturn, harray, hparted, hgo⟩ :=
        hturn
      dsimp only at harray hgo
      subst harray
      rcases hgo with ⟨rfl, rfl⟩ | ⟨rfl, rfl, heq⟩
      · obtain ⟨s, rest, j, hrun, hpieces, hrest, hij, hjb, hiff⟩ :=
          ih (M.foundFrom_find m.next) hnext hle last' subjectStart'
            (array ++ parts.filterMap Part.piece?)
        refine ⟨s, parts ++ rest, j, ?_, ?_, ?_, Nat.le_trans (Nat.le_of_lt hlt) hij, hjb,
          hkeeps j hiff⟩
        · exact (loopUntil_of_go (Splitting.ended_some ..) hturn).trans hrun
        · rw [hpieces, filterMap_append, append_assoc]
        · exact hparted.append hi (Nat.le_of_lt hlt) hij hrest
            (hms.le_start (M.foundFrom_find m.next))
      · rw [heq] at hms hparted hkeeps
        obtain ⟨hlast, hk⟩ := hms.at_bound
        refine ⟨_, parts, bound, (loopUntil_of_go (Splitting.ended_some ..) hturn).trans
          (loopUntil_of_stop rfl), ?_, ?_, hib, Nat.le_refl bound,
          hkeeps bound (iff_of_true hk rfl)⟩
        · rw [if_neg (Nat.not_succ_le_self bound)]
        · have hparts := hparted.append hi hib (Nat.le_refl bound) (Parted.nil hlast)
            fun m hm => (hlast m hm).2
          rwa [append_nil] at hparts

theorem Interleaved.length_eq {pieces : List (List C)}
    (h : Interleaved bound subject i ms pieces) (hi : 1 ≤ i) (hbound : bound ≤ subject.length + 1) :
    (pieces.map length).sum + ((ms.filter (fun m => ¬ m.IsEmpty)).map
      (fun m => (substring subject m.start m.after).length)).sum = bound - i := by
  obtain ⟨parts, rfl, hparts⟩ := h
  rw [← length_substring hi hbound, ← hparts.text, ← hparts.matched, Parted.length_text]

/-- The expression `x*` on the subject `axb`. -/
def runsOfX : Matcher 4 where
  find
    | 1 => some ⟨1, 1, []⟩
    | 2 => some ⟨2, 3, []⟩
    | 3 => some ⟨3, 3, []⟩
    | 4 => some ⟨4, 4, []⟩
    | _ => none
  valid i m h := by
    split at h <;> cases h <;> decide

example : runsOfX.split 5 ['a', 'x', 'b'] 1 (runsOfX.find 1) [] = some ([['a'], ['b']], 1) := by
  decide

/-- The expression `$` on a subject of two characters. -/
def endOfSubject : Matcher 3 where
  find i := if i ≤ 3 then some ⟨3, 3, []⟩ else none
  valid i m h := by
    split_ifs at h with hi
    obtain rfl := Option.some.inj h
    exact ⟨hi, Nat.le_refl 3, Nat.le_refl 3⟩

end Matcher

end Gobo
