/-
Splitting a string into tokens and joining them again (`ST_SPLITTER`).
-/
import Gobo.Loop
import Gobo.Text

namespace Gobo

open Text

universe u

variable {A : Type u}

/-- A splitter; the escape character is never one of the separators. -/
structure Splitter (A : Type u) where
  separators : List A
  hasEscapeCharacter : Bool
  escapeCharacter : A
  separators_ne_nil : separators ≠ []
  escape_not_separator : hasEscapeCharacter = true → escapeCharacter ∉ separators

namespace Splitter

variable [DecidableEq A] (sp : Splitter A)

/-- `separator_codes.has (a_code)`. -/
def isSeparator (code : A) : Bool := decide (code ∈ sp.separators)

/-- The variables of `do_split`. -/
structure Scan (A : Type u) where
  i : Nat
  lastSeparator : Nat
  lastEscaped : Nat
  anItem : Option (List A)
  result : List (List A)

/-- `i > nb`. -/
def Scan.isAfter (s : List A) (t : Scan A) : Option Bool :=
  some (decide (s.length < t.i))

/-- The part of the item that is already built, and the substring after it. -/
def appendedSubstring (anItem : Option (List A)) (s : List A) (i j : Nat) : List A :=
  match anItem with
  | none => substring s i j
  | some item => item ++ substring s i j

/-- One turn of the loop of `do_split`. -/
def scan (s : List A) (greedy : Bool) (t : Scan A) : Option (Scan A) := do
  let code ← item s t.i
  if sp.hasEscapeCharacter ∧ code = sp.escapeCharacter ∧ t.i < s.length then
    some { t with
      anItem := some (appendedSubstring t.anItem s t.lastEscaped (t.i - 1))
      lastEscaped := t.i + 1
      i := t.i + 2 }
  else if sp.isSeparator code then
    some
      { result :=
          if t.lastSeparator = t.i - 1 then if greedy then t.result ++ [[]] else t.result
          else t.result ++ [appendedSubstring t.anItem s t.lastEscaped (t.i - 1)]
        anItem := none
        lastSeparator := t.i
        lastEscaped := t.i + 1
        i := t.i + 1 }
  else some { t with i := t.i + 1 }

/-- What follows the loop of `do_split`. -/
def lastItem (s : List A) (greedy : Bool) (t : Scan A) : List (List A) :=
  if t.lastSeparator = 0 then
    match t.anItem with
    | none => t.result ++ [s]
    | some _ => t.result ++ [appendedSubstring t.anItem s t.lastEscaped s.length]
  else if t.lastSeparator < s.length then
    t.result ++ [appendedSubstring t.anItem s t.lastEscaped s.length]
  else if greedy then t.result ++ [[]]
  else t.result

/-- `do_split (a_string, a_greedy)`. -/
def doSplit (s : List A) (greedy : Bool) : Option (List (List A)) :=
  if 0 < s.length then do
    let t ← loopUntil (Scan.isAfter s) (sp.scan s greedy) (s.length + 1)
      { i := 1, lastSeparator := 0, lastEscaped := 1, anItem := none, result := [] }
    some (lastItem s greedy t)
  else some []

def split (s : List A) : Option (List (List A)) := sp.doSplit s false

def splitGreedy (s : List A) : Option (List (List A)) := sp.doSplit s true

/-- The variables of `escape_appended_string`. -/
structure Copy (A : Type u) where
  i : Nat
  lastAfter : Nat
  result : List A

/-- `i > nb`. -/
def Copy.isAfter (s : List A) (t : Copy A) : Option Bool :=
  some (decide (s.length < t.i))

/-- One turn of the loop of `escape_appended_string`. -/
def escape (s : List A) (t : Copy A) : Option (Copy A) := do
  let code ← item s t.i
  if code = sp.escapeCharacter ∨ sp.isSeparator code then
    some
      { result := t.result ++ substring s t.lastAfter (t.i - 1) ++ [sp.escapeCharacter]
        lastAfter := t.i
        i := t.i + 1 }
  else some { t with i := t.i + 1 }

/-- `escape_appended_string (a_result, a_string)`. -/
def escapeAppendedString (result s : List A) : Option (List A) := do
  let t ← loopUntil (Copy.isAfter s) (sp.escape s) (s.length + 1)
    { i := 1, lastAfter := 1, result := result }
  if t.lastAfter = 1 then some (t.result ++ s)
  else some (t.result ++ substring s t.lastAfter s.length)

/-- The loop of `do_join`, whose cursor is before the items that are left. -/
def joinFrom : List A → List (List A) → Option (List A)
  | result, [] => some result
  | result, [item] => sp.escapeAppendedString result item
  | result, item :: next :: items => do
      let result ← sp.escapeAppendedString result item
      joinFrom (result ++ substring sp.separators 1 1) (next :: items)

/-- `do_join (a_linear, a_greedy)`, which does not look at `a_greedy`. -/
def doJoin (items : List (List A)) : Option (List A) := sp.joinFrom [] items

def join (items : List (List A)) : Option (List A) := sp.doJoin items

def joinGreedy (items : List (List A)) : Option (List A) := sp.doJoin items

end Splitter

end Gobo
