/-
URI references by their components, and the strings they are composed to.
-/
import Mathlib.Data.List.Basic

namespace Gobo

open List

namespace UriReference

def colon : UInt8 := 58

def slash : UInt8 := 47

def questionMark : UInt8 := 63

def numberSign : UInt8 := 35

def dot : UInt8 := 46

/-- `none` is a component that is not there; a path is always there, but it may
be empty. -/
structure Components where
  scheme : Option (List UInt8)
  authority : Option (List UInt8)
  path : List UInt8
  query : Option (List UInt8)
  fragment : Option (List UInt8)
deriving DecidableEq

/-- A component with the delimiter before it. -/
def delimited (delimiter : List UInt8) : Option (List UInt8) → List UInt8
  | none => []
  | some component => delimiter ++ component

namespace Components

def schemeText (c : Components) : List UInt8 :=
  match c.scheme with
  | none => []
  | some scheme => scheme ++ [colon]

/-- The string that the components are composed to. -/
def text (c : Components) : List UInt8 :=
  c.schemeText ++ delimited [slash, slash] c.authority ++ c.path ++
    delimited [questionMark] c.query ++ delimited [numberSign] c.fragment

/-- The components that the grammar allows, as far as their delimiters go: a
reference of the grammar is the text of such components. -/
structure WellFormed (c : Components) : Prop where
  scheme_ne_nil : c.scheme ≠ some []
  scheme_free : ∀ s ∈ c.scheme, colon ∉ s ∧ slash ∉ s ∧ questionMark ∉ s ∧ numberSign ∉ s
  authority_free : ∀ s ∈ c.authority, slash ∉ s ∧ questionMark ∉ s ∧ numberSign ∉ s
  path_free : questionMark ∉ c.path ∧ numberSign ∉ c.path
  query_free : ∀ s ∈ c.query, numberSign ∉ s
  fragment_free : ∀ s ∈ c.fragment, numberSign ∉ s
  /-- After an authority a path is empty or begins with a slash. -/
  path_after_authority : c.authority ≠ none → c.path = [] ∨ c.path.head? = some slash
  /-- Two slashes begin an authority. -/
  path_without_authority : c.authority = none → ¬[slash, slash] <+: c.path
  /-- The first segment of a path that nothing is before has no colon. -/
  first_segment : c.scheme = none → c.authority = none →
    colon ∉ c.path.takeWhile fun a => a ≠ slash

end Components

/-- The segments, each with a slash after it. -/
def joined (segments : List (List UInt8)) : List UInt8 :=
  segments.flatMap fun segment => segment ++ [slash]

@[simp] theorem joined_nil : joined [] = [] := rfl

theorem joined_cons (segment : List UInt8) (segments : List (List UInt8)) :
    joined (segment :: segments) = segment ++ slash :: joined segments := by
  rw [joined, flatMap_cons, append_assoc]
  rfl

theorem joined_append (segments segments' : List (List UInt8)) :
    joined (segments ++ segments') = joined segments ++ joined segments' :=
  flatMap_append

theorem joined_concat (segments : List (List UInt8)) (segment : List UInt8) :
    joined (segments ++ [segment]) = joined segments ++ (segment ++ [slash]) := by
  rw [joined_append, joined_cons, joined_nil]

/-- A path that a further segment may follow. -/
def IsOpen (path : List UInt8) : Prop := path = [] ∨ path.getLast? = some slash

instance (path : List UInt8) : Decidable (IsOpen path) :=
  inferInstanceAs (Decidable (_ ∨ _))

/-- A path of segments is open if the last of them is empty. -/
theorem isOpen_joined_iff {segments : List (List UInt8)} {last : List UInt8}
    (hlast : slash ∉ last) : IsOpen (joined segments ++ last) ↔ last = [] := by
  constructor
  · intro hopen
    by_contra hne
    rcases hopen with hnil | hslash
    · exact hne (append_eq_nil_iff.mp hnil).2
    · rw [getLast?_append_of_ne_nil _ hne] at hslash
      exact hlast (mem_of_getLast? hslash)
  · rintro rfl
    rw [append_nil]
    rcases eq_nil_or_concat segments with rfl | ⟨before, segment, rfl⟩
    · exact Or.inl rfl
    · rw [concat_eq_append, joined_concat, ← append_assoc]
      exact Or.inr getLast?_concat

end UriReference

end Gobo
