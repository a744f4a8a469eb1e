/-
The words of a text: its parts between separators, without those that are empty.
-/
import Mathlib.Data.List.Basic

namespace Gobo

open List

namespace Text

universe u

variable {A : Type u}

/-- The parts of a text between the separators, without those that are empty. -/
def wordsBy (separates : A → Bool) (s : List A) : List (List A) :=
  (s.splitOnP separates).filter fun w => !w.isEmpty

/-- A text without separators. -/
def FreeOf (separates : A → Bool) (w : List A) : Prop := ∀ c ∈ w, separates c = false

section

variable {separates : A → Bool} {s w z b : List A} {c : A}

theorem wordsBy_nil : wordsBy separates [] = [] := rfl

theorem wordsBy_append_separator (hc : separates c = true) (a b : List A) :
    wordsBy separates (a ++ c :: b) = wordsBy separates a ++ wordsBy separates b := by
  rw [wordsBy, splitOnP_append_cons _ _ hc, filter_append]
  rfl

theorem wordsBy_separator_cons (hc : separates c = true) (b : List A) :
    wordsBy separates (c :: b) = wordsBy separates b :=
  wordsBy_append_separator hc [] b

theorem wordsBy_of_free (hne : w ≠ []) (hw : FreeOf separates w) : wordsBy separates w = [w] := by
  rw [wordsBy, splitOnP_eq_singleton hw, filter_cons_of_pos]
  · rfl
  · simp [hne]

theorem wordsBy_separators_append (hz : ∀ c ∈ z, separates c = true) (b : List A) :
    wordsBy separates (z ++ b) = wordsBy separates b := by
  induction z with
  | nil => rfl
  | cons c z ih =>
    rw [cons_append, wordsBy_separator_cons (hz c mem_cons_self)]
    exact ih fun c hc => hz c (mem_cons_of_mem _ hc)

/-- A word before a separator or the end. -/
theorem wordsBy_append_of_free (hne : w ≠ []) (hw : FreeOf separates w)
    (hb : ∀ c ∈ b.head?, separates c = true) :
    wordsBy separates (w ++ b) = w :: wordsBy separates b := by
  cases b with
  | nil => rw [append_nil, wordsBy_of_free hne hw, wordsBy_nil]
  | cons c b =>
    have hc := hb c rfl
    rw [wordsBy_append_separator hc, wordsBy_of_free hne hw, wordsBy_separator_cons hc]
    rfl

theorem mem_wordsBy (hw : w ∈ wordsBy separates s) : w ≠ [] ∧ FreeOf separates w := by
  induction hn : s.length using Nat.strongRecOn generalizing s with
  | _ n ih =>
    subst hn
    by_cases hseparator : ∃ c ∈ s, separates c = true
    · obtain ⟨c, hmem, hc⟩ := hseparator
      obtain ⟨a, b, rfl⟩ := append_of_mem hmem
      rw [wordsBy_append_separator hc] at hw
      rw [length_append, length_cons] at ih
      rcases mem_append.mp hw with ha | hb
      · exact ih a.length (by omega) ha rfl
      · exact ih b.length (by omega) hb rfl
    · have hfree : FreeOf separates s :=
        fun c hc => Bool.eq_false_iff.mpr fun h => hseparator ⟨c, hc, h⟩
      by_cases hnil : s = []
      · rw [hnil] at hw
        exact absurd hw not_mem_nil
      · rw [wordsBy_of_free hnil hfree] at hw
        obtain rfl := mem_singleton.mp hw
        exact ⟨hnil, hfree⟩

/-- The characters that a scan passes, and what stops it. -/
theorem exists_scanned (stop : A → Bool) (s : List A) : ∃ w rest, s = w ++ rest ∧
    FreeOf stop w ∧ ∀ c ∈ rest.head?, stop c = true := by
  induction s with
  | nil => exact ⟨[], [], rfl, by simp [FreeOf], by simp⟩
  | cons c s ih =>
    cases hc : stop c with
    | true => exact ⟨[], c :: s, rfl, by simp [FreeOf], by simpa using hc⟩
    | false =>
      obtain ⟨w, rest, rfl, hw, hrest⟩ := ih
      exact ⟨c :: w, rest, rfl, forall_mem_cons.mpr ⟨hc, hw⟩, hrest⟩

theorem exists_scanned_down (stop : A → Bool) (s : List A) : ∃ rest w, s = rest ++ w ∧
    FreeOf stop w ∧ ∀ c ∈ rest.getLast?, stop c = true := by
  obtain ⟨w, rest, hs, hw, hrest⟩ := exists_scanned stop s.reverse
  refine ⟨rest.reverse, w.reverse, ?_, fun c hc => hw c (mem_reverse.mp hc), ?_⟩
  · rw [← reverse_append, ← hs, reverse_reverse]
  · rw [getLast?_reverse]
    exact hrest

/-- The first word that is left of a text which does not start with a separator. -/
theorem exists_wordsBy_cons (hc : separates c = false) (s : List A) : ∃ w b,
    c :: s = w ++ b ∧ w ≠ [] ∧ FreeOf separates w ∧ (∀ c ∈ b.head?, separates c = true) ∧
      wordsBy separates (c :: s) = w :: wordsBy separates b := by
  obtain ⟨w, b, rfl, hw, hb⟩ := exists_scanned separates s
  have hfree : FreeOf separates (c :: w) := forall_mem_cons.mpr ⟨hc, hw⟩
  exact ⟨c :: w, b, rfl, cons_ne_nil _ _, hfree, hb,
    wordsBy_append_of_free (cons_ne_nil _ _) hfree hb⟩

end

end Text

end Gobo
