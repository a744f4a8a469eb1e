/-
Lists that are edited while they are scanned by index.
-/
import Mathlib.Data.List.Basic
import Mathlib.Logic.Function.Basic

namespace Gobo

open List

universe u

variable {A : Type u} {l rest : List A} {a : A} {p q : A → Bool}

theorem getElem?_append_cons (l rest : List A) (a : A) :
    (l ++ a :: rest)[l.length]? = some a := by
  rw [getElem?_append_right (Nat.le_refl _), Nat.sub_self]
  rfl

theorem eraseIdx_append_cons (l rest : List A) (a : A) :
    (l ++ a :: rest).eraseIdx l.length = l ++ rest := by
  rw [eraseIdx_append_of_length_le (Nat.le_refl _), Nat.sub_self]
  rfl

theorem set_append_cons (l rest : List A) (a b : A) :
    (l ++ a :: rest).set l.length b = l ++ b :: rest := by
  rw [set_append_right l.length b (Nat.le_refl _), Nat.sub_self]
  rfl

theorem getElem?_append_change (l rest : List A) (a b : A) (i : Nat) :
    (l ++ b :: rest)[i]? = if l.length = i then some b else (l ++ a :: rest)[i]? := by
  rw [← set_append_cons l rest a b, getElem?_set]
  by_cases hi : l.length = i
  · have hlt : l.length < (l ++ a :: rest).length := by
      rw [length_append, length_cons]
      omega
    rw [if_pos hi, if_pos hi, if_pos hlt]
  · rw [if_neg hi, if_neg hi]

theorem exists_append_of_getElem? {i : Nat} (h : l[i]? = some a) :
    ∃ before after, l = before ++ a :: after ∧ before.length = i := by
  obtain ⟨hlt, rfl⟩ := List.getElem?_eq_some_iff.mp h
  refine ⟨l.take i, l.drop (i + 1), ?_, List.length_take_of_le (Nat.le_of_lt hlt)⟩
  rw [List.getElem_cons_drop, List.take_append_drop]

/-- At most one item is erased when no two of them fit. -/
theorem eraseP_eq_filter (h : l.Pairwise fun a b => ¬(p a = true ∧ p b = true)) :
    l.eraseP p = l.filter fun a => !p a := by
  induction l with
  | nil => rfl
  | cons a l ih =>
      obtain ⟨hhead, htail⟩ := pairwise_cons.mp h
      cases ha : p a with
      | true =>
          have hkept : l.filter (fun a => !p a) = l :=
            filter_eq_self.mpr fun b hb => by
              rw [Bool.not_eq_true']
              exact Bool.eq_false_iff.mpr fun hpb => hhead b hb ⟨ha, hpb⟩
          rw [eraseP_cons_of_pos ha, filter_cons_of_neg (by rw [ha]; decide), hkept]
      | false =>
          rw [eraseP_cons_of_neg (by rw [ha]; decide),
            filter_cons_of_pos (by rw [ha]; rfl), ih htail]

theorem not_of_le {b b' : Bool} (h : b = true → b' = true) (hb' : (!b') = true) :
    (!b) = true := by
  cases b with
  | false => rfl
  | true =>
      rw [h rfl] at hb'
      exact hb'

theorem countP_lt_of_mem (ha : a ∈ l) (hpq : ∀ x ∈ l, p x = true → q x = true)
    (hp : p a = false) (hq : q a = true) : l.countP p < l.countP q := by
  obtain ⟨l₁, l₂, rfl⟩ := append_of_mem ha
  have hle : ∀ l' : List A, (∀ x ∈ l', x ∈ l₁ ++ a :: l₂) → l'.countP p ≤ l'.countP q :=
    fun l' hl' => countP_mono_left fun x hx => hpq x (hl' x hx)
  have h₁ := hle l₁ fun x hx => mem_append_left _ hx
  have h₂ := hle l₂ fun x hx => mem_append_right _ (mem_cons_of_mem _ hx)
  rw [countP_append, countP_append, countP_cons_of_pos hq,
    countP_cons_of_neg (by rw [hp]; exact Bool.false_ne_true)]
  omega

/-- The items of `l` are numbered from `n`. -/
def Numbered (ids : A → Nat) (l : List A) (n : Nat) : Prop :=
  ∀ k a, l[k]? = some a → ids a = k + n

theorem Numbered.append [DecidableEq A] {ids : A → Nat} {n : Nat} (h : Numbered ids l n)
    (ha : a ∉ l) : Numbered (Function.update ids a (l.length + n)) (l ++ [a]) n := by
  intro k b hb
  rcases Nat.lt_or_ge k l.length with hk | hk
  · rw [List.getElem?_append_left hk] at hb
    have hne : b ≠ a := fun hba => ha (hba ▸ List.mem_of_getElem? hb)
    rw [Function.update_of_ne hne]
    exact h k b hb
  · rw [List.getElem?_append_right hk] at hb
    obtain ⟨hlt, hget⟩ := List.getElem?_eq_some_iff.mp hb
    rw [List.length_singleton] at hlt
    have hba : b = a := by rw [← hget, List.getElem_singleton]
    rw [hba, Function.update_self]
    omega

/-! Lists whose indexes begin at 1. -/

section

variable {k : Nat}

def itemAt (l : List A) (i : Int) : Option A :=
  if 1 ≤ i then l[(i - 1).toNat]? else none

def replaceAt (l : List A) (v : A) (i : Int) : Option (List A) :=
  if 1 ≤ i ∧ i ≤ l.length then some (l.set (i - 1).toNat v) else none

def removeAt (l : List A) (i : Int) : Option (List A) :=
  if 1 ≤ i ∧ i ≤ l.length then some (l.eraseIdx (i - 1).toNat) else none

/-- Add an item before the one at the index; the list has to have room for it. -/
def putAt (capacity : Nat) (l : List A) (v : A) (i : Int) : Option (List A) :=
  if 1 ≤ i ∧ i ≤ l.length + 1 ∧ l.length < capacity then some (l.insertIdx (i - 1).toNat v)
  else none

theorem itemAt_succ (l : List A) (k : Nat) : itemAt l (k + 1) = l[k]? := by
  rw [itemAt, if_pos (by omega), show ((k : Int) + 1 - 1).toNat = k by omega]

theorem replaceAt_succ (v : A) (hk : k < l.length) : replaceAt l v (k + 1) = some (l.set k v) := by
  rw [replaceAt, if_pos (by omega), show ((k : Int) + 1 - 1).toNat = k by omega]

theorem removeAt_succ (hk : k < l.length) : removeAt l (k + 1) = some (l.eraseIdx k) := by
  rw [removeAt, if_pos (by omega), show ((k : Int) + 1 - 1).toNat = k by omega]

/-- The list of the `n` first values of a function. -/
def tally (n : Nat) (f : Nat → A) : List A := (range n).map f

variable {n j : Nat} {f g : Nat → A} {v : A}

@[simp] theorem length_tally (n : Nat) (f : Nat → A) : (tally n f).length = n := by
  rw [tally, length_map, length_range]

theorem getElem?_tally (hj : j < n) : (tally n f)[j]? = some (f j) := by
  rw [tally, getElem?_map, getElem?_range hj]
  rfl

theorem tally_congr (h : ∀ j < n, f j = g j) : tally n f = tally n g :=
  map_congr_left fun j hj => h j (mem_range.mp hj)

theorem itemAt_tally (hj : j < n) : itemAt (tally n f) (j + 1) = some (f j) := by
  rw [itemAt_succ, getElem?_tally hj]

theorem replaceAt_tally (hj : j < n) :
    replaceAt (tally n f) v (j + 1) = some (tally n (Function.update f j v)) := by
  rw [replaceAt_succ v (by rwa [length_tally])]
  refine congrArg some (ext_getElem? fun i => ?_)
  rw [getElem?_set]
  rcases Nat.lt_or_ge i n with hi | hi
  · rw [getElem?_tally hi, getElem?_tally hi]
    by_cases hij : j = i
    · rw [if_pos hij, if_pos (by rwa [length_tally]), hij, Function.update_self]
    · rw [if_neg hij, Function.update_of_ne (Ne.symm hij)]
  · rw [if_neg (by omega), getElem?_eq_none (by rwa [length_tally]),
      getElem?_eq_none (by rwa [length_tally])]

theorem removeAt_tally (hj : j < n) :
    removeAt (tally n f) (j + 1) =
      some (tally (n - 1) fun i => f (if i < j then i else i + 1)) := by
  rw [removeAt_succ (by rwa [length_tally])]
  refine congrArg some (ext_getElem? fun i => ?_)
  rw [getElem?_eraseIdx]
  rcases Nat.lt_or_ge i (n - 1) with hi | hi
  · rw [getElem?_tally hi]
    by_cases hij : i < j
    · rw [if_pos hij, if_pos hij, getElem?_tally (by omega)]
    · rw [if_neg hij, if_neg hij, getElem?_tally (by omega)]
  · rw [if_neg (by omega), getElem?_eq_none (by rw [length_tally]; omega),
      getElem?_eq_none (by rwa [length_tally])]

end

end Gobo
