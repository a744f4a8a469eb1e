/-
Strings as lists whose first index is 1: items, substrings and their growth by
one item.
-/
import Mathlib.Data.List.Basic

namespace Gobo

open List

namespace Text

universe u

variable {A : Type u}

/-- The item at an index, if there is one. -/
def item (s : List A) : Nat → Option A
  | 0 => none
  | i + 1 => s[i]?

/-- The items from the index `i` to the index `j`. -/
def substring (s : List A) (i j : Nat) : List A := (s.take j).drop (i - 1)

/-- `put (c, i)`. -/
def putItem (s : List A) (c : A) (i : Nat) : Option (List A) :=
  if 1 ≤ i ∧ i ≤ s.length then some (s.set (i - 1) c) else none

/-- `remove (i)`. -/
def removeItem (s : List A) (i : Nat) : Option (List A) :=
  if 1 ≤ i ∧ i ≤ s.length then some (s.eraseIdx (i - 1)) else none

/-- `insert_character (c, i)`. -/
def insertItem (s : List A) (c : A) (i : Nat) : Option (List A) :=
  if 1 ≤ i ∧ i ≤ s.length + 1 then some (s.insertIdx (i - 1) c) else none

section

variable {s pre rest : List A} {c : A} {i j k : Nat}

theorem item_append (pre rest : List A) (k : Nat) :
    item (pre ++ rest) (pre.length + 1 + k) = rest[k]? := by
  rw [show pre.length + 1 + k = pre.length + k + 1 by omega, item,
    getElem?_append_right (by omega), Nat.add_sub_cancel_left]

/-- The first of the items that are left. -/
theorem item_append_cons (pre : List A) (c : A) (rest : List A) :
    item (pre ++ c :: rest) (pre.length + 1) = some c :=
  item_append pre (c :: rest) 0

/-- The index after `w`. -/
theorem length_append_succ (pre w : List A) :
    (pre ++ w).length + 1 = pre.length + 1 + w.length := by
  rw [length_append, Nat.add_right_comm]

theorem putItem_append_cons (pre : List A) (c v : A) (rest : List A) :
    putItem (pre ++ c :: rest) v (pre.length + 1) = some (pre ++ v :: rest) := by
  rw [putItem, if_pos ⟨Nat.succ_pos _, by rw [length_append, length_cons]; omega⟩,
    Nat.add_sub_cancel, set_append_right _ _ (Nat.le_refl _), Nat.sub_self]
  rfl

theorem removeItem_append_cons (pre : List A) (c : A) (rest : List A) :
    removeItem (pre ++ c :: rest) (pre.length + 1) = some (pre ++ rest) := by
  rw [removeItem, if_pos ⟨Nat.succ_pos _, by rw [length_append, length_cons]; omega⟩,
    Nat.add_sub_cancel, eraseIdx_append_of_length_le (Nat.le_refl _), Nat.sub_self]
  rfl

theorem insertItem_append (pre : List A) (c : A) (rest : List A) :
    insertItem (pre ++ rest) c (pre.length + 1) = some (pre ++ c :: rest) := by
  have hinsert : (pre ++ rest).insertIdx pre.length c = pre ++ c :: rest := by
    induction pre with
    | nil => rfl
    | cons head pre ih => exact congrArg (head :: ·) ih
  rw [insertItem, if_pos ⟨Nat.succ_pos _, by rw [length_append]; omega⟩, Nat.add_sub_cancel,
    hinsert]

/-- Nothing is left after the last index. -/
theorem length_lt_iff : (pre ++ rest).length < pre.length + 1 ↔ rest = [] := by
  rw [length_append, ← length_eq_zero_iff]
  omega

theorem item_eq_some_iff : item s (i + 1) = some c ↔ s[i]? = some c := Iff.rfl

@[simp] theorem substring_self (s : List A) (i : Nat) : substring s (i + 1) i = [] := by
  unfold substring
  rw [drop_eq_nil_iff, length_take]
  omega

theorem substring_one_length (s : List A) : substring s 1 s.length = s := by
  unfold substring
  rw [take_length, Nat.sub_self, drop_zero]

theorem substring_one (s : List A) (j : Nat) : substring s 1 j = s.take j := rfl

/-- A substring grows by the next item. -/
theorem substring_succ (hi : i ≤ j + 1) (hc : item s (j + 1) = some c) :
    substring s i (j + 1) = substring s i j ++ [c] := by
  have hlt : j < s.length := (List.getElem?_eq_some_iff.mp hc).1
  unfold substring
  rw [List.take_add_one, item_eq_some_iff.mp hc, Option.toList_some, List.drop_append_of_le_length]
  rw [List.length_take]
  omega

theorem substring_middle (pre w rest : List A) :
    substring (pre ++ (w ++ rest)) (pre.length + 1) (pre.length + w.length) = w := by
  have htake : (pre ++ (w ++ rest)).take (pre.length + w.length) = pre ++ w := by
    rw [← append_assoc]
    exact take_left' length_append
  unfold substring
  rw [htake, Nat.add_sub_cancel, drop_left]

end

end Text

end Gobo
