/-
Character buffers and the streams they are filled from (`KL_CHARACTER_BUFFER`,
`KI_CHARACTER_INPUT_STREAM`).  How many of the bytes asked for a stream delivers
at a time is up to the stream.
-/
import Mathlib.Data.List.Basic
import Mathlib.Logic.Function.Basic

namespace Gobo

open List

/-- Characters at the positions 1 to `count`. -/
structure CharacterBuffer where
  count : Nat
  item : Nat → UInt8

/-- How many bytes to deliver, and whether to notice at once that they are the
last ones. -/
structure ReadChoice where
  wanted : Nat
  eager : Bool

/-- The bytes that are left to read, and what each further read will choose. -/
structure InputStream where
  rest : List UInt8
  endOfInput : Bool
  reads : Nat
  plan : Nat → ReadChoice

namespace InputStream

/-- The bytes of the next read of at most `nb`: at least one if there is one. -/
def next (s : InputStream) (nb : Nat) : List UInt8 :=
  s.rest.take (min nb (max 1 (s.plan s.reads).wanted))

def afterRead (s : InputStream) (nb : Nat) : InputStream :=
  { s with
    rest := s.rest.drop (s.next nb).length
    endOfInput := s.rest = [] ∨
      (s.plan s.reads).eager ∧ s.rest.drop (s.next nb).length = []
    reads := s.reads + 1 }

/-- All bytes were read where the end was noticed. -/
def Ends (s : InputStream) : Prop := s.endOfInput = true → s.rest = []

section

variable (s : InputStream) {nb : Nat}

theorem next_append_rest : s.next nb ++ (s.afterRead nb).rest = s.rest := by
  show s.rest.take _ ++ s.rest.drop (s.next nb).length = s.rest
  rw [next, length_take]
  rcases Nat.le_total (min nb (max 1 (s.plan s.reads).wanted)) s.rest.length with h | h
  · rw [Nat.min_eq_left h]
    exact take_append_drop _ _
  · rw [Nat.min_eq_right h, drop_length, append_nil, take_of_length_le h]

theorem length_next_le : (s.next nb).length ≤ nb := by
  rw [next, length_take]
  omega

theorem ends_afterRead : (s.afterRead nb).Ends := by
  intro h
  have h' : s.rest = [] ∨
      (s.plan s.reads).eager ∧ s.rest.drop (s.next nb).length = [] := by
    simpa [afterRead] using h
  rcases h' with h' | h'
  · show s.rest.drop _ = []
    rw [h', drop_nil]
  · exact h'.2

/-- Nothing is delivered at the end only. -/
theorem of_next_eq_nil (hnb : 0 < nb) (h : s.next nb = []) :
    s.rest = [] ∧ (s.afterRead nb).endOfInput = true := by
  have hrest : s.rest = [] := by
    rcases take_eq_nil_iff.mp h with hzero | hrest
    · omega
    · exact hrest
  exact ⟨hrest, by simp [afterRead, hrest]⟩

end

end InputStream

namespace CharacterBuffer

/-- All characters are `%U`. -/
def make (n : Nat) : CharacterBuffer := ⟨n, fun _ => 0⟩

def put (b : CharacterBuffer) (v : UInt8) (i : Nat) : Option CharacterBuffer :=
  if 1 ≤ i ∧ i ≤ b.count then some { b with item := Function.update b.item i v }
  else none

/-- Only defined where the `nb` characters fit. -/
def fillFromStream (b : CharacterBuffer) (s : InputStream) (pos nb : Nat) :
    Option (Nat × CharacterBuffer × InputStream) :=
  if 0 < nb ∧ 1 ≤ pos ∧ pos + nb ≤ b.count + 1 then
    let bytes := s.next nb
    some (bytes.length,
      { b with item := fun i =>
          if pos ≤ i then bytes[i - pos]?.getD (b.item i) else b.item i },
      s.afterRead nb)
  else none

def moveLeft (b : CharacterBuffer) (oldPos newPos nb : Nat) : Option CharacterBuffer :=
  if 1 ≤ newPos ∧ oldPos + nb ≤ b.count + 1 then
    some { b with item := fun i =>
      if newPos ≤ i ∧ i < newPos + nb then b.item (oldPos + (i - newPos)) else b.item i }
  else none

def resize (b : CharacterBuffer) (n : Nat) : CharacterBuffer :=
  if b.count < n then ⟨n, fun i => if i ≤ b.count then b.item i else 0⟩ else b

/-- The `n` characters from the position `i` on. -/
def slice (b : CharacterBuffer) (i n : Nat) : List UInt8 := (range' i n).map b.item

section

variable {b b' : CharacterBuffer} {i n : Nat}

@[simp] theorem length_slice : (b.slice i n).length = n := by
  simp [slice]

theorem slice_succ : b.slice i (n + 1) = b.item i :: b.slice (i + 1) n := rfl

theorem slice_add (m : Nat) : b.slice i (m + n) = b.slice i m ++ b.slice (i + m) n := by
  rw [slice, slice, slice, ← map_append, range'_append_1]

theorem slice_congr (h : ∀ j, i ≤ j → j < i + n → b'.item j = b.item j) :
    b'.slice i n = b.slice i n := by
  apply map_congr_left
  intro j hj
  obtain ⟨hi, hn⟩ := mem_range'_1.mp hj
  exact h j hi hn

/-- What is put in is there, and nothing else changes. -/
theorem exists_put (v : UInt8) (hi : 1 ≤ i) (hle : i ≤ b.count) :
    ∃ b', b.put v i = some b' ∧ b'.count = b.count ∧ b'.item i = v ∧
      ∀ j, j ≠ i → b'.item j = b.item j :=
  ⟨_, if_pos ⟨hi, hle⟩, rfl, Function.update_self _ _ _, fun _ hj =>
    Function.update_of_ne hj _ _⟩

/-- What is read is put in at `pos`, and nothing else changes. -/
theorem exists_fillFromStream (s : InputStream) {pos nb : Nat} (hnb : 0 < nb)
    (hpos : 1 ≤ pos) (hfits : pos + nb ≤ b.count + 1) :
    ∃ b', b.fillFromStream s pos nb = some ((s.next nb).length, b', s.afterRead nb) ∧
      b'.count = b.count ∧ b'.slice pos (s.next nb).length = s.next nb ∧
      ∀ j, j < pos ∨ pos + (s.next nb).length ≤ j → b'.item j = b.item j := by
  refine ⟨_, if_pos ⟨hnb, hpos, hfits⟩, rfl, ?_, ?_⟩
  · apply ext_getElem
    · simp
    · intro k hk hk'
      simp [slice, hk']
  · intro j hj
    show (if pos ≤ j then (s.next nb)[j - pos]?.getD (b.item j) else b.item j) = b.item j
    rcases hj with hj | hj
    · rw [if_neg (by omega)]
    · rw [if_pos (by omega), getElem?_eq_none (by omega)]
      rfl

theorem exists_moveLeft {oldPos newPos nb : Nat} (hnew : 1 ≤ newPos)
    (hfits : oldPos + nb ≤ b.count + 1) :
    ∃ b', b.moveLeft oldPos newPos nb = some b' ∧ b'.count = b.count ∧
      b'.slice newPos nb = b.slice oldPos nb ∧ ∀ i, ∃ j, b'.item i = b.item j := by
  refine ⟨_, if_pos ⟨hnew, hfits⟩, rfl, ?_, ?_⟩
  · apply ext_getElem
    · simp
    · intro k hk hk'
      have hk'' : k < nb := by simpa using hk
      simp [slice, hk'']
  · intro i
    by_cases hi : newPos ≤ i ∧ i < newPos + nb
    · exact ⟨_, if_pos hi⟩
    · exact ⟨i, if_neg hi⟩

theorem resize_count (h : b.count ≤ n) : (b.resize n).count = n := by
  rw [resize]
  split
  · rfl
  · omega

theorem slice_of_add {i' m : Nat} (h : b'.slice i' (n + m) = b.slice i (n + m)) :
    b'.slice i' n = b.slice i n := by
  rw [slice_add, slice_add] at h
  exact (append_inj h (by simp)).1

theorem resize_zero (h : ∀ i, b.item i = 0) : (b.resize n).item i = 0 := by
  rw [resize]
  split
  · show (if i ≤ b.count then b.item i else 0) = 0
    rw [h]
    exact ite_self 0
  · exact h i

theorem resize_item (h : i ≤ b.count) : (b.resize n).item i = b.item i := by
  rw [resize]
  split
  · exact if_pos h
  · rfl

end

end CharacterBuffer

end Gobo
