/-
The coefficients of decimal numbers (`MA_DECIMAL_COEFFICIENT_IMP`): decimal
digits in an array, least significant digit first.  The array may be longer than
the coefficient.  A digit written outside the array has no result.
-/
import Gobo.Loop
import Gobo.Numeral
import Gobo.Special

namespace Gobo

structure Coefficient where
  digits : Special ℕ
  count : ℕ
deriving Repr, DecidableEq

namespace Coefficient

/-- `make (a_capacity)`. -/
def make (aCapacity : ℕ) : Coefficient := ⟨Special.makeFilled 0 aCapacity, 0⟩

variable (c other : Coefficient)

def capacity : ℕ := c.digits.capacity

def item (index : ℤ) : Option ℕ := c.digits.item index

/-- The digit of weight `10 ^ i`. -/
def digit (i : ℕ) : ℕ := c.digits.get 0 i

/-- `digits.put (v, index)`. -/
def setDigit (v : ℕ) (index : ℤ) : Option Coefficient :=
  (c.digits.put v index).map fun area => { c with digits := area }

/-- `put (v, index)`: `count` grows with the digit. -/
def put (v : ℕ) (index : ℤ) : Option Coefficient := (c.setDigit v index).map fun c =>
    if (c.count : ℤ) - 1 < index then { c with count := (index + 1).toNat } else c

/-- `grow (a_capacity)`. -/
def grow (aCapacity : ℕ) : Option Coefficient :=
  let resized :=
    if c.capacity < aCapacity then
      { c with digits := c.digits.aliasedResizedAreaWithDefault 0 aCapacity }
    else c
  (forUp (fun index c => c.put 0 index) (aCapacity - c.count) c.count resized).map
    fun c => { c with count := aCapacity }

/-- How many of the `n` last digits are left without the zeroes in front. -/
def significantCount : ℕ → ℕ
  | 0 => 0
  | n + 1 => if c.digit n ≠ 0 then n + 1 else significantCount n

/-- Index of the most significant non-zero digit. -/
def msdIndex : ℕ := c.significantCount c.count - 1

def isZero : Bool := decide (∀ i < c.count, c.digit i = 0)

def stripLeadingZeroes : Coefficient :=
  { c with count := c.msdIndex + 1 }

/-- `keep_head (a_count)`: the digits from `a_count` up to `upper` become zero. -/
def keepHead (aCount : ℕ) : Option Coefficient :=
  (forUp (fun index c => c.setDigit 0 index) (c.capacity - aCount) aCount c).map
    fun c => { c with count := aCount }

/-- `shift_right (a_count)`, `count` is kept. -/
def shiftRight (aCount : ℕ) : Option Coefficient := do
  let moved ← forUp
    (fun index c => (c.item index).bind fun v => c.setDigit v (index - aCount : ℕ))
    (c.count - aCount) aCount c
  forUp (fun index c => c.setDigit 0 index) aCount (c.count - aCount) moved

/-- A digit is added with the carry, the sum goes to the index less `start`. -/
def carryTurn (addend : ℕ → Option ℕ) (start index : ℕ) (s : Coefficient × ℕ) :
    Option (Coefficient × ℕ) := do
  let x ← s.1.item index
  let y ← addend index
  let c ← s.1.setDigit ((s.2 + x + y) % 10) (index - start : ℕ)
  some (c, (s.2 + x + y) / 10)

/-- `integer_quick_add_msd (other, digits_count)`. -/
def integerQuickAddMsd (addend digitsCount : ℕ) : Option Coefficient := do
  let (c, carry) ← forUp (carryTurn (fun _ => some 0) (c.count - digitsCount))
    digitsCount (c.count - digitsCount) (c, addend)
  if carry ≠ 0 then
    (c.setDigit carry digitsCount).map fun c => { c with count := digitsCount + 1 }
  else some { c with count := digitsCount }

end Coefficient

end Gobo
