/-
Equivalence classes of symbols (`LX_EQUIVALENCE_CLASSES`): the symbols of a class are linked
in both directions, and the cell of a symbol holds the symbol until the classes are numbered.
-/
import Gobo.LinkChain
import Gobo.SymbolClass

namespace Gobo

/-- The cell of a symbol in `storage` has the symbol for its number. -/
structure EquivalenceClasses where
  lower : Nat
  upper : Nat
  item : Nat → Nat
  left : Nat → Option Nat
  right : Nat → Option Nat
  newUpper : Int

namespace EquivalenceClasses

section

variable (e : EquivalenceClasses)

/-- `storage.item (symbol)`. -/
def cell (symbol : Nat) : Option Nat :=
  if e.lower ≤ symbol ∧ symbol ≤ e.upper then some symbol else none

/-- `valid_symbol`. -/
def ValidSymbol (symbol : Nat) : Prop := e.lower ≤ symbol ∧ symbol ≤ e.upper

/-- `valid_symbol_class`. -/
def ValidSymbolClass (c : SymbolClass) : Prop := e.lower ≤ c.lower ∧ c.upper ≤ e.upper

def putItem (v cell : Nat) : EquivalenceClasses :=
  { e with item := Function.update e.item cell v }

/-- `cell.put_right (other)`. -/
def putRight (cell other : Nat) : EquivalenceClasses :=
  { e with
    right := Function.update e.right cell (some other)
    left := Function.update e.left other (some cell) }

def forgetLeft (cell : Nat) : EquivalenceClasses :=
  { e with left := Function.update e.left cell none }

def forgetRight (cell : Nat) : EquivalenceClasses :=
  { e with right := Function.update e.right cell none }

/-- `initialize`. -/
def initializeClasses : EquivalenceClasses :=
  let e := (List.range' (e.lower + 1) (e.upper - e.lower)).foldl
    (fun e i => (e.putRight (i - 1) i).putItem i i) (e.putItem e.lower e.lower)
  { e with newUpper := (e.lower : Int) - 1 }

/-- `make`. -/
def make (min max : Nat) : EquivalenceClasses :=
  initializeClasses ⟨min, max, id, fun _ => none, fun _ => none, 0⟩

/-- `equivalence_class`. -/
def equivalenceClass (symbol : Nat) : Option Nat := (e.cell symbol).map e.item

/-- `is_representative`. -/
def isRepresentative (symbol : Nat) : Option Bool :=
  (e.cell symbol).map fun cell => (e.left cell).isNone

/-- `built`. -/
def built : Prop := (e.lower : Int) ≤ e.newUpper

end

/-- A turn of the loop of `build` over the symbols; `j` is the next number. -/
def buildTurn (i : Nat) : EquivalenceClasses × Nat → Option (EquivalenceClasses × Nat)
  | (e, j) => do
      let cell ← e.cell i
      if e.left cell = none then do
        let e ← forCells EquivalenceClasses.right (fun r e => some (e.putItem j r)) (e.upper + 1)
          (e.right cell) (e.putItem j cell)
        some (e, j + 1)
      else some (e, j)

/-- `build`. -/
def build (e : EquivalenceClasses) : Option EquivalenceClasses := do
  let (e, j) ← forUp buildTurn (e.upper + 1 - e.lower) e.lower (e, e.lower)
  some { e with newUpper := (j : Int) - 1 }

/-- `put`. -/
def put (e : EquivalenceClasses) (symbol : Nat) : Option EquivalenceClasses := do
  let cell ← e.cell symbol
  match e.left cell, e.right cell with
  | some left, some right => some (((e.putRight left right).forgetRight cell).forgetLeft cell)
  | none, some right => some ((e.forgetLeft right).forgetRight cell)
  | some left, none => some ((e.forgetRight left).forgetLeft cell)
  | none, none => some e

/-- The data of the loop of `add` over the companions of a symbol. -/
structure Splitting where
  classes : EquivalenceClasses
  oldCell : Option Nat
  newCell : Nat
  otherSymbol : Nat
  flags : List Nat

/-- The data of the search of a symbol in the class: whether it is over, and whether the symbol
has been found. -/
structure MemberSearch where
  otherSymbol : Nat
  stop : Bool
  nextEc : Bool

section

variable (h : Chunks) (c : SymbolClass)

include h

/-- A turn of the loop that looks for the symbol `i` in the symbol class. -/
def searchTurn (flags : List Nat) (i : Nat) (m : MemberSearch) :
    Option MemberSearch := do
  let b ← c.added h m.otherSymbol
  if b = false then some { m with otherSymbol := m.otherSymbol + 1 }
  else if i < m.otherSymbol then some { m with stop := true }
  else if m.otherSymbol = i ∧ m.otherSymbol ∉ flags then
    some { m with nextEc := true, stop := true }
  else some { m with otherSymbol := m.otherSymbol + 1 }

/-- Look for the symbol `i` in the symbol class. -/
def searchMember (flags : List Nat) (i otherSymbol : Nat) : Option MemberSearch :=
  loopUntil (fun m => some (decide (m.stop = true ∨ c.upper < m.otherSymbol)))
    (searchTurn h c flags i) (c.upper + 3) ⟨otherSymbol, false, false⟩

/-- A turn of the loop over the companions: the cell is linked into the new class, or put into
the old one. -/
def splitTurn (right : Nat) (m : Splitting) : Option Splitting := do
  let s ← searchMember h c m.flags (m.classes.item right) m.otherSymbol
  if s.nextEc then
    some ⟨m.classes.putRight m.newCell right, m.oldCell, right, s.otherSymbol,
      s.otherSymbol :: m.flags⟩
  else
    some ⟨m.oldCell.elim (m.classes.forgetLeft right) fun old => m.classes.putRight old right,
      some right, m.newCell, s.otherSymbol, m.flags⟩

/-- The symbols of the class that are companions of `symbol` get a class of their own. -/
def split (symbol : Nat) (e : EquivalenceClasses)
    (flags : List Nat) : Option (EquivalenceClasses × List Nat) := do
  let cell ← e.cell symbol
  let m ← forCells (fun m => m.classes.right) (splitTurn h c) (e.upper + 1) (e.right cell)
    ⟨e, e.left cell, cell, symbol + 1, flags⟩
  let e := m.classes
  let e :=
    if e.left cell ≠ none ∨ m.oldCell ≠ e.left cell then
      m.oldCell.elim (e.forgetLeft cell) fun old => (e.forgetLeft cell).forgetRight old
    else e
  some (e.forgetRight m.newCell, m.flags)

/-- A turn of the loop of `add` over the symbols of the class. -/
def addTurn (symbol : Nat) :
    EquivalenceClasses × List Nat → Option (EquivalenceClasses × List Nat)
  | (e, flags) => do
      let b ← c.added h symbol
      if b = true ∧ symbol ∉ flags then split h c symbol e flags else some (e, flags)

/-- `add`. -/
def add (e : EquivalenceClasses) : Option EquivalenceClasses :=
  if c.isEmpty then some e
  else (forUp (addTurn h c) (c.upper + 1 - c.lower) c.lower (e, [])).map Prod.fst

end

end EquivalenceClasses

end Gobo
