/-
Classes of symbols (`LX_SYMBOL_CLASS`): four sets of 64 bits for the symbols up to 255, and
chunks of 172 sets for the other ones, which are created when they are needed.
-/
import Gobo.Loop
import Mathlib.Logic.Function.Basic

namespace Gobo

/-- The chunks of sets that have been created. -/
structure Chunks where
  created : Nat
  sets : Nat → List (BitVec 64)

/-- The dummy chunk which is supposed to represent a chunk full of ones. -/
def chunkOfOnes : Nat := 0

namespace Chunks

/-- Only `chunk_of_ones` has been created. -/
def initial : Chunks := ⟨1, fun _ => []⟩

/-- Create a chunk with the number `created`. -/
def make (h : Chunks) (sets : List (BitVec 64)) : Chunks :=
  ⟨h.created + 1, Function.update h.sets h.created sets⟩

def item (h : Chunks) (k i : Nat) : Option (BitVec 64) := (h.sets k)[i]?

/-- The chunk `k` gets other sets. -/
def change (h : Chunks) (k : Nat) (sets : List (BitVec 64)) : Chunks :=
  { h with sets := Function.update h.sets k sets }

def put (h : Chunks) (v : BitVec 64) (k i : Nat) : Option Chunks :=
  if i < (h.sets k).length then some (h.change k ((h.sets k).set i v)) else none

/-- `fill_with (v, 0, n - 1)`. -/
def fillWith (h : Chunks) (v : BitVec 64) (k n : Nat) : Option Chunks :=
  if n ≤ (h.sets k).length then
    some (h.change k (List.replicate n v ++ (h.sets k).drop n))
  else none

/-- `filled_with (v, i, j - 1)`. -/
def filledWith (h : Chunks) (v : BitVec 64) (k i j : Nat) : Option Bool :=
  if i ≤ j ∧ j ≤ (h.sets k).length then some (((h.sets k).extract i j).all fun w => w == v)
  else none

end Chunks

/-- `put` of a `SPECIAL`. -/
def putSlot (sets : List (Option Nat)) (k : Option Nat) (i : Nat) : Option (List (Option Nat)) :=
  if i < sets.length then some (sets.set i k) else none

structure SymbolClass where
  lower : Nat
  upper : Nat
  isEmpty : Bool
  isNegated : Bool
  firstSet : BitVec 64
  secondSet : BitVec 64
  thirdSet : BitVec 64
  fourthSet : BitVec 64
  otherSets : Option (List (Option Nat))
deriving DecidableEq

namespace SymbolClass

def chunkSize : Nat := 172

def symbolsPerChunk : Nat := 11008

/-- An item of `masks`. -/
def mask (i : Nat) : BitVec 64 := 1#64 <<< i

/-- `chunk_index`. -/
def chunkIndex (a : Nat) : Nat := (a - 256) / symbolsPerChunk

/-- `index_in_chunk`. -/
def indexInChunk (a : Nat) : Nat := (a - 256) / 64 % chunkSize

/-- `make`. -/
def make (min max : Nat) : SymbolClass := ⟨min, max, true, false, 0, 0, 0, 0, none⟩

/-- `chunk`. -/
def chunk (c : SymbolClass) (a : Nat) : Option (Option Nat) :=
  match c.otherSets with
  | none => some none
  | some sets => sets[chunkIndex a]?

/-- `added`. -/
def added (h : Chunks) (c : SymbolClass) (a : Nat) : Option Bool :=
  if c.isEmpty then some false
  else if a < 64 then some (c.firstSet &&& mask a != 0)
  else if a < 128 then some (c.secondSet &&& mask (a % 64) != 0)
  else if a < 192 then some (c.thirdSet &&& mask (a % 64) != 0)
  else if a < 256 then some (c.fourthSet &&& mask (a % 64) != 0)
  else do
    match ← c.chunk a with
    | none => some false
    | some k =>
        if (h.sets k).length = 0 then some true
        else do
          let w ← h.item k (indexInChunk a)
          some (w &&& mask (a % 64) != 0)

/-- `has`. -/
def has (h : Chunks) (c : SymbolClass) (a : Nat) : Option Bool :=
  (c.added h a).map fun b => b != c.isNegated

/-- `set_negated`. -/
def setNegated (c : SymbolClass) (b : Bool) : SymbolClass := { c with isNegated := b }

/-- `attached_other_sets`. -/
def attachedOtherSets (upper : Nat) (otherSets : Option (List (Option Nat))) : List (Option Nat) :=
  otherSets.getD (List.replicate (chunkIndex upper + 1) none)

/-- `attached_chunk`. -/
def attachedChunk (h : Chunks) (c : SymbolClass) (a : Nat) :
    Option (Chunks × List (Option Nat) × Nat) := do
  let sets := attachedOtherSets c.upper c.otherSets
  match ← sets[chunkIndex a]? with
  | none => do
      let sets ← putSlot sets (some h.created) (chunkIndex a)
      some (h.make (List.replicate chunkSize 0), sets, h.created)
  | some k => some (h, sets, k)

/-- `add_symbol`. -/
def addSymbol (h : Chunks) (c : SymbolClass) (a : Nat) : Option (Chunks × SymbolClass) :=
  if a < 64 then some (h, { c with firstSet := c.firstSet ||| mask a, isEmpty := false })
  else if a < 128 then
    some (h, { c with secondSet := c.secondSet ||| mask (a % 64), isEmpty := false })
  else if a < 192 then
    some (h, { c with thirdSet := c.thirdSet ||| mask (a % 64), isEmpty := false })
  else if a < 256 then
    some (h, { c with fourthSet := c.fourthSet ||| mask (a % 64), isEmpty := false })
  else do
    let (h, sets, k) ← c.attachedChunk h a
    let c := { c with otherSets := some sets, isEmpty := false }
    if (h.sets k).length = 0 then some (h, c)
    else do
      let w ← h.item k (indexInChunk a)
      let h ← h.put (w ||| mask (a % 64)) k (indexInChunk a)
      some (h, c)

/-- The sets of a union, by the negated status of the two classes. -/
def unite (negated otherNegated : Bool) (w w' : BitVec 64) : BitVec 64 :=
  match negated, otherNegated with
  | true, true => w &&& w'
  | true, false => w &&& ~~~w'
  | false, true => ~~~w &&& w'
  | false, false => w ||| w'

/-- The data of the loops of `add_symbol_class`. -/
structure Merging where
  chunks : Chunks
  otherSets : Option (List (Option Nat))
  isEmpty : Bool

/-- Put a copy of the chunk `k` of the other class at the index `i`. -/
def copyChunk (sets : List (Option Nat)) (k i : Nat) (m : Merging) : Option Merging :=
  if (m.chunks.sets k).length = 0 then do
    let sets ← putSlot sets (some chunkOfOnes) i
    some ⟨m.chunks, some sets, false⟩
  else do
    let sets ← putSlot sets (some m.chunks.created) i
    let isEmpty ← if m.isEmpty then m.chunks.filledWith 0 k 0 chunkSize else some false
    some ⟨m.chunks.make (m.chunks.sets k), some sets, isEmpty⟩

/-- A turn of the loop over the chunks of the other class, when the current one has none. -/
def copyTurn (upper : Nat) (others : List (Option Nat)) (i : Nat) (m : Merging) :
    Option Merging := do
  match ← others[i]? with
  | none => some m
  | some k => copyChunk (attachedOtherSets upper m.otherSets) k i m

/-- Whether a chunk of the current class is empty. -/
def emptyChunk (k : Nat) (m : Merging) : Option Merging :=
  if m.isEmpty then
    if (m.chunks.sets k).length = 0 then some { m with isEmpty := false }
    else do
      let isEmpty ← m.chunks.filledWith 0 k 0 chunkSize
      some { m with isEmpty := isEmpty }
  else some m

/-- A turn of the loop over the chunks of the current class, when the other one has none; the
loop stops when the class is not empty. -/
def emptyTurn (i : Nat) (m : Merging) : Option Merging :=
  if m.isEmpty then do
    let sets ← m.otherSets
    match ← sets[i]? with
    | none => some m
    | some k => emptyChunk k m
  else some m

/-- Complement the set `i` of a chunk. -/
def complementSet (k i : Nat) (h : Chunks) : Option Chunks := do
  let w ← h.item k i
  h.put (~~~w) k i

section

variable (negated otherNegated : Bool)

/-- Unite the sets `i` of two chunks. -/
def uniteSets (k k' i : Nat) (m : Merging) : Option Merging := do
  let w ← m.chunks.item k i
  let w' ← m.chunks.item k' i
  let h ← m.chunks.put (unite negated otherNegated w w') k i
  some { m with
    chunks := h
    isEmpty := m.isEmpty && unite negated otherNegated w w' == 0 }

/-- The chunk `k` is complemented. -/
def complementChunk (k : Nat) (m : Merging) : Option Merging := do
  let h ← forUp (complementSet k) chunkSize 0 m.chunks
  emptyChunk k { m with chunks := h }

/-- The current chunk is considered full of ones. -/
def mergeOnes (sets : List (Option Nat)) (k' i : Nat) (m : Merging) :
    Option Merging :=
  match negated, otherNegated with
  | true, true =>
      if 0 < (m.chunks.sets k').length then copyChunk sets k' i m
      else some { m with isEmpty := false }
  | true, false =>
      if (m.chunks.sets k').length = 0 then do
        let sets ← putSlot sets none i
        some { m with otherSets := some sets }
      else do
        let sets ← putSlot sets (some m.chunks.created) i
        complementChunk m.chunks.created
          { m with chunks := m.chunks.make (m.chunks.sets k'), otherSets := some sets }
  | false, true => do
      let sets ← putSlot sets none i
      some { m with otherSets := some sets }
  | false, false => some { m with isEmpty := false }

/-- The chunk of the other class is considered full of ones. -/
def mergeOtherOnes (sets : List (Option Nat)) (k i : Nat)
    (m : Merging) : Option Merging :=
  match negated, otherNegated with
  | true, true => emptyChunk k m
  | true, false => do
      let sets ← putSlot sets none i
      some { m with otherSets := some sets }
  | false, true => complementChunk k m
  | false, false => do
      let sets ← putSlot sets (some chunkOfOnes) i
      some { m with otherSets := some sets, isEmpty := false }

/-- A turn of the loop over the chunks of both classes. -/
def mergeTurn (others : List (Option Nat)) (i : Nat) (m : Merging) :
    Option Merging := do
  let sets ← m.otherSets
  match ← sets[i]?, ← others[i]? with
  | none, none => some m
  | none, some k' => if negated then some m else copyChunk sets k' i m
  | some k, none =>
      if otherNegated then do
        let h ← m.chunks.fillWith 0 k chunkSize
        some { m with chunks := h }
      else emptyChunk k m
  | some k, some k' =>
      if (m.chunks.sets k).length = 0 then mergeOnes negated otherNegated sets k' i m
      else if (m.chunks.sets k').length = 0 then mergeOtherOnes negated otherNegated sets k i m
      else forUp (uniteSets negated otherNegated k k') chunkSize 0 m

end

/-- The part of `add_symbol_class` about the chunks. -/
def mergeChunks (c other : SymbolClass) (m : Merging) : Option Merging :=
  if c.upper < 256 then some m
  else
    match c.otherSets, other.otherSets with
    | none, none => some m
    | none, some others =>
        if c.isNegated then some m else forUp (copyTurn c.upper others) (chunkIndex c.upper + 1) 0 m
    | some sets, none =>
        if other.isNegated then
          if chunkIndex c.upper + 1 ≤ sets.length then
            some { m with
              otherSets := some (List.replicate (chunkIndex c.upper + 1) none ++
                sets.drop (chunkIndex c.upper + 1)) }
          else none
        else forUp emptyTurn (chunkIndex c.upper + 1) 0 m
    | some _, some others =>
        forUp (mergeTurn c.isNegated other.isNegated others) (chunkIndex c.upper + 1) 0 m

/-- `add_symbol_class`. -/
def addSymbolClass (h : Chunks) (c other : SymbolClass) : Option (Chunks × SymbolClass) := do
  let first := unite c.isNegated other.isNegated c.firstSet other.firstSet
  let second := unite c.isNegated other.isNegated c.secondSet other.secondSet
  let third := unite c.isNegated other.isNegated c.thirdSet other.thirdSet
  let fourth := unite c.isNegated other.isNegated c.fourthSet other.fourthSet
  let bothFilled := !c.isEmpty && !other.isEmpty
  let isEmpty := if bothFilled then first == 0 && second == 0 && third == 0 && fourth == 0 else true
  let m ← mergeChunks c other ⟨h, c.otherSets, isEmpty⟩
  some (m.chunks,
    { c with
      isNegated := c.isNegated || other.isNegated
      firstSet := first
      secondSet := second
      thirdSet := third
      fourthSet := fourth
      otherSets := m.otherSets
      isEmpty := if bothFilled then m.isEmpty else c.isEmpty })

/-- `remove_symbol_class`. -/
def removeSymbolClass (h : Chunks) (c other : SymbolClass) : Option (Chunks × SymbolClass) := do
  let (h, c) ← addSymbolClass h (c.setNegated !c.isNegated) other
  some (h, c.setNegated !c.isNegated)

end SymbolClass

end Gobo
