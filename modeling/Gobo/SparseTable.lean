/-
Sparse tables (`DS_SPARSE_TABLE`, `DS_HASH_TABLE`) and sparse sets
(`DS_SPARSE_SET`, `DS_HASH_SET`): the operations that associate an item with a
key.  An operation that also answers a query returns the answer first.
-/
import Gobo.SparseContainer

namespace Gobo

variable {G K : Type}

namespace SparseContainer

/-- `make` of a table, whose keys are stored apart. -/
def makeTable (aTester : Option (KeyTester K)) (n : Nat) : SparseContainer G K :=
  make (.separate (Special.makeEmpty n)) aTester n

/-- `make` of a set; `key` tells which key an item is. -/
def makeSet (key : G → Key K) (aTester : Option (KeyTester K)) (n : Nat) :
    SparseContainer G K :=
  make (.items key) aTester n

/-- The position of a new item: a free one if there is any, the one after
`last_position` otherwise. -/
def takeFreePosition (s : SparseContainer G K) :
    Option (Int × SparseContainer G K) := do
  let i := s.freeSlot
  if i = noPosition then
    return (s.lastPosition + 1, { s with lastPosition := s.lastPosition + 1 })
  else
    return (i, { s with freeSlot := freeOffset - (← s.clashesItem i) })

/-- Store item `v` and key `k` at position `i` in front of bucket `h`. -/
def insertAt (s : SparseContainer G K) (v : G) (k : Key K) (i h : Int) :
    Option (SparseContainer G K) := do
  let s ← s.clashesPut (← s.slotsItem h) i
  let s ← s.slotsPut i h
  let s ← s.itemStoragePut v i
  let s ← s.keyStoragePut k i
  return { s with count := s.count + 1 }

variable [DecidableEq K]

/-! ### Access -/

section

variable (gen : SparseGenerics G K) (s : SparseContainer G K) (k : Key K)

def item : Option (G × SparseContainer G K) := do
  let s ← s.searchPosition gen k
  return (← s.itemStorageItem s.position, s)

def has : Option (Bool × SparseContainer G K) := do
  let s ← s.searchPosition gen k
  return (decide (s.position ≠ noPosition), s)

def search : Option (SparseContainer G K) := do
  let s ← s.searchPosition gen k
  return { s with foundPosition := s.position }

end

/-! ### Element change -/

section

variable (gen : SparseGenerics G K) (s : SparseContainer G K)

def replace (v : G) (k : Key K) : Option (SparseContainer G K) := do
  let s ← s.unsetFoundItem.searchPosition gen k
  s.itemStoragePut v s.position

def put (v : G) (k : Key K) : Option (SparseContainer G K) := do
  let s ← s.unsetFoundItem.searchPosition gen k
  if s.position ≠ noPosition then
    s.itemStoragePut v s.position
  else do
    let (i, s) ← s.takeFreePosition
    s.insertAt v k i s.slotsPosition

def putNew (v : G) (k : Key K) : Option (SparseContainer G K) := do
  let (i, s) ← s.unsetFoundItem.takeFreePosition
  s.insertAt v k i (← s.hashPosition gen k)

/-- The container that `put_last` and `put_last_new` store into. -/
def compressIfFull : Option (SparseContainer G K) :=
  if s.lastPosition + 1 ≥ s.capacity then s.compress gen else some s

def putLast (v : G) (k : Key K) : Option (SparseContainer G K) := do
  let s ← s.unsetFoundItem.searchPosition gen k
  if s.position ≠ noPosition then
    s.itemStoragePut v s.position
  else do
    let s ← s.compressIfFull gen
    let i := s.lastPosition + 1
    { s with lastPosition := i }.insertAt v k i s.slotsPosition

def putLastNew (v : G) (k : Key K) : Option (SparseContainer G K) := do
  let s ← s.unsetFoundItem.compressIfFull gen
  let i := s.lastPosition + 1
  { s with lastPosition := i }.insertAt v k i (← s.hashPosition gen k)

def force (v : G) (k : Key K) : Option (SparseContainer G K) := do
  let s ← s.unsetFoundItem.searchPosition gen k
  if s.position ≠ noPosition then
    s.itemStoragePut v s.position
  else do
    let (h, s) ← (if s.count = s.capacity then do
        let s ← s.resize gen (newCapacity (s.count + 1))
        return (← s.hashPosition gen k, s)
      else
        some (s.slotsPosition, s) : Option (Int × SparseContainer G K))
    let (i, s) ← s.takeFreePosition
    s.insertAt v k i h

def forceNew (v : G) (k : Key K) : Option (SparseContainer G K) := do
  let s := s.unsetFoundItem
  let s ← (if s.count = s.capacity then
      s.resize gen (newCapacity (s.count + 1))
    else
      some s)
  let (i, s) ← s.takeFreePosition
  s.insertAt v k i (← s.hashPosition gen k)

def forceLast (v : G) (k : Key K) : Option (SparseContainer G K) := do
  let s ← s.unsetFoundItem.searchPosition gen k
  if s.position ≠ noPosition then
    s.itemStoragePut v s.position
  else do
    let i := s.lastPosition + 1
    let (h, s) ← (if i ≥ s.capacity then do
        let s ← s.resize gen (newCapacity (i + 1))
        return (← s.hashPosition gen k, s)
      else
        some (s.slotsPosition, s) : Option (Int × SparseContainer G K))
    { s with lastPosition := i }.insertAt v k i h

def forceLastNew (v : G) (k : Key K) : Option (SparseContainer G K) := do
  let s := s.unsetFoundItem
  let i := s.lastPosition + 1
  let s ← (if i ≥ s.capacity then
      s.resize gen (newCapacity (i + 1))
    else
      some s)
  { s with lastPosition := i }.insertAt v k i (← s.hashPosition gen k)

end

end SparseContainer

/-! ### Sets -/

/-- A sparse set: its items are their own keys, and `key_storage` is the item
storage. -/
abbrev SparseSet (K : Type) := SparseContainer (Key K) K

namespace SparseSet

variable [DecidableEq K] (gen : SparseGenerics (Key K) K) (s : SparseSet K)
  (v : Key K)

def has : Option (Bool × SparseSet K) := SparseContainer.has gen s v

def search : Option (SparseSet K) := SparseContainer.search gen s v

def put : Option (SparseSet K) := SparseContainer.put gen s v v

def putNew : Option (SparseSet K) := SparseContainer.putNew gen s v v

end SparseSet

end Gobo
