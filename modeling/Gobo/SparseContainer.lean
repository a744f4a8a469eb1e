/-
The state of sparse containers (`DS_SPARSE_CONTAINER`) and the routines that
tables and sets share.  Items and keys are stored at positions; `slots` maps a
hash value to the first position of its bucket and `clashes` links each
position to the next one of the same bucket.  The free positions at or below
`last_position` are linked through `clashes` as well, below `Free_watermark`.
-/
import Gobo.Integer32
import Gobo.Special
import Gobo.Traversal

namespace Gobo

/-- A detachable key; `none` is Void. -/
abbrev Key (K : Type) := Option K

abbrev KeyTester (K : Type) := Key K → Key K → Bool

/-- What the generic parameters of a container supply.  `hashCode` is
`hash_function.hash_code`, or `hash_code` of the key itself when there is no
`hash_function`; a default is given for the types that have one. -/
structure SparseGenerics (G K : Type) where
  hashCode : K → Nat
  itemDefault : Option G
  keyDefault : Option (Key K)

/-- Tables store their keys apart; the keys of a set are its items. -/
inductive KeyStorage (G K : Type) where
  | separate (area : Special (Key K))
  | items (key : G → Key K)

/-- The four arrays of a container with their bounds. -/
structure SparseStorage (G K : Type) where
  capacity : Int
  modulus : Int
  itemStorage : Special G
  keyStorage : KeyStorage G K
  clashes : Special Int
  slots : Special Int
  count : Int
  lastPosition : Int
  freeSlot : Int

/-- A container with the positions remembered from the last searches and its
cursors. -/
structure SparseContainer (G K : Type) extends SparseStorage G K where
  position : Int
  slotsPosition : Int
  clashesPreviousPosition : Int
  foundPosition : Int
  keyEqualityTester : Option (KeyTester K)
  cursors : Traversal Int

def noPosition : Int := -1

def freeWatermark : Int := -2

def freeOffset : Int := -3

/-- Cursor positions before the first and after the last item. -/
def beforePosition : Int := -2

def afterPosition : Int := -3

def newCapacity (n : Int) : Int := int32 (2 * n)

def newModulus (aCapacity : Int) : Int := (int32 ((aCapacity + 1) * 3)).tdiv 2

variable {G K : Type}

namespace KeyStorage

/-- `make_key_storage` of a table allocates, that of a set does nothing; `this`
tells which of the two it is. -/
def make (this : KeyStorage G K) (n : Nat) : KeyStorage G K :=
  match this with
  | separate _ => separate (Special.makeEmpty n)
  | items key => items key

/-- The key at position `i`, given the items at the same positions. -/
def item (s : KeyStorage G K) (itemStorage : Special G) (i : Int) : Option (Key K) :=
  match s with
  | separate area => area.item i
  | items key => (itemStorage.item i).map key

def put (s : KeyStorage G K) (k : Key K) (i : Int) : Option (KeyStorage G K) :=
  match s with
  | separate area => (area.force k i).map separate
  | items key => some (items key)

def resize (s : KeyStorage G K) (n : Nat) : KeyStorage G K :=
  match s with
  | separate area => separate (area.aliasedResizedArea n)
  | items key => items key

def keepHead (s : KeyStorage G K) (n : Int) : Option (KeyStorage G K) :=
  match s with
  | separate area => (area.keepHead n).map separate
  | items key => some (items key)

end KeyStorage

namespace SparseStorage

section

variable (s : SparseStorage G K) (i : Int)

def itemStorageItem : Option G := s.itemStorage.item i

def keyStorageItem : Option (Key K) := s.keyStorage.item s.itemStorage i

def clashesItem : Option Int := s.clashes.item i

def slotsItem : Option Int := s.slots.item i

end

/-- `DS_HASH_TABLE.hash_position`, the same in `DS_HASH_SET`. -/
def hashPosition (gen : SparseGenerics G K) (s : SparseStorage G K) :
    Key K → Option Int
  | some k =>
      if s.modulus = 0 then none
      else some ((gen.hashCode k : Int).tmod s.modulus)
  | none => some s.modulus

end SparseStorage

namespace SparseContainer

/-! ### Storage -/

section

variable (s : SparseContainer G K)

def itemStoragePut (v : G) (i : Int) : Option (SparseContainer G K) := do
  return { s with itemStorage := ← s.itemStorage.force v i }

def itemStorageKeepHead (n : Int) : Option (SparseContainer G K) := do
  return { s with itemStorage := ← s.itemStorage.keepHead n }

def keyStoragePut (k : Key K) (i : Int) : Option (SparseContainer G K) := do
  return { s with keyStorage := ← s.keyStorage.put k i }

def keyStorageKeepHead (n : Int) : Option (SparseContainer G K) := do
  return { s with keyStorage := ← s.keyStorage.keepHead n }

def clashesPut (v : Int) (i : Int) : Option (SparseContainer G K) := do
  return { s with clashes := ← s.clashes.put v i }

def slotsPut (v : Int) (i : Int) : Option (SparseContainer G K) := do
  return { s with slots := ← s.slots.put v i }

end

/-- Put `No_position` at the first `n` indexes of `clashes`, from the last one
downwards. -/
def clashesClear (s : SparseContainer G K) : Nat → Option (SparseContainer G K)
  | 0 => some s
  | n + 1 => do (← s.clashesPut noPosition n).clashesClear n

def clashesWipeOut (s : SparseContainer G K) : Option (SparseContainer G K) :=
  s.clashesClear (s.lastPosition + 1).toNat

/-- Put `No_position` at the first `n` indexes of `slots`, from the last one
downwards. -/
def slotsClear (s : SparseContainer G K) : Nat → Option (SparseContainer G K)
  | 0 => some s
  | n + 1 => do (← s.slotsPut noPosition n).slotsClear n

def slotsWipeOut (s : SparseContainer G K) : Option (SparseContainer G K) :=
  s.slotsClear (s.modulus + 1).toNat

/-! ### Creation -/

/-- `make (n)`; `aTester` is the key equality tester and `storage` tells a
table from a set. -/
def make (storage : KeyStorage G K) (aTester : Option (KeyTester K)) (n : Nat) :
    SparseContainer G K where
  capacity := n
  modulus := newModulus n
  itemStorage := Special.makeEmpty n
  keyStorage := storage.make n
  clashes := Special.makeFilled noPosition n
  -- there are no slots if the modulus is negative
  slots := Special.makeFilled noPosition (newModulus n + 1).toNat
  count := 0
  lastPosition := noPosition
  freeSlot := noPosition
  position := noPosition
  slotsPosition := 0
  clashesPreviousPosition := 0
  foundPosition := noPosition
  keyEqualityTester := aTester
  cursors := Traversal.make beforePosition

/-! ### Status -/

def isFull (s : SparseContainer G K) : Prop := s.count = s.capacity

def found (s : SparseContainer G K) : Prop := s.foundPosition ≠ noPosition

def unsetFoundItem (s : SparseContainer G K) : SparseContainer G K :=
  { s with foundPosition := noPosition }

/-! ### Search -/

variable [DecidableEq K]

/-- The comparison of keys: `key_equality_tester` if attached, `=` otherwise. -/
def sameKeys (s : SparseContainer G K) (k l : Key K) : Bool :=
  match s.keyEqualityTester with
  | some tester => tester k l
  | none => decide (k = l)

/-- The locals of the search loop of `search_position`. -/
structure ClashSearch where
  i : Int
  position : Int
  prev : Int

/-- One turn of the search loop of `search_position`. -/
def searchClash (s : SparseContainer G K) (k : Key K) (l : ClashSearch) :
    Option ClashSearch := do
  if s.sameKeys k (← s.keyStorageItem l.i) then
    return { l with position := l.i, i := noPosition }
  else
    return { l with prev := l.i, i := ← s.clashesItem l.i }

/-- Follow the bucket starting at position `i` to a key equal to `k`.  A bucket
with more positions than `clashes` has never ends. -/
def searchClashes (s : SparseContainer G K) (k : Key K) (i : Int) :
    Option ClashSearch :=
  loopUntil (fun l => some (l.i == noPosition)) (s.searchClash k)
    (s.clashes.count + 2) ⟨i, noPosition, noPosition⟩

/-- May the position found last be kept for key `k`? -/
def isCached (s : SparseContainer G K) (k : Key K) : Option Bool :=
  if s.position = noPosition then
    some false
  else do
    if (← s.clashesItem s.position) ≤ freeWatermark then
      return false
    else
      return s.sameKeys k (← s.keyStorageItem s.position)

/-- Search for the position of key `k` from its bucket. -/
def searchBucket (gen : SparseGenerics G K) (s : SparseContainer G K)
    (k : Key K) : Option (SparseContainer G K) := do
  let h ← s.hashPosition gen k
  let l ← s.searchClashes k (← s.slotsItem h)
  return { s with
    position := l.position
    slotsPosition := h
    clashesPreviousPosition := l.prev }

def searchPosition (gen : SparseGenerics G K) (s : SparseContainer G K)
    (k : Key K) : Option (SparseContainer G K) :=
  match k with
  | none => do
      return { s with
        position := ← s.slotsItem s.modulus
        slotsPosition := s.modulus
        clashesPreviousPosition := noPosition }
  | some _ => do
      if ← s.isCached k then
        return s
      else
        s.searchBucket gen k

/-- The postcondition of `search_position` about `clashes_previous_position`:
the remembered predecessor, or the remembered slot, leads to `position`. -/
def PositionLinked (s : SparseContainer G K) : Prop :=
  if s.clashesPreviousPosition = noPosition then
    s.slotsItem s.slotsPosition = some s.position
  else
    s.clashesItem s.clashesPreviousPosition = some s.position

instance (s : SparseContainer G K) : Decidable s.PositionLinked := by
  unfold PositionLinked
  infer_instance

/-! ### Cursors -/

/-- The first occupied position at or after `i`, or the position after
`last_position`. -/
def nextPosition (s : SparseContainer G K) (i : Int) : Option Int := loopUntil
    (fun i => do
      if i > s.lastPosition then
        return true
      else
        return decide ((← s.clashesItem i) > freeWatermark))
    (fun i => some (i + 1))
    (s.clashes.count + 2) i

/-- The locals of `move_cursors_forth`; `i` is 0 as long as the next position
is not computed. -/
structure CursorMove where
  cursors : Traversal Int
  cursor : Option Nat
  previousCursor : Option Nat
  i : Int

/-- One turn of the loop of `move_cursors_forth`. -/
def moveCursorForth (s : SparseContainer G K) (oldPosition : Int)
    (m : CursorMove) : Option CursorMove := do
  let aCursor ← m.cursor
  let next := m.cursors.nextCursor aCursor
  if m.cursors.position aCursor = oldPosition then
    let i ← (if m.i = 0 then s.nextPosition (oldPosition + 1) else some m.i)
    if i > s.lastPosition then
      let cursors := m.cursors.setPosition aCursor afterPosition
      match m.previousCursor with
      | none => return ⟨cursors, next, some aCursor, i⟩
      | some previousCursor =>
          return ⟨(cursors.setNextCursor previousCursor next).setNextCursor
            aCursor none, next, m.previousCursor, i⟩
    else
      return ⟨m.cursors.setPosition aCursor i, next, m.previousCursor, i⟩
  else
    return ⟨m.cursors, next, some aCursor, m.i⟩

def moveCursorsForth (s : SparseContainer G K) (oldPosition : Int) :
    Option (SparseContainer G K) := do
  let m ← loopUntil (fun m => some m.cursor.isNone)
    (s.moveCursorForth oldPosition) (s.cursors.cursorCount + 1)
    ⟨s.cursors, some s.cursors.internalCursor, none, 0⟩
  return { s with cursors := m.cursors }

def moveAllCursors (s : SparseContainer G K) (oldPosition newPosition : Int) :
    Option (SparseContainer G K) := do
  let (cursors, _) ← loopUntil (fun m => some m.2.isNone)
    (fun m => m.2.map fun aCursor =>
      (if m.1.position aCursor = oldPosition then
        m.1.setPosition aCursor newPosition else m.1,
        m.1.nextCursor aCursor))
    (s.cursors.cursorCount + 1) (s.cursors, some s.cursors.internalCursor)
  return { s with cursors }

def moveAllCursorsAfter (s : SparseContainer G K) : Option (SparseContainer G K) := do
  let (cursors, _) ← loopUntil (fun m => some m.2.isNone)
    (fun m => m.2.map fun aCursor =>
      ((m.1.setPosition aCursor afterPosition).setNextCursor aCursor none,
        m.1.nextCursor aCursor))
    (s.cursors.cursorCount + 1) (s.cursors, some s.cursors.internalCursor)
  return { s with cursors }

/-! ### Removal -/

/-- Put the default item and the default key at position `i`, where the types
have one. -/
def putDefaults (gen : SparseGenerics G K) (s : SparseContainer G K) (i : Int) :
    Option (SparseContainer G K) := do
  let s ← gen.itemDefault.elim (some s) fun v => s.itemStoragePut v i
  gen.keyDefault.elim (some s) fun k => s.keyStoragePut k i

/-- Take position `position` out of its bucket. -/
def unlinkBucket (s : SparseContainer G K) : Option (SparseContainer G K) := do
  let next ← s.clashesItem s.position
  if s.clashesPreviousPosition = noPosition then
    s.slotsPut next s.slotsPosition
  else
    s.clashesPut next s.clashesPreviousPosition

section

variable (gen : SparseGenerics G K) (s : SparseContainer G K)

/-- Give position `position` back: to the positions after `last_position` if it
is the last one and no position is free, to the free list otherwise. -/
def releasePosition : Option (SparseContainer G K) := do
  if s.freeSlot = noPosition ∧ s.position = s.lastPosition then do
    let s ← s.itemStorageKeepHead s.position
    let s ← s.keyStorageKeepHead s.position
    let s ← s.clashesPut noPosition s.position
    return { s with position := noPosition, lastPosition := s.lastPosition - 1 }
  else do
    let s ← s.putDefaults gen s.position
    let s ← s.clashesPut (freeOffset - s.freeSlot) s.position
    return { s with freeSlot := s.position }

/-- Set `position`, `slots_position` and `clashes_previous_position` for the
occupied position `i`, unless `position` is `i` already. -/
def locatePosition (i : Int) : Option (SparseContainer G K) :=
  if i ≠ s.position then do
    let k ← s.keyStorageItem i
    let h ← s.hashPosition gen k
    if (← s.slotsItem h) = i then
      return { s with
        position := i
        slotsPosition := h
        clashesPreviousPosition := noPosition }
    else do
      let found ← { s with keyEqualityTester := none }.searchPosition gen k
      return { found with keyEqualityTester := s.keyEqualityTester }
  else
    some s

def removePosition (i : Int) : Option (SparseContainer G K) := do
  let s ← s.locatePosition gen i
  let s ← s.moveCursorsForth s.position
  let s ← s.unlinkBucket
  let s ← s.releasePosition gen
  return { s with count := s.count - 1 }

def remove (k : Key K) : Option (SparseContainer G K) := do
  let s ← s.unsetFoundItem.searchPosition gen k
  if s.position ≠ noPosition then
    s.removePosition gen s.position
  else
    return s

def removeFoundItem : Option (SparseContainer G K) := do
  return (← s.removePosition gen s.foundPosition).unsetFoundItem

end

def wipeOut (s : SparseContainer G K) : Option (SparseContainer G K) := do
  let s := (← s.moveAllCursorsAfter).unsetFoundItem
  let s ←
    if s.count > 0 then do
      let s ← s.itemStorageKeepHead 0
      let s ← s.keyStorageKeepHead 0
      let s ← s.clashesWipeOut
      let s ← s.slotsWipeOut
      pure { s with lastPosition := noPosition, freeSlot := noPosition, count := 0 }
    else
      pure s
  return { s with position := noPosition }

/-! ### Resizing and optimization -/

/-- Put position `i` in front of the bucket of its key. -/
def linkPosition (gen : SparseGenerics G K) (s : SparseContainer G K)
    (i : Nat) : Option (SparseContainer G K) := do
  let h ← s.hashPosition gen (← s.keyStorageItem i)
  let s ← s.clashesPut (← s.slotsItem h) i
  s.slotsPut i h

/-- Link the occupied ones of the first `n` positions, from the last one
downwards. -/
def relinkDown (gen : SparseGenerics G K) (s : SparseContainer G K) :
    Nat → Option (SparseContainer G K)
  | 0 => some s
  | n + 1 => do
      if (← s.clashesItem n) > freeWatermark then
        (← s.linkPosition gen n).relinkDown gen n
      else
        s.relinkDown gen n

/-- `resize (n)`; no area is shortened. -/
def resize (gen : SparseGenerics G K) (s : SparseContainer G K) (n : Int) :
    Option (SparseContainer G K) := do
  let s := s.unsetFoundItem
  let m := newModulus n
  let s := { s with
    slots := s.slots.aliasedResizedAreaWithDefault noPosition (m + 1).toNat }
  let s ← s.slotsWipeOut
  let s := { s with modulus := m }
  let s ← s.relinkDown gen (s.lastPosition + 1).toNat
  return { s with
    itemStorage := s.itemStorage.aliasedResizedArea n.toNat
    keyStorage := s.keyStorage.resize n.toNat
    clashes := s.clashes.aliasedResizedAreaWithDefault noPosition n.toNat
    capacity := n
    position := noPosition }

/-- Move the item at position `i`, its key and its cursors to position `j`. -/
def moveItem (s : SparseContainer G K) (i j : Nat) :
    Option (SparseContainer G K) := do
  let s ← s.itemStoragePut (← s.itemStorageItem i) j
  let s ← s.keyStoragePut (← s.keyStorageItem i) j
  let s ← s.clashesPut noPosition j
  s.moveAllCursors i j

/-- Move what is at the occupied positions `i`, `i + 1`, ... (`n` positions are
left to look at) down to the positions `j`, `j + 1`, ... -/
def moveDown (s : SparseContainer G K) :
    Nat → Nat → Nat → Option (SparseContainer G K)
  | 0, _, _ => some s
  | n + 1, i, j => do
      if (← s.clashesItem i) > freeWatermark then
        (← (if j ≠ i then s.moveItem i j else some s)).moveDown n (i + 1) (j + 1)
      else
        s.moveDown n (i + 1) j

/-- Link the `n` positions from `i` on upwards. -/
def relinkUp (gen : SparseGenerics G K) (s : SparseContainer G K) :
    Nat → Nat → Option (SparseContainer G K)
  | 0, _ => some s
  | n + 1, i => do (← s.linkPosition gen i).relinkUp gen n (i + 1)

def compress (gen : SparseGenerics G K) (s : SparseContainer G K) :
    Option (SparseContainer G K) := do
  if s.lastPosition ≠ s.count - 1 then do
    let s := s.unsetFoundItem
    let s ← s.moveDown (s.lastPosition + 1).toNat 0 0
    let s ← s.itemStorageKeepHead s.count
    let s ← s.keyStorageKeepHead s.count
    let s ← s.clashesWipeOut
    let s ← s.slotsWipeOut
    let s ← s.relinkUp gen s.count.toNat 0
    return { s with lastPosition := s.count - 1, position := noPosition }
  else
    return s

end SparseContainer

end Gobo
