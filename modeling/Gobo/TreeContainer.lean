/-
The state of binary search trees (`DS_BINARY_SEARCH_TREE_CONTAINER`) and the
routines that all variants share.  The fields of the node objects are kept in
maps: what links them together is apart from their keys and items, because
balancing a tree only changes the former.
-/
import Gobo.SortedMap
import Gobo.Traversal
import Gobo.TreeRotation

namespace Gobo

/-- Where a cursor is: `position` is Void `before` the first and `after` the
last item. -/
inductive TreePosition where
  | before
  | after
  | on (i : Nat)
  deriving DecidableEq

namespace TreePosition

def position : TreePosition → Option Nat
  | on i => some i
  | _ => none

def isBefore : TreePosition → Bool
  | before => true
  | _ => false

def isAfter : TreePosition → Bool
  | after => true
  | _ => false

def off (c : TreePosition) : Bool := c.isAfter || c.isBefore

/-- `set_before`. -/
def away (isBefore : Bool) : TreePosition :=
  if isBefore then before else after

end TreePosition

/-- A container with its nodes and its cursors.  A key is detachable: `none` is
Void.  Only left-leaning trees use `notFoundNode`. -/
structure TreeContainer (G K M : Type) extends LinkedTree M where
  key : Nat → Option K
  item : Nat → G
  firstNode : Option Nat
  lastNode : Option Nat
  foundNode : Option Nat
  notFoundNode : Option Nat
  count : Int
  exactInsertPositionFound : Bool
  insertPositionIsLeft : Bool
  cursors : Traversal TreePosition

/-- What the generic parameters of a container supply.  The key of a set node
is its item, so `set_item` changes it; for a table `keyOfItem` is `none`. -/
structure TreeGenerics (G K : Type) where
  keyComparator : Comparator K
  keyOfItem : Option (G → Option K)

/-- The routines that a descendant of `DS_BINARY_SEARCH_TREE_CONTAINER`
effects or redefines, and the mark of a new node. -/
structure TreeVariant (G K M : Type) where
  newMark : M
  onNodeAdded : LinkedTree M → Nat → Option (LinkedTree M)
  onRootNodeRemoved : LinkedTree M → Option (LinkedTree M)
  onNodeRemoved : LinkedTree M → Nat → Nat → Bool → Option (LinkedTree M)
  searchNodeForRemoval : TreeGenerics G K → TreeContainer G K M → Option K →
    Option (TreeContainer G K M)
  successorForRemoval : LinkedTree M → Nat → Option (LinkedTree M × Nat)
  onNodeForRemovalNotFound : TreeContainer G K M → Option (TreeContainer G K M)

variable {G K M : Type}

namespace LinkedTree

/-! ### Walking -/

/-- The last node on the way down on one side. -/
def outermost (isLeft : Bool) (t : LinkedTree M) (start : Nat) : Option Nat :=
  loopUntil (fun n => some (t.child isLeft n).isNone) (fun n => t.child isLeft n)
    (t.created + 1) start

/-- The first ancestor that is reached from the given side, if any. -/
def climb (isLeft : Bool) (t : LinkedTree M) (start : Nat) : Option (Option Nat) := do
  let n ← loopUntil
    (fun n => some ((t.parent n).elim true fun p => t.child isLeft p == some n))
    (fun n => t.parent n) (t.created + 1) start
  return (t.parent n).filter fun p => t.child isLeft p == some n

/-- The node next to `v` in in-order: the next one for the right side, the
previous one for the left side. -/
def neighbour (isLeft : Bool) (t : LinkedTree M) (v : Nat) : Option (Option Nat) :=
  match t.child isLeft v with
  | some c => (t.outermost (!isLeft) c).map some
  | none =>
      match t.parent v with
      | none => some none
      | some p =>
          if t.child isLeft p = some v then t.climb (!isLeft) p else some (some p)

def successor (t : LinkedTree M) (v : Nat) : Option (Option Nat) :=
  t.neighbour false v

def predecessor (t : LinkedTree M) (v : Nat) : Option (Option Nat) :=
  t.neighbour true v

def successorForCursor (t : LinkedTree M) (v : Nat) : Option (Option Nat) :=
  t.neighbour false v

def predecessorForCursor (t : LinkedTree M) (v : Nat) : Option (Option Nat) :=
  t.neighbour true v

end LinkedTree

namespace TreeContainer

/-- An empty container; no object is in use. -/
def make [Inhabited G] [Inhabited M] : TreeContainer G K M where
  created := 0
  links := fun _ => ⟨none, none, none, default⟩
  rootNode := none
  key := fun _ => none
  item := fun _ => default
  firstNode := none
  lastNode := none
  foundNode := none
  notFoundNode := none
  count := 0
  exactInsertPositionFound := false
  insertPositionIsLeft := false
  cursors := Traversal.make (TreePosition.away true)

def isEmpty (s : TreeContainer G K M) : Bool := s.count = 0

def setTree (s : TreeContainer G K M) (t : LinkedTree M) : TreeContainer G K M :=
  { s with toLinkedTree := t }

/-- `set_item` of a node. -/
def setItem (gen : TreeGenerics G K) (s : TreeContainer G K M) (i : Nat) (v : G) :
    TreeContainer G K M :=
  { s with
    item := Function.update s.item i v
    key := gen.keyOfItem.elim s.key fun f => Function.update s.key i (f v) }

/-- `new_tree_node`. -/
def newTreeNode (V : TreeVariant G K M) (s : TreeContainer G K M) (v : G)
    (k : Option K) : TreeContainer G K M :=
  { s.setTree (s.newNode V.newMark) with
    key := Function.update s.key s.created k
    item := Function.update s.item s.created v }

def copyItemAndKeyTo (s : TreeContainer G K M) (i other : Nat) :
    TreeContainer G K M :=
  { s with
    key := Function.update s.key other (s.key i)
    item := Function.update s.item other (s.item i) }

def unsetFoundNode (s : TreeContainer G K M) : TreeContainer G K M :=
  { s with foundNode := none }

/-! ### Search -/

/-- The locals of the loop in `search_node`. -/
structure NodeSearch where
  foundNode : Option Nat
  equality : Bool

section

variable (gen : TreeGenerics G K) (s : TreeContainer G K M)

/-- One turn of the loop in `search_node`. -/
def searchNodeStep (k : K) (n : NodeSearch) : Option NodeSearch := do
  let found ← n.foundNode
  match s.key found with
  | none => return ⟨s.rightChild found, false⟩
  | some foundKey =>
      if gen.keyComparator.lessThan k foundKey then
        return ⟨s.leftChild found, false⟩
      else if gen.keyComparator.lessThan foundKey k then
        return ⟨s.rightChild found, false⟩
      else
        return ⟨some found, true⟩

/-- Is the answer already known from the last search? -/
def isFound (k : K) : Bool :=
  (s.foundNode.bind s.key).any fun foundKey => gen.keyComparator.equal k foundKey

def searchNode (k : Option K) : Option (TreeContainer G K M) :=
  match k with
  | none =>
      some { s with foundNode := s.firstNode.filter fun f => (s.key f).isNone }
  | some k =>
      if s.isFound gen k then some s
      else do
        let n ← loopUntil (fun n => some (n.foundNode.isNone || n.equality))
          (s.searchNodeStep gen k) (s.created + 2) ⟨s.rootNode, false⟩
        return { s with foundNode := n.foundNode }

end

/-- The locals of the loop in `search_insert_position`, with the attributes it
sets. -/
structure InsertSearch where
  node : Nat
  stop : Bool
  exactInsertPositionFound : Bool
  insertPositionIsLeft : Bool

/-- Go down on one side, or stop where there is no child. -/
def InsertSearch.descend (isLeft : Bool) (s : TreeContainer G K M) (n : InsertSearch) :
    InsertSearch :=
  match s.child isLeft n.node with
  | some c => { n with node := c }
  | none => { n with insertPositionIsLeft := isLeft, stop := true }

section

variable (gen : TreeGenerics G K) (s : TreeContainer G K M)

/-- One turn of the loop in `search_insert_position`. -/
def searchInsertStep (k : K) (n : InsertSearch) : InsertSearch :=
  match s.key n.node with
  | none => n.descend false s
  | some nodeKey =>
      if gen.keyComparator.lessThan k nodeKey then n.descend true s
      else if gen.keyComparator.lessThan nodeKey k then n.descend false s
      else { n with exactInsertPositionFound := true, stop := true }

def searchInsertPosition (k : Option K) : Option (TreeContainer G K M) :=
  match k with
  | none => do
      let f ← s.firstNode
      return { s with
        foundNode := some f
        exactInsertPositionFound := (s.key f).isNone
        insertPositionIsLeft :=
          if (s.key f).isNone then s.insertPositionIsLeft else true }
  | some k => do
      let root ← s.rootNode
      let n ← loopUntil (fun n => some n.stop)
        (fun n => some (s.searchInsertStep gen k n)) (s.created + 2)
        ⟨root, false, false, s.insertPositionIsLeft⟩
      return { s with
        foundNode := some n.node
        exactInsertPositionFound := n.exactInsertPositionFound
        insertPositionIsLeft := n.insertPositionIsLeft }

def hasKey (k : Option K) : Option (Bool × TreeContainer G K M) :=
  if s.rootNode = none then some (false, s)
  else do
    let s ← s.searchNode gen k
    return (s.foundNode.isSome, s)

end

/-! ### Cursors -/

def cursorPosition (s : TreeContainer G K M) (c : Nat) : TreePosition :=
  s.cursors.position c

def newCursor (s : TreeContainer G K M) : TreeContainer G K M :=
  { s with cursors := (s.cursors.newCursor (TreePosition.away true)).1 }

def setPosition (s : TreeContainer G K M) (c i : Nat) : TreeContainer G K M :=
  { s with cursors := s.cursors.setPosition c (TreePosition.on i) }

def setBefore (s : TreeContainer G K M) (c : Nat) (before : Bool) :
    TreeContainer G K M :=
  { s with cursors := s.cursors.setPosition c (TreePosition.away before) }

def addTraversingCursor (s : TreeContainer G K M) (c : Nat) : TreeContainer G K M :=
  { s with cursors := s.cursors.addTraversingCursor c }

def removeTraversingCursor (s : TreeContainer G K M) (c : Nat) :
    Option (TreeContainer G K M) := do
  return { s with cursors := ← s.cursors.removeTraversingCursor c }

/-- `cursor_go_after` and `cursor_go_before`. -/
def cursorGoAway (before : Bool) (s : TreeContainer G K M) (c : Nat) :
    Option (TreeContainer G K M) :=
  let wasOff := (s.cursorPosition c).off
  let s := s.setBefore c before
  if !wasOff then s.removeTraversingCursor c else some s

section

variable (s : TreeContainer G K M)

def cursorGoAfter (c : Nat) : Option (TreeContainer G K M) := s.cursorGoAway false c

def cursorGoBefore (c : Nat) : Option (TreeContainer G K M) := s.cursorGoAway true c

/-- Moves a cursor to a node and registers it if it was `off`. -/
def cursorGoOn (c i : Nat) : TreeContainer G K M :=
  let wasOff := (s.cursorPosition c).off
  let s := s.setPosition c i
  if wasOff then s.addTraversingCursor c else s

def cursorStart (c : Nat) : Option (TreeContainer G K M) :=
  match s.firstNode with
  | some f => some (s.cursorGoOn c f)
  | none => s.cursorGoAfter c

def cursorFinish (c : Nat) : Option (TreeContainer G K M) :=
  match s.lastNode with
  | some l => some (s.cursorGoOn c l)
  | none => s.cursorGoBefore c

def cursorGoTo (c other : Nat) : Option (TreeContainer G K M) :=
  match (s.cursorPosition other).position with
  | none =>
      let wasOff := (s.cursorPosition c).off
      let s := s.setBefore c (s.cursorPosition other).isBefore
      if !wasOff then s.removeTraversingCursor c else some s
  | some i => some (s.cursorGoOn c i)

end

/-- Moves a cursor to the new position or, when there is none, away; registers
and unregisters it as `l_has_cursor` and `l_add_cursor` say. -/
def cursorMove (before : Bool) (s : TreeContainer G K M) (c : Nat)
    (hasCursor addCursor : Bool) (position : Option Nat) :
    Option (TreeContainer G K M) :=
  let moved := position.elim (s.setBefore c before) fun i => s.setPosition c i
  let addCursor := addCursor && position.isSome
  if hasCursor && !addCursor then moved.removeTraversingCursor c
  else if !hasCursor && addCursor then some (moved.addTraversingCursor c)
  else some moved

def cursorForth (s : TreeContainer G K M) (c : Nat) : Option (TreeContainer G K M) :=
  match (s.cursorPosition c).position with
  | none => s.cursorMove false c false true s.firstNode
  | some i => do s.cursorMove false c true true (← s.successorForCursor i)

/-- Unlike `cursor_forth`, `l_add_cursor` is only set when the cursor was
`off`. -/
def cursorBack (s : TreeContainer G K M) (c : Nat) : Option (TreeContainer G K M) :=
  match (s.cursorPosition c).position with
  | none => s.cursorMove true c false true s.lastNode
  | some i => do s.cursorMove true c true false (← s.predecessorForCursor i)

section

variable (gen : TreeGenerics G K) (s : TreeContainer G K M)

/-- The tests after `search_insert_position`: is the node found on the wrong
side of the key? -/
def isBeyond (k : K) (i : Nat) : Bool :=
  (s.key i).all fun nodeKey => gen.keyComparator.lessThan k nodeKey

def isShort (k : K) (i : Nat) : Bool :=
  (s.key i).all fun nodeKey => gen.keyComparator.lessThan nodeKey k

def cursorGoAtOrBeforeKey (c : Nat) (k : Option K) : Option (TreeContainer G K M) :=
  let wasOff := (s.cursorPosition c).off
  if s.isEmpty then some (s.setBefore c true)
  else
    match k with
    | none =>
        let s := s.setBefore c true
        if !wasOff then s.removeTraversingCursor c else some s
    | some k => do
        let s ← s.searchInsertPosition gen (some k)
        let i ← s.foundNode
        let moved := s.setPosition c i
        if s.isBeyond gen k i then moved.cursorBack c else some moved

def cursorGoAtOrAfterKey (c : Nat) (k : Option K) : Option (TreeContainer G K M) :=
  if s.isEmpty then some (s.setBefore c false)
  else
    match k with
    | none => s.firstNode.map fun f => s.setPosition c f
    | some k => do
        let s ← s.searchInsertPosition gen (some k)
        let i ← s.foundNode
        let moved := s.setPosition c i
        if s.isShort gen k i then moved.cursorForth c else some moved

end

/-- The locals of the loop in `move_cursors_after`. -/
structure CursorsAfter (G K M : Type) where
  container : TreeContainer G K M
  previousCursor : Nat
  cursor : Option Nat

/-- One turn of the loop in `move_cursors_after`. -/
def moveCursorAfter (lastPosition : Nat) (m : CursorsAfter G K M) :
    Option (CursorsAfter G K M) := do
  let c ← m.cursor
  if (m.container.cursorPosition c).position = some lastPosition then
    let s ← m.container.cursorGoAfter c
    return ⟨s, m.previousCursor, s.cursors.nextCursor m.previousCursor⟩
  else
    return ⟨m.container, c, m.container.cursors.nextCursor c⟩

def moveCursorsAfter (s : TreeContainer G K M) (lastPosition : Nat) :
    Option (TreeContainer G K M) := do
  let internal := s.cursors.internalCursor
  let s ← (if (s.cursorPosition internal).position = some lastPosition then
    s.cursorGoAfter internal else some s : Option _)
  let m ← loopUntil (fun m => some m.cursor.isNone) (moveCursorAfter lastPosition)
    (s.cursors.cursorCount + 1) ⟨s, internal, s.cursors.nextCursor internal⟩
  return m.container

def moveAllCursors (s : TreeContainer G K M) (oldNode newNode : Nat) :
    Option (TreeContainer G K M) := do
  let (cursors, _) ← loopUntil (fun m => some m.2.isNone) (fun m => m.2.map fun c =>
      (if (m.1.position c).position = some oldNode then
        m.1.setPosition c (TreePosition.on newNode) else m.1,
        m.1.nextCursor c))
    (s.cursors.cursorCount + 1) (s.cursors, some s.cursors.internalCursor)
  return { s with cursors }

def moveAllCursorsAfter (s : TreeContainer G K M) : Option (TreeContainer G K M) := do
  let internal := s.cursors.internalCursor
  let s ← (if !(s.cursorPosition internal).off then s.cursorGoAfter internal
    else some s : Option _)
  loopUntil (fun s => some (s.cursors.nextCursor internal).isNone)
    (fun s => (s.cursors.nextCursor internal).bind fun c => s.cursorGoAfter c)
    (s.cursors.cursorCount + 1) s

/-! ### Element change -/

/-- Hangs a new node below `l_node`; `first_node` or `last_node` follows. -/
def addChild (isLeft : Bool) (s : TreeContainer G K M) (node new : Nat) :
    TreeContainer G K M :=
  let s := s.setTree (s.setChild isLeft node (some new))
  if isLeft then
    if some node = s.firstNode then { s with firstNode := some new } else s
  else
    if some node = s.lastNode then { s with lastNode := some new } else s

def internalPut (gen : TreeGenerics G K) (V : TreeVariant G K M)
    (s : TreeContainer G K M) (v : G) (k : Option K) :
    Option (TreeContainer G K M) := do
  if s.rootNode = none then
    let new := s.created
    let s := s.newTreeNode V v k
    let s := { s with
      rootNode := some new
      firstNode := some new
      lastNode := some new
      count := 1 }
    return s.setTree (← V.onNodeAdded s.toLinkedTree new)
  else
    let s ← s.searchInsertPosition gen k
    let node ← s.foundNode
    if s.exactInsertPositionFound then
      return s.setItem gen node v
    else
      let new := s.created
      let s := (s.newTreeNode V v k).addChild s.insertPositionIsLeft node new
      let s := { s with count := s.count + 1 }
      return s.setTree (← V.onNodeAdded s.toLinkedTree new)

def internalPutNew (gen : TreeGenerics G K) (V : TreeVariant G K M)
    (s : TreeContainer G K M) (v : G) (k : Option K) :
    Option (TreeContainer G K M) := do
  let new := s.created
  let s := s.newTreeNode V v k
  let s ← (if s.rootNode = none then
    some { s with
      rootNode := some new
      firstNode := some new
      lastNode := some new }
  else do
    let s ← s.searchInsertPosition gen k
    let node ← s.foundNode
    return s.addChild s.insertPositionIsLeft node new : Option _)
  let s := { s with count := s.count + 1 }
  return s.setTree (← V.onNodeAdded s.toLinkedTree new)

/-! ### Removal -/

section

variable (V : TreeVariant G K M) (s : TreeContainer G K M)

def removeSuccessorNode (successor : Nat) : Option (TreeContainer G K M) := do
  let parent ← s.parent successor
  let child := s.rightChild successor
  let s := s.setTree (s.setRightChild successor none)
  if s.leftChild parent = some successor then
    let s := s.setTree (s.setLeftChild parent child)
    return s.setTree (← V.onNodeRemoved s.toLinkedTree successor parent true)
  else
    let s := if some successor = s.lastNode then { s with lastNode := some parent } else s
    let s := s.setTree (s.setRightChild parent child)
    return s.setTree (← V.onNodeRemoved s.toLinkedTree successor parent false)

/-- The result is the successor of the node removed. -/
def removeChildlessNode (aNode : Nat) : Option (TreeContainer G K M × Option Nat) := do
  match s.parent aNode with
  | none =>
      return ({ s with rootNode := none, firstNode := none, lastNode := none }, none)
  | some parent =>
      if s.leftChild parent = some aNode then
        let result ← (if some aNode = s.firstNode then some (some parent)
          else s.successor aNode : Option _)
        let s := if some aNode = s.firstNode then { s with firstNode := some parent }
          else s
        let s := s.setTree (s.setLeftChild parent none)
        return (s.setTree (← V.onNodeRemoved s.toLinkedTree aNode parent true), result)
      else
        let result ← (if some aNode = s.lastNode then some none
          else s.successor aNode : Option _)
        let s := if some aNode = s.lastNode then { s with lastNode := some parent }
          else s
        let s := s.setTree (s.setRightChild parent none)
        return (s.setTree (← V.onNodeRemoved s.toLinkedTree aNode parent false), result)

/-- The result is the successor of the node removed. -/
def removeNodeWithLeftChild (aNode : Nat) : Option (TreeContainer G K M × Option Nat) := do
  let result ← (if some aNode = s.lastNode then some none
    else s.successor aNode : Option _)
  let lastNode ← (if some aNode = s.lastNode then s.predecessor aNode
    else some s.lastNode : Option _)
  let s := { s with lastNode }
  let child := s.leftChild aNode
  let s := s.setTree (s.setLeftChild aNode none)
  match s.parent aNode with
  | none =>
      let s := { s with rootNode := child }
      return (s.setTree (← V.onRootNodeRemoved s.toLinkedTree), result)
  | some parent =>
      if s.leftChild parent = some aNode then
        let s := s.setTree (s.setLeftChild parent child)
        return (s.setTree (← V.onNodeRemoved s.toLinkedTree aNode parent true), result)
      else
        let s := s.setTree (s.setRightChild parent child)
        return (s.setTree (← V.onNodeRemoved s.toLinkedTree aNode parent false), result)

/-- Takes a node out of the tree; the result is the old and the new position
of the cursors on it. -/
def unlinkNode (aNode : Nat) : Option (TreeContainer G K M × Nat × Option Nat) := do
  if s.rightChild aNode = none then
    let (s, new) ← (if s.leftChild aNode = none then s.removeChildlessNode V aNode
      else s.removeNodeWithLeftChild V aNode : Option _)
    return (s, aNode, new)
  else
    let (t, successor) ← V.successorForRemoval s.toLinkedTree aNode
    let s := (s.setTree t).copyItemAndKeyTo successor aNode
    return (← s.removeSuccessorNode V successor, successor, some aNode)

def removeNode (aNode : Nat) : Option (TreeContainer G K M) := do
  let s ← (if s.count = 1 then s.moveAllCursorsAfter else some s : Option _)
  let s := { s with count := s.count - 1 }
  let (s, oldPosition, newPosition) ← s.unlinkNode V aNode
  if s.count ≠ 0 then
    match newPosition with
    | some newPosition => s.moveAllCursors oldPosition newPosition
    | none => s.moveCursorsAfter oldPosition
  else
    return s

end

def remove (gen : TreeGenerics G K) (V : TreeVariant G K M) (s : TreeContainer G K M)
    (k : Option K) : Option (TreeContainer G K M) := do
  let s ← V.searchNodeForRemoval gen s k
  let s ← (match s.foundNode with
    | some aNode => s.removeNode V aNode
    | none => V.onNodeForRemovalNotFound s : Option _)
  return s.unsetFoundNode

end TreeContainer

/-- The class's own `search_node_for_removal` is `search_node`, its
`successor_for_removal` leaves the tree alone, and nothing is done for a key
that is not found. -/
def TreeVariant.make (newMark : M)
    (onNodeAdded : LinkedTree M → Nat → Option (LinkedTree M))
    (onRootNodeRemoved : LinkedTree M → Option (LinkedTree M))
    (onNodeRemoved : LinkedTree M → Nat → Nat → Bool → Option (LinkedTree M)) :
    TreeVariant G K M where
  newMark := newMark
  onNodeAdded := onNodeAdded
  onRootNodeRemoved := onRootNodeRemoved
  onNodeRemoved := onNodeRemoved
  searchNodeForRemoval := fun gen s k => s.searchNode gen k
  successorForRemoval := fun t v => do
    return (t, ← t.outermost true (← t.rightChild v))
  onNodeForRemovalNotFound := some

end Gobo
