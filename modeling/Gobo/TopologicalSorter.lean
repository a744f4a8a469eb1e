/-
Topological sorters (`DS_TOPOLOGICAL_SORTER`): the relations are recorded in lists of
successors and in counts of predecessors, both by index, and the counts become the links
of a queue during a sort.
-/
import Gobo.LinkChain
import Gobo.ListEdits
import Gobo.Loop

namespace Gobo

/-- The cells `DS_LINKABLE` that have been created. -/
structure Linkables where
  created : Nat
  item : Nat → Int
  right : Nat → Option Nat

namespace Linkables

def putItem (h : Linkables) (v : Int) (c : Nat) : Linkables :=
  { h with item := Function.update h.item c v }

/-- `put_right`, or `forget_right` without a cell. -/
def putRight (h : Linkables) (right : Option Nat) (c : Nat) : Linkables :=
  { h with right := Function.update h.right c right }

/-- `create c.make (v)`, with its right cell. -/
def make (h : Linkables) (v : Int) (right : Option Nat) : Linkables :=
  ⟨h.created + 1, Function.update h.item h.created v, Function.update h.right h.created right⟩

end Linkables

/-- `DS_TOPOLOGICAL_SORTER`; the lists `items`, `counts` and `successors` have the same
capacity. -/
structure TopologicalSorter (G : Type) where
  capacity : Nat
  items : List G
  counts : List Int
  successors : List (Option Nat)
  cells : Linkables
  sortedItems : Option (List G)
  cycle : Option (List G)

namespace TopologicalSorter

variable {G : Type}

/-- `make`. -/
def make (nb : Nat) : TopologicalSorter G :=
  ⟨nb, [], [], [], ⟨0, fun _ => 0, fun _ => none⟩, none, none⟩

section

variable (s : TopologicalSorter G)

def count : Nat := s.items.length

/-- `put`. -/
def put (v : G) : TopologicalSorter G :=
  { s with
    items := s.items ++ [v]
    counts := s.counts ++ [0]
    successors := s.successors ++ [none] }

/-- `force`. -/
def force (v : G) : TopologicalSorter G :=
  if s.capacity ≤ s.count then put { s with capacity := s.count + 10 } v else s.put v

/-- `reset`. -/
def reset : TopologicalSorter G :=
  { s with sortedItems := none, cycle := none }

/-- `wipe_out`. -/
def wipeOut : TopologicalSorter G :=
  { s.reset with items := [], counts := [], successors := [] }

/-- `put_indexed_relation`. -/
def putIndexedRelation (i j : Int) : Option (TopologicalSorter G) := do
  let n ← itemAt s.counts j
  let counts ← replaceAt s.counts (n + 1) j
  let succ2 ← itemAt s.successors i
  let successors ← replaceAt s.successors (some s.cells.created) i
  some { s.reset with counts := counts, successors := successors, cells := s.cells.make j succ2 }

end

section

variable [DecidableEq G]

/-- `index_of`. -/
def indexOf (s : TopologicalSorter G) (v : G) : Int := s.items.idxOf v + 1

/-- `put_relation`. -/
def putRelation (s : TopologicalSorter G) (u v : G) : Option (TopologicalSorter G) :=
  s.putIndexedRelation (s.indexOf u) (s.indexOf v)

/-- `force_relation`. -/
def forceRelation (s : TopologicalSorter G) (u v : G) : Option (TopologicalSorter G) :=
  let iu := s.indexOf u
  let s := if iu = s.count + 1 then s.force u else s
  let iv := s.indexOf v
  let s := if iv = s.count + 1 then s.force v else s
  s.putIndexedRelation iu iv

end

/-- The data of the loops of `remove` over a list of successors: `s2` is the cell before the
current one. -/
structure Splicing where
  counts : List Int
  successors : List (Option Nat)
  cells : Linkables
  s2 : Option Nat

/-- Unlink the cell `s1` of the removed item. -/
def unlinkSuccessor (capacity : Nat) (i : Int) (s1 : Nat) (m : Splicing) : Option Splicing :=
  match m.s2 with
  | none => (putAt capacity m.successors (m.cells.right s1) i).map fun successors =>
      { m with successors := successors }
  | some s2 => some { m with cells := m.cells.putRight (m.cells.right s1) s2 }

/-- Link a new cell with the index `j` after `s2`. -/
def linkSuccessor (capacity : Nat) (i : Int) (s1 : Nat) (j : Int) (m : Splicing) :
    Option Splicing :=
  let s4 := m.cells.created
  match m.s2 with
  | none => (putAt capacity m.successors (some s4) i).map fun successors =>
      { m with
        successors := successors
        cells := m.cells.make j (m.cells.right s1)
        s2 := some s4 }
  | some s2 => some
      { m with
        cells := (m.cells.make j (m.cells.right s2)).putRight (some s4) s2
        s2 := some s4 }

/-- The index of an item after the removal of the one at `k`. -/
def renumber (k j : Int) : Int := if k < j then j - 1 else j

/-- A turn of the loop over the successors `old_s` of the removed item. -/
def insertSuccessor (capacity : Nat) (k i : Int) (s1 : Nat) (s3 : Nat) (m : Splicing) :
    Option Splicing :=
  let j := m.cells.item s3
  if j = k then some m
  else do
    let m ← linkSuccessor capacity i s1 (renumber k j) m
    let n ← itemAt m.counts (renumber k j)
    let counts ← replaceAt m.counts (n + 1) (renumber k j)
    some { m with counts := counts }

/-- A turn of the loop over the successors of the item at `i`. -/
def spliceSuccessor (capacity : Nat) (k : Int) (oldS : Option Nat) (i : Int) (s1 : Nat)
    (m : Splicing) : Option Splicing :=
  if m.cells.item s1 = k then do
    let m ← unlinkSuccessor capacity i s1 m
    forCells (fun m => m.cells.right) (insertSuccessor capacity k i s1) m.cells.created oldS m
  else if k < m.cells.item s1 then
    some { m with cells := m.cells.putItem (m.cells.item s1 - 1) s1, s2 := some s1 }
  else some { m with s2 := some s1 }

/-- A turn of the loop over the items that are left. -/
def spliceSuccessors (capacity : Nat) (k : Int) (oldS : Option Nat) (i : Nat) (m : Splicing) :
    Option Splicing := do
  let s1 ← itemAt m.successors i
  forCells (fun m => m.cells.right) (spliceSuccessor capacity k oldS i) m.cells.created s1
    { m with s2 := none }

/-- A turn of the first loop of `remove`. -/
def forgetSuccessor (cells : Linkables) (s1 : Nat) (counts : List Int) : Option (List Int) := do
  let n ← itemAt counts (cells.item s1)
  replaceAt counts (n - 1) (cells.item s1)

/-- `remove`. -/
def remove [DecidableEq G] (s : TopologicalSorter G) (v : G) : Option (TopologicalSorter G) := do
  let k := s.indexOf v
  let oldS ← itemAt s.successors k
  let counts ← forCells (fun _ => s.cells.right) (forgetSuccessor s.cells) s.cells.created oldS
    s.counts
  let items ← removeAt s.items k
  let counts ← removeAt counts k
  let successors ← removeAt s.successors k
  let m ← forUp (spliceSuccessors s.capacity k oldS) successors.length 1
    ⟨counts, successors, s.cells, none⟩
  some { s with
    items := items, counts := m.counts, successors := m.successors, cells := m.cells }

/-- The data of the sort: `qlinks` is a clone of `counts`, `front` and `rear` are the ends of
the queue. -/
structure Sorting (G : Type) where
  qlinks : List Int
  successors : List (Option Nat)
  front : Int
  rear : Int
  sortedItems : List G

/-- Add an item to the queue, after its rear. -/
def enqueue (i : Int) (m : Sorting G) : Option (Sorting G) := do
  let qlinks ← replaceAt m.qlinks i m.rear
  some { m with qlinks := qlinks, rear := i }

/-- T4. Scan for zeros. -/
def scanZero (i : Nat) (m : Sorting G) : Option (Sorting G) := do
  let n ← itemAt m.qlinks i
  if n = 0 then
    if m.front = 0 then some { m with front := i, rear := i } else enqueue i m
  else some m

/-- T6. Erase relation. -/
def eraseRelation (cells : Linkables) (succ : Nat) (m : Sorting G) : Option (Sorting G) := do
  let i := cells.item succ
  let n ← itemAt m.qlinks i
  let qlinks ← replaceAt m.qlinks (n - 1) i
  if n - 1 = 0 then enqueue i { m with qlinks := qlinks } else some { m with qlinks := qlinks }

/-- T5. Output front of queue. -/
def outputFront (s : TopologicalSorter G) (m : Sorting G) : Option (Sorting G) := do
  let succ ← itemAt m.successors m.front
  let m ← forCells (fun _ => s.cells.right) (eraseRelation s.cells) s.cells.created succ m
  let successors ← replaceAt m.successors none m.front
  let v ← itemAt s.items m.front
  let front ← itemAt m.qlinks m.front
  let qlinks ← replaceAt m.qlinks 0 m.front
  some { m with
    qlinks := qlinks
    successors := successors
    front := front
    sortedItems := m.sortedItems ++ [v] }

/-- T9 and T10: the links lead to a predecessor, and the items are marked. -/
def linkPredecessor (cells : Linkables) (successors : List (Option Nat)) (i : Nat) :
    List Int × List Bool → Option (List Int × List Bool)
  | (qlinks, marks) => do
      let marks ← replaceAt marks true i
      let succ ← itemAt successors i
      let qlinks ← forCells (fun _ => cells.right) (fun succ qlinks =>
        replaceAt qlinks (i : Int) (cells.item succ)) cells.created succ qlinks
      some (qlinks, marks)

/-- T11. Look for an item that has not been sorted. -/
def findUnsorted (qlinks : List Int) : Option Int :=
  loopUntil (fun i => (itemAt qlinks i).map fun n => decide (n ≠ 0)) (fun i => some (i + 1))
    (qlinks.length + 1) 1

/-- T12. Look for the start of cycle. -/
def findCycle (qlinks : List Int) : List Bool × Int → Option (List Bool × Int) :=
  loopUntil (fun m => (itemAt m.1 m.2).map fun b => !b) (fun m => do
      let marks ← replaceAt m.1 false m.2
      let i ← itemAt qlinks m.2
      some (marks, i))
    (qlinks.length + 1)

/-- T13. Traverse the cycle: its items are stored in the reverse order. -/
def traverseCycle (items : List G) (qlinks : List Int) :
    List Bool × Int × List G → Option (List Bool × Int × List G) :=
  loopUntil (fun m => itemAt m.1 m.2.1) (fun m => do
      let v ← itemAt items m.2.1
      let marks ← replaceAt m.1 true m.2.1
      let i ← itemAt qlinks m.2.1
      some (marks, i, m.2.2 ++ [v]))
    (qlinks.length + 1)

/-- T8 to T13: the items of a cycle. -/
def detectCycle (s : TopologicalSorter G) (successors : List (Option Nat)) : Option (List G) := do
  let (qlinks, marks) ← forUp (linkPredecessor s.cells successors) s.count 1
    (List.replicate s.count 0, List.replicate s.count false)
  let i ← findUnsorted qlinks
  let (marks, i) ← findCycle qlinks (marks, i)
  let (_, i, cycle) ← traverseCycle s.items qlinks (marks, i, [])
  let v ← itemAt s.items i
  some (cycle ++ [v])

/-- The clones of `counts` and `successors`, and an empty queue. -/
def startSorting (s : TopologicalSorter G) : Sorting G :=
  ⟨s.counts, s.successors, 0, 0, []⟩

/-- `sort`. -/
def sort (s : TopologicalSorter G) : Option (TopologicalSorter G) := do
  let m ← forUp scanZero s.count 1 s.startSorting
  let m ← loopUntil (fun m => some (decide (m.front = 0))) s.outputFront (s.count + 1) m
  if s.count ≠ m.sortedItems.length then
    let cycle ← s.detectCycle m.successors
    some { s with sortedItems := some m.sortedItems, cycle := some cycle }
  else some { s with sortedItems := some m.sortedItems, cycle := none }

end TopologicalSorter

end Gobo
