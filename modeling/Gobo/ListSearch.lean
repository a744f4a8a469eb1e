/-
Searching a linked, a bilinked and an arrayed list backwards from a cursor
(`DS_LINKED_LIST`, `DS_BILINKED_LIST`, `DS_ARRAYED_LIST`).
-/
import Gobo.Special
import Gobo.Traversal

namespace Gobo

open Option List

variable {G : Type}

/-- The criterion of `equality_tester`, or `=` if there is none. -/
def testEqual [DecidableEq G] (tester : Option (G → G → Bool)) (w v : G) : Bool :=
  tester.elim (decide (w = v)) fun test => test w v

/-- Where a cursor of a linked list is. -/
structure CellPosition where
  currentCell : Option Nat
  before : Bool
  after : Bool
deriving DecidableEq

/-- A linked list with its cells and cursors. -/
structure LinkedList (G : Type) where
  created : Nat
  firstCell : Option Nat
  right : Nat → Option Nat
  item : Nat → G
  equalityTester : Option (G → G → Bool)
  cursors : Traversal CellPosition

structure BilinkedList (G : Type) extends LinkedList G where
  left : Nat → Option Nat

/-- The position of a cursor is an index from 0, or -1 `before` and -2 `after`. -/
structure ArrayedList (G : Type) where
  storage : Special G
  equalityTester : Option (G → G → Bool)
  cursors : Traversal Int

/-- Set the cursor, and register or unregister it. -/
def setSearched (t : Traversal CellPosition) (c : Nat) (wasOff : Bool) (newCell : Option Nat) :
    Option (Traversal CellPosition) :=
  let newBefore := newCell.isNone
  let t := t.setPosition c ⟨newCell, newBefore, false⟩
  if newBefore then
    if !wasOff then t.removeTraversingCursor c else some t
  else if wasOff then some (t.addTraversingCursor c)
  else some t

namespace LinkedList

variable [DecidableEq G]

/-- The locals of the loop in `cursor_search_back`. -/
structure BackSearch where
  aCell : Option Nat
  newCell : Option Nat

def backTurn (l : LinkedList G) (v : G) (m : BackSearch) : Option BackSearch := do
  let a ← m.aCell
  return ⟨l.right a, if testEqual l.equalityTester (l.item a) v then some a else m.newCell⟩

/-- The cell that `cursor_search_back` finds, if the item of the current one is
equal to `v`. -/
def searchBackCell (l : LinkedList G) (cursorCell : Option Nat) (v : G) : Option (Option Nat) :=
  match cursorCell with
  | none => some none
  | some cell =>
      if testEqual l.equalityTester (l.item cell) v then do
        let m ← loopUntil (fun m => some (m.aCell == none || m.aCell == some cell)) (l.backTurn v)
          (l.created + 1) ⟨l.firstCell, none⟩
        return m.newCell
      else some none

def cursorSearchBack (l : LinkedList G) (c : Nat) (v : G) : Option (LinkedList G) := do
  let cursorCell := (l.cursors.position c).currentCell
  let newCell ← l.searchBackCell cursorCell v
  let t ← setSearched l.cursors c cursorCell.isNone newCell
  return { l with cursors := t }

end LinkedList

namespace BilinkedList

variable [DecidableEq G]

/-- `a_cell = Void or else equal`. -/
def backStops (l : BilinkedList G) (v : G) (aCell : Option Nat) : Option Bool :=
  some (aCell.elim true fun a => testEqual l.equalityTester (l.item a) v)

def cursorSearchBack (l : BilinkedList G) (c : Nat) (v : G) : Option (BilinkedList G) := do
  let cursorCell := (l.cursors.position c).currentCell
  let newCell ← loopUntil (l.backStops v) (fun a => a.map l.left) (l.created + 1) cursorCell
  let t ← setSearched l.cursors c cursorCell.isNone newCell
  return { l with cursors := t }

end BilinkedList

namespace ArrayedList

variable [DecidableEq G]

/-- `i < 0 or else equal`. -/
def backStops (l : ArrayedList G) (v : G) (i : Int) : Option Bool :=
  if i < 0 then some true
  else (l.storage.item i).map fun w => testEqual l.equalityTester w v

def cursorSearchBack (l : ArrayedList G) (c : Nat) (v : G) : Option (ArrayedList G) := do
  let position := l.cursors.position c
  let i ← loopUntil (l.backStops v) (fun i => some (i - 1)) (position.toNat + 2) position
  let t := l.cursors.setPosition c i
  let t ← (if i = -1 then
      if ¬position < 0 then t.removeTraversingCursor c else some t
    else if position < 0 then some (t.addTraversingCursor c)
    else some t : Option _)
  return { l with cursors := t }

end ArrayedList

/-- The greatest index at or before `i` of an item that fits, if there is one. -/
def IsFoundBack (items : List G) (fits : G → Bool) (i : Nat) : Option Nat → Prop
  | some j => j ≤ i ∧ (∃ w, items[j]? = some w ∧ fits w = true) ∧
      ∀ m, j < m → m ≤ i → ∀ w, items[m]? = some w → fits w = false
  | none => ∀ m ≤ i, ∀ w, items[m]? = some w → fits w = false

/-- A cursor is on the cell of an index, or `before`. -/
def CellPosition.IsAt (cells : List Nat) (p : CellPosition) : Option Nat → Prop
  | some j => ∃ a, cells[j]? = some a ∧ p = ⟨some a, false, false⟩
  | none => p = ⟨none, true, false⟩

/-- The list has the cells in their order, with the items of the cells. -/
structure LinkedList.Holds (l : LinkedList G) (cells : List Nat) (items : List G) : Prop where
  chain : Chain l.right l.firstCell cells
  created : ∀ a ∈ cells, a < l.created
  items_eq : cells.map l.item = items
  listed : ∃ cs, l.cursors.Listed cs

structure BilinkedList.Holds (l : BilinkedList G) (cells : List Nat) (items : List G) : Prop
    extends l.toLinkedList.Holds cells items where
  left_eq : ∀ i a, cells[i]? = some a → l.left a = if i = 0 then none else cells[i - 1]?

structure ArrayedList.Holds (l : ArrayedList G) (items : List G) : Prop where
  area : items <+: l.storage.area
  listed : ∃ cs, l.cursors.Listed cs

section

variable [DecidableEq G]

/-- `cursor_search_back` moves the cursor to an index, or `before`. -/
def LinkedList.SearchesBackTo (l : LinkedList G) (cells : List Nat) (c : Nat) (v : G)
    (r : Option Nat) : Prop :=
  ∃ l', l.cursorSearchBack c v = some l' ∧ (l'.cursors.position c).IsAt cells r

def BilinkedList.SearchesBackTo (l : BilinkedList G) (cells : List Nat) (c : Nat) (v : G)
    (r : Option Nat) : Prop :=
  ∃ l', l.cursorSearchBack c v = some l' ∧ (l'.cursors.position c).IsAt cells r

def ArrayedList.SearchesBackTo (l : ArrayedList G) (c : Nat) (v : G) (r : Option Nat) : Prop :=
  ∃ l', l.cursorSearchBack c v = some l' ∧
    l'.cursors.position c = r.elim (-1) fun j => (j : Int)

end

/-- A list of one of the three classes. -/
inductive AnyList (G : Type) where
  | linked (l : LinkedList G)
  | bilinked (l : BilinkedList G)
  | arrayed (l : ArrayedList G)

namespace AnyList

def equalityTester : AnyList G → Option (G → G → Bool)
  | linked l => l.equalityTester
  | bilinked l => l.equalityTester
  | arrayed l => l.equalityTester

def isLinked : AnyList G → Bool
  | linked _ => true
  | _ => false

/-- The list has the items in their order, in these cells unless it is arrayed. -/
def Holds (l : AnyList G) (cells : List Nat) (items : List G) : Prop :=
  match l with
  | linked l => l.Holds cells items
  | bilinked l => l.Holds cells items
  | arrayed l => l.Holds items

/-- The cursor is on the item at index `i`. -/
def IsOn (l : AnyList G) (cells : List Nat) (c i : Nat) : Prop :=
  match l with
  | linked l => (l.cursors.position c).IsAt cells (some i)
  | bilinked l => (l.cursors.position c).IsAt cells (some i)
  | arrayed l => l.cursors.position c = i

def SearchesBackTo [DecidableEq G] (l : AnyList G) (cells : List Nat) (c : Nat) (v : G)
    (r : Option Nat) : Prop :=
  match l with
  | linked l => l.SearchesBackTo cells c v r
  | bilinked l => l.SearchesBackTo cells c v r
  | arrayed l => l.SearchesBackTo c v r

end AnyList

section

variable {items : List G} {fits : G → Bool} {cells : List Nat} {a c i : Nat} {r : Option Nat}

theorem isFoundBack_self {w : G} (hw : items[i]? = some w) (hfits : fits w = true) :
    IsFoundBack items fits i (some i) :=
  ⟨Nat.le_refl i, ⟨w, hw, hfits⟩, fun _ hlt hle => absurd hlt (Nat.not_lt.mpr hle)⟩

/-- A further item that does not fit. -/
theorem IsFoundBack.succ (h : IsFoundBack items fits i r)
    (hnot : ∀ w, items[i + 1]? = some w → fits w = false) :
    IsFoundBack items fits (i + 1) r := by
  cases r with
  | none =>
      intro m hm w hw
      rcases Nat.lt_or_eq_of_le hm with hlt | rfl
      · exact h m (Nat.le_of_lt_succ hlt) w hw
      · exact hnot w hw
  | some j =>
      obtain ⟨hj, hfits, hmax⟩ := h
      refine ⟨Nat.le_succ_of_le hj, hfits, fun m hlt hm w hw => ?_⟩
      rcases Nat.lt_or_eq_of_le hm with hle | rfl
      · exact hmax m hlt (Nat.le_of_lt_succ hle) w hw
      · exact hnot w hw

theorem isFoundBack_zero (hnot : ∀ w, items[0]? = some w → fits w = false) :
    IsFoundBack items fits 0 none := by
  intro m hm w hw
  obtain rfl := Nat.le_zero.mp hm
  exact hnot w hw

/-- A cursor that was on a cell is set to another one, or `before`. -/
theorem exists_setSearched {t : Traversal CellPosition} (ht : ∃ cs, t.Listed cs) (c : Nat)
    (newCell : Option Nat) :
    ∃ t', setSearched t c false newCell = some t' ∧
      t'.position c = ⟨newCell, newCell.isNone, false⟩ := by
  obtain ⟨cs, hcs⟩ := ht
  obtain ⟨rest, rfl⟩ := hcs.exists_cons
  have hset : ∀ p, (t.setPosition c p).position c = p := fun p => Function.update_self _ _ _
  cases newCell with
  | none =>
      have hlisted : (t.setPosition c ⟨none, true, false⟩).Listed
        ((t.setPosition c ⟨none, true, false⟩).internalCursor :: rest) := hcs
      obtain ⟨t', hrun, ht'⟩ := hlisted.exists_remove c
      exact ⟨t', hrun, (congrFun ht'.position c).trans (hset _)⟩
  | some a => exact ⟨t.setPosition c ⟨some a, false, false⟩, rfl, hset _⟩

theorem IsAt.of_index (h : (r.bind fun j => cells[j]?).isSome = r.isSome) :
    (CellPosition.mk (r.bind fun j => cells[j]?) (r.bind fun j => cells[j]?).isNone false).IsAt
      cells r := by
  cases r with
  | none => rfl
  | some j =>
      obtain ⟨a, ha⟩ := isSome_iff_exists.mp h
      exact ⟨a, ha, by rw [show (some j).bind (fun j => cells[j]?) = some a from ha]; rfl⟩

/-- There is one greatest index at most. -/
theorem IsFoundBack.unique {fits : G → Bool} {r' : Option Nat} (h : IsFoundBack items fits i r)
    (h' : IsFoundBack items fits i r') : r = r' := by
  have hle : ∀ {j r}, IsFoundBack items fits i (some j) → IsFoundBack items fits i r →
      ∃ k, r = some k ∧ j ≤ k := by
    rintro j r ⟨hji, ⟨w, hw, hfits⟩, -⟩ hr
    cases r with
    | none => exact absurd (hfits.symm.trans (hr j hji w hw)) (by decide)
    | some k =>
        refine ⟨k, rfl, Nat.not_lt.mp fun hlt => ?_⟩
        exact absurd (hfits.symm.trans (hr.2.2 j hlt hji w hw)) (by decide)
  cases r with
  | none =>
      cases r' with
      | none => rfl
      | some j => exact absurd (hle h' h) (by simp)
  | some j =>
      obtain ⟨k, rfl, hjk⟩ := hle h h'
      obtain ⟨_, heq, hkj⟩ := hle h' h
      rw [Nat.le_antisymm hjk (some.inj heq ▸ hkj)]

theorem LinkedList.Holds.item_eq {l : LinkedList G} (h : l.Holds cells items)
    (ha : cells[i]? = some a) : items[i]? = some (l.item a) := by
  rw [← h.items_eq, getElem?_map, ha]
  rfl

theorem LinkedList.Holds.index_lt {l : LinkedList G} (h : l.Holds cells items)
    (ha : cells[i]? = some a) : i < l.created := by
  obtain ⟨hlt, -⟩ := List.getElem?_eq_some_iff.mp ha
  have hle := h.chain.length_le h.created
  omega

variable [DecidableEq G]

/-- The loop of a bilinked list stops at the right cell. -/
theorem BilinkedList.Holds.exists_loop {l : BilinkedList G} (h : l.Holds cells items) (v : G)
    (ha : cells[i]? = some a) {fuel : Nat} (hfuel : i + 1 < fuel) :
    ∃ r, IsFoundBack items (fun w => testEqual l.equalityTester w v) i r ∧
      (r.bind fun j => cells[j]?).isSome = r.isSome ∧
      loopUntil (l.backStops v) (fun a => a.map l.left) fuel (some a) =
        some (r.bind fun j => cells[j]?) := by
  induction i generalizing a fuel with
  | zero =>
      obtain ⟨fuel, rfl⟩ : ∃ n, fuel = n + 2 := ⟨fuel - 2, by omega⟩
      by_cases hfits : testEqual l.equalityTester (l.item a) v = true
      · refine ⟨some 0, isFoundBack_self (h.item_eq ha) hfits, ?_, ?_⟩
        · rw [bind_some, ha]
          rfl
        · rw [bind_some, ha]
          exact loopUntil_of_stop (congrArg some hfits)
      · have hleft : l.left a = none := h.left_eq 0 a ha
        have hgo : l.backStops v (some a) = some false :=
            congrArg some (Bool.eq_false_iff.mpr hfits)
        refine ⟨none, isFoundBack_zero ?_, rfl, ?_⟩
        · intro w hw
          obtain rfl := some.inj ((h.item_eq ha).symm.trans hw)
          exact Bool.eq_false_iff.mpr hfits
        · have hbody : (some a).map l.left = some none := congrArg some hleft
          rw [loopUntil_of_go hgo hbody]
          exact loopUntil_of_stop rfl
  | succ i ih =>
      obtain ⟨fuel, rfl⟩ : ∃ n, fuel = n + 1 := ⟨fuel - 1, by omega⟩
      by_cases hfits : testEqual l.equalityTester (l.item a) v = true
      · refine ⟨some (i + 1), isFoundBack_self (h.item_eq ha) hfits, ?_, ?_⟩
        · rw [bind_some, ha]
          rfl
        · rw [bind_some, ha]
          exact loopUntil_of_stop (congrArg some hfits)
      · obtain ⟨b, hb⟩ : ∃ b, cells[i]? = some b := by
          obtain ⟨hlt, -⟩ := List.getElem?_eq_some_iff.mp ha
          exact ⟨_, List.getElem?_eq_getElem (Nat.lt_of_succ_lt hlt)⟩
        have hleft : l.left a = some b := (h.left_eq (i + 1) a ha).trans hb
        have hgo : l.backStops v (some a) = some false :=
            congrArg some (Bool.eq_false_iff.mpr hfits)
        obtain ⟨r, hr, hsome, hrun⟩ := ih hb (by omega : i + 1 < fuel)
        refine ⟨r, hr.succ ?_, hsome, ?_⟩
        · intro w hw
          obtain rfl := some.inj ((h.item_eq ha).symm.trans hw)
          exact Bool.eq_false_iff.mpr hfits
        · have hbody : (some a).map l.left = some (some b) := congrArg some hleft
          rw [loopUntil_of_go hgo hbody]
          exact hrun

/-- A bilinked list always ends at the right index. -/
theorem BilinkedList.Holds.exists_searchBack {l : BilinkedList G} (h : l.Holds cells items)
    (v : G) (hc : (l.cursors.position c).IsAt cells (some i)) :
    ∃ r, IsFoundBack items (fun w => testEqual l.equalityTester w v) i r ∧
      l.SearchesBackTo cells c v r := by
  obtain ⟨a, ha, hposition⟩ := hc
  have hlt := h.index_lt ha
  obtain ⟨r, hr, hsome, hrun⟩ := h.exists_loop v ha (by omega : i + 1 < l.created + 1)
  obtain ⟨t, hset, ht⟩ := exists_setSearched h.listed c (r.bind fun j => cells[j]?)
  refine ⟨r, hr, { l with cursors := t }, ?_, ?_⟩
  · rw [cursorSearchBack, hposition, hrun, some_bind, isNone_some, hset]
    rfl
  · change (t.position c).IsAt cells r
    rw [ht]
    exact IsAt.of_index hsome

/-- The loop of an arrayed list stops at the right index. -/
theorem ArrayedList.Holds.exists_loop {l : ArrayedList G} (h : l.Holds items) (v : G)
    (hi : i < items.length) {fuel : Nat} (hfuel : i + 1 < fuel) :
    ∃ r, IsFoundBack items (fun w => testEqual l.equalityTester w v) i r ∧
      loopUntil (l.backStops v) (fun i => some (i - 1)) fuel (i : Int) =
        some (r.elim (-1) fun j => (j : Int)) := by
  have hstop : ∀ (j : Nat) (w : G), items[j]? = some w →
      l.backStops v (j : Int) = some (testEqual l.equalityTester w v) := by
    intro j w hw
    obtain ⟨rest, hrest⟩ := h.area
    have hlt : j < items.length := (List.getElem?_eq_some_iff.mp hw).1
    unfold backStops
    rw [if_neg (by omega), Special.item_natCast, ← hrest, List.getElem?_append_left hlt, hw]
    rfl
  have hnot : ∀ (j : Nat) (w : G), items[j]? = some w →
      testEqual l.equalityTester w v = false → ∀ w', items[j]? = some w' →
      testEqual l.equalityTester w' v = false := by
    intro j w hw hfits w' hw'
    obtain rfl := some.inj (hw.symm.trans hw')
    exact hfits
  induction i generalizing fuel with
  | zero =>
      obtain ⟨fuel, rfl⟩ : ∃ n, fuel = n + 2 := ⟨fuel - 2, by omega⟩
      obtain ⟨w, hw⟩ : ∃ w, items[0]? = some w := ⟨_, List.getElem?_eq_getElem hi⟩
      rcases Bool.eq_false_or_eq_true (testEqual l.equalityTester w v) with hfits | hfits
      · refine ⟨some 0, isFoundBack_self hw hfits, loopUntil_of_stop ?_⟩
        rw [hstop 0 w hw, hfits]
      · refine ⟨none, isFoundBack_zero (hnot 0 w hw hfits), ?_⟩
        have hbody : some ((0 : Int) - 1) = some (-1) := rfl
        refine (loopUntil_of_go ((hstop 0 w hw).trans (congrArg some hfits)) hbody).trans ?_
        exact loopUntil_of_stop rfl
  | succ i ih =>
      obtain ⟨fuel, rfl⟩ : ∃ n, fuel = n + 1 := ⟨fuel - 1, by omega⟩
      obtain ⟨w, hw⟩ : ∃ w, items[i + 1]? = some w := ⟨_, List.getElem?_eq_getElem hi⟩
      rcases Bool.eq_false_or_eq_true (testEqual l.equalityTester w v) with hfits | hfits
      · refine ⟨some (i + 1), isFoundBack_self hw hfits, loopUntil_of_stop ?_⟩
        rw [hstop (i + 1) w hw, hfits]
      · obtain ⟨r, hr, hrun⟩ := ih (Nat.lt_of_succ_lt hi) (by omega : i + 1 < fuel)
        have hbody : some (((i + 1 : Nat) : Int) - 1) = some (i : Int) :=
          congrArg some (by omega)
        refine ⟨r, hr.succ (hnot (i + 1) w hw hfits), ?_⟩
        exact (loopUntil_of_go ((hstop (i + 1) w hw).trans (congrArg some hfits)) hbody).trans hrun

/-- An arrayed list always ends at the right index. -/
theorem ArrayedList.Holds.exists_searchBack {l : ArrayedList G} (h : l.Holds items) (v : G)
    (hi : i < items.length) (hc : l.cursors.position c = i) :
    ∃ r, IsFoundBack items (fun w => testEqual l.equalityTester w v) i r ∧
      l.SearchesBackTo c v r := by
  obtain ⟨r, hr, hrun⟩ := h.exists_loop v hi (by omega : i + 1 < i + 2)
  have hset : ∀ p, (l.cursors.setPosition c p).position c = p := fun p => Function.update_self _ _ _
  cases r with
  | none =>
      obtain ⟨cs, hcs⟩ := h.listed
      obtain ⟨rest, rfl⟩ := hcs.exists_cons
      have hlisted : (l.cursors.setPosition c (-1)).Listed
        ((l.cursors.setPosition c (-1)).internalCursor :: rest) := hcs
      obtain ⟨t, hremove, ht⟩ := hlisted.exists_remove c
      refine ⟨none, hr, { l with cursors := t }, ?_, (congrFun ht.position c).trans (hset _)⟩
      rw [cursorSearchBack, hc, Int.toNat_natCast, hrun]
      simp [hremove]
  | some j =>
      refine ⟨some j, hr, { l with cursors := l.cursors.setPosition c j }, ?_, hset _⟩
      have hne : (j : Int) ≠ -1 := by omega
      have hnot : ¬(i : Int) < 0 := by omega
      rw [cursorSearchBack, hc, Int.toNat_natCast, hrun]
      simp [hne, hnot]

/-- The scan from the first cell only remembers cells before the cursor's. -/
theorem LinkedList.exists_scan (l : LinkedList G) (v : G)
    {start : Option Nat} {front back : List Nat}
    (h : Chain l.right start (front ++ a :: back)) (hnew : a ∉ front) {fuel : Nat}
    (hfuel : front.length < fuel) (newCell : Option Nat) :
    ∃ m, loopUntil (fun m => some (m.aCell == none || m.aCell == some a)) (l.backTurn v) fuel
        ⟨start, newCell⟩ = some m ∧ (m.newCell = newCell ∨ ∃ b ∈ front, m.newCell = some b) := by
  induction front generalizing start newCell fuel with
  | nil =>
      obtain ⟨fuel, rfl⟩ : ∃ n, fuel = n + 1 := ⟨fuel - 1, by omega⟩
      have hstart : start = some a := h.1
      have hstop : (start == none || start == some a) = true := by simp [hstart]
      exact ⟨⟨start, newCell⟩, loopUntil_of_stop (congrArg some hstop), Or.inl rfl⟩
  | cons b front ih =>
      obtain ⟨fuel, rfl⟩ : ∃ n, fuel = n + 1 := ⟨fuel - 1, by omega⟩
      obtain ⟨rfl, hrest⟩ := h
      have hne : b ≠ a := fun heq => hnew (heq ▸ mem_cons_self)
      have hnew' : a ∉ front := fun hmem => hnew (mem_cons_of_mem b hmem)
      rw [length_cons] at hfuel
      obtain ⟨m, hrun, hm⟩ := ih hrest hnew' (by omega : front.length < fuel)
        (if testEqual l.equalityTester (l.item b) v then some b else newCell)
      have hgo : (some b == none || some b == some a) = false := by simp [hne]
      refine ⟨m, (loopUntil_of_go ?_ ?_).trans hrun, ?_⟩
      · exact congrArg some hgo
      · rfl
      rcases hm with hm | ⟨d, hd, hm⟩
      · rw [hm]
        split
        · exact Or.inr ⟨b, mem_cons_self, rfl⟩
        · exact Or.inl rfl
      · exact Or.inr ⟨d, mem_cons_of_mem b hd, hm⟩

/-- A linked list leaves a cell that fits, and goes `before` from one that does not. -/
theorem LinkedList.Holds.exists_searchBack {l : LinkedList G} (h : l.Holds cells items) (v : G)
    (ha : cells[i]? = some a) (hc : l.cursors.position c = ⟨some a, false, false⟩) :
    ∃ l' newCell, l.cursorSearchBack c v = some l' ∧
      l'.cursors.position c = ⟨newCell, newCell.isNone, false⟩ ∧ newCell ≠ some a ∧
      (testEqual l.equalityTester (l.item a) v = false → newCell = none) := by
  obtain ⟨newCell, hrun, hne, hnone⟩ : ∃ newCell, l.searchBackCell (some a) v = some newCell ∧
      newCell ≠ some a ∧
      (testEqual l.equalityTester (l.item a) v = false → newCell = none) := by
    rcases Bool.eq_false_or_eq_true (testEqual l.equalityTester (l.item a) v) with hfits | hfits
    · obtain ⟨front, back, hcells, hlength⟩ : ∃ front back, cells = front ++ a :: back ∧
          front.length = i := by
        obtain ⟨hlt, hget⟩ := List.getElem?_eq_some_iff.mp ha
        refine ⟨cells.take i, cells.drop (i + 1), ?_, List.length_take_of_le (Nat.le_of_lt hlt)⟩
        rw [← hget, ← List.drop_eq_getElem_cons hlt, List.take_append_drop]
      have hchain : Chain l.right l.firstCell (front ++ a :: back) := hcells ▸ h.chain
      have hnew : a ∉ front := by
        intro hmem
        have hnodup := hchain.nodup
        exact (List.nodup_append.mp hnodup).2.2 a hmem a List.mem_cons_self rfl
      have hlt := h.index_lt ha
      obtain ⟨m, hloop, hm⟩ := l.exists_scan v hchain hnew
        (by omega : front.length < l.created + 1) none
      refine ⟨m.newCell, ?_, ?_, fun hnot => absurd (hfits.symm.trans hnot) (by simp)⟩
      · rw [searchBackCell, if_pos hfits, hloop]
        rfl
      · rcases hm with hm | ⟨b, hb, hm⟩
        · rw [hm]
          exact some_ne_none a |>.symm
        · intro heq
          obtain rfl := some.inj (hm.symm.trans heq)
          exact hnew hb
    · refine ⟨none, ?_, (some_ne_none a).symm, fun _ => rfl⟩
      rw [searchBackCell, if_neg (Bool.eq_false_iff.mp hfits)]
  obtain ⟨t, hset, ht⟩ := exists_setSearched h.listed c newCell
  refine ⟨{ l with cursors := t }, newCell, ?_, ht, hne, hnone⟩
  rw [cursorSearchBack, hc, hrun, some_bind, isNone_some, hset]
  rfl

/-- A linked list finds the greatest index at or before the cursor only if there is none: it
never stops at a cell. -/
theorem LinkedList.Holds.linkedSearchesBack_iff {l : LinkedList G} (h : l.Holds cells items) (v : G)
    (hc : (l.cursors.position c).IsAt cells (some i)) :
    (∃ r, IsFoundBack items (fun w => testEqual l.equalityTester w v) i r ∧
      l.SearchesBackTo cells c v r) ↔
    ∀ m ≤ i, ∀ w, items[m]? = some w → testEqual l.equalityTester w v = false := by
  obtain ⟨a, ha, hposition⟩ := hc
  obtain ⟨l', newCell, hrun, hset, hne, hnone⟩ := h.exists_searchBack v ha hposition
  constructor
  · rintro ⟨r, hr, l'', hrun', hat⟩
    obtain rfl := some.inj (hrun.symm.trans hrun')
    cases r with
    | none => exact hr
    | some j =>
        obtain ⟨d, hd, hpos⟩ := hat
        have hcell : newCell = some d := congrArg CellPosition.currentCell (hset.symm.trans hpos)
        rcases Bool.eq_false_or_eq_true (testEqual l.equalityTester (l.item a) v) with hfits | hfits
        · have hji : j = i := by
            rcases Nat.lt_or_eq_of_le hr.1 with hlt | heq
            · have hnot := hr.2.2 i hlt (Nat.le_refl i) (l.item a) (h.item_eq ha)
              exact absurd (hfits.symm.trans hnot) (by simp)
            · exact heq
          subst hji
          exact absurd (hcell.trans (hd.symm.trans ha)) hne
        · exact absurd (hcell.symm.trans (hnone hfits)) (some_ne_none d)
  · intro hnot
    have hcell : newCell = none := hnone (hnot i (Nat.le_refl i) (l.item a) (h.item_eq ha))
    refine ⟨none, hnot, l', hrun, ?_⟩
    rw [hset, hcell]
    rfl

/-- A list ends at the greatest index at or before the cursor, if there is one, and `before`
otherwise, whichever of the three it is, except a linked one in which there is one. -/
theorem searchesBack_iff {l : AnyList G} (h : l.Holds cells items) (hc : l.IsOn cells c i)
    (hi : i < items.length) (v : G) :
    (∃ r, (∀ r', IsFoundBack items (fun w => testEqual l.equalityTester w v) i r' ↔ r' = r) ∧
      l.SearchesBackTo cells c v r) ↔
    ¬ l.isLinked ∨
      ∀ m ≤ i, ∀ w, items[m]? = some w → testEqual l.equalityTester w v = false := by
  have hunique : (∃ r, (∀ r', IsFoundBack items
        (fun w => testEqual l.equalityTester w v) i r' ↔ r' = r) ∧ l.SearchesBackTo cells c v r) ↔
      ∃ r, IsFoundBack items (fun w => testEqual l.equalityTester w v) i r ∧
        l.SearchesBackTo cells c v r := by
    refine exists_congr fun r => and_congr_left fun _ => ⟨fun hr => (hr r).mpr rfl, fun hr r' => ?_⟩
    exact ⟨fun hr' => hr'.unique hr, fun heq => heq ▸ hr⟩
  rw [hunique]
  cases l with
  | linked l =>
      rw [or_iff_right (fun hnot => hnot rfl)]
      exact LinkedList.Holds.linkedSearchesBack_iff h v hc
  | bilinked l =>
      exact iff_of_true (BilinkedList.Holds.exists_searchBack h v hc) (Or.inl Bool.false_ne_true)
  | arrayed l =>
      exact iff_of_true (ArrayedList.Holds.exists_searchBack h v hi hc) (Or.inl Bool.false_ne_true)

end

/-- Three cells, and a cursor on the last one. -/
def threeLinked : LinkedList Nat where
  created := 3
  firstCell := some 0
  right := fun a => if a < 2 then some (a + 1) else none
  item := fun a => [4, 7, 9].getD a 0
  equalityTester := none
  cursors := Traversal.make ⟨some 2, false, false⟩

def threeBilinked : BilinkedList Nat :=
  { threeLinked with left := fun a => if a = 0 then none else some (a - 1) }

def threeArrayed : ArrayedList Nat where
  storage := ⟨[4, 7, 9], 3⟩
  equalityTester := none
  cursors := Traversal.make 2

theorem listed_make {P : Type} (p : P) : ∃ cs, (Traversal.make p).Listed cs :=
  ⟨[0], ⟨rfl, rfl⟩, by simp [Traversal.make]⟩

theorem holds_threeLinked : threeLinked.Holds [0, 1, 2] [4, 7, 9] :=
  ⟨⟨rfl, rfl, rfl, rfl⟩, by decide, rfl, listed_make _⟩

theorem holds_threeBilinked : threeBilinked.Holds [0, 1, 2] [4, 7, 9] := by
  refine ⟨holds_threeLinked, ?_⟩
  intro i a ha
  match i with
  | 0 | 1 | 2 =>
      cases ha
      rfl

theorem holds_threeArrayed : threeArrayed.Holds [4, 7, 9] :=
  ⟨prefix_refl _, listed_make _⟩

theorem searchesBack_of_three :
    (∃ r, (∀ r', IsFoundBack [4, 7, 9] (fun w => testEqual none w 7) 2 r' ↔ r' = r) ∧
        threeBilinked.SearchesBackTo [0, 1, 2] 0 7 r) ∧
      (∃ r, (∀ r', IsFoundBack [4, 7, 9] (fun w => testEqual none w 7) 2 r' ↔ r' = r) ∧
        threeArrayed.SearchesBackTo 0 7 r) ∧
      ∃ r, (∀ r', IsFoundBack [4, 7, 9] (fun w => testEqual none w 5) 2 r' ↔ r' = r) ∧
        threeLinked.SearchesBackTo [0, 1, 2] 0 5 r := by
  refine ⟨(@searchesBack_iff _ _ _ 0 _ _ (.bilinked threeBilinked) holds_threeBilinked
      ⟨2, rfl, rfl⟩ (by decide) 7).mpr (Or.inl (by decide)),
    (@searchesBack_iff _ _ [] 0 _ _ (.arrayed threeArrayed) holds_threeArrayed
      rfl (by decide) 7).mpr (Or.inl (by decide)),
    (@searchesBack_iff _ _ _ 0 _ _ (.linked threeLinked) holds_threeLinked
      ⟨2, rfl, rfl⟩ (by decide) 5).mpr (Or.inr ?_)⟩
  intro m _ w hw
  match m with
  | 0 | 1 | 2 =>
      cases hw
      rfl

/-- The linked list goes `before` although the current item is the one searched for. -/
theorem searchesBack_not_self : threeLinked.Holds [0, 1, 2] [4, 7, 9] ∧
      (threeLinked.cursors.position 0).IsAt [0, 1, 2] (some 2) ∧
      IsFoundBack [4, 7, 9] (fun w => testEqual none w 9) 2 (some 2) ∧
      threeLinked.SearchesBackTo [0, 1, 2] 0 9 none ∧
      ¬∃ r, IsFoundBack [4, 7, 9] (fun w => testEqual none w 9) 2 r ∧
        threeLinked.SearchesBackTo [0, 1, 2] 0 9 r := by
  have hfits : ([4, 7, 9] : List Nat)[2]? = some 9 := rfl
  have hfound : IsFoundBack [4, 7, 9] (fun w => testEqual none w 9) 2 (some 2) :=
    isFoundBack_self hfits rfl
  have hbefore : threeLinked.SearchesBackTo [0, 1, 2] 0 9 none := ⟨_, rfl, rfl⟩
  refine ⟨holds_threeLinked, ⟨2, rfl, rfl⟩, hfound, hbefore, ?_⟩
  rintro ⟨r, hr, l', hrun, hat⟩
  obtain ⟨l'', hrun', hnone⟩ := hbefore
  obtain rfl := some.inj (hrun.symm.trans hrun')
  cases r with
  | none => exact absurd (hr 2 (Nat.le_refl 2) 9 hfits) (by decide)
  | some j =>
      obtain ⟨a, -, hpos⟩ := hat
      exact absurd (hnone.symm.trans hpos) (by simp)

end Gobo
