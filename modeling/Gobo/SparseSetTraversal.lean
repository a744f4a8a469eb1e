/-
A sparse set as the other set of an operation with two operands: a new cursor meets each of
its items once, and leaves the set as it was.
-/
import Gobo.SparseSetOperations

namespace Gobo

open List

namespace SparseContainer

open SparseStorage

variable {G K : Type}

section

variable (s : SparseContainer G K) (aCursor : Nat)

/-- Move a cursor to the first occupied position at or after `i`. -/
def moveCursor (wasOff : Bool) (i : Int) : Option (SparseContainer G K) := do
  let i ← s.nextPosition i
  if i > s.lastPosition then
    let cursors := s.cursors.setPosition aCursor afterPosition
    return { s with
      cursors := ← if wasOff then some cursors else cursors.removeTraversingCursor aCursor }
  else
    let cursors := s.cursors.setPosition aCursor i
    return { s with
      cursors := if wasOff then cursors.addTraversingCursor aCursor else cursors }

def cursorOff : Bool :=
  s.cursors.position aCursor = beforePosition ∨ s.cursors.position aCursor = afterPosition

def cursorStart : Option (SparseContainer G K) :=
  if s.count = 0 then
    some { s with cursors := s.cursors.setPosition aCursor afterPosition }
  else
    s.moveCursor aCursor (s.cursorOff aCursor) 0

def cursorForth : Option (SparseContainer G K) :=
  if s.cursors.position aCursor = beforePosition then
    s.moveCursor aCursor true 0
  else
    s.moveCursor aCursor false (s.cursors.position aCursor + 1)

end

/-- Go forth until after; the items that were met. -/
def itemsUntilAfter (s : SparseContainer G K) (aCursor : Nat) :
    Nat → Option (List G × SparseContainer G K)
  | 0 => none
  | fuel + 1 =>
      if s.cursors.position aCursor = afterPosition then
        some ([], s)
      else do
        let v ← s.itemStorageItem (s.cursors.position aCursor)
        let (vs, s) ← (← s.cursorForth aCursor).itemsUntilAfter aCursor fuel
        return (v :: vs, s)

/-- The items that a new cursor meets. -/
def traverse (s : SparseContainer G K) : Option (List G × SparseContainer G K) := do
  let (cursors, aCursor) := s.cursors.newCursor beforePosition
  let s ← { s with cursors }.cursorStart aCursor
  s.itemsUntilAfter aCursor (s.capacity.toNat + 1)

variable {gen : SparseGenerics G K} {E : KeyEquality gen} {kind : Option (G → Key K)}

/-- The occupied positions from `i` on. -/
def restFrom (s : SparseContainer G K) (i : Nat) : List Nat :=
  s.positions.filter (i ≤ ·)

theorem restFrom_of_next {s : SparseContainer G K} {i r : Nat} (hir : i ≤ r)
    (hbetween : ∀ j, i ≤ j → j < r → ¬ s.Occupied j) : s.restFrom i = s.restFrom r := by
  refine filter_congr fun j hj => ?_
  have hj := (s.mem_positions j).mp hj
  rw [decide_eq_decide]
  refine ⟨fun hij => ?_, fun hrj => Nat.le_trans hir hrj⟩
  by_contra hlt
  exact hbetween j hij (Nat.not_le.mp hlt) hj

theorem restFrom_of_occupied {s : SparseContainer G K} {r : Nat} (hr : s.Occupied r) :
    s.restFrom r = r :: s.restFrom (r + 1) := by
  have hsplit : ∀ xs : List Nat, xs.Pairwise (· < ·) → r ∈ xs →
      xs.filter (r ≤ ·) = r :: xs.filter (r + 1 ≤ ·) := by
    intro xs hsorted hmem
    induction xs with
    | nil => exact absurd hmem not_mem_nil
    | cons x xs ih =>
        rw [pairwise_cons] at hsorted
        rcases mem_cons.mp hmem with rfl | hmem
        · have hall : xs.filter (r ≤ ·) = xs.filter (r + 1 ≤ ·) := by
            refine filter_congr fun y hy => ?_
            have := hsorted.1 y hy
            rw [decide_eq_decide]
            omega
          simp [hall]
        · have := hsorted.1 r hmem
          rw [filter_cons_of_neg (by simpa using this),
            filter_cons_of_neg (by simp; omega), ih hsorted.2 hmem]
  refine hsplit _ ?_ ((s.mem_positions r).mpr hr)
  exact pairwise_lt_range.filter _

theorem restFrom_beyond {s : SparseContainer G K} {r : Nat} (hr : s.lastPosition < r) :
    s.restFrom r = [] := by
  refine filter_eq_nil_iff.mpr fun j hj => ?_
  have := ((s.mem_positions j).mp hj).1
  simp only [decide_eq_true_eq]
  omega

/-- The cursor made after those of `base` is at the first one of the positions `todo` and
listed, or after them and not listed; the others are as they were. -/
def OnWay (s : SparseContainer G K) (base : Traversal Int) (rest todo : List Nat) : Prop :=
  base.Extends rest s.cursors ∧
    (todo = [] ∧ s.cursors.position base.cursorCount = afterPosition ∧
        s.cursors.Listed (base.internalCursor :: rest) ∨
      ∃ r : Nat, s.Occupied r ∧ todo = r :: s.restFrom (r + 1) ∧
        s.cursors.position base.cursorCount = r ∧
        s.cursors.Listed (base.internalCursor :: base.cursorCount :: rest))

theorem exists_moveCursor {s : SparseContainer G K} (hs : Stored E kind s.toSparseStorage)
    {base : Traversal Int} {rest : List Nat} (hextends : base.Extends rest s.cursors)
    (hnew : base.cursorCount ∉ base.internalCursor :: rest) {i : Nat}
    (hi : (i : Int) ≤ s.lastPosition + 1) (wasOff : Bool)
    (hlisted : s.cursors.Listed
      (base.internalCursor :: if wasOff then rest else base.cursorCount :: rest)) :
    ∃ t, s.moveCursor base.cursorCount wasOff i = some { s with cursors := t } ∧
      OnWay { s with cursors := t } base rest (s.restFrom i) := by
  obtain ⟨r, hnext, hir, hr, hoccupied, hbetween⟩ := exists_nextPosition hs hi
  rw [restFrom_of_next hir hbetween]
  have hset : ∀ p, (s.cursors.setPosition base.cursorCount p).Listed
      (base.internalCursor :: if wasOff then rest else base.cursorCount :: rest) :=
    fun _ => hlisted
  have hposition : ∀ p,
      (s.cursors.setPosition base.cursorCount p).position base.cursorCount = p :=
    fun _ => Function.update_self _ _ _
  have hinternal := hextends.internal
  by_cases hend : (r : Int) > s.lastPosition
  · rw [restFrom_beyond hend]
    cases wasOff with
    | true =>
        exact ⟨s.cursors.setPosition base.cursorCount afterPosition,
          by simp [moveCursor, hnext, hend], hextends.setPosition _,
          Or.inl ⟨rfl, hposition _, hset _⟩⟩
    | false =>
        have hremoves := hset afterPosition
        rw [← hinternal] at hremoves
        obtain ⟨t, hremove, ht⟩ := hremoves.exists_remove base.cursorCount
        refine ⟨t, by simp [moveCursor, hnext, hend, hremove],
          (hextends.setPosition _).remove ht,
          Or.inl ⟨rfl, (congrFun ht.position _).trans (hposition _), ?_⟩⟩
        have hback := ht.listed
        rw [if_neg Bool.false_ne_true, erase_cons_head] at hback
        rw [← hinternal]
        exact hback
  · have hr := hoccupied (Int.not_lt.mp hend)
    rw [restFrom_of_occupied hr]
    cases wasOff with
    | true =>
        refine ⟨(s.cursors.setPosition base.cursorCount r).addTraversingCursor base.cursorCount,
          by simp [moveCursor, hnext, hend], (hextends.setPosition _).add,
          Or.inr ⟨r, hr, rfl, ?_, ?_⟩⟩
        · show Traversal.position _ base.cursorCount = _
          rw [Traversal.addTraversingCursor_position]
          exact hposition r
        · have hadds := hset r
          rw [← hinternal] at hadds hnew ⊢
          refine Traversal.Listed.add hadds hnew ?_
          show base.cursorCount < s.cursors.cursorCount
          rw [hextends.total]
          omega
    | false =>
        exact ⟨s.cursors.setPosition base.cursorCount r, by simp [moveCursor, hnext, hend],
          hextends.setPosition _, Or.inr ⟨r, hr, rfl, hposition r, hset r⟩⟩

end SparseContainer

namespace SparseSet

open SparseContainer SparseStorage

variable {K : Type} {gen : SparseGenerics (Key K) K} {E : KeyEquality gen}

theorem exists_itemsUntilAfter {s : SparseSet K} (hs : Stored E (some id) s.toSparseStorage)
    {base : Traversal Int} {rest todo : List Nat} {fuel : Nat}
    (hbase : base.Listed (base.internalCursor :: rest)) (hcursor : OnWay s base rest todo)
    (hfuel : todo.length < fuel) :
    ∃ t, s.itemsUntilAfter base.cursorCount fuel =
        some (todo.map s.key, { s with cursors := t }) ∧ base.OneMore afterPosition t := by
  induction fuel generalizing s todo with
  | zero => exact absurd hfuel (Nat.not_lt_zero _)
  | succ fuel ih =>
      obtain ⟨hextends, ⟨rfl, hafter, hlisted⟩ | ⟨r, hr, rfl, hposition, hlisted⟩⟩ := hcursor
      · refine ⟨s.cursors, by simp [itemsUntilAfter, hafter], ?_⟩
        rw [← hafter]
        exact hextends.oneMore hbase hlisted
      · have hne : s.cursors.position base.cursorCount ≠ afterPosition ∧
            s.cursors.position base.cursorCount ≠ beforePosition := by
          rw [hposition, afterPosition, beforePosition]
          omega
        obtain ⟨t, hmove, hway⟩ := exists_moveCursor (i := r + 1) hs hextends
          (fun hin => Nat.lt_irrefl _ (hbase.2 _ hin)) (by have := hr.1; omega) false hlisted
        obtain ⟨u, hrun, hu⟩ := @ih { s with cursors := t } hs _ hway
          (by simpa using hfuel)
        refine ⟨u, ?_, hu⟩
        have hitem := itemStorageItem_eq hs hr
        have hforth : s.cursorForth base.cursorCount = some { s with cursors := t } := by
          rw [cursorForth, if_neg hne.2, hposition]
          exact hmove
        rw [itemsUntilAfter, if_neg hne.1, hposition]
        simp [hitem, hforth, hrun]

/-- A new cursor meets every item once, and is left after and not listed; nothing else
changes. -/
theorem exists_traverse {s : SparseSet K} (hs : Stored E (some id) s.toSparseStorage)
    {cs : List Nat} (hcs : s.cursors.Listed cs) :
    ∃ t, s.traverse = some (s.positions.map s.key, { s with cursors := t }) ∧
      s.cursors.OneMore afterPosition t := by
  obtain ⟨rest, rfl⟩ := hcs.exists_cons
  let c := s.cursors.cursorCount
  let s₁ : SparseSet K := { s with cursors := (s.cursors.newCursor beforePosition).1 }
  have hextends : s.cursors.Extends rest s₁.cursors := .newCursor _ _ _
  have hlisted : s₁.cursors.Listed (s.cursors.internalCursor :: rest) :=
    hcs.newCursor beforePosition
  have hbefore : s₁.cursors.position c = beforePosition := Function.update_self _ _ _
  have hstart : ∃ t, s₁.cursorStart c = some { s with cursors := t } ∧
      OnWay { s with cursors := t } s.cursors rest s.positions := by
    by_cases hzero : s.count = 0
    · have hcount := hs.count_eq
      have hnil : s.positions = [] := length_eq_zero_iff.mp (by omega)
      exact ⟨s₁.cursors.setPosition c afterPosition, if_pos hzero, hextends.setPosition _,
        Or.inl ⟨hnil, Function.update_self _ _ _, hlisted⟩⟩
    · have hoff : s₁.cursorOff c = true := by
        simp [cursorOff, hbefore]
      have hlast := hs.last_ge
      obtain ⟨t, hmove, hway⟩ := exists_moveCursor (s := s₁) (i := 0) hs hextends
        (fun hin => Nat.lt_irrefl _ (hcs.2 _ hin))
        (by show (0 : Int) ≤ s.lastPosition + 1; omega) true hlisted
      refine ⟨t, (if_neg hzero).trans (by rw [hoff]; exact hmove), ?_⟩
      have hall : s₁.restFrom 0 = s.positions := filter_eq_self.mpr fun _ _ => by simp
      rw [hall] at hway
      exact hway
  obtain ⟨t, hstart, hway⟩ := hstart
  have hlength : s.positions.length < s.capacity.toNat + 1 := by
    have := hs.count_eq
    have := hs.count_le_capacity
    omega
  obtain ⟨u, hrun, hu⟩ :=
    exists_itemsUntilAfter (s := { s with cursors := t }) hs hcs hway hlength
  refine ⟨u, ?_, hu⟩
  rw [SparseContainer.traverse]
  exact bind_of_some hstart hrun

variable [DecidableEq K]

/-- A sparse set as the other set. -/
def asOther (gen : SparseGenerics (Key K) K) : OtherSet K (SparseSet K) where
  count := SparseStorage.count ∘ SparseContainer.toSparseStorage
  traverse := SparseContainer.traverse
  has := SparseSet.has gen

theorem lawful_asOther : (asOther gen).Lawful E (WellFormed E (some id))
    fun s => s.positions.map s.key where
  distinct s hs := by
    refine pairwise_map.mpr ((s.positions_nodup).imp_of_mem ?_)
    intro i j hi hj hne
    by_contra hsame
    exact hne (hs.stored.distinct i j ((s.mem_positions i).mp hi) ((s.mem_positions j).mp hj)
      (by simpa using hsame))
  count s hs := by
    rw [length_map]
    exact hs.stored.count_eq
  traverse s hs := by
    obtain ⟨cs, hcs⟩ := hs.cursors
    obtain ⟨t, hrun, ht⟩ := exists_traverse hs.stored hcs
    exact ⟨_, hrun, ⟨hs.stored, hs.tester, hs.position, cs, (ht.listed cs hcs).1⟩, rfl⟩
  has s v hs := by
    obtain ⟨b, t, hrun, hb, ht, hstorage, -⟩ := exists_has hs v
    refine ⟨t, ?_, ht, by rw [hstorage]⟩
    have heq : b = (s.positions.map s.key).any (E.same v) := by
      rw [Bool.eq_iff_iff, hb, any_map, any_eq_true]
      exact exists_congr fun j => and_congr_left' (s.mem_positions j).symm
    rw [← heq]
    exact hrun

end SparseSet

end Gobo
