/-
The cursors of one traversable container (`DS_TRAVERSABLE`).  The container
knows its internal cursor; an external cursor that is on an item is reached
from it along `next_cursor`.
-/
import Gobo.LinkChain
import Gobo.Loop

namespace Gobo

open List Function

variable {P : Type}

/-- The cursor objects of a container.  Cursors are numbered in the order of
their creation; `P` is what a cursor stores as its position. -/
structure Traversal (P : Type) where
  cursorCount : Nat
  internalCursor : Nat
  nextCursor : Nat → Option Nat
  position : Nat → P

namespace Traversal

/-- The internal cursor alone. -/
def make (before : P) : Traversal P where
  cursorCount := 1
  internalCursor := 0
  nextCursor := fun _ => none
  position := fun _ => before

/-- `cs` are the cursors that the container reaches along `next_cursor`. -/
def Listed (t : Traversal P) (cs : List Nat) : Prop :=
  Chain t.nextCursor (some t.internalCursor) cs ∧ ∀ c ∈ cs, c < t.cursorCount

/-- `new_cursor`: a further external cursor, placed `before`. -/
def newCursor (t : Traversal P) (before : P) : Traversal P × Nat := ({ t with
      cursorCount := t.cursorCount + 1
      nextCursor := update t.nextCursor t.cursorCount none
      position := update t.position t.cursorCount before },
    t.cursorCount)

section

variable (t : Traversal P) (aCursor : Nat)

def setPosition (p : P) : Traversal P :=
  { t with position := update t.position aCursor p }

def setNextCursor (next : Option Nat) : Traversal P :=
  { t with nextCursor := update t.nextCursor aCursor next }

def addTraversingCursor : Traversal P :=
  if aCursor ≠ t.internalCursor then
    (t.setNextCursor aCursor (t.nextCursor t.internalCursor)).setNextCursor
      t.internalCursor (some aCursor)
  else t

/-- The search of `remove_traversing_cursor` for a cursor and its predecessor.
A chain longer than the number of cursors never ends. -/
def searchTraversingCursor : Option (Nat × Option Nat) := loopUntil
    (fun c => some (c.2 == some aCursor || c.2 == none))
    (fun c => c.2.map fun current => (current, t.nextCursor current))
    (t.cursorCount + 1)
    (t.internalCursor, t.nextCursor t.internalCursor)

def removeTraversingCursor : Option (Traversal P) :=
  if aCursor ≠ t.internalCursor then do
    let (previousCursor, currentCursor) ← t.searchTraversingCursor aCursor
    if currentCursor = some aCursor then
      return (t.setNextCursor previousCursor (t.nextCursor aCursor)).setNextCursor
        aCursor none
    else
      return t
  else
    some t

end

/-- A loop that does `f` to every listed cursor. -/
theorem loopUntil_walk (f : Traversal P → Nat → Traversal P)
    (hf : ∀ t a c, c ≠ a → (f t a).nextCursor c = t.nextCursor c)
    {t : Traversal P} {start : Option Nat} {cs : List Nat}
    (hcs : Chain t.nextCursor start cs) {fuel : Nat} (hfuel : cs.length < fuel) :
    loopUntil (fun m => some m.2.isNone) (fun m : Traversal P × Option Nat =>
          m.2.map fun a => (f m.1 a, m.1.nextCursor a))
        fuel (t, start) = some (cs.foldl f t, none) := by
  induction cs generalizing t start fuel with
  | nil =>
      obtain ⟨fuel, rfl⟩ : ∃ n, fuel = n + 1 := ⟨fuel - 1, by omega⟩
      obtain rfl : start = none := hcs
      exact loopUntil_of_stop rfl
  | cons a cs ih =>
      obtain ⟨fuel, rfl⟩ : ∃ n, fuel = n + 1 := ⟨fuel - 1, by omega⟩
      obtain ⟨rfl, hrest⟩ := hcs
      have hnew : a ∉ cs := (nodup_cons.mp
        (Chain.nodup (⟨rfl, hrest⟩ : Chain t.nextCursor (some a) (a :: cs)))).1
      have hchain : Chain (f t a).nextCursor (t.nextCursor a) cs := by
        apply hrest.congr
        intro c hc
        apply hf
        rintro rfl
        exact hnew hc
      rw [length_cons] at hfuel
      refine (loopUntil_of_go ?_ ?_).trans (ih hchain (by omega : cs.length < fuel))
      · rfl
      · rfl

/-- A loop that moves the listed cursors with a certain position. -/
theorem Listed.exists_moveAll {t : Traversal P} {cs : List Nat} (h : t.Listed cs)
    (old : P → Prop) [DecidablePred old] (new : P) :
    ∃ t', loopUntil (fun m => some m.2.isNone)
        (fun m : Traversal P × Option Nat => m.2.map fun c =>
          (if old (m.1.position c) then m.1.setPosition c new else m.1,
            m.1.nextCursor c))
        (t.cursorCount + 1) (t, some t.internalCursor) = some (t', none) ∧
      t'.internalCursor = t.internalCursor ∧ t'.cursorCount = t.cursorCount ∧
      t'.Listed cs ∧
      ∀ c, t'.position c =
        if c ∈ cs ∧ old (t.position c) then new else t.position c := by
  let f : Traversal P → Nat → Traversal P := fun t a =>
    if old (t.position a) then t.setPosition a new else t
  have hframe : ∀ t a, (f t a).nextCursor = t.nextCursor ∧
      (f t a).internalCursor = t.internalCursor ∧
      (f t a).cursorCount = t.cursorCount := by
    intro t a
    simp only [f]
    split <;> exact ⟨rfl, rfl, rfl⟩
  have hfold : ∀ (cs : List Nat) (t : Traversal P), cs.Nodup →
      (cs.foldl f t).nextCursor = t.nextCursor ∧
      (cs.foldl f t).internalCursor = t.internalCursor ∧
      (cs.foldl f t).cursorCount = t.cursorCount ∧
      ∀ c, (cs.foldl f t).position c =
        if c ∈ cs ∧ old (t.position c) then new else t.position c := by
    intro cs
    induction cs with
    | nil => exact fun t _ => ⟨rfl, rfl, rfl, fun c => by simp⟩
    | cons a cs ih =>
        intro t hnodup
        obtain ⟨ha, hnodup⟩ := nodup_cons.mp hnodup
        obtain ⟨h₁, h₂, h₃, h₄⟩ := ih (f t a) hnodup
        obtain ⟨g₁, g₂, g₃⟩ := hframe t a
        refine ⟨h₁.trans g₁, h₂.trans g₂, h₃.trans g₃, fun c => ?_⟩
        refine (h₄ c).trans ?_
        by_cases hold : old (t.position a)
        · by_cases hc : c = a
          · subst hc
            simp [f, ha, hold, setPosition]
          · simp [f, hold, setPosition, hc]
        · by_cases hc : c = a
          · subst hc
            simp [f, hold]
          · simp [f, hold, hc]
  have hlength := h.1.length_le h.2
  have hrun := loopUntil_walk f (fun t a c _ => by rw [(hframe t a).1])
    h.1 (by omega : cs.length < t.cursorCount + 1)
  obtain ⟨h₁, h₂, h₃, h₄⟩ := hfold cs t h.1.nodup
  refine ⟨cs.foldl f t, hrun, h₂, h₃, ⟨?_, ?_⟩, h₄⟩
  · rw [h₁, h₂]
    exact h.1
  · rw [h₃]
    exact h.2

section

variable {t : Traversal P} {rest : List Nat} {c : Nat}

@[simp] theorem addTraversingCursor_position :
    (t.addTraversingCursor c).position = t.position := by
  unfold addTraversingCursor
  split <;> rfl

@[simp] theorem addTraversingCursor_internalCursor :
    (t.addTraversingCursor c).internalCursor = t.internalCursor := by
  unfold addTraversingCursor
  split <;> rfl

@[simp] theorem addTraversingCursor_cursorCount :
    (t.addTraversingCursor c).cursorCount = t.cursorCount := by
  unfold addTraversingCursor
  split <;> rfl

/-- The internal cursor is the first listed one. -/
theorem Listed.exists_cons {cs : List Nat} (h : t.Listed cs) :
    ∃ rest, cs = t.internalCursor :: rest := by
  cases cs with
  | nil => exact absurd h.1 (by simp [Chain])
  | cons c rest => exact ⟨rest, by rw [Option.some.inj h.1.1]⟩

/-- A new cursor is not listed. -/
theorem Listed.newCursor {cs : List Nat} (h : t.Listed cs) (before : P) :
    (t.newCursor before).1.Listed cs := by
  refine ⟨h.1.congr ?_, ?_⟩
  · intro d hd
    exact update_of_ne (Nat.ne_of_lt (h.2 d hd)) _ _
  · intro d hd
    exact Nat.lt_succ_of_lt (h.2 d hd)

theorem Listed.add (h : t.Listed (t.internalCursor :: rest))
    (hc : c ∉ t.internalCursor :: rest) (hlt : c < t.cursorCount) :
    (t.addTraversingCursor c).Listed (t.internalCursor :: c :: rest) := by
  have hne : c ≠ t.internalCursor := fun heq => hc (heq ▸ mem_cons_self)
  refine ⟨?_, ?_⟩
  · rw [addTraversingCursor_internalCursor, addTraversingCursor, if_pos hne]
    have hchain : Chain t.nextCursor (some t.internalCursor)
        ([] ++ t.internalCursor :: rest) := h.1
    exact hchain.insertAfter hc
  · intro d hd
    rw [addTraversingCursor_cursorCount]
    rcases mem_cons.mp hd with rfl | hd
    · exact h.2 _ mem_cons_self
    rcases mem_cons.mp hd with rfl | hd
    · exact hlt
    · exact h.2 d (mem_cons_of_mem _ hd)

/-- The search ends at the cursor or at the end of the list. -/
theorem exists_searchLoop (c : Nat) {p : Nat} (h : Chain t.nextCursor (some p) (p :: rest))
    {fuel : Nat} (hfuel : rest.length < fuel) :
    ∃ previous, loopUntil (fun m => some (m.2 == some c || m.2 == none))
        (fun m : Nat × Option Nat => m.2.map fun current => (current, t.nextCursor current))
        fuel (p, t.nextCursor p) = some (previous, if c ∈ rest then some c else none) ∧
      (c ∈ rest → ∃ front back, p :: rest = front ++ previous :: c :: back) := by
  induction rest generalizing p fuel with
  | nil =>
      obtain ⟨fuel, rfl⟩ : ∃ n, fuel = n + 1 := ⟨fuel - 1, by omega⟩
      have hnext : t.nextCursor p = none := h.2
      refine ⟨p, (loopUntil_of_stop ?_).trans ?_, fun hc => absurd hc not_mem_nil⟩
      · simp [hnext]
      · simp [hnext]
  | cons d rest ih =>
      obtain ⟨fuel, rfl⟩ : ∃ n, fuel = n + 1 := ⟨fuel - 1, by omega⟩
      have hnext : t.nextCursor p = some d := h.2.1
      by_cases hd : d = c
      · subst hd
        refine ⟨p, (loopUntil_of_stop ?_).trans ?_, fun _ => ⟨[], rest, rfl⟩⟩
        · simp [hnext]
        · simp [hnext]
      · have htail : Chain t.nextCursor (some d) (d :: rest) := ⟨rfl, h.2.2⟩
        rw [length_cons] at hfuel
        obtain ⟨previous, hrun, hsplit⟩ := ih htail (by omega : rest.length < fuel)
        have hmem : c ∈ d :: rest ↔ c ∈ rest := by
          simp [Ne.symm hd]
        refine ⟨previous, (loopUntil_of_go ?_ ?_).trans (hrun.trans ?_), ?_⟩
        · simp [hnext, hd]
        · simp [hnext]
        · simp only [hmem]
        · intro hc
          obtain ⟨front, back, heq⟩ := hsplit (hmem.mp hc)
          exact ⟨p :: front, back, by rw [heq, cons_append]⟩

/-- What is known of the cursors after one is unregistered. -/
structure Removed (t : Traversal P) (c : Nat) (rest : List Nat) (t' : Traversal P) :
    Prop where
  position : t'.position = t.position
  internal : t'.internalCursor = t.internalCursor
  total : t'.cursorCount = t.cursorCount
  listed : t'.Listed (t.internalCursor :: rest.erase c)
  next : ∀ d, d ∉ t.internalCursor :: rest → t'.nextCursor d = t.nextCursor d

theorem Listed.exists_remove (h : t.Listed (t.internalCursor :: rest)) (c : Nat) :
    ∃ t', t.removeTraversingCursor c = some t' ∧ Removed t c rest t' := by
  have hnodup := h.1.nodup
  by_cases hinternal : c = t.internalCursor
  · subst hinternal
    have herase : rest.erase t.internalCursor = rest :=
      erase_of_not_mem (nodup_cons.mp hnodup).1
    refine ⟨t, by simp [removeTraversingCursor], rfl, rfl, rfl, ?_, fun _ _ => rfl⟩
    rw [herase]
    exact h
  · have hlength := h.1.length_le h.2
    rw [length_cons] at hlength
    obtain ⟨previous, hrun, hsplit⟩ := exists_searchLoop c h.1
      (by omega : rest.length < t.cursorCount + 1)
    by_cases hc : c ∈ rest
    · obtain ⟨front, back, heq⟩ := hsplit hc
      rw [if_pos hc] at hrun
      have hnot : c ∉ front ++ previous :: back ∧ c ∉ front ++ [previous] := by
        rw [heq, append_cons, nodup_middle, nodup_cons] at hnodup
        refine ⟨by simpa using hnodup.1, ?_⟩
        intro hmem
        exact hnodup.1 (mem_append_left _ hmem)
      have herase : t.internalCursor :: rest.erase c = front ++ previous :: back := by
        rw [← erase_cons_tail (by simpa using Ne.symm hinternal), heq,
          append_cons, erase_append_right _ hnot.2, erase_cons_head,
          ← append_cons]
      have hchain := h.1
      rw [heq] at hchain
      refine ⟨(t.setNextCursor previous (t.nextCursor c)).setNextCursor c none, ?_, rfl,
        rfl, rfl, ⟨?_, ?_⟩, ?_⟩
      · rw [removeTraversingCursor, if_pos hinternal, searchTraversingCursor, hrun]
        simp
      · rw [herase]
        exact hchain.unlink.update_of_notMem hnot.1
      · intro d hd
        rcases mem_cons.mp hd with rfl | hd
        · exact h.2 _ mem_cons_self
        · exact h.2 d (mem_cons_of_mem _ (mem_of_mem_erase hd))
      · intro d hd
        rw [heq] at hd
        simp only [mem_append, mem_cons, not_or] at hd
        exact (update_of_ne hd.2.2.1 _ _).trans (update_of_ne hd.2.1 _ _)
    · rw [if_neg hc] at hrun
      refine ⟨t, ?_, rfl, rfl, rfl, ?_, fun _ _ => rfl⟩
      · rw [removeTraversingCursor, if_pos hinternal, searchTraversingCursor, hrun]
        simp
      · rw [erase_of_not_mem hc]
        exact h

/-- `t'` has one cursor more than `t`, which is at `p` and not listed; the others are as they
were. -/
structure OneMore (t : Traversal P) (p : P) (t' : Traversal P) : Prop where
  internal : t'.internalCursor = t.internalCursor
  total : t'.cursorCount = t.cursorCount + 1
  newPosition : t'.position t.cursorCount = p
  position : ∀ d < t.cursorCount, t'.position d = t.position d
  next : ∀ d < t.cursorCount, t'.nextCursor d = t.nextCursor d
  listed : ∀ cs, t.Listed cs → t'.Listed cs ∧ t.cursorCount ∉ cs

/-- The cursors of `base` are in `t` as they were, but for the links among the listed ones. -/
structure Extends (base : Traversal P) (rest : List Nat) (t : Traversal P) : Prop where
  internal : t.internalCursor = base.internalCursor
  total : t.cursorCount = base.cursorCount + 1
  position : ∀ d < base.cursorCount, t.position d = base.position d
  next : ∀ d < base.cursorCount, d ∉ base.internalCursor :: rest →
    t.nextCursor d = base.nextCursor d

namespace Extends

variable {base : Traversal P}

theorem newCursor (t : Traversal P) (rest : List Nat) (before : P) :
    Extends t rest (t.newCursor before).1 where
  internal := rfl
  total := rfl
  position _ hd := update_of_ne (Nat.ne_of_lt hd) _ _
  next _ hd _ := update_of_ne (Nat.ne_of_lt hd) _ _

theorem setPosition (h : Extends base rest t) (p : P) :
    Extends base rest (t.setPosition base.cursorCount p) where
  internal := h.internal
  total := h.total
  position d hd := (update_of_ne (Nat.ne_of_lt hd) _ _).trans (h.position d hd)
  next := h.next

theorem add (h : Extends base rest t) :
    Extends base rest (t.addTraversingCursor base.cursorCount) := by
  refine ⟨?_, ?_, ?_, fun d hd hnot => ?_⟩
  · exact addTraversingCursor_internalCursor.trans h.internal
  · exact addTraversingCursor_cursorCount.trans h.total
  · rw [addTraversingCursor_position]
    exact h.position
  · have hd' : d ≠ t.internalCursor := by
      rw [h.internal]
      exact fun heq => hnot (heq ▸ mem_cons_self)
    rw [addTraversingCursor]
    split
    · exact (update_of_ne hd' _ _).trans
        ((update_of_ne (Nat.ne_of_lt hd) _ _).trans (h.next d hd hnot))
    · exact h.next d hd hnot

theorem remove {t' : Traversal P} (h : Extends base rest t)
    (ht : Removed t base.cursorCount (base.cursorCount :: rest) t') : Extends base rest t' where
  internal := ht.internal.trans h.internal
  total := ht.total.trans h.total
  position d hd := (congrFun ht.position d).trans (h.position d hd)
  next d hd hnot := by
    refine (ht.next d ?_).trans (h.next d hd hnot)
    rw [h.internal]
    simp only [mem_cons, not_or] at hnot ⊢
    exact ⟨hnot.1, Nat.ne_of_lt hd, hnot.2⟩

/-- When the same cursors are listed again, their links are as they were. -/
theorem oneMore (h : Extends base rest t) (hbase : base.Listed (base.internalCursor :: rest))
    (ht : t.Listed (base.internalCursor :: rest)) :
    OneMore base (t.position base.cursorCount) t := by
  refine ⟨h.internal, h.total, rfl, h.position, fun d hd => ?_, fun cs hcs => ?_⟩
  · by_cases hlisted : d ∈ base.internalCursor :: rest
    · obtain ⟨front, back, heq⟩ := append_of_mem hlisted
      rw [Listed, heq] at hbase ht
      exact ht.1.next_eq.trans hbase.1.next_eq.symm
    · exact h.next d hd hlisted
  · obtain rfl := hbase.1.unique hcs.1
    exact ⟨ht, fun hin => Nat.lt_irrefl _ (hbase.2 _ hin)⟩

end Extends

end

end Traversal

end Gobo
