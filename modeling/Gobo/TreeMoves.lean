/-
Moving one cursor of a binary search tree: which moves keep every cursor that is
on a node registered.
-/
import Gobo.TreeCursors
import Gobo.TreeInsertion

namespace Gobo

open Option List

variable {G K M : Type} {gen : TreeGenerics G K}

namespace TreeContainer

/-- The cursors that are on nodes are the registered ones, and their nodes are
among `ids`. -/
structure Settled (t : Traversal TreePosition) (ids : List Nat) : Prop where
  registered : ∃ cs, Registered t cs
  tracked : Tracked t ids

section

variable {t t' : Traversal TreePosition} {ids rest : List Nat} {c i : Nat}
  {p : TreePosition}

theorem Settled.exists_rest (h : Settled t ids) : ∃ rest,
    Registered t (t.internalCursor :: rest) ∧ t.internalCursor ∉ rest := by
  obtain ⟨cs, hcs⟩ := h.registered
  obtain ⟨rest, rfl⟩ := hcs.listed.exists_cons
  exact ⟨rest, hcs, (nodup_cons.mp hcs.listed.1.nodup).1⟩

/-- A cursor that is off is not in the list, unless it is the internal one. -/
theorem Registered.notMem_of_off (h : Registered t (t.internalCursor :: rest))
    (hnew : t.internalCursor ∉ rest) (hoff : (t.position c).off = true) : c ∉ rest := by
  intro hc
  apply h.onNode c (mem_cons_of_mem _ hc)
  · rintro rfl
    exact hnew hc
  · exact TreePosition.off_iff.mp hoff

theorem position_setPosition (d : Nat) :
    (t.setPosition c p).position d = if d = c then p else t.position d :=
  Function.update_apply t.position c p d

/-- A cursor moves without being registered or unregistered. -/
theorem Settled.setPosition (h : Settled t ids)
    (hp : ∀ i, p.position = some i → i ∈ ids)
    (hc : c = t.internalCursor ∨ (t.position c).off = p.off)
    (hlt : c < t.cursorCount) : Settled (t.setPosition c p) ids := by
  obtain ⟨rest, hrest, -⟩ := h.exists_rest
  refine ⟨⟨_, hrest.listed, ?_⟩, ?_, ?_⟩
  · intro d hd hne
    rw [position_setPosition]
    split
    · next heq =>
        subst heq
        have hon : (t.position d).off = false :=
          TreePosition.off_eq_false_iff.mpr (hrest.onNode d hd hne)
        rw [← TreePosition.off_eq_false_iff, ← hc.resolve_left hne, hon]
    · exact hrest.onNode d hd hne
  · intro cs hcs d hd hon
    rw [position_setPosition] at hon
    split at hon
    · next heq =>
        subst heq
        rcases hc with rfl | hc
        · obtain rfl := hcs.1.unique hrest.listed.1
          exact mem_cons_self
        · exact h.tracked.listed cs hcs d hd (hc.trans hon)
    · exact h.tracked.listed cs hcs d hd hon
  · intro d hd j hj
    rw [position_setPosition] at hj
    split at hj
    · exact hp j hj
    · exact h.tracked.inTree d hd j hj

/-- A cursor that was off goes to a node and is registered. -/
theorem Settled.add (h : Settled t ids) (hi : i ∈ ids)
    (hoff : (t.position c).off = true) (hlt : c < t.cursorCount) :
    Settled ((t.setPosition c (.on i)).addTraversingCursor c) ids := by
  have hp : ∀ j, (TreePosition.on i).position = some j → j ∈ ids := by
    intro j hj
    rwa [← some.inj hj]
  by_cases hinternal : c = t.internalCursor
  · have hsame : (t.setPosition c (.on i)).addTraversingCursor c =
        t.setPosition c (.on i) := if_neg (not_not_intro hinternal)
    rw [hsame]
    exact h.setPosition hp (Or.inl hinternal) hlt
  obtain ⟨rest, hrest, hnew⟩ := h.exists_rest
  have hc : c ∉ t.internalCursor :: rest := by
    rw [mem_cons, not_or]
    exact ⟨hinternal, hrest.notMem_of_off hnew hoff⟩
  have hlisted : ((t.setPosition c (.on i)).addTraversingCursor c).Listed
      (t.internalCursor :: c :: rest) :=
    Traversal.Listed.add (t := t.setPosition c (.on i)) hrest.listed hc hlt
  refine ⟨⟨_, hlisted, ?_⟩, ?_, ?_⟩
  · intro d hd hne
    rw [Traversal.addTraversingCursor_internalCursor] at hne
    rw [Traversal.addTraversingCursor_position, position_setPosition]
    split
    · exact some_ne_none i
    · next hdc =>
        apply hrest.onNode d _ hne
        simpa [hdc] using hd
  · intro cs hcs d hd hon
    obtain rfl := hcs.1.unique hlisted.1
    rw [Traversal.addTraversingCursor_cursorCount] at hd
    rw [Traversal.addTraversingCursor_position, position_setPosition] at hon
    split at hon
    · next heq => simp [heq]
    · have hmem := h.tracked.listed _ hrest.listed d hd hon
      simp only [mem_cons] at hmem ⊢
      exact hmem.imp_right Or.inr
  · intro d hd j hj
    rw [Traversal.addTraversingCursor_cursorCount] at hd
    rw [Traversal.addTraversingCursor_position, position_setPosition] at hj
    split at hj
    · exact hp j hj
    · exact h.tracked.inTree d hd j hj

/-- A cursor goes off and is unregistered. -/
theorem Settled.remove (h : Settled t ids)
    (hrest : Registered t (t.internalCursor :: rest))
    (hp : p.off = true ∨ c = t.internalCursor)
    (hids : ∀ i, p.position = some i → i ∈ ids)
    (ht' : Traversal.Removed (t.setPosition c p) c rest t') : Settled t' ids := by
  have hposition : ∀ d, t'.position d = if d = c then p else t.position d := by
    intro d
    rw [ht'.position, position_setPosition]
  have hinternal : t'.internalCursor = t.internalCursor := ht'.internal
  have htotal : t'.cursorCount = t.cursorCount := ht'.total
  have hnodup := (nodup_cons.mp hrest.listed.1.nodup).2
  refine ⟨⟨_, ht'.listed, ?_⟩, ?_, ?_⟩
  · intro d hd hne
    rw [hinternal] at hne
    have hd' := (mem_cons.mp hd).resolve_left hne
    have hdc : d ≠ c := by
      rintro rfl
      exact (List.Nodup.mem_erase_iff hnodup).mp hd' |>.1 rfl
    rw [hposition, if_neg hdc]
    exact hrest.onNode d (mem_cons_of_mem _ (mem_of_mem_erase hd')) hne
  · intro cs hcs d hd hon
    have hlisted := ht'.listed.1
    obtain rfl := hcs.1.unique hlisted
    rw [hposition] at hon
    rw [htotal] at hd
    show d ∈ t.internalCursor :: rest.erase c
    split at hon
    · next heq =>
        rcases hp with hoff | hinternal
        · rw [hoff] at hon
          exact absurd hon.symm Bool.false_ne_true
        · rw [heq, hinternal]
          exact mem_cons_self
    · next hdc =>
        have hmem := h.tracked.listed _ hrest.listed d hd hon
        rw [mem_cons] at hmem ⊢
        exact hmem.imp_right fun hmem => (mem_erase_of_ne hdc).mpr hmem
  · intro d hd j hj
    rw [htotal] at hd
    rw [hposition] at hj
    split at hj
    · exact hids j hj
    · exact h.tracked.inTree d hd j hj

/-- A new cursor is off and is not registered. -/
theorem Settled.newCursor (h : Settled t ids) :
    Settled (t.newCursor (.away true)).1 ids := by
  obtain ⟨rest, hrest, -⟩ := h.exists_rest
  have hne : ∀ d ∈ t.internalCursor :: rest, d ≠ t.cursorCount :=
    fun d hd => Nat.ne_of_lt (hrest.listed.2 d hd)
  have hsame : ∀ d, d ≠ t.cursorCount →
      (t.newCursor (.away true)).1.position d = t.position d :=
    fun d hd => Function.update_of_ne hd _ _
  have hnew : (t.newCursor (.away true)).1.position t.cursorCount = .away true :=
    Function.update_self _ _ _
  have hlisted : (t.newCursor (.away true)).1.Listed (t.internalCursor :: rest) := by
    refine ⟨hrest.listed.1.congr ?_, ?_⟩
    · intro d hd
      exact Function.update_of_ne (hne d hd) _ _
    · intro d hd
      exact Nat.lt_succ_of_lt (hrest.listed.2 d hd)
  refine ⟨⟨_, hlisted, ?_⟩, ?_, ?_⟩
  · intro d hd hinternal
    rw [hsame d (hne d hd)]
    exact hrest.onNode d hd hinternal
  · intro cs hcs d hd hon
    obtain rfl := hcs.1.unique hlisted.1
    rcases Nat.lt_succ_iff_lt_or_eq.mp hd with hd | rfl
    · rw [hsame d (Nat.ne_of_lt hd)] at hon
      exact h.tracked.listed _ hrest.listed d hd hon
    · rw [hnew] at hon
      cases hon
  · intro d hd i hi
    rcases Nat.lt_succ_iff_lt_or_eq.mp hd with hd | rfl
    · rw [hsame d (Nat.ne_of_lt hd)] at hi
      exact h.tracked.inTree d hd i hi
    · rw [hnew] at hi
      cases hi

end

/-- `op` only changes the cursors, and they stay settled. -/
def Moved (s : TreeContainer G K M) (ids : List Nat)
    (op : Option (TreeContainer G K M)) : Prop :=
  ∃ t, op = some { s with cursors := t } ∧ Settled t ids ∧
    t.cursorCount = s.cursors.cursorCount

section

variable {s : TreeContainer G K M} {ids : List Nat} {c i : Nat}

section

variable (hs : Settled s.cursors ids)

include hs

theorem moved_goAway (before : Bool) :
    Moved s ids (s.cursorGoAway before c) := by
  obtain ⟨rest, hrest, hnew⟩ := hs.exists_rest
  obtain ⟨t, hrun, ht⟩ :=
    exists_cursorGoAway hrest.listed before fun hoff => hrest.notMem_of_off hnew hoff
  exact ⟨t, hrun, hs.remove hrest (Or.inl (TreePosition.off_away before))
    (by simp) ht, ht.total⟩

theorem moved_goOn (hc : c < s.cursors.cursorCount)
    (hi : i ∈ ids) : Moved s ids (some (s.cursorGoOn c i)) := by
  by_cases hoff : (s.cursorPosition c).off = true
  · refine ⟨_, ?_, hs.add hi hoff hc, ?_⟩
    · rw [cursorGoOn, if_pos hoff]
      rfl
    · rw [Traversal.addTraversingCursor_cursorCount]
      rfl
  · refine ⟨s.cursors.setPosition c (.on i), ?_, ?_, rfl⟩
    · rw [cursorGoOn, if_neg hoff]
      rfl
    · apply hs.setPosition _ (Or.inr _) hc
      · intro j hj
        rwa [← some.inj hj]
      · rw [TreePosition.off_on]
        simpa [cursorPosition] using hoff

/-- A move from `off` to a node or away. -/
theorem moved_fromOff (hc : c < s.cursors.cursorCount)
    (hoff : (s.cursorPosition c).off = true) (before : Bool) {target : Option Nat}
    (htarget : ∀ i, target = some i → i ∈ ids) :
    Moved s ids (s.cursorMove before c false true target) := by
  cases target with
  | none =>
      refine ⟨s.cursors.setPosition c (.away before), rfl, ?_, rfl⟩
      exact hs.setPosition (by simp) (Or.inr (by simpa [cursorPosition] using hoff)) hc
  | some i =>
      refine ⟨(s.cursors.setPosition c (.on i)).addTraversingCursor c, rfl,
        hs.add (htarget i rfl) hoff hc, ?_⟩
      rw [Traversal.addTraversingCursor_cursorCount]
      rfl

/-- A move from a node away, or of the internal cursor, that unregisters. -/
theorem moved_unregistered (before addCursor : Bool)
    {target : Option Nat} (htarget : ∀ i, target = some i → i ∈ ids)
    (hadd : (addCursor && target.isSome) = false)
    (haway : target = none ∨ c = s.cursors.internalCursor) :
    Moved s ids (s.cursorMove before c true addCursor target) := by
  obtain ⟨rest, hrest, -⟩ := hs.exists_rest
  let p := target.elim (TreePosition.away before) TreePosition.on
  have hset : (s.cursors.setPosition c p).Listed
      ((s.cursors.setPosition c p).internalCursor :: rest) := hrest.listed
  obtain ⟨t, hrun, ht⟩ := hset.exists_remove c
  refine ⟨t, ?_, hs.remove hrest ?_ ?_ ht, ht.total⟩
  · rw [cursorMove, hadd]
    cases target <;> exact bind_of_some hrun rfl
  · rcases haway with rfl | hinternal
    · exact Or.inl (TreePosition.off_away before)
    · exact Or.inr hinternal
  · cases target with
    | none => simp [p]
    | some i =>
        intro j hj
        exact htarget j hj

/-- A move from a node to a node that leaves the cursor registered. -/
theorem moved_toNode (hc : c < s.cursors.cursorCount)
    (hon : (s.cursorPosition c).off = false ∨ c = s.cursors.internalCursor)
    (hi : i ∈ ids) : Moved s ids (some (s.setPosition c i)) := by
  refine ⟨s.cursors.setPosition c (.on i), rfl, ?_, rfl⟩
  apply hs.setPosition _ _ hc
  · intro j hj
    rwa [← some.inj hj]
  · rcases hon with hon | hinternal
    · exact Or.inr (by simpa [cursorPosition, TreePosition.off_on] using hon)
    · exact Or.inl hinternal

theorem moved_forth_on (hc : c < s.cursors.cursorCount)
    (before : Bool) {target : Option Nat} (htarget : ∀ i, target = some i → i ∈ ids)
    (hon : (s.cursorPosition c).off = false ∨ c = s.cursors.internalCursor) :
    Moved s ids (s.cursorMove before c true true target) := by
  cases target with
  | none => exact moved_unregistered hs before true (by simp) rfl (Or.inl rfl)
  | some i => exact moved_toNode hs hc hon (htarget i rfl)

end

end

/-! ### The moves -/

/-- The routines that move one cursor, and the creation of one. -/
inductive CursorCommand (K : Type) where
  | newCursor
  | start (c : Nat)
  | finish (c : Nat)
  | forth (c : Nat)
  | back (c : Nat)
  | goTo (c other : Nat)
  | goBefore (c : Nat)
  | goAfter (c : Nat)
  | goAtOrBeforeKey (c : Nat) (k : Option K)
  | goAtOrAfterKey (c : Nat) (k : Option K)

def move (gen : TreeGenerics G K) (s : TreeContainer G K M) :
    CursorCommand K → Option (TreeContainer G K M)
  | .newCursor => some s.newCursor
  | .start c => s.cursorStart c
  | .finish c => s.cursorFinish c
  | .forth c => s.cursorForth c
  | .back c => s.cursorBack c
  | .goTo c other => s.cursorGoTo c other
  | .goBefore c => s.cursorGoBefore c
  | .goAfter c => s.cursorGoAfter c
  | .goAtOrBeforeKey c k => s.cursorGoAtOrBeforeKey gen c k
  | .goAtOrAfterKey c k => s.cursorGoAtOrAfterKey gen c k

/-- The cursor is one of the container. -/
def HasCursor (s : TreeContainer G K M) (c : Nat) : Prop :=
  c < s.cursors.cursorCount

/-- The documented preconditions. -/
def PreMove (s : TreeContainer G K M) : CursorCommand K → Prop
  | .newCursor => True
  | .start c => s.HasCursor c
  | .finish c => s.HasCursor c
  | .forth c => s.HasCursor c ∧ (s.cursorPosition c).isAfter = false
  | .back c => s.HasCursor c ∧ (s.cursorPosition c).isBefore = false
  | .goTo c other => s.HasCursor c ∧ s.HasCursor other
  | .goBefore c => s.HasCursor c
  | .goAfter c => s.HasCursor c
  | .goAtOrBeforeKey c _ => s.HasCursor c
  | .goAtOrAfterKey c _ => s.HasCursor c

/-- The cursor is `off`, and is not the internal one. -/
def IsUnregistered (s : TreeContainer G K M) (c : Nat) : Prop :=
  (s.cursorPosition c).off = true ∧ c ≠ s.cursors.internalCursor

/-- The node where the search for the place of a key ends. -/
def insertPosition (gen : TreeGenerics G K) (s : TreeContainer G K M) (k : K) :
    Option Nat :=
  (s.searchInsertPosition gen (some k)).bind fun s => s.foundNode

/-- The move registers the cursor if it ends on a node: `back` does so from
`off` only, and `go_at_or_before_key` and `go_at_or_after_key` leave the cursor
as it was, unless they end with a step away from the first or last node. -/
def Registers (gen : TreeGenerics G K) (s : TreeContainer G K M) :
    CursorCommand K → Prop
  | .back c => (s.cursorPosition c).off = true ∨ c = s.cursors.internalCursor ∨
      (s.cursorPosition c).position = s.firstNode
  | .goAtOrBeforeKey c (some k) => s.isEmpty ∨ c = s.cursors.internalCursor ∨
      ∀ i, s.insertPosition gen k = some i →
        if s.isBeyond gen k i then some i = s.firstNode else ¬ s.IsUnregistered c
  | .goAtOrAfterKey c none => s.isEmpty ∨ ¬ s.IsUnregistered c
  | .goAtOrAfterKey c (some k) => s.isEmpty ∨ ¬ s.IsUnregistered c ∨
      ∀ i, s.insertPosition gen k = some i →
        s.isShort gen k i = true ∧ some i = s.lastNode
  | _ => True

section

variable {s : TreeContainer G K M} {T : Tree M} {c : Nat}

section

variable (hs : Sound gen s T)

include hs

theorem Sound.setCursors {t : Traversal TreePosition}
    (ht : ∃ cs, Registered t cs) : Sound gen { s with cursors := t } T where
  toOrdered := ⟨hs.holds, hs.sorted, hs.keyed, hs.first, hs.last⟩
  count := hs.count
  found := hs.found
  cursors := ht

theorem Sound.first_mem : ∀ i, s.firstNode = some i → i ∈ T.ids := by
  intro i hi
  rw [hs.first] at hi
  exact mem_of_head? hi

theorem Sound.last_mem : ∀ i, s.lastNode = some i → i ∈ T.ids := by
  intro i hi
  rw [hs.last] at hi
  exact mem_of_getLast? hi

/-- The successor of a node of the tree is one as well, if there is one. -/
theorem Sound.exists_successor {i : Nat} (hi : i ∈ T.ids) :
    ∃ next, s.successorForCursor i = some next ∧ (∀ j, next = some j → j ∈ T.ids) ∧
      (some i = s.lastNode → next = none) := by
  obtain ⟨front, back, hids⟩ := append_of_mem hi
  refine ⟨back.head?, hs.holds.successor hids, ?_, ?_⟩
  · intro j hj
    rw [hids]
    exact mem_append_right _ (mem_cons_of_mem _ (mem_of_head? hj))
  · intro hlast
    rw [hs.last, hids] at hlast
    cases back with
    | nil => rfl
    | cons j back =>
        rw [getLast?_append_cons, getLast?_cons_cons] at hlast
        have hmem : i ∈ j :: back := mem_of_getLast? hlast.symm
        have hnodup := hs.holds.nodup
        rw [hids, nodup_middle, nodup_cons] at hnodup
        exact absurd (mem_append_right front hmem) hnodup.1

theorem Sound.exists_predecessor {i : Nat} (hi : i ∈ T.ids) :
    ∃ next, s.predecessorForCursor i = some next ∧ (∀ j, next = some j → j ∈ T.ids) ∧
      (some i = s.firstNode → next = none) := by
  obtain ⟨front, back, hids⟩ := append_of_mem hi
  refine ⟨front.getLast?, hs.holds.predecessor hids, ?_, ?_⟩
  · intro j hj
    rw [hids]
    exact mem_append_left _ (mem_of_getLast? hj)
  · intro hfirst
    rw [hs.first, hids] at hfirst
    cases front with
    | nil => rfl
    | cons j front =>
        obtain rfl : i = j := some.inj hfirst
        have hnodup := hs.holds.nodup
        rw [hids, cons_append, nodup_cons] at hnodup
        exact absurd (mem_append_right front mem_cons_self) hnodup.1

theorem moved_forth (ht : Settled s.cursors T.ids)
    (hc : c < s.cursors.cursorCount) : Moved s T.ids (s.cursorForth c) := by
  cases hposition : (s.cursorPosition c).position with
  | none =>
      rw [cursorForth, hposition]
      exact moved_fromOff ht hc (TreePosition.off_iff.mpr hposition) false hs.first_mem
  | some i =>
      have hon : (s.cursorPosition c).off = false := by
        rw [TreePosition.off_eq_false_iff, hposition]
        exact some_ne_none i
      obtain ⟨next, hrun, hnext, -⟩ := hs.exists_successor (ht.tracked.inTree c hc i hposition)
      rw [cursorForth, hposition]
      simp only [hrun, some_bind]
      exact moved_forth_on ht hc false hnext (Or.inl hon)

theorem moved_back (ht : Settled s.cursors T.ids)
    (hc : c < s.cursors.cursorCount)
    (hregisters : (s.cursorPosition c).off = true ∨ c = s.cursors.internalCursor ∨
      (s.cursorPosition c).position = s.firstNode) :
    Moved s T.ids (s.cursorBack c) := by
  cases hposition : (s.cursorPosition c).position with
  | none =>
      rw [cursorBack, hposition]
      exact moved_fromOff ht hc (TreePosition.off_iff.mpr hposition) true hs.last_mem
  | some i =>
      obtain ⟨next, hrun, hnext, hfirst⟩ :=
        hs.exists_predecessor (ht.tracked.inTree c hc i hposition)
      rw [cursorBack, hposition]
      simp only [hrun, some_bind]
      apply moved_unregistered ht true false hnext rfl
      rcases hregisters with hoff | hinternal | heq
      · rw [TreePosition.off_iff, hposition] at hoff
        cases hoff
      · exact Or.inr hinternal
      · exact Or.inl (hfirst (hposition.symm.trans heq))

end

theorem not_isUnregistered : ¬ s.IsUnregistered c ↔
    (s.cursorPosition c).off = false ∨ c = s.cursors.internalCursor := by
  rw [IsUnregistered, not_and_or, not_not, Bool.not_eq_true]

/-- A cursor that is moved once more might as well be moved once. -/
theorem cursorMove_setPosition (s : TreeContainer G K M) (before : Bool) (c i : Nat)
    (hasCursor addCursor : Bool) (target : Option Nat) :
    (s.setPosition c i).cursorMove before c hasCursor addCursor target =
      s.cursorMove before c hasCursor addCursor target := by
  have hset : ∀ p, (s.cursors.setPosition c (.on i)).setPosition c p =
      s.cursors.setPosition c p := by
    intro p
    simp [Traversal.setPosition, Function.update_idem]
  cases target with
  | none => simp only [cursorMove, Option.elim, setBefore, setPosition, hset]
  | some j => simp only [cursorMove, Option.elim, setPosition, hset]

theorem moved_back_from (hs : Sound gen s T) (ht : Settled s.cursors T.ids) {i : Nat}
    (hi : i ∈ T.ids)
    (hregisters : some i = s.firstNode ∨ c = s.cursors.internalCursor) :
    Moved s T.ids ((s.setPosition c i).cursorBack c) := by
  have hposition : ((s.setPosition c i).cursorPosition c).position = some i := by
    rw [cursorPosition, setPosition, position_setPosition, if_pos rfl]
    rfl
  obtain ⟨next, hrun, hnext, hfirst⟩ := hs.exists_predecessor hi
  have hrun' : (s.setPosition c i).predecessorForCursor i = some next := hrun
  rw [cursorBack, hposition]
  simp only [hrun', some_bind, cursorMove_setPosition]
  exact moved_unregistered ht true false hnext rfl (hregisters.imp_left hfirst)

theorem moved_forth_from (hs : Sound gen s T) (ht : Settled s.cursors T.ids)
    (hc : c < s.cursors.cursorCount) {i : Nat} (hi : i ∈ T.ids)
    (hregisters : some i = s.lastNode ∨ ¬ s.IsUnregistered c) :
    Moved s T.ids ((s.setPosition c i).cursorForth c) := by
  have hposition : ((s.setPosition c i).cursorPosition c).position = some i := by
    rw [cursorPosition, setPosition, position_setPosition, if_pos rfl]
    rfl
  obtain ⟨next, hrun, hnext, hlast⟩ := hs.exists_successor hi
  have hrun' : (s.setPosition c i).successorForCursor i = some next := hrun
  rw [cursorForth, hposition]
  simp only [hrun', some_bind, cursorMove_setPosition]
  rcases hregisters with heq | hregistered
  · rw [hlast heq]
    exact moved_unregistered ht false true (by simp) rfl (Or.inl rfl)
  · exact moved_forth_on ht hc false hnext (not_isUnregistered.mp hregistered)

/-- In an empty tree every cursor is off. -/
theorem moved_setBefore (hs : Sound gen s T) (ht : Settled s.cursors T.ids)
    (hc : c < s.cursors.cursorCount) (hempty : s.isEmpty = true) (before : Bool) :
    Moved s T.ids (some (s.setBefore c before)) := by
  have hids : T.ids = [] := by
    have hcount : s.count = 0 := by simpa [isEmpty] using hempty
    have hlength := hs.count
    rw [hcount] at hlength
    exact length_eq_zero_iff.mp (by omega)
  have hoff : (s.cursors.position c).off = true := by
    rw [TreePosition.off_iff]
    cases hposition : (s.cursors.position c).position with
    | none => rfl
    | some i =>
        have hi := ht.tracked.inTree c hc i hposition
        rw [hids] at hi
        exact absurd hi not_mem_nil
  refine ⟨s.cursors.setPosition c (.away before), rfl, ?_, rfl⟩
  exact ht.setPosition (by simp) (Or.inr (by simp [hoff])) hc

/-- A key is searched for in a tree that is not empty. -/
theorem Sound.exists_insertPosition (hs : Sound gen s T) (hempty : s.isEmpty = false)
    (k : K) : ∃ i exact isLeft, i ∈ T.ids ∧ s.insertPosition gen k = some i ∧
      s.searchInsertPosition gen (some k) = some { s with
        foundNode := some i
        exactInsertPositionFound := exact
        insertPositionIsLeft := isLeft } := by
  have hT : T ≠ .nil := by
    rintro rfl
    have hcount := hs.count
    simp [isEmpty, hcount] at hempty
  obtain ⟨i, exact, isLeft, hrun, hplace⟩ := hs.exists_searchInsertPosition hT (some k)
  exact ⟨i, exact, isLeft, hplace.mem, by rw [insertPosition, hrun]; rfl, hrun⟩

/-- A move keeps the tree, and every cursor on a node registered. -/
structure Moving (gen : TreeGenerics G K) (m : List (Option K × G)) (T : Tree M)
    (s : TreeContainer G K M) : Prop where
  sound : Sound gen s T
  settled : Settled s.cursors T.ids
  pairs : s.pairs T = m

theorem Moved.exists_moving (hs : Sound gen s T) {op : Option (TreeContainer G K M)}
    (h : Moved s T.ids op) : ∃ s', op = some s' ∧ Moving gen (s.pairs T) T s' := by
  obtain ⟨t, hrun, ht, -⟩ := h
  exact ⟨_, hrun, hs.setCursors ht.registered, ht, rfl⟩

theorem exists_goAtOrBeforeKey (hs : Sound gen s T) (ht : Settled s.cursors T.ids)
    (hc : c < s.cursors.cursorCount) (k : Option K)
    (hregisters : s.Registers gen (.goAtOrBeforeKey c k)) :
    ∃ s', s.cursorGoAtOrBeforeKey gen c k = some s' ∧ Moving gen (s.pairs T) T s' := by
  by_cases hempty : s.isEmpty = true
  · unfold cursorGoAtOrBeforeKey
    rw [if_pos hempty]
    exact (moved_setBefore hs ht hc hempty true).exists_moving hs
  unfold cursorGoAtOrBeforeKey
  rw [if_neg hempty]
  cases k with
  | none => exact (moved_goAway ht true).exists_moving hs
  | some k =>
      obtain ⟨i, exact, isLeft, hi, hfound, hrun⟩ :=
        hs.exists_insertPosition (by simpa using hempty) k
      have hs' := hs.setFound hi exact isLeft
      have hregisters' := hregisters.resolve_left hempty
      simp only [hrun, some_bind]
      split
      · next hbeyond =>
          refine (moved_back_from hs' ht hi ?_).exists_moving hs'
          rcases hregisters' with hinternal | hall
          · exact Or.inr hinternal
          · have hsome := hall i hfound
            rw [if_pos (show s.isBeyond gen k i = true from hbeyond)] at hsome
            exact Or.inl hsome
      · next hbeyond =>
          refine Moved.exists_moving hs' ?_
          refine moved_toNode ht hc ?_ hi
          rcases hregisters' with hinternal | hall
          · exact Or.inr hinternal
          · have hsome := hall i hfound
            rw [if_neg (show ¬ s.isBeyond gen k i = true from hbeyond)] at hsome
            exact not_isUnregistered.mp hsome

theorem exists_goAtOrAfterKey (hs : Sound gen s T) (ht : Settled s.cursors T.ids)
    (hc : c < s.cursors.cursorCount) (k : Option K)
    (hregisters : s.Registers gen (.goAtOrAfterKey c k)) :
    ∃ s', s.cursorGoAtOrAfterKey gen c k = some s' ∧ Moving gen (s.pairs T) T s' := by
  by_cases hempty : s.isEmpty = true
  · unfold cursorGoAtOrAfterKey
    rw [if_pos hempty]
    exact (moved_setBefore hs ht hc hempty false).exists_moving hs
  unfold cursorGoAtOrAfterKey
  rw [if_neg hempty]
  cases k with
  | none =>
      have hregistered := not_isUnregistered.mp (hregisters.resolve_left hempty)
      have hT : T.ids ≠ [] := by
        intro hnil
        have hcount := hs.count
        simp [isEmpty, hcount, hnil] at hempty
      obtain ⟨f, rest, hids⟩ := exists_cons_of_ne_nil hT
      have hfirst : s.firstNode = some f := by
        rw [hs.first, hids]
        rfl
      rw [hfirst]
      exact (moved_toNode ht hc hregistered (hs.first_mem f hfirst)).exists_moving hs
  | some k =>
      obtain ⟨i, exact, isLeft, hi, hfound, hrun⟩ :=
        hs.exists_insertPosition (by simpa using hempty) k
      have hs' := hs.setFound hi exact isLeft
      have hregisters' := hregisters.resolve_left hempty
      simp only [hrun, some_bind]
      split
      · next hshort =>
          refine (moved_forth_from hs' ht hc hi ?_).exists_moving hs'
          rcases hregisters' with hregistered | hall
          · exact Or.inr hregistered
          · exact Or.inl (hall i hfound).2
      · next hshort =>
          refine Moved.exists_moving hs' ?_
          refine moved_toNode ht hc ?_ hi
          rcases hregisters' with hregistered | hall
          · exact not_isUnregistered.mp hregistered
          · exact absurd (hall i hfound).1 hshort

theorem moved_goTo (ht : Settled s.cursors T.ids) {other : Nat}
    (hc : c < s.cursors.cursorCount) (hother : other < s.cursors.cursorCount) :
    Moved s T.ids (s.cursorGoTo c other) := by
  cases hposition : (s.cursorPosition other).position with
  | none =>
      rw [cursorGoTo, hposition]
      exact moved_goAway ht (s.cursorPosition other).isBefore
  | some i =>
      rw [cursorGoTo, hposition]
      exact moved_goOn ht hc (ht.tracked.inTree other hother i hposition)

/-- Every move that registers its cursor keeps all cursors settled. -/
theorem exists_move (hs : Sound gen s T) (ht : Settled s.cursors T.ids)
    {m : CursorCommand K} (hpre : s.PreMove m) (hregisters : s.Registers gen m) :
    ∃ s', s.move gen m = some s' ∧ Moving gen (s.pairs T) T s' := by
  cases m with
  | newCursor =>
      exact ⟨_, rfl, hs.setCursors ht.newCursor.registered, ht.newCursor, rfl⟩
  | start c =>
      cases hfirst : s.firstNode with
      | none =>
          rw [move, cursorStart, hfirst]
          exact (moved_goAway ht false).exists_moving hs
      | some f =>
          rw [move, cursorStart, hfirst]
          exact (moved_goOn ht hpre (hs.first_mem f hfirst)).exists_moving hs
  | finish c =>
      cases hlast : s.lastNode with
      | none =>
          rw [move, cursorFinish, hlast]
          exact (moved_goAway ht true).exists_moving hs
      | some l =>
          rw [move, cursorFinish, hlast]
          exact (moved_goOn ht hpre (hs.last_mem l hlast)).exists_moving hs
  | forth c => exact (moved_forth hs ht hpre.1).exists_moving hs
  | back c => exact (moved_back hs ht hpre.1 hregisters).exists_moving hs
  | goTo c other => exact (moved_goTo ht hpre.1 hpre.2).exists_moving hs
  | goBefore c => exact (moved_goAway ht true).exists_moving hs
  | goAfter c => exact (moved_goAway ht false).exists_moving hs
  | goAtOrBeforeKey c k => exact exists_goAtOrBeforeKey hs ht hpre k hregisters
  | goAtOrAfterKey c k => exact exists_goAtOrAfterKey hs ht hpre k hregisters

end

end TreeContainer

end Gobo
