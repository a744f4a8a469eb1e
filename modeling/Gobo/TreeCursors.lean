/-
The cursors of a binary search tree: moving one of them, and moving all those
that are on a node which is taken out.
-/
import Gobo.TreeInvariant

namespace Gobo

open List

variable {G K M : Type} {gen : TreeGenerics G K}

namespace TreePosition

@[simp] theorem off_away (isBefore : Bool) : (away isBefore).off = true := by
  cases isBefore <;> rfl

@[simp] theorem away_false : away false = after := rfl

theorem off_on (i : Nat) : (on i).off = false := rfl

@[simp] theorem position_on (i : Nat) : (on i).position = some i := rfl

@[simp] theorem position_away (isBefore : Bool) : (away isBefore).position = none := by
  cases isBefore <;> rfl

theorem off_iff {p : TreePosition} : p.off = true ↔ p.position = none := by
  cases p <;> simp [off, isAfter, isBefore, position]

theorem off_eq_false_iff {p : TreePosition} : p.off = false ↔ p.position ≠ none := by
  cases p <;> simp [off, isAfter, isBefore, position]

end TreePosition

namespace TreeContainer

/-- The listed cursors whose position is `hit` have moved to `p`, and are no
longer listed if `p` is not on a node. -/
structure Moves (t : Traversal TreePosition) (cs : List Nat) (hit : TreePosition → Bool)
    (p : TreePosition) (t' : Traversal TreePosition) : Prop where
  internal : t'.internalCursor = t.internalCursor
  total : t'.cursorCount = t.cursorCount
  position : ∀ c, t'.position c =
    if c ∈ cs ∧ hit (t.position c) = true then p else t.position c
  listed : t'.Listed
    (cs.filter fun c => c == t.internalCursor || !p.off || !hit (t.position c))

/-- The cursors that are left are on nodes. -/
theorem Moves.registered {t t' : Traversal TreePosition} {cs : List Nat}
    {hit : TreePosition → Bool} {p : TreePosition} (h : Moves t cs hit p t')
    (ht : Registered t cs) : ∃ cs', Registered t' cs' := by
  refine ⟨_, h.listed, ?_⟩
  intro c hc hne
  rw [h.internal] at hne
  obtain ⟨hmem, hkeep⟩ := mem_filter.mp hc
  rw [h.position]
  split
  · next hhit =>
      rw [← TreePosition.off_eq_false_iff]
      simpa [hne, hhit.2] using hkeep
  · exact ht.onNode c hmem hne

/-- Every cursor that is on a node is registered, and its node is one of
`ids`. -/
structure Tracked (t : Traversal TreePosition) (ids : List Nat) : Prop where
  listed : ∀ cs, t.Listed cs → ∀ c < t.cursorCount, (t.position c).off = false → c ∈ cs
  inTree : ∀ c < t.cursorCount, ∀ i, (t.position c).position = some i → i ∈ ids

theorem Moves.tracked {t t' : Traversal TreePosition} {cs ids ids' : List Nat}
    {hit : TreePosition → Bool} {p : TreePosition} (h : Moves t cs hit p t')
    (hcs : t.Listed cs) (ht : Tracked t ids) (hp : ∀ i, p.position = some i → i ∈ ids')
    (hids : ∀ i ∈ ids, hit (.on i) = false → i ∈ ids') : Tracked t' ids' := by
  refine ⟨?_, ?_⟩
  · intro ds hds c hc hon
    obtain rfl := hds.1.unique h.listed.1
    rw [h.total] at hc
    rw [h.position] at hon
    rw [mem_filter]
    split at hon
    · next hhit => exact ⟨hhit.1, by simp [hon]⟩
    · next hhit =>
        have hmem := ht.listed cs hcs c hc hon
        exact ⟨hmem, by simpa [hmem] using Or.inr fun heq => hhit ⟨hmem, heq⟩⟩
  · intro c hc i hi
    rw [h.total] at hc
    rw [h.position] at hi
    split at hi
    · exact hp i hi
    · next hhit =>
        apply hids i (ht.inTree c hc i hi)
        have hon : t.position c = .on i := by
          cases hposition : t.position c with
          | on j =>
              rw [hposition] at hi
              rw [Option.some.inj hi]
          | _ => rw [hposition] at hi; cases hi
        have hmem := ht.listed cs hcs c hc (by rw [hon]; rfl)
        simpa [hmem, hon] using hhit

/-- Nodes may be added. -/
theorem Tracked.mono {t : Traversal TreePosition} {ids ids' : List Nat}
    (h : Tracked t ids) (hids : ∀ i ∈ ids, i ∈ ids') : Tracked t ids' :=
  ⟨h.listed, fun c hc i hi => hids i (h.inTree c hc i hi)⟩

section

variable {s : TreeContainer G K M} {rest : List Nat}

theorem exists_cursorGoAway (h : s.cursors.Listed (s.cursors.internalCursor :: rest))
    (before : Bool) {c : Nat} (hoff : (s.cursorPosition c).off = true → c ∉ rest) :
    ∃ t', s.cursorGoAway before c = some { s with cursors := t' } ∧
      Traversal.Removed (s.cursors.setPosition c (.away before)) c rest t' := by
  have hset : (s.cursors.setPosition c (.away before)).Listed
      ((s.cursors.setPosition c (.away before)).internalCursor :: rest) := h
  by_cases hc : (s.cursorPosition c).off = true
  · refine ⟨s.cursors.setPosition c (.away before), ?_, rfl, rfl, rfl, ?_, fun _ _ => rfl⟩
    · rw [cursorGoAway, hc]
      rfl
    · rw [erase_of_not_mem (hoff hc)]
      exact hset
  · obtain ⟨t', hrun, ht'⟩ := hset.exists_remove c
    refine ⟨t', ?_, ht'⟩
    rw [cursorGoAway, if_pos (by simpa using hc)]
    exact bind_of_some hrun rfl

theorem exists_moveAllCursors (s : TreeContainer G K M) {cs : List Nat}
    (h : s.cursors.Listed cs) (oldNode newNode : Nat) :
    ∃ t', s.moveAllCursors oldNode newNode = some { s with cursors := t' } ∧
      Moves s.cursors cs (fun p => p.position == some oldNode) (.on newNode) t' := by
  obtain ⟨t', hrun, hinternal, htotal, hlisted, hposition⟩ :=
    h.exists_moveAll (fun p => p.position = some oldNode) (.on newNode)
  refine ⟨t', ?_, hinternal, htotal, ?_, ?_⟩
  · exact bind_of_some hrun rfl
  · intro c
    rw [hposition c]
    simp
  · simpa [TreePosition.off_on] using hlisted

/-- A registered cursor goes away: it is taken out of the list. -/
theorem exists_cursorGoAway_listed {cs back : List Nat} {c : Nat}
    (h : s.cursors.Listed (cs ++ c :: back)) (hcs : cs ≠ [])
    (hon : (s.cursorPosition c).off = false) (before : Bool) :
    ∃ t', s.cursorGoAway before c = some { s with cursors := t' } ∧
      t'.internalCursor = s.cursors.internalCursor ∧
      t'.cursorCount = s.cursors.cursorCount ∧
      t'.position = Function.update s.cursors.position c (.away before) ∧
      t'.Listed (cs ++ back) := by
  obtain ⟨rest, hrest⟩ := h.exists_cons
  obtain ⟨cs, rfl⟩ : ∃ tail, cs = s.cursors.internalCursor :: tail := by
    cases cs with
    | nil => exact absurd rfl hcs
    | cons d tail => exact ⟨tail, by rw [(cons.inj hrest).1]⟩
  obtain rfl : cs ++ c :: back = rest := by
    rw [cons_append] at hrest
    exact (cons.inj hrest).2
  have hcons : s.cursors.Listed (s.cursors.internalCursor :: (cs ++ c :: back)) := h
  obtain ⟨t', hrun, ht'⟩ := exists_cursorGoAway hcons before fun hoff => by
    rw [hon] at hoff
    exact absurd hoff Bool.false_ne_true
  have hnew : c ∉ cs := by
    have hnodup := (nodup_cons.mp hcons.1.nodup).2
    rw [nodup_middle, nodup_cons, mem_append, not_or] at hnodup
    exact hnodup.1.1
  refine ⟨t', hrun, ht'.internal, ht'.total, ht'.position, ?_⟩
  have hlisted := ht'.listed
  rw [erase_append_right _ hnew, erase_cons_head] at hlisted
  exact hlisted

theorem exists_moveAfterLoop {front todo : List Nat} {previous oldPosition : Nat}
    (h : s.cursors.Listed (front ++ previous :: todo)) {fuel : Nat}
    (hfuel : todo.length < fuel) :
    ∃ t' c, loopUntil (fun m => some m.cursor.isNone) (moveCursorAfter oldPosition) fuel
        ⟨s, previous, todo.head?⟩ = some ⟨{ s with cursors := t' }, c, none⟩ ∧
      t'.internalCursor = s.cursors.internalCursor ∧
      t'.cursorCount = s.cursors.cursorCount ∧
      (∀ c, t'.position c =
        if c ∈ todo ∧ (s.cursorPosition c).position = some oldPosition then .after
        else s.cursorPosition c) ∧
      t'.Listed (front ++ previous ::
        todo.filter fun c => (s.cursorPosition c).position != some oldPosition) := by
  induction todo generalizing s front previous fuel with
  | nil =>
      obtain ⟨fuel, rfl⟩ : ∃ n, fuel = n + 1 := ⟨fuel - 1, by omega⟩
      refine ⟨s.cursors, previous, loopUntil_of_stop rfl, rfl, rfl, ?_, h⟩
      intro c
      simp [cursorPosition]
  | cons d todo ih =>
      obtain ⟨fuel, rfl⟩ : ∃ n, fuel = n + 1 := ⟨fuel - 1, by omega⟩
      rw [length_cons] at hfuel
      have hd : d ∉ todo := by
        have hnodup := h.1.nodup
        rw [nodup_append, nodup_cons, nodup_cons] at hnodup
        exact hnodup.2.1.2.1
      by_cases hat : (s.cursorPosition d).position = some oldPosition
      · have hon : (s.cursorPosition d).off = false := by
          rw [TreePosition.off_eq_false_iff, hat]
          exact Option.some_ne_none _
        rw [append_cons] at h
        obtain ⟨t', hgo, hinternal, htotal, hposition, hlisted⟩ :=
          exists_cursorGoAway_listed h (by simp) hon false
        rw [← append_cons] at hlisted
        obtain ⟨t'', c, hrun, hinternal', htotal', hposition', hlisted'⟩ :=
          @ih { s with cursors := t' } front previous hlisted fuel (by omega)
        have hsame : ∀ c, c ≠ d → t'.position c = s.cursorPosition c := by
          intro c hc
          rw [hposition]
          exact Function.update_of_ne hc _ _
        refine ⟨t'', c, (loopUntil_of_go ?_ ?_).trans hrun, hinternal'.trans hinternal,
          htotal'.trans htotal, ?_, ?_⟩
        · rfl
        · rw [head?_cons, moveCursorAfter, some_bind, if_pos hat, cursorGoAfter, hgo]
          have hnext := hlisted.1.suffix.head?_eq
          exact congrArg (fun d => some (CursorsAfter.mk { s with cursors := t' } previous d))
            hnext.symm
        · intro c
          rw [hposition' c]
          by_cases hc : c = d
          · subst hc
            rw [if_neg fun hboth => hd hboth.1, if_pos ⟨mem_cons_self, hat⟩,
              cursorPosition, hposition, Function.update_self, TreePosition.away_false]
          · simp [hc, cursorPosition, hsame c hc]
        · rw [filter_cons_of_neg (by simp [hat])]
          have hfilter : (todo.filter fun c => (t'.position c).position != some oldPosition) =
              todo.filter fun c => (s.cursorPosition c).position != some oldPosition := by
            apply filter_congr
            intro c hc
            rw [hsame c]
            rintro rfl
            exact hd hc
          rw [← hfilter]
          exact hlisted'
      · have hnext : s.cursors.nextCursor d = todo.head? := by
          rw [append_cons] at h
          exact h.1.suffix.head?_eq.symm
        obtain ⟨t', c, hrun, hinternal, htotal, hposition, hlisted⟩ :=
          @ih s (front ++ [previous]) d (by simpa using h) fuel (by omega)
        refine ⟨t', c, (loopUntil_of_go ?_ ?_).trans hrun, hinternal, htotal, ?_, ?_⟩
        · rfl
        · rw [head?_cons, moveCursorAfter, some_bind, if_neg hat, hnext]
          rfl
        · intro c
          rw [hposition c]
          by_cases hc : c = d
          · subst hc
            simp [hat]
          · simp [hc]
        · rw [filter_cons_of_pos (by simpa using hat)]
          simpa using hlisted

theorem exists_moveAllAfterLoop (h : s.cursors.Listed (s.cursors.internalCursor :: rest))
    (hon : ∀ c ∈ rest, (s.cursorPosition c).off = false) {fuel : Nat}
    (hfuel : rest.length < fuel) :
    ∃ t', loopUntil
        (fun u => some (u.cursors.nextCursor s.cursors.internalCursor).isNone)
        (fun u => (u.cursors.nextCursor s.cursors.internalCursor).bind fun c =>
          u.cursorGoAfter c)
        fuel s = some { s with cursors := t' } ∧
      t'.internalCursor = s.cursors.internalCursor ∧
      t'.cursorCount = s.cursors.cursorCount ∧
      (∀ c, t'.position c = if c ∈ rest then .after else s.cursorPosition c) ∧
      t'.Listed [s.cursors.internalCursor] := by
  induction rest generalizing s fuel with
  | nil =>
      obtain ⟨fuel, rfl⟩ : ∃ n, fuel = n + 1 := ⟨fuel - 1, by omega⟩
      refine ⟨s.cursors, loopUntil_of_stop ?_, rfl, rfl, ?_, h⟩
      · rw [h.1.2]
        rfl
      · intro c
        simp [cursorPosition]
  | cons d rest ih =>
      obtain ⟨fuel, rfl⟩ : ∃ n, fuel = n + 1 := ⟨fuel - 1, by omega⟩
      rw [length_cons] at hfuel
      have hnext : s.cursors.nextCursor s.cursors.internalCursor = some d := h.1.2.1
      have hd : d ∉ rest := (nodup_cons.mp (nodup_cons.mp h.1.nodup).2).1
      obtain ⟨t', hgo, hinternal, htotal, hposition, hlisted⟩ :=
        @exists_cursorGoAway_listed G K M s [s.cursors.internalCursor] rest d h (by simp)
          (hon d mem_cons_self) false
      have hsame : ∀ c, c ≠ d → t'.position c = s.cursorPosition c := by
        intro c hc
        rw [hposition]
        exact Function.update_of_ne hc _ _
      have hlisted' : t'.Listed (t'.internalCursor :: rest) := by
        rw [hinternal]
        exact hlisted
      obtain ⟨t'', hrun, hinternal', htotal', hposition', hlisted''⟩ :=
        @ih { s with cursors := t' } hlisted' (by
          intro c hc
          have hne : c ≠ d := by
            rintro rfl
            exact hd hc
          rw [cursorPosition, hsame c hne]
          exact hon c (mem_cons_of_mem d hc)) fuel (by omega)
      simp only [hinternal] at hrun hlisted''
      refine ⟨t'', (loopUntil_of_go ?_ ?_).trans hrun, hinternal'.trans hinternal,
        htotal'.trans htotal, ?_, hlisted''⟩
      · rw [hnext]
        rfl
      · rw [hnext]
        exact hgo
      · intro c
        rw [hposition' c]
        by_cases hc : c = d
        · subst hc
          simp [hd, cursorPosition, hposition, TreePosition.away]
        · simp [hc, cursorPosition, hsame c hc]

end

section

variable {s : TreeContainer G K M} {cs : List Nat}

/-- The internal cursor may go after first: it never leaves the list. -/
theorem exists_internalGoAfter {rest : List Nat}
    (h : s.cursors.Listed (s.cursors.internalCursor :: rest))
    (hnew : s.cursors.internalCursor ∉ rest) (p : Prop) [Decidable p] :
    ∃ t', (if p then s.cursorGoAfter s.cursors.internalCursor else some s) =
        some { s with cursors := t' } ∧
      t'.internalCursor = s.cursors.internalCursor ∧
      t'.cursorCount = s.cursors.cursorCount ∧
      t'.Listed (s.cursors.internalCursor :: rest) ∧
      ∀ c, t'.position c =
        if c = s.cursors.internalCursor ∧ p then .after else s.cursorPosition c := by
  by_cases hp : p
  · obtain ⟨t', hgo, ht'⟩ := exists_cursorGoAway h false fun _ => hnew
    have hlisted := ht'.listed
    rw [erase_of_not_mem hnew] at hlisted
    refine ⟨t', (if_pos hp).trans hgo, ht'.internal, ht'.total, hlisted, fun c => ?_⟩
    rw [ht'.position]
    by_cases hc : c = s.cursors.internalCursor
    · subst hc
      rw [if_pos ⟨rfl, hp⟩]
      exact Function.update_self _ _ _
    · rw [if_neg fun hboth => hc hboth.1]
      exact Function.update_of_ne hc _ _
  · exact ⟨s.cursors, if_neg hp, rfl, rfl, h, fun c => (if_neg fun hboth => hp hboth.2).symm⟩

theorem Registered.exists_moveCursorsAfter (h : Registered s.cursors cs)
    (oldPosition : Nat) :
    ∃ t', s.moveCursorsAfter oldPosition = some { s with cursors := t' } ∧
      Moves s.cursors cs (fun p => p.position == some oldPosition) .after t' := by
  obtain ⟨rest, rfl⟩ := h.listed.exists_cons
  have hnew : s.cursors.internalCursor ∉ rest := (nodup_cons.mp h.listed.1.nodup).1
  obtain ⟨t₁, hfirst, hinternal, htotal, hlisted, hposition⟩ := exists_internalGoAfter h.listed hnew
    ((s.cursorPosition s.cursors.internalCursor).position = some oldPosition)
  have hlength := hlisted.1.length_le hlisted.2
  rw [length_cons] at hlength
  have hnext : t₁.nextCursor s.cursors.internalCursor = rest.head? :=
    hlisted.1.2.head?_eq.symm
  obtain ⟨t₂, c, hrun, hinternal₂, htotal₂, hposition₂, hlisted₂⟩ :=
    @exists_moveAfterLoop G K M { s with cursors := t₁ } [] rest
      s.cursors.internalCursor oldPosition hlisted (t₁.cursorCount + 1) (by omega)
  refine ⟨t₂, ?_, hinternal₂.trans hinternal, htotal₂.trans htotal, ?_, ?_⟩
  · rw [moveCursorsAfter]
    refine bind_of_some hfirst (bind_of_some (a := ⟨_, c, none⟩) ?_ rfl)
    rw [hnext]
    exact hrun
  · intro c
    rw [hposition₂ c]
    simp only [cursorPosition] at hposition ⊢
    simp only [hposition c]
    by_cases hc : c = s.cursors.internalCursor
    · subst hc
      simp [hnew]
    · simp [hc]
  · rw [nil_append] at hlisted₂
    rw [filter_cons_of_pos (by simp)]
    have hfilter : (rest.filter fun c =>
        (t₁.position c).position != some oldPosition) =
        rest.filter fun c => c == s.cursors.internalCursor || !TreePosition.after.off ||
          !((s.cursors.position c).position == some oldPosition) := by
      apply filter_congr
      intro c hc
      have hne : c ≠ s.cursors.internalCursor := by
        rintro rfl
        exact hnew hc
      simp [hposition c, hne, cursorPosition, bne, TreePosition.off, TreePosition.isAfter]
    rw [← hfilter]
    exact hlisted₂

theorem Registered.exists_moveAllCursorsAfter (h : Registered s.cursors cs) :
    ∃ t', s.moveAllCursorsAfter = some { s with cursors := t' } ∧
      Moves s.cursors cs (fun p => !p.off) .after t' := by
  obtain ⟨rest, rfl⟩ := h.listed.exists_cons
  have hnew : s.cursors.internalCursor ∉ rest := (nodup_cons.mp h.listed.1.nodup).1
  have hon : ∀ c ∈ rest, (s.cursorPosition c).off = false := by
    intro c hc
    apply TreePosition.off_eq_false_iff.mpr
    apply h.onNode c (mem_cons_of_mem _ hc)
    rintro rfl
    exact hnew hc
  obtain ⟨t₁, hfirst, hinternal, htotal, hlisted, hposition⟩ := exists_internalGoAfter h.listed hnew
    ((!(s.cursorPosition s.cursors.internalCursor).off) = true)
  have hlength := hlisted.1.length_le hlisted.2
  rw [length_cons] at hlength
  have hlisted' : t₁.Listed (t₁.internalCursor :: rest) := by
    rw [hinternal]
    exact hlisted
  obtain ⟨t₂, hrun, hinternal₂, htotal₂, hposition₂, hlisted₂⟩ :=
    @exists_moveAllAfterLoop G K M { s with cursors := t₁ } rest hlisted' (by
      intro c hc
      have hne : c ≠ s.cursors.internalCursor := by
        rintro rfl
        exact hnew hc
      rw [cursorPosition, hposition c, if_neg fun hboth => hne hboth.1]
      exact hon c hc) (t₁.cursorCount + 1) (by omega)
  simp only [hinternal] at hrun hlisted₂
  refine ⟨t₂, ?_, hinternal₂.trans hinternal, htotal₂.trans htotal, ?_, ?_⟩
  · rw [moveAllCursorsAfter]
    exact bind_of_some hfirst hrun
  · intro c
    rw [hposition₂ c]
    simp only [cursorPosition] at hposition hon ⊢
    rw [hposition c]
    by_cases hc : c = s.cursors.internalCursor
    · subst hc
      simp [hnew]
    · by_cases hmem : c ∈ rest
      · simp [hmem, hon c hmem]
      · simp [hc, hmem]
  · rw [filter_cons_of_pos (by simp)]
    have hfilter : (rest.filter fun c => c == s.cursors.internalCursor ||
        !TreePosition.after.off || !(!(s.cursors.position c).off)) = [] := by
      apply filter_eq_nil_iff.mpr
      intro c hc
      have hne : c ≠ s.cursors.internalCursor := by
        rintro rfl
        exact hnew hc
      have hc' := hon c hc
      rw [cursorPosition] at hc'
      have hafter : TreePosition.after.off = true := TreePosition.off_away false
      simp [hne, hc', hafter]
    rw [hfilter]
    exact hlisted₂

end

end TreeContainer

end Gobo
