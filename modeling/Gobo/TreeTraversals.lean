/-
Runs of a binary search tree with external cursors: commands on the tree and
moves of its cursors in any order.
-/
import Gobo.TreeMoves
import Gobo.TreeRuns

namespace Gobo

open LinkedTree

variable {G K M : Type}

namespace TreeContainer

/-- What a client does to a tree and its cursors. -/
inductive TraversalStep (G K : Type) where
  | change (c : TreeCommand G K)
  | move (m : CursorCommand K)

variable {gen : TreeGenerics G K} {V : TreeVariant G K M}

def step (gen : TreeGenerics G K) (V : TreeVariant G K M) (s : TreeContainer G K M) :
    TraversalStep G K → Option (TreeContainer G K M)
  | .change c => s.exec gen V c
  | .move m => s.move gen m

def PreStep (gen : TreeGenerics G K) (s : TreeContainer G K M) :
    TraversalStep G K → Prop
  | .change c => s.Pre gen c
  | .move m => s.PreMove m

/-- The condition on a move; a command on the tree has none. -/
def RegistersStep (gen : TreeGenerics G K) (s : TreeContainer G K M) :
    TraversalStep G K → Prop
  | .change _ => True
  | .move m => s.Registers gen m

/-- The cursors form an acyclic list that has every external cursor that is not
`off`, and every such cursor is on a node of the tree. -/
structure CursorsListed (s : TreeContainer G K M) (T : Tree M) : Prop where
  listed : ∃ cs, s.cursors.Listed cs ∧ cs.Nodup ∧
    ∀ c, s.HasCursor c → (s.cursorPosition c).off = false → c ∈ cs
  inTree : ∀ c, s.HasCursor c → ∀ i, s.cursorPosition c = .on i → i ∈ T.ids

theorem Settled.cursorsListed {s : TreeContainer G K M} {T : Tree M}
    (h : Settled s.cursors T.ids) : CursorsListed s T := by
  obtain ⟨cs, hcs⟩ := h.registered
  refine ⟨⟨cs, hcs.listed, hcs.listed.1.nodup, h.tracked.listed cs hcs.listed⟩, ?_⟩
  intro c hc i hi
  apply h.tracked.inTree c hc i
  rw [cursorPosition] at hi
  rw [hi]
  rfl

section

variable (s : TreeContainer G K M)

instance (c : Nat) : Decidable (s.HasCursor c) :=
  inferInstanceAs (Decidable (_ < _))

instance (c : Nat) : Decidable (s.IsUnregistered c) :=
  inferInstanceAs (Decidable (_ ∧ _))

instance (m : CursorCommand K) : Decidable (s.PreMove m) := by
  cases m <;> unfold PreMove <;> infer_instance

instance (o : Option Nat) (P : Nat → Prop) [∀ i, Decidable (P i)] :
    Decidable (∀ i, o = some i → P i) :=
  match o with
  | none => isTrue fun i hi => by cases hi
  | some i => decidable_of_iff (P i)
      ⟨fun hp j hj => Option.some.inj hj ▸ hp, fun hall => hall i rfl⟩

instance (m : CursorCommand K) : Decidable (s.Registers gen m) :=
  CursorCommand.casesOn (motive := fun m => Decidable (s.Registers gen m)) m
    instDecidableTrue (fun _ => instDecidableTrue) (fun _ => instDecidableTrue)
    (fun _ => instDecidableTrue)
    (fun c => (inferInstance : Decidable ((s.cursorPosition c).off = true ∨
      c = s.cursors.internalCursor ∨ (s.cursorPosition c).position = s.firstNode)))
    (fun _ _ => instDecidableTrue) (fun _ => instDecidableTrue) (fun _ => instDecidableTrue)
    (fun c k => Option.casesOn (motive := fun k =>
        Decidable (s.Registers gen (.goAtOrBeforeKey c k))) k instDecidableTrue
      fun k => (inferInstance : Decidable (s.isEmpty ∨ c = s.cursors.internalCursor ∨
        ∀ i, s.insertPosition gen k = some i →
          if s.isBeyond gen k i then some i = s.firstNode else ¬ s.IsUnregistered c)))
    fun c k => Option.casesOn (motive := fun k =>
        Decidable (s.Registers gen (.goAtOrAfterKey c k))) k
      (inferInstance : Decidable (s.isEmpty ∨ ¬ s.IsUnregistered c))
      fun k => (inferInstance : Decidable (s.isEmpty ∨ ¬ s.IsUnregistered c ∨
        ∀ i, s.insertPosition gen k = some i →
          s.isShort gen k i = true ∧ some i = s.lastNode))

instance [DecidableEq K] (c : TraversalStep G K) : Decidable (s.PreStep gen c) := by
  cases c <;> unfold PreStep <;> infer_instance

instance (c : TraversalStep G K) : Decidable (s.RegistersStep gen c) := by
  cases c <;> unfold RegistersStep <;> infer_instance

end

/-- What every step keeps, if its move registers the cursor. -/
structure Traversed (L : TreeLaws gen V) (s : TreeContainer G K M) (T : Tree M) : Prop where
  sound : Sound gen s T
  balanced : L.Balanced T
  settled : Settled s.cursors T.ids

theorem Traversed.exists_step {L : TreeLaws gen V} {s : TreeContainer G K M} {T : Tree M}
    (h : Traversed L s T) {c : TraversalStep G K} (hpre : s.PreStep gen c)
    (hregisters : s.RegistersStep gen c)
    (hsearch : ∀ k, c = .change (.remove k) → L.CanSearch s T k) :
    ∃ s' T', s.step gen V c = some s' ∧ Traversed L s' T' := by
  cases c with
  | change c =>
      obtain ⟨s', T', hrun, hs', hT', -, htracked, -⟩ := exists_exec h.sound h.balanced
        hpre fun k hk => hsearch k (congrArg TraversalStep.change hk)
      exact ⟨s', T', hrun, hs', hT', hs'.cursors, htracked h.settled.tracked⟩
  | move m =>
      obtain ⟨s', hrun, hs'⟩ := exists_move h.sound h.settled hpre hregisters
      exact ⟨s', T, hrun, hs'.sound, h.balanced, hs'.settled⟩

section

variable [Inhabited G] [Inhabited M]

/-- The internal cursor of a new container is off. -/
theorem settled_make (gen : TreeGenerics G K) :
    Settled (make : TreeContainer G K M).cursors [] := by
  refine ⟨(sound_make gen).cursors, ?_, ?_⟩
  · intro cs hcs c hc hon
    cases hon
  · intro c hc i hi
    cases hi

/-- In every run whose moves register their cursors, the list of cursors is
right in the state reached. -/
theorem run_cursorsListed (B : Balancing M) (gen : TreeGenerics G K)
    {cs : List (TraversalStep G K)}
    (hcs : Permitted (step gen B.variant)
      (fun s c => s.PreStep gen c ∧ s.RegistersStep gen c) make cs) :
    ∃ s T, runAll (step gen B.variant) make cs = some s ∧ s.Holds T ∧
      CursorsListed s T := by
  obtain ⟨s, hrun, T, h⟩ := run_simulates (a := ())
    (fun s _ => ∃ T, Traversed (B.laws gen) s T) (fun _ _ => ())
    (by
      rintro s _ c ⟨T, h⟩ ⟨hpre, hregisters⟩
      obtain ⟨s', T', hrun, h'⟩ := h.exists_step hpre hregisters fun _ _ => trivial
      exact ⟨s', hrun, T', h'⟩)
    ⟨.nil, sound_make gen, B.balanced_nil, settled_make gen⟩ hcs
  exact ⟨s, T, hrun, h.sound.holds, h.settled.cursorsListed⟩

end

/-- Cursor 1 goes to the last node, forth from before the first one, and to a
key, with a removal under it. -/
theorem run_cursorsListed_three_nodes :
    ∃ s T, runAll (step natTable avlBalancing.variant) make
        [.change (.internalPut 20 (some 2)), .change (.internalPut 10 (some 1)),
          .move .newCursor, .move (.finish 1), .change (.remove (some 2)),
          .move (.forth 0), .move (.goAtOrAfterKey 1 (some 3)),
          .move (.goTo 1 0)] = some s ∧
      s.Holds T ∧ CursorsListed s T :=
  run_cursorsListed avlBalancing natTable (by decide)

/-- `back` unregisters a cursor that stays on a node: it is then left on a node
that is removed. -/
theorem back_leaves_cursor :
    ∃ s, runAll (step natTable plainBalancing.variant) make
        [.change (.internalPut 20 (some 2)), .change (.internalPut 10 (some 1)),
          .move .newCursor, .move (.finish 1), .move (.back 1),
          .change (.remove (some 1))] = some s ∧
      Permitted (step natTable plainBalancing.variant) (fun s c => s.PreStep natTable c)
        make
        [.change (.internalPut 20 (some 2)), .change (.internalPut 10 (some 1)),
          .move .newCursor, .move (.finish 1), .move (.back 1),
          .change (.remove (some 1))] ∧
      s.HasCursor 1 ∧ s.cursorPosition 1 = .on 1 ∧
      ∀ T, s.Holds T → 1 ∉ T.ids ∧ ¬ CursorsListed s T := by
  refine ⟨_, rfl, by decide, by decide, rfl, ?_⟩
  intro T hT
  have hids : 1 ∉ T.ids := by
    have hroot : T.root = some 0 := hT.root.symm
    cases T with
    | nil => cases hroot
    | node l i m r =>
        obtain rfl : i = 0 := Option.some.inj hroot
        have hlinks := Holds.links (p := .root) hT
        have hl : l = .nil := Tree.root_eq_none.mp (congrArg Links.leftChild hlinks).symm
        have hr : r = .nil := Tree.root_eq_none.mp (congrArg Links.rightChild hlinks).symm
        subst hl hr
        simp
  exact ⟨hids, fun h => hids (h.inTree 1 (by decide) 1 rfl)⟩

end TreeContainer

end Gobo
