/-
The union of two classes of symbols: every branch of the loops over the chunks unites the
sets at one index.
-/
import Gobo.SymbolClassBits

namespace Gobo

open List

namespace SymbolClass

variable {h : Chunks} {negated otherNegated : Bool} {i j k k' n : Nat} {w : BitVec 64}
  {sets : List (Option Nat)} {m m' : Merging} {f : Nat → BitVec 64}

theorem unite_zero_right_true (negated : Bool) (w : BitVec 64) : unite negated true w 0 = 0 := by
  cases negated with
  | true => exact BitVec.and_zero
  | false => exact BitVec.and_zero

theorem unite_zero_right_false (negated : Bool) (w : BitVec 64) : unite negated false w 0 = w := by
  cases negated with
  | true => exact BitVec.and_allOnes
  | false => exact BitVec.or_zero

theorem unite_zero_left_true (otherNegated : Bool) (w : BitVec 64) :
    unite true otherNegated 0 w = 0 := by
  cases otherNegated with
  | true => exact BitVec.zero_and
  | false => exact BitVec.zero_and

theorem unite_zero_left_false (otherNegated : Bool) (w : BitVec 64) :
    unite false otherNegated 0 w = w := by
  cases otherNegated with
  | true => exact BitVec.allOnes_and
  | false => exact BitVec.zero_or

theorem unite_zero_zero : unite negated otherNegated 0 0 = 0 := by
  cases otherNegated with
  | true => exact unite_zero_right_true _ _
  | false => exact unite_zero_right_false _ _

/-- With the negated status of the classes, the sets are united. -/
theorem getLsbD_unite (hi : i < 64) (w w' : BitVec 64) :
    ((unite negated otherNegated w w').getLsbD i != (negated || otherNegated)) =
      ((w.getLsbD i != negated) || (w'.getLsbD i != otherNegated)) := by
  cases negated with
  | true =>
      cases otherNegated with
      | true => simp [unite]
      | false => simp [unite, hi]
  | false =>
      cases otherNegated with
      | true => simp [unite, hi]
      | false => simp [unite]

theorem filledWith_eq (hlength : (h.sets k).length = chunkSize) :
    ∃ b, h.filledWith 0 k 0 chunkSize = some b ∧
      (b = true ↔ ∀ j < chunkSize, setOf h (some k) j = 0) := by
  have hextract : (h.sets k).extract 0 chunkSize = h.sets k := by
    rw [extract_eq_take_drop, Nat.sub_zero, drop_zero, ← hlength, take_length]
  refine ⟨(h.sets k).all fun w => w == 0, ?_, ?_⟩
  · rw [Chunks.filledWith, if_pos ⟨Nat.zero_le _, Nat.le_of_eq hlength.symm⟩, hextract]
  · rw [all_eq_true]
    constructor
    · intro hall j hj
      have hlt : j < (h.sets k).length := hlength ▸ hj
      rw [setOf, Option.elim_some, getElem?_eq_getElem hlt]
      exact beq_iff_eq.mp (hall _ (getElem_mem hlt))
    · intro hall w hw
      obtain ⟨j, hj, rfl⟩ := mem_iff_getElem.mp hw
      have hzero := hall j (hlength ▸ hj)
      rw [setOf, Option.elim_some, getElem?_eq_getElem hj] at hzero
      exact beq_iff_eq.mpr hzero

/-- A turn that replaces the chunk at the index `i`, and does not call a class empty that is
not. -/
def Turned (n : Nat) (m : Merging) (i : Nat) (f : Nat → BitVec 64) (m' : Merging) : Prop :=
  ∃ x, Replaced m.chunks m'.chunks (slot m.otherSets i) x f ∧
    (∀ j, slot m'.otherSets j = if j = i then x else slot m.otherSets j) ∧
    (∀ sets, m'.otherSets = some sets → n ≤ sets.length) ∧
    (m.otherSets.isSome = true → m'.otherSets.isSome = true) ∧
    (m'.isEmpty = true → m.isEmpty = true ∧ ∀ j < chunkSize, f j = 0)

theorem slot_eq_ite (sets : Option (List (Option Nat))) (i j : Nat) :
    slot sets j = if j = i then slot sets i else slot sets j := by
  split
  · rename_i heq
    rw [heq]
  · rfl

/-- The chunk stays the same. -/
theorem Turned.same (hg : GoodSets m.chunks n m.otherSets)
    (hf : ∀ j < chunkSize, setOf m.chunks (slot m.otherSets i) j = f j)
    (hchunks : m'.chunks = m.chunks) (hsets : m'.otherSets = m.otherSets)
    (hempty : m'.isEmpty = true → m.isEmpty = true ∧ ∀ j < chunkSize, f j = 0) :
    Turned n m i f m' := by
  refine ⟨slot m.otherSets i, ⟨?_, fun k _ _ => ?_, fun k hk => ?_, ?_⟩, fun j => ?_, ?_, ?_,
    hempty⟩
  · exact Nat.le_of_eq (congrArg Chunks.created hchunks).symm
  · rw [hchunks]
  · obtain ⟨hpos, hlt, hlength⟩ := hg.chunk i k hk
    rw [hchunks]
    exact ⟨hpos, hlt, hlength, Or.inl hk⟩
  · rwa [hchunks]
  · rw [hsets]
    exact slot_eq_ite _ i j
  · rw [hsets]
    exact hg.length_le
  · rw [hsets]
    exact id

/-- A copy of a chunk of the other class. -/
theorem copyChunk_eq (hcreated : 0 < m.chunks.created)
    (hslots : ∀ j, slot (some sets) j = slot m.otherSets j) (hn : n ≤ sets.length)
    (hi : i < sets.length) (hlength : (m.chunks.sets k).length = chunkSize) :
    ∃ m', copyChunk sets k i m = some m' ∧ Turned n m i (setOf m.chunks (some k)) m' := by
  have hne : ¬(m.chunks.sets k).length = 0 := by rw [hlength]; decide
  obtain ⟨b, hb, hiff⟩ := filledWith_eq hlength
  have hturned : ∀ e, (e = true → m.isEmpty = true ∧ ∀ j < chunkSize,
      setOf m.chunks (some k) j = 0) →
      Turned n m i (setOf m.chunks (some k))
        ⟨m.chunks.make (m.chunks.sets k), some (sets.set i (some m.chunks.created)), e⟩ := by
    refine fun e he => ⟨_, .make hcreated hlength _, fun j => ?_, fun sets' heq => ?_, fun _ =>
      rfl, he⟩
    · rw [slot_set hi, hslots]
    · rw [← Option.some.inj heq, length_set]
      exact hn
  cases hempty : m.isEmpty with
  | true =>
      refine ⟨_, ?_, hturned b fun htrue => ⟨hempty, hiff.mp htrue⟩⟩
      simp only [copyChunk, if_neg hne, putSlot_eq hi, hempty, if_true, hb, some_bind]
  | false =>
      refine ⟨_, ?_, hturned false nofun⟩
      simp only [copyChunk, if_neg hne, putSlot_eq hi, hempty, Bool.false_eq_true, if_false,
        some_bind]

theorem emptyChunk_eq (hg : GoodSets m.chunks n m.otherSets) (hslot : slot m.otherSets i = some k) :
    ∃ m', emptyChunk k m = some m' ∧ Turned n m i (setOf m.chunks (slot m.otherSets i)) m' := by
  obtain ⟨-, -, hlength⟩ := hg.chunk i k hslot
  have hne : ¬(m.chunks.sets k).length = 0 := by rw [hlength]; decide
  obtain ⟨b, hb, hiff⟩ := filledWith_eq hlength
  rw [emptyChunk]
  cases hempty : m.isEmpty with
  | true =>
      refine ⟨{ m with isEmpty := b }, ?_, .same hg (fun _ _ => rfl) rfl rfl fun htrue =>
        ⟨hempty, hslot ▸ hiff.mp htrue⟩⟩
      simp only [if_true, if_neg hne, hb, some_bind]
  | false =>
      refine ⟨m, if_neg Bool.false_ne_true, .same hg (fun _ _ => rfl) rfl rfl fun htrue => ?_⟩
      rw [hempty] at htrue
      exact absurd htrue Bool.false_ne_true

/-- The loop over the sets of two chunks. -/
theorem uniteSets_eq (hg : GoodSets m.chunks n m.otherSets) (hslot : slot m.otherSets i = some k)
    (hlength' : (m.chunks.sets k').length = chunkSize) :
    ∃ m', forUp (uniteSets negated otherNegated k k') chunkSize 0 m = some m' ∧
      Turned n m i (fun j => unite negated otherNegated (setOf m.chunks (slot m.otherSets i) j)
        (setOf m.chunks (some k') j)) m' := by
  obtain ⟨hpos, hlt, hlength⟩ := hg.chunk i k hslot
  obtain ⟨m', hrun, ws, hws, hchunks, hsets, hdone, -, hempty⟩ :
      ∃ m', forUp (uniteSets negated otherNegated k k') chunkSize 0 m = some m' ∧
        ∃ ws, ws.length = chunkSize ∧ m'.chunks = m.chunks.change k ws ∧
          m'.otherSets = m.otherSets ∧
          (∀ j < 0 + chunkSize, ws[j]?.getD 0 = unite negated otherNegated
            (setOf m.chunks (some k) j) (setOf m.chunks (some k') j)) ∧
          (∀ j, 0 + chunkSize ≤ j → ws[j]? = (m.chunks.sets k)[j]?) ∧
          (m'.isEmpty = true → m.isEmpty = true ∧ ∀ j < 0 + chunkSize, ws[j]?.getD 0 = 0) :=
    forUp_spec (fun (i : Nat) (m' : Merging) => ∃ ws, ws.length = chunkSize ∧
      m'.chunks = m.chunks.change k ws ∧ m'.otherSets = m.otherSets ∧
      (∀ j < i, ws[j]?.getD 0 = unite negated otherNegated (setOf m.chunks (some k) j)
        (setOf m.chunks (some k') j)) ∧
      (∀ j, i ≤ j → ws[j]? = (m.chunks.sets k)[j]?) ∧
      (m'.isEmpty = true → m.isEmpty = true ∧ ∀ j < i, ws[j]?.getD 0 = 0))
    (fun i m' _ hi => by
      rintro ⟨ws, hws, hchunks, hsets, hdone, htodo, hempty⟩
      have hi : i < chunkSize := by omega
      have hitem : m'.chunks.item k i = some (setOf m.chunks (some k) i) := by
        rw [hchunks, Chunks.item, sets_change_self, htodo i (Nat.le_refl i)]
        exact setOf_eq rfl hlength hi
      have hitem' : m'.chunks.item k' i = some (setOf m.chunks (some k') i) := by
        by_cases hk : k' = k
        · rwa [hk]
        · rw [hchunks, Chunks.item, sets_change_of_ne _ hk]
          exact setOf_eq rfl hlength' hi
      have hput : ∀ v, m'.chunks.put v k i = some (m.chunks.change k (ws.set i v)) := by
        intro v
        have hlt : i < (m'.chunks.sets k).length := by
          rw [hchunks, sets_change_self, hws]
          exact hi
        rw [put_eq hlt, hchunks, sets_change_self]
        exact congrArg some (congrArg (Chunks.mk m.chunks.created) (Function.update_idem ..))
      refine ⟨⟨m.chunks.change k (ws.set i (unite negated otherNegated
        (setOf m.chunks (some k) i) (setOf m.chunks (some k') i))), m'.otherSets, m'.isEmpty &&
        unite negated otherNegated (setOf m.chunks (some k) i) (setOf m.chunks (some k') i) == 0⟩,
        ?_, _, (length_set ..).trans hws, rfl, hsets, fun j hj => ?_, fun j hj => ?_,
        fun htrue => ?_⟩
      · simp only [uniteSets, hitem, hitem', hput, some_bind]
      · rw [getElem?_set]
        by_cases hij : i = j
        · rw [if_pos hij, if_pos (by rw [hws]; exact hi), hij]
          rfl
        · rw [if_neg hij]
          exact hdone j (by omega)
      · rw [getElem?_set, if_neg (by omega)]
        exact htodo j (by omega)
      · obtain ⟨htrue, hzero⟩ := Bool.and_eq_true_iff.mp htrue
        refine ⟨(hempty htrue).1, fun j hj => ?_⟩
        rw [getElem?_set]
        by_cases hij : i = j
        · rw [if_pos hij, if_pos (by rw [hws]; exact hi)]
          exact beq_iff_eq.mp hzero
        · rw [if_neg hij]
          exact (hempty htrue).2 j (by omega))
    ⟨m.chunks.sets k, hlength, congrArg (Chunks.mk m.chunks.created)
      (Function.update_eq_self ..).symm,
      rfl, fun _ hj => absurd hj (Nat.not_lt_zero _), fun _ _ => rfl,
      fun htrue => ⟨htrue, fun _ hj => absurd hj (Nat.not_lt_zero _)⟩⟩
  rw [Nat.zero_add] at hdone hempty
  have hr := Replaced.change ws hslot ⟨hpos, hlt⟩ hws
  refine ⟨m', hrun, some k, ⟨?_, ?_, ?_, fun j hj => ?_⟩, fun j => ?_, ?_, ?_, fun htrue => ?_⟩
  · rw [hchunks]
    exact hr.created_le
  · rw [hchunks]
    exact hr.sets
  · rw [hchunks]
    exact hr.chunk
  · rw [hchunks, hslot, ← hdone j hj]
    exact hr.value j hj
  · rw [hsets, ← hslot]
    exact slot_eq_ite m.otherSets i j
  · rw [hsets]
    exact hg.length_le
  · rw [hsets]
    exact id
  · refine ⟨(hempty htrue).1, fun j hj => ?_⟩
    rw [hslot]
    exact (hdone j hj).symm.trans ((hempty htrue).2 j hj)

theorem getElem?_eq_slot {others : List (Option Nat)} (hi : i < others.length) :
    others[i]? = some (slot (some others) i) := by
  rw [getElem?_eq_getElem hi, slot_of_getElem? (getElem?_eq_getElem hi)]

/-- A turn of the loop over the chunks of both classes. -/
theorem mergeTurn_eq {others : List (Option Nat)} (negated otherNegated : Bool)
    (hcreated : 0 < m.chunks.created)
    (hg : GoodSets m.chunks n m.otherSets) (hsets : m.otherSets = some sets)
    (ho : n ≤ others.length) (hi : i < n)
    (hchunk : ∀ k, slot (some others) i = some k → (m.chunks.sets k).length = chunkSize) :
    ∃ m', mergeTurn negated otherNegated others i m = some m' ∧
      Turned n m i (fun j => unite negated otherNegated (setOf m.chunks (slot m.otherSets i) j)
        (setOf m.chunks (slot (some others) i) j)) m' := by
  have hlt : i < sets.length := Nat.lt_of_lt_of_le hi (hg.length_le sets hsets)
  have hget := getElem?_eq_slot hlt
  have hget' := getElem?_eq_slot (Nat.lt_of_lt_of_le hi ho)
  have hslots : ∀ j, slot (some sets) j = slot m.otherSets j := fun j => by rw [hsets]
  rw [hslots] at hget
  rw [mergeTurn, hsets, some_bind, hget, hget', ← hsets]
  cases hslot : slot m.otherSets i with
  | none =>
      cases hslot' : slot (some others) i with
      | none =>
          have hzero : ∀ j, unite negated otherNegated (setOf m.chunks none j)
              (setOf m.chunks none j) = 0 := fun _ => unite_zero_zero
          refine ⟨m, rfl, .same hg (fun j _ => ?_) rfl rfl fun htrue => ⟨htrue, fun j _ => hzero j⟩⟩
          rw [hslot, hzero]
          rfl
      | some k' =>
          cases negated with
          | true =>
              have hzero : ∀ j, unite true otherNegated (setOf m.chunks none j)
                  (setOf m.chunks (some k') j) = 0 := fun _ => unite_zero_left_true _ _
              refine ⟨m, rfl, .same hg (fun j _ => ?_) rfl rfl fun htrue =>
                ⟨htrue, fun j _ => hzero j⟩⟩
              rw [hslot, hzero]
              rfl
          | false =>
              have hcopy : (fun j => unite false otherNegated (setOf m.chunks none j)
                  (setOf m.chunks (some k') j)) = setOf m.chunks (some k') :=
                funext fun _ => unite_zero_left_false _ _
              rw [hcopy]
              exact copyChunk_eq hcreated hslots (hg.length_le sets hsets) hlt
                (hchunk k' hslot')
  | some k =>
      obtain ⟨hpos, hltk, hlength⟩ := hg.chunk i k hslot
      cases hslot' : slot (some others) i with
      | none =>
          cases otherNegated with
          | true =>
              have hzero : (fun j => unite negated true (setOf m.chunks (some k) j)
                  (setOf m.chunks none j)) = fun _ => 0 :=
                funext fun _ => unite_zero_right_true _ _
              rw [hzero]
              have hfill : m.chunks.fillWith 0 k chunkSize = some (m.chunks.change k
                  (replicate chunkSize 0 ++ (m.chunks.sets k).drop chunkSize)) :=
                if_pos (Nat.le_of_eq hlength.symm)
              rw [drop_of_length_le (Nat.le_of_eq hlength), append_nil] at hfill
              refine ⟨{ m with chunks := m.chunks.change k (replicate chunkSize 0) }, ?_,
                some k, (Replaced.change _ hslot ⟨hpos, hltk⟩ length_replicate).congr fun j
                  hj => ?_,
                fun j => ?_, hg.length_le, id, fun htrue => ⟨htrue, fun _ _ => rfl⟩⟩
              · simp only [hfill, if_true, some_bind]
              · rw [getElem?_replicate_of_lt hj]
                rfl
              · rw [← hslot]
                exact slot_eq_ite m.otherSets i j
          | false =>
              have hsame : (fun j => unite negated false (setOf m.chunks (some k) j)
                  (setOf m.chunks none j)) = setOf m.chunks (some k) :=
                funext fun _ => unite_zero_right_false _ _
              have hempty := emptyChunk_eq hg hslot
              rw [hslot] at hempty
              rw [hsame]
              exact hempty
      | some k' =>
          have hlength' := hchunk k' hslot'
          have hk : ¬(m.chunks.sets k).length = 0 := by rw [hlength]; decide
          have hk' : ¬(m.chunks.sets k').length = 0 := by rw [hlength']; decide
          simp only [some_bind, if_neg hk, if_neg hk']
          rw [← hslot]
          exact uniteSets_eq hg hslot hlength'

/-- A turn of the loop over the chunks of the other class, when the current one has none. -/
theorem copyTurn_eq {others : List (Option Nat)} {upper : Nat} (otherNegated : Bool)
    (hcreated : 0 < m.chunks.created)
    (hg : GoodSets m.chunks (chunkIndex upper + 1) m.otherSets)
    (ho : chunkIndex upper + 1 ≤ others.length) (hi : i < chunkIndex upper + 1)
    (hchunk : ∀ k, slot (some others) i = some k → (m.chunks.sets k).length = chunkSize)
    (hnone : slot m.otherSets i = none) :
    ∃ m', copyTurn upper others i m = some m' ∧
      Turned (chunkIndex upper + 1) m i (fun j => unite false otherNegated
        (setOf m.chunks (slot m.otherSets i) j) (setOf m.chunks (slot (some others) i) j)) m' := by
  have hget := getElem?_eq_slot (Nat.lt_of_lt_of_le hi ho)
  have hcopy : (fun j => unite false otherNegated (setOf m.chunks (slot m.otherSets i) j)
      (setOf m.chunks (slot (some others) i) j)) = setOf m.chunks (slot (some others) i) := by
    rw [hnone]
    exact funext fun _ => unite_zero_left_false _ _
  rw [copyTurn, hget, hcopy, some_bind]
  cases hslot : slot (some others) i with
  | none =>
      exact ⟨m, rfl, .same hg (fun j _ => by rw [hnone]) rfl rfl fun htrue =>
        ⟨htrue, fun _ _ => rfl⟩⟩
  | some k =>
      have hslots : ∀ j, slot (some (attachedOtherSets upper m.otherSets)) j =
          slot m.otherSets j := by
        intro j
        cases hsets : m.otherSets with
        | none => exact slot_replicate _ j
        | some sets => rfl
      have hlength : chunkIndex upper + 1 ≤ (attachedOtherSets upper m.otherSets).length := by
        cases hsets : m.otherSets with
        | none => exact Nat.le_of_eq length_replicate.symm
        | some sets => exact hg.length_le sets hsets
      exact copyChunk_eq hcreated hslots hlength (Nat.lt_of_lt_of_le hi hlength)
        (hchunk k hslot)

/-- A turn of the loop over the chunks of the current class, when the other one has none. -/
theorem emptyTurn_eq (negated : Bool) (hg : GoodSets m.chunks n m.otherSets)
    (hsets : m.otherSets = some sets)
    (hi : i < n) :
    ∃ m', emptyTurn i m = some m' ∧ Turned n m i (fun j => unite negated false
      (setOf m.chunks (slot m.otherSets i) j) (setOf m.chunks (slot none i) j)) m' := by
  have hsame : (fun j => unite negated false (setOf m.chunks (slot m.otherSets i) j)
      (setOf m.chunks (slot none i) j)) = setOf m.chunks (slot m.otherSets i) :=
    funext fun _ => unite_zero_right_false _ _
  have hget := getElem?_eq_slot (Nat.lt_of_lt_of_le hi (hg.length_le sets hsets))
  rw [← hsets] at hget
  rw [emptyTurn, hsame]
  cases hempty : m.isEmpty with
  | false =>
      refine ⟨m, rfl, .same hg (fun _ _ => rfl) rfl rfl fun htrue => ?_⟩
      rw [hempty] at htrue
      exact absurd htrue Bool.false_ne_true
  | true =>
      rw [if_pos rfl, hsets, some_bind, hget, ← hsets]
      cases hslot : slot m.otherSets i with
      | none =>
          refine ⟨m, rfl, .same hg (fun _ _ => by rw [hslot]) rfl rfl fun htrue =>
            ⟨htrue, fun _ _ => rfl⟩⟩
      | some k =>
          have hchunk := emptyChunk_eq hg hslot
          rw [hslot] at hchunk
          exact hchunk

/-- The chunks of the indexes below `i` have been united. -/
structure Uniting (h : Chunks) (n : Nat) (sets : Option (List (Option Nat))) (isEmpty : Bool)
    (f : Nat → Nat → BitVec 64) (i : Nat) (m : Merging) : Prop where
  good : GoodSets m.chunks n m.otherSets
  attached : sets.isSome = true → m.otherSets.isSome = true
  created_le : h.created ≤ m.chunks.created
  frame : ∀ k < h.created, (∀ j, slot sets j ≠ some k) → m.chunks.sets k = h.sets k
  uses : ∀ j k, slot m.otherSets j = some k → (∃ j, slot sets j = some k) ∨ h.created ≤ k
  done : ∀ j < i, ∀ l < chunkSize, setOf m.chunks (slot m.otherSets j) l = f j l
  todo : ∀ j, i ≤ j → slot m.otherSets j = slot sets j ∧
    ∀ l, setOf m.chunks (slot m.otherSets j) l = setOf h (slot sets j) l
  empty : m.isEmpty = true → isEmpty = true ∧ ∀ j < i, ∀ l < chunkSize, f j l = 0

section

variable {sets : Option (List (Option Nat))}

theorem Uniting.next {isEmpty : Bool}
    {f : Nat → Nat → BitVec 64} (hu : Uniting h n sets isEmpty f i m)
    (ht : Turned n m i (f i) m') : Uniting h n sets isEmpty f (i + 1) m' := by
  obtain ⟨x, hr, hslots, hlength, hattached, hempty⟩ := ht
  have hold := hu.todo i (Nat.le_refl i)
  refine ⟨hr.good hu.good hslots hlength, fun hsome => hattached (hu.attached hsome),
    Nat.le_trans hu.created_le hr.created_le,
    fun k hk hnot => ?_, fun j k hj => ?_, fun j hj l hl => ?_, fun j hj => ?_, fun htrue => ?_⟩
  · refine (hr.sets k (Nat.lt_of_lt_of_le hk hu.created_le) fun hslot => ?_).trans
      (hu.frame k hk hnot)
    exact hnot i (hold.1.symm.trans hslot)
  · rw [hslots] at hj
    split at hj
    · obtain ⟨-, -, -, hor⟩ := hr.chunk k hj
      rcases hor with hslot | hge
      · exact hu.uses i k hslot
      · exact Or.inr (Nat.le_trans hu.created_le hge)
    · exact hu.uses j k hj
  · rw [hslots]
    by_cases hji : j = i
    · rw [if_pos hji, hr.value l hl, hji]
    · rw [if_neg hji, hr.other hu.good hji]
      exact hu.done j (by omega) l hl
  · have hji : j ≠ i := by omega
    obtain ⟨hslot, hsets⟩ := hu.todo j (by omega)
    rw [hslots, if_neg hji]
    exact ⟨hslot, fun l => (hr.other hu.good hji l).trans (hsets l)⟩
  · obtain ⟨htrue, hzero⟩ := hempty htrue
    refine ⟨(hu.empty htrue).1, fun j hj l hl => ?_⟩
    by_cases hji : j = i
    · exact hji ▸ hzero l hl
    · exact (hu.empty htrue).2 j (by omega) l hl

theorem Uniting.start (hg : GoodSets h n sets) (isEmpty : Bool)
    (f : Nat → Nat → BitVec 64) : Uniting h n sets isEmpty f 0 ⟨h, sets, isEmpty⟩ :=
  ⟨hg, id, Nat.le_refl _, fun _ _ _ => rfl, fun j _ hj => Or.inl ⟨j, hj⟩,
    fun _ hj => absurd hj (Nat.not_lt_zero _), fun _ _ => ⟨rfl, fun _ => rfl⟩,
    fun htrue => ⟨htrue, fun _ hj => absurd hj (Nat.not_lt_zero _)⟩⟩

/-- A loop of which each turn unites the sets at its index. -/
theorem Uniting.loop {f : Nat → Nat → BitVec 64}
    (turn : Nat → Merging → Option Merging) (isEmpty : Bool)
    (hturn : ∀ i m, i < n → Uniting h n sets isEmpty f i m →
      ∃ m', turn i m = some m' ∧ Turned n m i (f i) m')
    (hg : GoodSets h n sets) :
    ∃ m', forUp turn n 0 ⟨h, sets, isEmpty⟩ = some m' ∧ Uniting h n sets isEmpty f n m' := by
  have hrun := forUp_spec (fun (i : Nat) (m : Merging) => Uniting h n sets isEmpty f i m)
    (f := turn) (n := n) (i := 0)
    (fun i m _ hi hu => by
      obtain ⟨m', hrun, ht⟩ := hturn i m (by omega) hu
      exact ⟨m', hrun, hu.next ht⟩)
    (.start hg isEmpty f)
  rwa [Nat.zero_add] at hrun

/-- The sets are left as they are. -/
theorem Uniting.same {isEmpty : Bool}
    {f : Nat → Nat → BitVec 64} (hg : GoodSets h n sets)
    (hsame : ∀ j l, setOf h (slot sets j) l = f j l) (hzero : ∀ j l, f j l = 0) :
    Uniting h n sets isEmpty f n ⟨h, sets, isEmpty⟩ :=
  ⟨hg, id, Nat.le_refl _, fun _ _ _ => rfl, fun j _ hj => Or.inl ⟨j, hj⟩,
    fun j _ l _ => hsame j l, fun _ _ => ⟨rfl, fun _ => rfl⟩,
    fun htrue => ⟨htrue, fun j _ l _ => hzero j l⟩⟩

end

theorem slot_fill (n : Nat) (sets : List (Option Nat)) (j : Nat) :
    slot (some (replicate n none ++ sets.drop n)) j =
      if j < n then none else slot (some sets) j := by
  rw [slot, Option.bind_some]
  by_cases hj : j < n
  · rw [if_pos hj, getElem?_append_left (by rwa [length_replicate]),
      getElem?_replicate_of_lt hj]
    rfl
  · rw [if_neg hj, getElem?_append_right (by rw [length_replicate]; omega),
      length_replicate, getElem?_drop, Nat.add_sub_cancel' (Nat.le_of_not_lt hj)]
    rfl

/-- All chunks are forgotten. -/
theorem Uniting.fill {isEmpty : Bool} {f : Nat → Nat → BitVec 64} (hg : GoodSets h n (some sets))
    (hzero : ∀ j l, f j l = 0) :
    Uniting h n (some sets) isEmpty f n
      ⟨h, some (replicate n none ++ sets.drop n), isEmpty⟩ := by
  have hslot : ∀ {j k}, slot (some (replicate n none ++ sets.drop n)) j = some k →
      slot (some sets) j = some k := by
    intro j k hj
    rw [slot_fill] at hj
    split at hj
    · exact nomatch hj
    · exact hj
  refine ⟨⟨fun sets' heq => ?_, fun j k hj => hg.chunk j k (hslot hj), fun i j k hi hj =>
      hg.unshared i j k (hslot hi) (hslot hj)⟩, fun _ => rfl, Nat.le_refl _, fun _ _ _ => rfl,
    fun j k hj => Or.inl ⟨j, hslot hj⟩, fun j hj l _ => ?_, fun j hj => ?_,
    fun htrue => ⟨htrue, fun j _ l _ => hzero j l⟩⟩
  · rw [← Option.some.inj heq, length_append, length_replicate]
    omega
  · rw [slot_fill, if_pos hj, hzero]
    rfl
  · rw [slot_fill, if_neg (Nat.not_lt_of_le hj)]
    exact ⟨rfl, fun _ => rfl⟩

variable {c other : SymbolClass} {isEmpty : Bool}

/-- The words that the union of two classes has at an index. -/
def unitedSets (h : Chunks) (c other : SymbolClass) (j l : Nat) : BitVec 64 :=
  unite c.isNegated other.isNegated (setOf h (slot c.otherSets j) l)
    (setOf h (slot other.otherSets j) l)

/-- No chunk of a class has another index in the other class, which may be the class itself. -/
def Aligned (c other : SymbolClass) : Prop :=
  ∀ i j k, slot c.otherSets i = some k → slot other.otherSets j = some k → i = j

/-- The chunks of the other class stay the same until their index is reached. -/
theorem Uniting.other_eq (hu : Uniting h n c.otherSets isEmpty (unitedSets h c other) i m)
    (ho : Good h other) (ha : Aligned c other) (hk : slot other.otherSets i = some k) :
    (∀ l, setOf m.chunks (some k) l = setOf h (some k) l) ∧
      (m.chunks.sets k).length = chunkSize := by
  obtain ⟨-, hlt, hlength⟩ := ho.2.chunk i k hk
  by_cases hc : ∃ j, slot c.otherSets j = some k
  · obtain ⟨j, hj⟩ := hc
    obtain rfl := ha j i k hj hk
    obtain ⟨hslot, hsets⟩ := hu.todo j (Nat.le_refl j)
    rw [hslot, hj] at hsets
    exact ⟨hsets, (hu.good.chunk j k (hslot.trans hj)).2.2⟩
  · have hsame := hu.frame k hlt fun j hj => hc ⟨j, hj⟩
    refine ⟨fun l => ?_, hsame ▸ hlength⟩
    rw [setOf, setOf, Option.elim_some, Option.elim_some, hsame]

theorem Uniting.turn_eq (hu : Uniting h n c.otherSets isEmpty (unitedSets h c other) i m)
    (ho : Good h other) (ha : Aligned c other) :
    (fun l => unite c.isNegated other.isNegated (setOf m.chunks (slot m.otherSets i) l)
      (setOf m.chunks (slot other.otherSets i) l)) = unitedSets h c other i := by
  refine funext fun l => ?_
  have hother : setOf m.chunks (slot other.otherSets i) l = setOf h (slot other.otherSets i) l := by
    cases hk : slot other.otherSets i with
    | none => rfl
    | some k => exact (hu.other_eq ho ha hk).1 l
  rw [(hu.todo i (Nat.le_refl i)).2, hother, unitedSets]

/-- The part of the union about the chunks. -/
theorem mergeChunks_eq (hg : Good h c) (ho : Good h other) (hupper : other.upper = c.upper)
    (ha : Aligned c other) (hle : 256 ≤ c.upper) (isEmpty : Bool) :
    ∃ m, mergeChunks c other ⟨h, c.otherSets, isEmpty⟩ = some m ∧
      Uniting h (chunkIndex c.upper + 1) c.otherSets isEmpty (unitedSets h c other)
        (chunkIndex c.upper + 1) m := by
  have hcovers : ∀ others, other.otherSets = some others →
      chunkIndex c.upper + 1 ≤ others.length := by
    rw [← hupper]
    exact ho.2.length_le
  rw [mergeChunks, if_neg (Nat.not_lt_of_le hle)]
  cases hsets : c.otherSets with
  | none =>
      have hleft : ∀ j l, setOf h (slot c.otherSets j) l = 0 := by
        rw [hsets]
        exact fun _ _ => rfl
      cases hsets' : other.otherSets with
      | none =>
          have hzero : ∀ j l, unitedSets h c other j l = 0 := by
            intro j l
            rw [unitedSets, hleft, hsets']
            exact unite_zero_zero
          refine ⟨_, rfl, .same (hsets ▸ hg.2) (fun j l => ?_) hzero⟩
          rw [hzero]
          rfl
      | some others =>
          cases hnegated : c.isNegated with
          | true =>
              have hzero : ∀ j l, unitedSets h c other j l = 0 := by
                intro j l
                rw [unitedSets, hleft, hnegated]
                exact unite_zero_left_true _ _
              refine ⟨_, rfl, .same (hsets ▸ hg.2) (fun j l => ?_) hzero⟩
              rw [hzero]
              rfl
          | false =>
              have hloop := Uniting.loop (copyTurn c.upper others) isEmpty
                (fun i m hi (hu : Uniting h _ c.otherSets isEmpty (unitedSets h c other) i m) => by
                  have hnone : slot m.otherSets i = none := by
                    rw [(hu.todo i (Nat.le_refl i)).1, hsets]
                    rfl
                  have hturn := copyTurn_eq other.isNegated
                      (Nat.lt_of_lt_of_le hg.1 hu.created_le) hu.good
                    (hcovers others hsets') hi
                    (fun k hk => (hu.other_eq ho ha (hsets'.symm ▸ hk)).2) hnone
                  rw [← hsets', ← hnegated, hu.turn_eq ho ha] at hturn
                  exact hturn) hg.2
              rw [hsets] at hloop
              exact hloop
  | some sets =>
      cases hsets' : other.otherSets with
      | none =>
          cases hnegated : other.isNegated with
          | true =>
              have hlength := hg.2.length_le sets hsets
              refine ⟨_, if_pos hlength, .fill (hsets ▸ hg.2) fun j l => ?_⟩
              rw [unitedSets, hnegated, hsets']
              exact unite_zero_right_true _ _
          | false =>
              have hloop := Uniting.loop emptyTurn isEmpty
                (fun i m hi (hu : Uniting h _ c.otherSets isEmpty (unitedSets h c other) i m) => by
                  obtain ⟨sets', hsome⟩ :=
                      Option.isSome_iff_exists.mp (hu.attached (by rw [hsets]; rfl))
                  have hturn := emptyTurn_eq c.isNegated hu.good hsome hi
                  rw [← hsets', ← hnegated, hu.turn_eq ho ha] at hturn
                  exact hturn) hg.2
              rw [hsets] at hloop
              exact hloop
      | some others =>
          have hloop := Uniting.loop (mergeTurn c.isNegated other.isNegated others) isEmpty
            (fun i m hi (hu : Uniting h _ c.otherSets isEmpty (unitedSets h c other) i m) => by
              obtain ⟨sets', hsome⟩ :=
                  Option.isSome_iff_exists.mp (hu.attached (by rw [hsets]; rfl))
              have hturn := mergeTurn_eq c.isNegated other.isNegated
                (Nat.lt_of_lt_of_le hg.1 hu.created_le) hu.good
                hsome (hcovers others hsets') hi
                fun k hk => (hu.other_eq ho ha (hsets'.symm ▸ hk)).2
              rw [← hsets', hu.turn_eq ho ha] at hturn
              exact hturn) hg.2
          rw [hsets] at hloop
          exact hloop

/-- The part of the union about the chunks, for the symbols that a class can have. -/
theorem mergeChunks_eq' (hg : Good h c) (ho : Good h other) (hupper : other.upper = c.upper)
    (ha : Aligned c other) (isEmpty : Bool) :
    ∃ m, mergeChunks c other ⟨h, c.otherSets, isEmpty⟩ = some m ∧ 0 < m.chunks.created ∧
      GoodSets m.chunks (chunkIndex c.upper + 1) m.otherSets ∧
      Frame h c m.chunks { c with otherSets := m.otherSets } ∧
      (∀ a ≤ c.upper, 256 ≤ a → setOf m.chunks (slot m.otherSets (chunkIndex a)) (indexInChunk a) =
        unitedSets h c other (chunkIndex a) (indexInChunk a)) ∧
      (m.isEmpty = true → isEmpty = true ∧ ∀ a ≤ c.upper, 256 ≤ a →
        unitedSets h c other (chunkIndex a) (indexInChunk a) = 0) := by
  rcases Nat.lt_or_ge c.upper 256 with hlt | hle
  · refine ⟨_, if_pos hlt, hg.1, hg.2, .of_eq rfl, fun a hle ha => ?_, fun htrue =>
      ⟨htrue, fun a hle ha => ?_⟩⟩
    · omega
    · omega
  · obtain ⟨m, hrun, hu⟩ := mergeChunks_eq hg ho hupper ha hle isEmpty
    refine ⟨m, hrun, Nat.lt_of_lt_of_le hg.1 hu.created_le, hu.good, ⟨hu.created_le,
      fun k hk huses => hu.frame k hk fun j hj => huses ⟨j, hj⟩, fun k ⟨j, hj⟩ => hu.uses j k hj⟩,
      fun a hle _ => ?_, fun htrue => ⟨(hu.empty htrue).1, fun a hle _ => ?_⟩⟩
    · exact hu.done _ (Nat.lt_succ_of_le (chunkIndex_mono hle)) _ (indexInChunk_lt a)
    · exact (hu.empty htrue).2 _ (Nat.lt_succ_of_le (chunkIndex_mono hle)) _ (indexInChunk_lt a)

theorem word_of_le (h : Chunks) (c : SymbolClass) {a : Nat} (ha : 256 ≤ a) :
    word h c (a / 64) = setOf h (slot c.otherSets (chunkIndex a)) (indexInChunk a) := by
  have hj : a / 64 = (a - 256) / 64 + 4 := by omega
  rw [hj, word, chunkIndex_eq, indexInChunk]

/-- The union of two classes; the flag `is_empty` stays set if it was, and is not set again when
the other class has it. -/
theorem Good.addSymbolClass_eq (hg : Good h c) (ho : Good h other) (hupper : other.upper = c.upper)
    (ha : Aligned c other) :
    ∃ h' c', c.addSymbolClass h other = some (h', c') ∧ Good h' c' ∧ Frame h c h' c' ∧
      c'.lower = c.lower ∧ c'.upper = c.upper ∧
      c'.isNegated = (c.isNegated || other.isNegated) ∧
      (c.isEmpty = true ∨ other.isEmpty = true → c'.isEmpty = c.isEmpty) ∧
      (c.isEmpty = false → other.isEmpty = false → c'.isEmpty = true →
        ∀ a ≤ c.upper, bit h' c' a = false) ∧
      ∀ a ≤ c.upper, (bit h' c' a != (c.isNegated || other.isNegated)) =
        ((bit h c a != c.isNegated) || (bit h other a != other.isNegated)) := by
  let first := unite c.isNegated other.isNegated c.firstSet other.firstSet
  let second := unite c.isNegated other.isNegated c.secondSet other.secondSet
  let third := unite c.isNegated other.isNegated c.thirdSet other.thirdSet
  let fourth := unite c.isNegated other.isNegated c.fourthSet other.fourthSet
  obtain ⟨m, hrun, hcreated, hsets, hframe, hchunks, hempty⟩ := mergeChunks_eq' hg ho hupper ha
    (if !c.isEmpty && !other.isEmpty then first == 0 && second == 0 && third == 0 && fourth == 0
      else true)
  let c' : SymbolClass := ⟨c.lower, c.upper,
    if !c.isEmpty && !other.isEmpty then m.isEmpty else c.isEmpty,
    c.isNegated || other.isNegated, first, second, third, fourth, m.otherSets⟩
  have hwords : ∀ a ≤ c.upper, word m.chunks c' (a / 64) =
      unite c.isNegated other.isNegated (word h c (a / 64)) (word h other (a / 64)) := by
    intro a ha
    rcases div_64_cases a with ⟨-, hj⟩ | ⟨-, -, hj⟩ | ⟨-, -, hj⟩ | ⟨-, -, hj⟩ | ⟨hle, -⟩
    · rw [hj]
      rfl
    · rw [hj]
      rfl
    · rw [hj]
      rfl
    · rw [hj]
      rfl
    · rw [word_of_le _ _ hle, word_of_le _ _ hle, word_of_le _ _ hle]
      exact hchunks a ha hle
  refine ⟨m.chunks, c', ?_, ⟨hcreated, hsets⟩, ⟨hframe.created_le, hframe.sets, hframe.uses⟩, rfl,
    rfl, rfl, fun hor => ?_, fun hc hother htrue a ha => ?_, fun a ha => ?_⟩
  · rw [addSymbolClass, hrun]
    rfl
  · have hfilled : (!c.isEmpty && !other.isEmpty) = false := by
      rcases hor with htrue | htrue
      · rw [htrue]
        rfl
      · rw [htrue, Bool.not_true, Bool.and_false]
    exact if_neg (by rw [hfilled]; exact Bool.false_ne_true)
  · have hfilled : (!c.isEmpty && !other.isEmpty) = true := by
      rw [hc, hother]
      rfl
    have htrue : m.isEmpty = true := (if_pos hfilled).symm.trans htrue
    obtain ⟨hfour, hzero⟩ := hempty htrue
    rw [if_pos hfilled] at hfour
    simp only [Bool.and_eq_true, beq_iff_eq] at hfour
    obtain ⟨⟨⟨hfirst, hsecond⟩, hthird⟩, hfourth⟩ := hfour
    have hword : word m.chunks c' (a / 64) = 0 := by
      rcases div_64_cases a with ⟨-, hj⟩ | ⟨-, -, hj⟩ | ⟨-, -, hj⟩ | ⟨-, -, hj⟩ | ⟨hle, -⟩
      · rw [hj]
        exact hfirst
      · rw [hj]
        exact hsecond
      · rw [hj]
        exact hthird
      · rw [hj]
        exact hfourth
      · rw [word_of_le _ _ hle]
        exact (hchunks a ha hle).trans (hzero a ha hle)
    rw [bit, hword]
    exact BitVec.getLsbD_zero
  · rw [bit, bit, bit, hwords a ha]
    exact getLsbD_unite (Nat.mod_lt _ (by decide)) _ _

/-- The difference is the complement of the union of the complement. -/
theorem Good.removeSymbolClass_eq (hg : Good h c) (ho : Good h other)
    (hupper : other.upper = c.upper) (ha : Aligned c other) :
    ∃ h' c', c.removeSymbolClass h other = some (h', c') ∧ Good h' c' ∧ Frame h c h' c' ∧
      c'.lower = c.lower ∧ c'.upper = c.upper ∧
      c'.isNegated = (c.isNegated && !other.isNegated) ∧
      (c.isEmpty = true ∨ other.isEmpty = true → c'.isEmpty = c.isEmpty) ∧
      (c.isEmpty = false → other.isEmpty = false → c'.isEmpty = true →
        ∀ a ≤ c.upper, bit h' c' a = false) ∧
      ∀ a ≤ c.upper, (bit h' c' a != (c.isNegated && !other.isNegated)) =
        ((bit h c a != c.isNegated) && !(bit h other a != other.isNegated)) := by
  obtain ⟨h', c', hrun, hg', hf, hlower, hupper', hnegated, hflag, hzero, hbit⟩ :=
    Good.addSymbolClass_eq (c := c.setNegated !c.isNegated) hg ho hupper ha
  have hnot : ((!c.isNegated) || other.isNegated) = !(c.isNegated && !other.isNegated) := by
    rw [Bool.not_and, Bool.not_not]
  refine ⟨h', c'.setNegated !c'.isNegated, ?_, hg', ⟨hf.created_le, hf.sets, hf.uses⟩, hlower,
    hupper', ?_, hflag, hzero, fun a ha => ?_⟩
  · rw [removeSymbolClass, hrun]
    rfl
  · refine (congrArg (!·) hnegated).trans ?_
    exact (congrArg (!·) hnot).trans (Bool.not_not _)
  · have hnegate : ∀ x y z n o : Bool, (x != (!n || o)) = ((y != !n) || (z != o)) →
        (x != (n && !o)) = ((y != n) && !(z != o)) := by decide
    exact hnegate _ _ _ _ _ (hbit a ha)

end SymbolClass

end Gobo
