/-
The symbols of a class as bits of a sequence of words, and the chunks that a class uses.
-/
import Gobo.SymbolClass

namespace Gobo

open Option List

namespace SymbolClass

variable {h h' : Chunks} {c c' : SymbolClass} {a b i j k n : Nat} {w : BitVec 64}
  {sets sets' : List (Option Nat)}

theorem and_mask_ne_zero (w : BitVec 64) (hi : i < 64) : (w &&& mask i != 0) = w.getLsbD i := by
  rw [mask, ← BitVec.twoPow_eq, BitVec.and_twoPow]
  cases hw : w.getLsbD i with
  | false => rfl
  | true =>
      rw [if_pos rfl]
      refine bne_iff_ne.mpr fun hzero => ?_
      have hbit := congrArg (fun v : BitVec 64 => v.getLsbD i) hzero
      simp [hi] at hbit

theorem getLsbD_or_mask (w : BitVec 64) (hi : i < 64) (j : Nat) :
    (w ||| mask i).getLsbD j = (w.getLsbD j || decide (j = i)) := by
  rw [BitVec.getLsbD_or, mask, ← BitVec.twoPow_eq, BitVec.getLsbD_twoPow, decide_eq_true hi,
    Bool.true_and, decide_eq_decide.mpr eq_comm]

/-- The chunk at an index, if it has been created. -/
def slot (otherSets : Option (List (Option Nat))) (i : Nat) : Option Nat :=
  (otherSets.bind fun sets => sets[i]?).join

theorem slot_of_getElem? {x : Option Nat} (h : sets[i]? = some x) : slot (some sets) i = x :=
  congrArg join h

theorem putSlot_eq {x : Option Nat} (hi : i < sets.length) :
    putSlot sets x i = some (sets.set i x) :=
  if_pos hi

theorem slot_set {x : Option Nat} (hi : i < sets.length) (j : Nat) :
    slot (some (sets.set i x)) j = if j = i then x else slot (some sets) j := by
  rw [slot, bind_some, getElem?_set]
  by_cases hij : i = j
  · rw [if_pos hij, if_pos hi, if_pos hij.symm]
    rfl
  · rw [if_neg hij, if_neg (Ne.symm hij)]
    rfl

theorem slot_replicate (n i : Nat) : slot (some (replicate n none)) i = none := by
  rw [slot, bind_some, getElem?_replicate]
  split <;> rfl

/-- A set of a chunk, empty without a chunk. -/
def setOf (h : Chunks) (x : Option Nat) (i : Nat) : BitVec 64 :=
  x.elim 0 fun k => (h.sets k)[i]?.getD 0

/-- The 64 symbols from `64 * j`. -/
def word (h : Chunks) (c : SymbolClass) : Nat → BitVec 64
  | 0 => c.firstSet
  | 1 => c.secondSet
  | 2 => c.thirdSet
  | 3 => c.fourthSet
  | j + 4 => setOf h (slot c.otherSets (j / chunkSize)) (j % chunkSize)

/-- Whether a symbol is in the sets, without the flags. -/
def bit (h : Chunks) (c : SymbolClass) (a : Nat) : Bool := (word h c (a / 64)).getLsbD (a % 64)

/-- The chunks of the sets, of which no two are the same, cover `n` indexes. -/
structure GoodSets (h : Chunks) (n : Nat) (otherSets : Option (List (Option Nat))) : Prop where
  length_le : ∀ sets, otherSets = some sets → n ≤ sets.length
  chunk : ∀ i k, slot otherSets i = some k →
    0 < k ∧ k < h.created ∧ (h.sets k).length = chunkSize
  unshared : ∀ i j k, slot otherSets i = some k → slot otherSets j = some k → i = j

/-- The chunks of a class. -/
def Good (h : Chunks) (c : SymbolClass) : Prop :=
  0 < h.created ∧ GoodSets h (chunkIndex c.upper + 1) c.otherSets

def Uses (c : SymbolClass) (k : Nat) : Prop := ∃ i, slot c.otherSets i = some k

theorem bit_make (lower upper a : Nat) : bit h (make lower upper) a = false := by
  have hword : word h (make lower upper) (a / 64) = 0 := by
    match a / 64 with
    | 0 | 1 | 2 | 3 | j + 4 => rfl
  rw [bit, hword]
  exact BitVec.getLsbD_zero

theorem bit_setNegated (b : Bool) (a : Nat) : bit h (c.setNegated b) a = bit h c a := by
  rw [bit, bit]
  match a / 64 with
  | 0 | 1 | 2 | 3 | j + 4 => rfl

theorem good_make (hc : 0 < h.created) (lower upper : Nat) : Good h (make lower upper) :=
  ⟨hc, nofun, nofun, nofun⟩

theorem chunkIndex_eq (a : Nat) : chunkIndex a = (a - 256) / 64 / chunkSize := by
  rw [Nat.div_div_eq_div_mul]
  rfl

theorem chunkIndex_mono (h : a ≤ b) : chunkIndex a ≤ chunkIndex b :=
  Nat.div_le_div_right (Nat.sub_le_sub_right h 256)

theorem Good.chunk_eq (hg : Good h c) (ha : a ≤ c.upper) :
    c.chunk a = some (slot c.otherSets (chunkIndex a)) := by
  rw [chunk]
  cases hsets : c.otherSets with
  | none => rfl
  | some sets =>
      have hlt : chunkIndex a < sets.length :=
        Nat.lt_of_le_of_lt (chunkIndex_mono ha) (hg.2.length_le sets hsets)
      exact (getElem?_eq_getElem hlt).trans
        (congrArg some (slot_of_getElem? (getElem?_eq_getElem hlt)).symm)

theorem setOf_eq {x : Option Nat} (hx : x = some k) (hlength : (h.sets k).length = chunkSize)
    (hi : i < chunkSize) : h.item k i = some (setOf h x i) := by
  have hlt : i < (h.sets k).length := hlength ▸ hi
  rw [Chunks.item, setOf, hx, elim_some, getElem?_eq_getElem hlt]
  rfl

theorem indexInChunk_lt (a : Nat) : indexInChunk a < chunkSize := Nat.mod_lt _ (by decide)

theorem div_64_cases (a : Nat) :
    a < 64 ∧ a / 64 = 0 ∨ 64 ≤ a ∧ a < 128 ∧ a / 64 = 1 ∨ 128 ≤ a ∧ a < 192 ∧ a / 64 = 2 ∨
      192 ≤ a ∧ a < 256 ∧ a / 64 = 3 ∨ 256 ≤ a ∧ a / 64 = (a - 256) / 64 + 4 := by
  omega

/-- The query `added` reads the bits. -/
theorem Good.added_eq (hg : Good h c) (ha : a ≤ c.upper) :
    c.added h a = some (!c.isEmpty && bit h c a) := by
  have hmod : a % 64 < 64 := Nat.mod_lt _ (by decide)
  rw [added, bit]
  cases c.isEmpty with
  | true => rfl
  | false =>
      rw [if_neg Bool.false_ne_true, Bool.not_false, Bool.true_and]
      rcases div_64_cases a with ⟨hlt, hj⟩ | ⟨hle, hlt, hj⟩ | ⟨hle, hlt, hj⟩ | ⟨hle, hlt, hj⟩ |
        ⟨hle, hj⟩
      · rw [if_pos hlt, hj, and_mask_ne_zero _ hlt, Nat.mod_eq_of_lt hlt]
        rfl
      · rw [if_neg (by omega), if_pos hlt, hj, and_mask_ne_zero _ hmod]
        rfl
      · rw [if_neg (by omega), if_neg (by omega), if_pos hlt, hj, and_mask_ne_zero _ hmod]
        rfl
      · rw [if_neg (by omega), if_neg (by omega), if_neg (by omega), if_pos hlt, hj,
          and_mask_ne_zero _ hmod]
        rfl
      · rw [if_neg (by omega), if_neg (by omega), if_neg (by omega), if_neg (by omega), hj,
          hg.chunk_eq ha]
        have hword : word h c ((a - 256) / 64 + 4) =
            setOf h (slot c.otherSets (chunkIndex a)) (indexInChunk a) := by
          rw [chunkIndex_eq]
          rfl
        rw [hword]
        cases hslot : slot c.otherSets (chunkIndex a) with
        | none => simp [setOf]
        | some k =>
            obtain ⟨-, -, hlength⟩ := hg.2.chunk _ k hslot
            have hitem := setOf_eq (h := h) hslot hlength (indexInChunk_lt a)
            rw [hslot] at hitem
            have hne : ¬(h.sets k).length = 0 := by rw [hlength]; decide
            simp only [some_bind, if_neg hne, hitem, and_mask_ne_zero _ hmod]

/-- The query `has` reads the bits and the flags. -/
theorem Good.has_eq (hg : Good h c) (ha : a ≤ c.upper) :
    c.has h a = some ((!c.isEmpty && bit h c a) != c.isNegated) := by
  rw [has, hg.added_eq ha]
  rfl

/-- One symbol is added to the words. -/
theorem bit_eq_of_word (hword : ∀ j, word h' c' j =
      if j = a / 64 then word h c j ||| mask (a % 64) else word h c j) (b : Nat) :
    bit h' c' b = (bit h c b || decide (b = a)) := by
  rw [bit, hword, bit]
  by_cases hj : b / 64 = a / 64
  · rw [if_pos hj, getLsbD_or_mask _ (Nat.mod_lt _ (by decide))]
    exact congrArg _ (decide_eq_decide.mpr ⟨fun hmod => by omega, fun heq => by rw [heq]⟩)
  · have hne : b ≠ a := fun heq => hj (by rw [heq])
    rw [if_neg hj, decide_eq_false hne, Bool.or_false]

/-- What the other classes see of a change. -/
structure Frame (h : Chunks) (c : SymbolClass) (h' : Chunks) (c' : SymbolClass) : Prop where
  created_le : h.created ≤ h'.created
  sets : ∀ k < h.created, ¬c.Uses k → h'.sets k = h.sets k
  uses : ∀ k, c'.Uses k → c.Uses k ∨ h.created ≤ k

theorem Frame.of_eq (hsets : c'.otherSets = c.otherSets) : Frame h c h c' :=
  ⟨Nat.le_refl _, fun _ _ _ => rfl, fun _ ⟨i, hi⟩ => Or.inl ⟨i, hsets ▸ hi⟩⟩

theorem Frame.trans {h'' : Chunks} {c'' : SymbolClass} (hf : Frame h c h' c')
    (hf' : Frame h' c' h'' c'') : Frame h c h'' c'' := by
  refine ⟨Nat.le_trans hf.created_le hf'.created_le, fun k hk huses => ?_, fun k huses => ?_⟩
  · refine (hf'.sets k (Nat.lt_of_lt_of_le hk hf.created_le) fun huses' => ?_).trans
      (hf.sets k hk huses)
    rcases hf.uses k huses' with huses' | hge
    · exact huses huses'
    · exact Nat.not_lt_of_le hge hk
  · rcases hf'.uses k huses with huses | hge
    · exact hf.uses k huses
    · exact Or.inr (Nat.le_trans hf.created_le hge)

theorem Frame.good {d : SymbolClass} (hf : Frame h c h' c') (hd : Good h d)
    (hapart : ∀ k, c.Uses k → ¬d.Uses k) : Good h' d := by
  refine ⟨Nat.lt_of_lt_of_le hd.1 hf.created_le, hd.2.length_le, fun i k hi => ?_, hd.2.unshared⟩
  obtain ⟨hpos, hlt, hlength⟩ := hd.2.chunk i k hi
  refine ⟨hpos, Nat.lt_of_lt_of_le hlt hf.created_le, ?_⟩
  rw [hf.sets k hlt fun hc => hapart k hc ⟨i, hi⟩]
  exact hlength

/-- The bits of another class are the same. -/
theorem Frame.bit_eq {d : SymbolClass} (hf : Frame h c h' c') (hd : Good h d)
    (hapart : ∀ k, c.Uses k → ¬d.Uses k) : bit h' d = bit h d := by
  have hword : ∀ j, word h' d j = word h d j := by
    intro j
    match j with
    | 0 | 1 | 2 | 3 => rfl
    | j + 4 =>
        rw [word, word]
        cases hslot : slot d.otherSets (j / chunkSize) with
        | none => rfl
        | some k =>
            have hsets := hf.sets k (hd.2.chunk _ k hslot).2.1 fun hc => hapart k hc ⟨_, hslot⟩
            simp only [setOf, elim_some, hsets]
  funext a
  rw [bit, bit, hword]

/-- A chunk `y` is replaced with a chunk `x` with the sets `f`. -/
structure Replaced (h h' : Chunks) (y x : Option Nat) (f : Nat → BitVec 64) : Prop where
  created_le : h.created ≤ h'.created
  sets : ∀ k < h.created, y ≠ some k → h'.sets k = h.sets k
  chunk : ∀ k, x = some k →
    0 < k ∧ k < h'.created ∧ (h'.sets k).length = chunkSize ∧ (y = some k ∨ h.created ≤ k)
  value : ∀ j < chunkSize, setOf h' x j = f j

theorem Replaced.congr {x y : Option Nat} {f g : Nat → BitVec 64} (hr : Replaced h h' y x f)
    (hfg : ∀ j < chunkSize, f j = g j) : Replaced h h' y x g :=
  ⟨hr.created_le, hr.sets, hr.chunk, fun j hj => (hr.value j hj).trans (hfg j hj)⟩

section

variable {x : Option Nat} {f : Nat → BitVec 64} {others others' : Option (List (Option Nat))}

/-- The chunk at one index is replaced. -/
theorem Replaced.good (hr : Replaced h h' (slot others i) x f) (hg : GoodSets h n others)
    (hslots : ∀ j, slot others' j = if j = i then x else slot others j)
    (hlength : ∀ sets, others' = some sets → n ≤ sets.length) : GoodSets h' n others' := by
  refine ⟨hlength, fun j k hj => ?_, fun j j' k hj hj' => ?_⟩
  · rw [hslots] at hj
    split at hj
    · obtain ⟨hpos, hlt, hlength, -⟩ := hr.chunk k hj
      exact ⟨hpos, hlt, hlength⟩
    · rename_i hne
      obtain ⟨hpos, hlt, hlength⟩ := hg.chunk j k hj
      refine ⟨hpos, Nat.lt_of_lt_of_le hlt hr.created_le, ?_⟩
      rw [hr.sets k hlt fun hk => hne (hg.unshared j i k hj hk)]
      exact hlength
  · have hnew : ∀ {l}, l ≠ i → slot others l = some k → x ≠ some k := by
      intro l hl hk hx
      obtain ⟨-, -, -, hor⟩ := hr.chunk k hx
      rcases hor with hold | hge
      · exact hl (hg.unshared l i k hk hold)
      · exact Nat.not_lt_of_le hge (hg.chunk l k hk).2.1
    rw [hslots] at hj hj'
    by_cases hji : j = i
    · by_cases hji' : j' = i
      · rw [hji, hji']
      · rw [if_pos hji] at hj
        rw [if_neg hji'] at hj'
        exact absurd hj (hnew hji' hj')
    · rw [if_neg hji] at hj
      by_cases hji' : j' = i
      · rw [if_pos hji'] at hj'
        exact absurd hj' (hnew hji hj)
      · rw [if_neg hji'] at hj'
        exact hg.unshared j j' k hj hj'

/-- The other chunks stay the same. -/
theorem Replaced.other (hr : Replaced h h' (slot others i) x f) (hg : GoodSets h n others)
    (hj : j ≠ i) (l : Nat) : setOf h' (slot others j) l = setOf h (slot others j) l := by
  cases hslot : slot others j with
  | none => rfl
  | some k =>
      rw [setOf, setOf, elim_some, elim_some,
        hr.sets k (hg.chunk j k hslot).2.1 fun hk => hj (hg.unshared j i k hslot hk)]

theorem Replaced.frame (hr : Replaced h h' (slot c.otherSets i) x f)
    (hslots : ∀ j, slot c'.otherSets j = if j = i then x else slot c.otherSets j) :
    Frame h c h' c' := by
  refine ⟨hr.created_le, fun k hk huses => hr.sets k hk fun hslot => huses ⟨i, hslot⟩,
    fun k ⟨j, hj⟩ => ?_⟩
  rw [hslots] at hj
  split at hj
  · exact (hr.chunk k hj).2.2.2.imp_left fun hslot => ⟨i, hslot⟩
  · exact Or.inl ⟨j, hj⟩

/-- The words of a class of which one chunk is replaced. -/
theorem Replaced.word_eq (hr : Replaced h h' (slot c.otherSets i) x f)
    (hg : GoodSets h n c.otherSets)
    (hslots : ∀ j, slot c'.otherSets j = if j = i then x else slot c.otherSets j) (j : Nat) :
    word h' c' (j + 4) = if j / chunkSize = i then f (j % chunkSize) else word h c (j + 4) := by
  rw [word, hslots, word]
  by_cases hj : j / chunkSize = i
  · rw [if_pos hj, if_pos hj]
    exact hr.value _ (Nat.mod_lt _ (by decide))
  · rw [if_neg hj, if_neg hj, hr.other hg hj]

end

section

variable (sets : List (BitVec 64))

theorem sets_make_self : (h.make sets).sets h.created = sets :=
  Function.update_self ..

theorem setOf_make (i : Nat) :
    setOf (h.make sets) (some h.created) i = sets[i]?.getD 0 := by
  rw [setOf, elim_some, sets_make_self]

theorem sets_make_of_lt (hk : k < h.created) : (h.make sets).sets k = h.sets k :=
  Function.update_of_ne (Nat.ne_of_lt hk) _ _

theorem sets_change_self : (h.change k sets).sets k = sets := Function.update_self ..

theorem sets_change_of_ne (hij : i ≠ k) : (h.change k sets).sets i = h.sets i :=
  Function.update_of_ne hij _ _

end

theorem put_eq {v : BitVec 64} (hi : i < (h.sets k).length) :
    h.put v k i = some (h.change k ((h.sets k).set i v)) :=
  if_pos hi

/-- A chunk gets other sets. -/
theorem Replaced.change {y : Option Nat} (ws : List (BitVec 64)) (hy : y = some k)
    (hk : 0 < k ∧ k < h.created) (hlength : ws.length = chunkSize) :
    Replaced h (h.change k ws) y (some k) fun j => ws[j]?.getD 0 := by
  subst hy
  refine ⟨Nat.le_refl _, fun k' _ hne => ?_, fun k' heq => ?_, fun j hj => ?_⟩
  · exact sets_change_of_ne _ fun heq => hne (congrArg some heq.symm)
  · obtain rfl := some.inj heq
    exact ⟨hk.1, hk.2, by rw [sets_change_self, hlength], Or.inl rfl⟩
  · rw [setOf, elim_some, sets_change_self]

/-- A new chunk. -/
theorem Replaced.make {ws : List (BitVec 64)} (hcreated : 0 < h.created)
    (hlength : ws.length = chunkSize) (y : Option Nat) :
    Replaced h (h.make ws) y (some h.created) fun j => ws[j]?.getD 0 := by
  refine ⟨Nat.le_succ _, fun k hk _ => sets_make_of_lt _ hk, fun k heq => ?_,
    fun j _ => setOf_make ws j⟩
  obtain rfl := some.inj heq
  exact ⟨hcreated, Nat.lt_succ_self _, by rw [sets_make_self, hlength], Or.inr (Nat.le_refl _)⟩

theorem attachedOtherSets_eq (hg : Good h c) (ha : a ≤ c.upper) :
    chunkIndex a < (attachedOtherSets c.upper c.otherSets).length ∧
      ∀ i, slot (some (attachedOtherSets c.upper c.otherSets)) i = slot c.otherSets i := by
  have hle := chunkIndex_mono ha
  rw [attachedOtherSets]
  cases hsets : c.otherSets with
  | none =>
      refine ⟨?_, fun i => slot_replicate _ i⟩
      rw [getD_none, length_replicate]
      omega
  | some sets =>
      have hlength := hg.2.length_le sets hsets
      exact ⟨Nat.lt_of_le_of_lt hle hlength, fun i => rfl⟩

theorem Good.attachedOtherSets (hg : Good h c) :
    GoodSets h (chunkIndex c.upper + 1) (some (attachedOtherSets c.upper c.otherSets)) := by
  have hslots := (attachedOtherSets_eq hg (Nat.le_refl c.upper)).2
  refine ⟨fun sets heq => ?_, fun i k hi => ?_, fun i j k hi hj => ?_⟩
  · rw [← some.inj heq]
    exact (attachedOtherSets_eq hg (Nat.le_refl c.upper)).1
  · exact hg.2.chunk i k ((hslots i).symm.trans hi)
  · exact hg.2.unshared i j k ((hslots i).symm.trans hi) ((hslots j).symm.trans hj)

/-- A chunk is created for a symbol that has none. -/
theorem Good.attachedChunk_eq (hg : Good h c) (ha : a ≤ c.upper) :
    ∃ h' sets k, c.attachedChunk h a = some (h', sets, k) ∧
      slot (some sets) (chunkIndex a) = some k ∧
      Good h' { c with otherSets := some sets } ∧
      Frame h c h' { c with otherSets := some sets } ∧
      ∀ j, word h' { c with otherSets := some sets } j = word h c j := by
  obtain ⟨hlt, hslots⟩ := attachedOtherSets_eq hg ha
  have hget : (SymbolClass.attachedOtherSets c.upper c.otherSets)[chunkIndex a]? =
      some (slot c.otherSets (chunkIndex a)) := by
    rw [← hslots, getElem?_eq_getElem hlt, slot_of_getElem? (getElem?_eq_getElem hlt)]
  rw [attachedChunk]
  cases hk : slot c.otherSets (chunkIndex a) with
  | some k =>
      rw [hk] at hget
      refine ⟨h, SymbolClass.attachedOtherSets c.upper c.otherSets, k, ?_, (hslots _).trans hk,
        ⟨hg.1, hg.attachedOtherSets⟩, ⟨Nat.le_refl _, fun _ _ _ => rfl, fun k' ⟨i, hi⟩ => ?_⟩,
        fun j => ?_⟩
      · simp only [hget, some_bind]
      · exact Or.inl ⟨i, (hslots i).symm.trans hi⟩
      · match j with
        | 0 | 1 | 2 | 3 => rfl
        | j + 4 => rw [word, word, hslots]
  | none =>
      rw [hk] at hget
      have hr : Replaced h (h.make (replicate chunkSize 0)) (slot c.otherSets (chunkIndex a))
          (some h.created) (fun j => (replicate chunkSize 0)[j]?.getD 0) :=
        .make hg.1 length_replicate _
      have hchanged : ∀ j, slot (some ((SymbolClass.attachedOtherSets c.upper c.otherSets).set
          (chunkIndex a) (some h.created))) j =
          if j = chunkIndex a then some h.created else slot c.otherSets j := by
        intro j
        rw [slot_set hlt, hslots]
      refine ⟨h.make (replicate chunkSize 0), _, h.created, ?_, ?_,
        ⟨Nat.succ_pos _, hr.good hg.2 hchanged fun sets heq => ?_⟩, hr.frame hchanged, fun j => ?_⟩
      · simp only [hget, putSlot_eq hlt, some_bind]
      · rw [hchanged, if_pos rfl]
      · rw [← some.inj heq, length_set]
        exact (attachedOtherSets_eq hg (Nat.le_refl c.upper)).1
      · match j with
        | 0 | 1 | 2 | 3 => rfl
        | j + 4 =>
            rw [hr.word_eq hg.2 hchanged, word]
            by_cases hj : j / chunkSize = chunkIndex a
            · rw [if_pos hj, hj, hk, getElem?_replicate_of_lt (Nat.mod_lt _ (by decide))]
              rfl
            · rw [if_neg hj]

/-- The symbol is added to the bits. -/
theorem Good.addSymbol_eq (hg : Good h c) (ha : a ≤ c.upper) :
    ∃ h' c', c.addSymbol h a = some (h', c') ∧ Good h' c' ∧ Frame h c h' c' ∧
      c'.lower = c.lower ∧ c'.upper = c.upper ∧ c'.isNegated = c.isNegated ∧
      c'.isEmpty = false ∧ ∀ b, bit h' c' b = (bit h c b || decide (b = a)) := by
  rw [addSymbol]
  rcases div_64_cases a with ⟨hlt, hj⟩ | ⟨hle, hlt, hj⟩ | ⟨hle, hlt, hj⟩ | ⟨hle, hlt, hj⟩ |
    ⟨hle, hj⟩
  · rw [if_pos hlt]
    refine ⟨_, _, rfl, hg, .of_eq rfl, rfl, rfl, rfl, rfl, bit_eq_of_word fun j => ?_⟩
    rw [hj, Nat.mod_eq_of_lt hlt]
    match j with
    | 0 | 1 | 2 | 3 | j + 4 => rfl
  · rw [if_neg (by omega), if_pos hlt]
    refine ⟨_, _, rfl, hg, .of_eq rfl, rfl, rfl, rfl, rfl, bit_eq_of_word fun j => ?_⟩
    rw [hj]
    match j with
    | 0 | 1 | 2 | 3 | j + 4 => rfl
  · rw [if_neg (by omega), if_neg (by omega), if_pos hlt]
    refine ⟨_, _, rfl, hg, .of_eq rfl, rfl, rfl, rfl, rfl, bit_eq_of_word fun j => ?_⟩
    rw [hj]
    match j with
    | 0 | 1 | 2 | 3 | j + 4 => rfl
  · rw [if_neg (by omega), if_neg (by omega), if_neg (by omega), if_pos hlt]
    refine ⟨_, _, rfl, hg, .of_eq rfl, rfl, rfl, rfl, rfl, bit_eq_of_word fun j => ?_⟩
    rw [hj]
    match j with
    | 0 | 1 | 2 | 3 | j + 4 => rfl
  · obtain ⟨h₁, sets, k, hrun, hslot, hg₁, hf₁, hword₁⟩ := hg.attachedChunk_eq ha
    obtain ⟨hpos, hklt, hlength⟩ := hg₁.2.chunk _ k hslot
    have hindex : indexInChunk a < (h₁.sets k).length := hlength ▸ indexInChunk_lt a
    have hitem := setOf_eq (h := h₁) hslot hlength (indexInChunk_lt a)
    have hne : ¬(h₁.sets k).length = 0 := by rw [hlength]; decide
    rw [if_neg (by omega), if_neg (by omega), if_neg (by omega), if_neg (by omega)]
    have hr := Replaced.change (h := h₁) (y := slot (some sets) (chunkIndex a))
      ((h₁.sets k).set (indexInChunk a) (setOf h₁ (some k) (indexInChunk a) ||| mask (a % 64)))
      hslot ⟨hpos, hklt⟩ (by rw [length_set, hlength])
    have hslots : ∀ j, slot (some sets) j =
        if j = chunkIndex a then some k else slot (some sets) j := by
      intro j
      split
      · rename_i heq
        rw [heq, hslot]
      · rfl
    have hgood := hr.good hg₁.2 hslots hg₁.2.length_le
    let c₁ := { c with otherSets := some sets }
    let c₂ := { c with otherSets := some sets, isEmpty := false }
    have hframe : Frame h₁ c₁ _ c₂ := hr.frame hslots
    have hwords : ∀ j, word _ c₂ (j + 4) = _ := hr.word_eq (c := c₁) hg₁.2 hslots
    have hmod : indexInChunk a = (a - 256) / 64 % chunkSize := rfl
    refine ⟨h₁.change k ((h₁.sets k).set (indexInChunk a)
      (setOf h₁ (some k) (indexInChunk a) ||| mask (a % 64))),
      c₂, ?_, ⟨hg₁.1, hgood⟩, hf₁.trans hframe, rfl, rfl, rfl, rfl, bit_eq_of_word fun j => ?_⟩
    · simp only [hrun, if_neg hne, hitem, hslot, put_eq hindex, some_bind]
      rfl
    · match j with
      | 0 | 1 | 2 | 3 => exact (if_neg (by omega)).symm
      | j + 4 =>
          refine (hwords j).trans ?_
          have hold : j / chunkSize = chunkIndex a →
              word h c (j + 4) = setOf h₁ (some k) (j % chunkSize) := by
            intro hdiv
            rw [← hword₁, word, hdiv, hslot]
          have hindexes : j + 4 = (a - 256) / 64 + 4 ↔
              j / chunkSize = chunkIndex a ∧ j % chunkSize = indexInChunk a := by
            rw [chunkIndex_eq, hmod, Nat.add_right_cancel_iff]
            refine ⟨fun heq => by rw [heq]; exact ⟨rfl, rfl⟩, fun ⟨hdiv, hmod⟩ => ?_⟩
            rw [← Nat.div_add_mod j chunkSize, hdiv, hmod, Nat.div_add_mod]
          rw [hword₁, hj]
          by_cases hdiv : j / chunkSize = chunkIndex a
          · rw [if_pos hdiv, hold hdiv, getElem?_set]
            by_cases hi : indexInChunk a = j % chunkSize
            · rw [if_pos hi, if_pos hindex, if_pos (hindexes.mpr ⟨hdiv, hi.symm⟩), hi]
              rfl
            · rw [if_neg hi, if_neg fun heq => hi (hindexes.mp heq).2.symm]
              rfl
          · rw [if_neg hdiv, if_neg fun heq => hdiv (hindexes.mp heq).1]

end SymbolClass

end Gobo
