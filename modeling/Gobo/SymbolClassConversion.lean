/-
The conversion of a class of symbols to the class of their equivalence classes
(`convert_to_equivalence`).
-/
import Gobo.EquivalenceNumbers
import Gobo.SymbolClassFull

namespace Gobo

open Option

namespace SymbolClass

/-- Add the number of a symbol, when the symbol is a representative. -/
def addRepresentative (e : EquivalenceClasses) (a : Nat) (m : Chunks × SymbolClass) :
    Option (Chunks × SymbolClass) := do
  if ← e.isRepresentative a then do
    let n ← e.equivalenceClass a
    m.2.addSymbol m.1 n
  else some m

/-- Whether a symbol up to 255 was in the old sets. -/
def oldAdded (old : SymbolClass) (a : Nat) : Bool :=
  if a < 64 then old.firstSet &&& mask a != 0
  else if a < 128 then old.secondSet &&& mask (a % 64) != 0
  else if a < 192 then old.thirdSet &&& mask (a % 64) != 0
  else old.fourthSet &&& mask (a % 64) != 0

/-- The symbol `a`, when `added` says that it was in the class. -/
def convertSymbol (added : Bool) (e : EquivalenceClasses) (a : Nat) (m : Chunks × SymbolClass) :
    Option (Chunks × SymbolClass) :=
  if added then addRepresentative e a m else some m

/-- A turn of the loop over the symbols up to 255. -/
def convertLow (old : SymbolClass) (e : EquivalenceClasses) (a : Nat) (m : Chunks × SymbolClass) :
    Option (Chunks × SymbolClass) :=
  convertSymbol (old.oldAdded a) e a m

/-- The data of the loop over the sets of a chunk; `l_index_in_chunk` is `next - 1`. -/
structure Converting where
  chunks : Chunks
  converted : SymbolClass
  symbol : Nat
  next : Nat
  i : Nat
  oldSet : BitVec 64

/-- A turn of the loop over the sets of the chunk `k`. -/
def convertTurn (e : EquivalenceClasses) (k nb : Nat) (m : Converting) : Option Converting :=
  if 64 < m.i then do
    let w ← m.chunks.item k m.next
    if w = 0 then some { m with symbol := m.symbol + 64, next := m.next + 1 }
    else do
      let h ← m.chunks.put 0 k m.next
      if w = ones then do
        let (h, c) ← forUp (addRepresentative e) (min 64 (nb + 1 - m.symbol)) m.symbol
          (h, m.converted)
        some { m with
          chunks := h
          converted := c
          symbol := m.symbol + min 64 (nb + 1 - m.symbol)
          next := m.next + 1
          i := 1 + min 64 (nb + 1 - m.symbol) }
      else some { m with chunks := h, next := m.next + 1, i := 1, oldSet := w }
  else do
    let (h, c) ← convertSymbol (m.oldSet &&& mask (m.symbol % 64) != 0) e m.symbol
      (m.chunks, m.converted)
    some { m with chunks := h, converted := c, symbol := m.symbol + 1, i := m.i + 1 }

/-- The loop over the sets of the chunk `k`. -/
def convertChunk (e : EquivalenceClasses) (k nb symbol : Nat) (m : Chunks × SymbolClass) :
    Option (Nat × Chunks × SymbolClass) := do
  let m ← loopUntil (fun m => some (decide (nb < m.symbol))) (convertTurn e k nb) (2 * nb + 4)
    ⟨m.1, m.2, symbol, 0, 65, 0⟩
  some (m.symbol, m.chunks, m.converted)

/-- Remove a chunk. -/
def removeChunk (i : Nat) (m : Chunks × SymbolClass) : Option (Chunks × SymbolClass) := do
  let sets ← m.2.otherSets
  let sets ← putSlot sets none i
  some (m.1, { m.2 with otherSets := some sets })

/-- Remove the chunk `i`, when its symbols are above the new upper bound. -/
def removeUnused (i : Nat) (m : Chunks × SymbolClass) : Option (Chunks × SymbolClass) :=
  if 256 ≤ m.2.upper ∧ i ≤ chunkIndex m.2.upper then some m else removeChunk i m

/-- A turn of the loop over the chunks; the data are the index, the symbol and the class. -/
def convertChunksTurn (e : EquivalenceClasses) (oldUpper : Nat) :
    Nat × Nat × Chunks × SymbolClass → Option (Nat × Nat × Chunks × SymbolClass)
  | (i, symbol, m) => do
      let sets ← m.2.otherSets
      let chunk ← sets[i]?
      let m ← removeUnused i m
      let nb := min oldUpper (symbol + symbolsPerChunk)
      match chunk with
      | none => some (i + 1, symbol + symbolsPerChunk, m)
      | some k =>
          if (m.1.sets k).length = 0 then do
            let m ← removeChunk i m
            let m ← forUp (addRepresentative e) (nb + 1 - symbol) symbol m
            some (i + 1, nb + 1, m)
          else do
            let (symbol, m) ← convertChunk e k nb symbol m
            some (i + 1, symbol, m)

/-- `convert_to_equivalence`. -/
def convertToEquivalence (h : Chunks) (c : SymbolClass) (e : EquivalenceClasses) :
    Option (Chunks × SymbolClass) := do
  let m ← forUp (convertLow c e) (min c.upper 255 + 1 - c.lower) c.lower (h, { c with
      firstSet := 0
      secondSet := 0
      thirdSet := 0
      fourthSet := 0
      isEmpty := true
      upper := e.newUpper.toNat })
  if m.2.otherSets = none then some m
  else do
    let (_, _, m) ← loopUntil (fun m => some (decide (c.upper < m.2.1)))
      (convertChunksTurn e c.upper) (c.upper + 2) (0, 256, m)
    some m

variable {h h' : Chunks} {c c' : SymbolClass} {e : EquivalenceClasses} {R : Nat → Nat → Prop}
  {a b i j k n next symbol limit : Nat} {m m' : Chunks × SymbolClass}

/-- What the conversion takes for a symbol of the class: its bit, or 32 ones in its set. -/
def Taken (h : Chunks) (c : SymbolClass) (r : Nat) : Prop :=
  bit h c r = true ∨ 256 ≤ r ∧ word h c (r / 64) = ones

/-- The number of the symbol `r` is added. -/
def Takes (h : Chunks) (c : SymbolClass) (e : EquivalenceClasses) (r : Nat) : Prop :=
  e.isRepresentative r = some true ∧ Taken h c r

/-- The numbers that are added for the symbols below `symbol`. -/
def Numbers (h : Chunks) (c : SymbolClass) (e : EquivalenceClasses) (symbol b : Nat) : Prop :=
  ∃ r < symbol, Takes h c e r ∧ e.equivalenceClass r = some b

/-- The bits below `limit` are those of the symbols below `symbol`. -/
structure Converted (h : Chunks) (c : SymbolClass) (e : EquivalenceClasses) (limit symbol : Nat)
    (m : Chunks × SymbolClass) : Prop where
  good : Good m.1 m.2
  lower : m.2.lower = c.lower
  upper : m.2.upper = e.newUpper.toNat
  negated : m.2.isNegated = c.isNegated
  bits : ∀ b ≤ e.newUpper.toNat, b < limit → (bit m.1 m.2 b = true ↔ Numbers h c e symbol b)
  flag : m.2.isEmpty = true → ∀ r < symbol, ¬Takes h c e r

/-- The equivalence classes have been built over the bounds of the class, which has no bit below
its lower bound. -/
structure Over (R : Nat → Nat → Prop) (h : Chunks) (c : SymbolClass) (e : EquivalenceClasses) :
    Prop where
  good : Good h c
  lower_le : c.lower ≤ c.upper
  above : ∀ a, bit h c a = true → c.lower ≤ a
  lower : e.lower = c.lower
  upper : e.upper = c.upper
  numbered : EquivalenceClasses.Numbered R e

theorem Over.valid_iff (ho : Over R h c e) : e.ValidSymbol a ↔ c.lower ≤ a ∧ a ≤ c.upper := by
  rw [EquivalenceClasses.ValidSymbol, ho.lower, ho.upper]

theorem Takes.valid (ho : Over R h c e) (ht : Takes h c e a) : c.lower ≤ a ∧ a ≤ c.upper :=
  ho.valid_iff.mp (ho.numbered.representative_iff.mp ht.1).1

theorem Taken.lower_le (ho : Over R h c e) (ht : Taken h c a) : c.lower ≤ a := by
  rcases ht with hbit | ⟨-, hones⟩
  · exact ho.above a hbit
  · have hbit : bit h c (64 * (a / 64)) = true := by
      rw [bit, show 64 * (a / 64) / 64 = a / 64 by omega, show 64 * (a / 64) % 64 = 0 by omega,
        hones]
      decide
    have hle := ho.above _ hbit
    omega

/-- The number of a symbol. -/
theorem Over.class_eq (ho : Over R h c e) (hlower : c.lower ≤ a) (hupper : a ≤ c.upper) :
    ∃ n, e.equivalenceClass a = some n ∧ n ≤ a ∧ n ≤ e.newUpper.toNat := by
  have ha := ho.valid_iff.mpr ⟨hlower, hupper⟩
  have hclass : e.equivalenceClass a = some (e.item a) :=
    congrArg (Option.map _) (EquivalenceClasses.cell_eq ha)
  have hrange := (ho.numbered.consecutive (e.item a)).mp ⟨a, ha, hclass⟩
  exact ⟨_, hclass, ho.numbered.class_le ha hclass, by omega⟩

theorem Over.newUpper_le (ho : Over R h c e) : e.newUpper.toNat ≤ c.upper := by
  obtain ⟨n, hn, -, -⟩ := ho.class_eq (Nat.le_refl _) ho.lower_le
  have hle := (ho.numbered.consecutive n).mp
    ⟨c.lower, ho.valid_iff.mpr ⟨Nat.le_refl _, ho.lower_le⟩, hn⟩
  obtain ⟨a, ha, hclass⟩ := (ho.numbered.consecutive e.newUpper.toNat).mpr ⟨by omega, by omega⟩
  exact (ho.numbered.class_le ha hclass).trans (ho.valid_iff.mp ha).2

theorem numbers_succ : Numbers h c e (a + 1) b ↔
    Numbers h c e a b ∨ Takes h c e a ∧ e.equivalenceClass a = some b := by
  constructor
  · rintro ⟨r, hr, ht⟩
    rcases Nat.lt_succ_iff_lt_or_eq.mp hr with hlt | rfl
    · exact Or.inl ⟨r, hlt, ht⟩
    · exact Or.inr ht
  · rintro (⟨r, hr, ht⟩ | ht)
    · exact ⟨r, Nat.lt_succ_of_lt hr, ht⟩
    · exact ⟨a, Nat.lt_succ_self a, ht⟩

/-- A number is not greater than its symbols. -/
theorem Numbers.lt (ho : Over R h c e) (hb : Numbers h c e symbol b) : b < symbol := by
  obtain ⟨r, hr, ht, hclass⟩ := hb
  have hvalid := ho.valid_iff.mpr (ht.valid ho)
  exact (ho.numbered.class_le hvalid hclass).trans_lt hr

theorem Converted.congr (hm : Converted h c e limit symbol m) {symbol' : Nat}
    (hsame : ∀ r, Takes h c e r → (r < symbol ↔ r < symbol')) :
    Converted h c e limit symbol' m := by
  refine ⟨hm.good, hm.lower, hm.upper, hm.negated, fun b hb hlt => ?_, fun he r hr ht => ?_⟩
  · rw [hm.bits b hb hlt]
    refine exists_congr fun r => ?_
    constructor
    · rintro ⟨hr, ht⟩
      exact ⟨(hsame r ht.1).mp hr, ht⟩
    · rintro ⟨hr, ht⟩
      exact ⟨(hsame r ht.1).mpr hr, ht⟩
  · exact hm.flag he r ((hsame r ht).mpr hr) ht

/-- The number of a representative that is taken is added. -/
theorem Converted.add (ho : Over R h c e) (hm : Converted h c e limit a m)
    (hupper : a ≤ c.upper) {taken : Bool} (htaken : taken = true ↔ Taken h c a) :
    ∃ m', convertSymbol taken e a m = some m' ∧
      Converted h c e limit (a + 1) m' ∧
        (m' = m ∨ ∃ n ≤ a, n ≤ m.2.upper ∧ m.2.addSymbol m.1 n = some m') := by
  have hkeep : ¬Takes h c e a → Converted h c e limit (a + 1) m := fun hnot =>
    hm.congr fun r hr => by
      have hne : r ≠ a := fun heq => hnot (heq ▸ hr)
      omega
  cases htk : taken with
  | false => exact ⟨m, rfl, hkeep fun ht => absurd (htaken.mpr ht.2) (by rw [htk]; decide),
    Or.inl rfl⟩
  | true =>
      have ht := htaken.mp htk
      have hvalid := ho.valid_iff.mpr ⟨ht.lower_le ho, hupper⟩
      obtain ⟨n, hclass, hna, hnu⟩ := ho.class_eq (ht.lower_le ho) hupper
      rw [convertSymbol, if_pos rfl, addRepresentative, EquivalenceClasses.isRepresentative,
        EquivalenceClasses.cell_eq hvalid, map_some, some_bind]
      have hrep : e.isRepresentative a = some (e.left a).isNone := by
        rw [EquivalenceClasses.isRepresentative, EquivalenceClasses.cell_eq hvalid, map_some]
      cases hleft : (e.left a).isNone with
      | false =>
          refine ⟨m, rfl, hkeep fun ht => ?_, Or.inl rfl⟩
          rw [Takes, hrep, hleft] at ht
          exact absurd ht.1 (by decide)
      | true =>
          have htakes : Takes h c e a := ⟨hrep.trans (congrArg some hleft), ht⟩
          obtain ⟨h', c', hrun, hg, -, hlow, hup, hneg, hflag, hbit⟩ :=
            hm.good.addSymbol_eq (hm.upper.symm ▸ hnu)
          refine ⟨(h', c'), ?_, ⟨hg, hlow.trans hm.lower, hup.trans hm.upper,
            hneg.trans hm.negated, fun b hb hlt => ?_, fun he => ?_⟩,
            Or.inr ⟨n, hna, hm.upper.symm ▸ hnu, hrun⟩⟩
          · rw [if_pos rfl, hclass]
            exact hrun
          · rw [hbit, Bool.or_eq_true, hm.bits b hb hlt, decide_eq_true_eq, numbers_succ, hclass,
              some.injEq, and_iff_right htakes, eq_comm (a := n)]
          · exact absurd (hflag.symm.trans he) (by decide)

/-- A symbol below 256 is added without the chunks. -/
theorem addSymbol_of_lt (hn : n < 256) (hrun : c.addSymbol h n = some m) :
    m.1 = h ∧ m.2.otherSets = c.otherSets := by
  rw [addSymbol] at hrun
  split_ifs at hrun <;> obtain rfl := some.inj hrun <;> exact ⟨rfl, rfl⟩

theorem oldAdded_eq (ha : a < 256) : c.oldAdded a = bit h c a := by
  have hmod : a % 64 < 64 := Nat.mod_lt _ (by decide)
  rw [oldAdded, bit]
  rcases div_64_cases a with ⟨hlt, hj⟩ | ⟨hle, hlt, hj⟩ | ⟨hle, hlt, hj⟩ | ⟨hle, hlt, hj⟩ |
    ⟨hle, hj⟩
  · rw [if_pos hlt, hj, and_mask_ne_zero _ hlt, Nat.mod_eq_of_lt hlt]
    rfl
  · rw [if_neg (by omega), if_pos hlt, hj, and_mask_ne_zero _ hmod]
    rfl
  · rw [if_neg (by omega), if_neg (by omega), if_pos hlt, hj, and_mask_ne_zero _ hmod]
    rfl
  · rw [if_neg (by omega), if_neg (by omega), if_neg (by omega), hj, and_mask_ne_zero _ hmod]
    rfl
  · omega

/-- The class before the first symbol. -/
def emptied (c : SymbolClass) (e : EquivalenceClasses) : SymbolClass :=
  { c with
    firstSet := 0
    secondSet := 0
    thirdSet := 0
    fourthSet := 0
    isEmpty := true
    upper := e.newUpper.toNat }

theorem Over.emptied (ho : Over R h c e) :
    Converted h c e 256 c.lower (h, SymbolClass.emptied c e) := by
  have hnone : ∀ r < c.lower, ¬Takes h c e r := fun r hr ht =>
    Nat.not_le_of_lt hr (ht.valid ho).1
  refine ⟨⟨ho.good.1, fun sets hsets => ?_, ho.good.2.chunk, ho.good.2.unshared⟩, rfl, rfl, rfl,
    fun b _ hlt => ?_, fun _ => hnone⟩
  · exact (Nat.succ_le_succ (chunkIndex_mono ho.newUpper_le)).trans
      (ho.good.2.length_le sets hsets)
  · refine iff_of_false (fun hbit => ?_) fun ⟨r, hr, ht, _⟩ => hnone r hr ht
    have hzero : word h (SymbolClass.emptied c e) (b / 64) = 0 := by
      have hj : b / 64 < 4 := by omega
      match b / 64, hj with
      | 0, _ | 1, _ | 2, _ | 3, _ => rfl
    rw [bit, hzero] at hbit
    exact Bool.false_ne_true (BitVec.getLsbD_zero.symm.trans hbit)

/-- The loop over the symbols up to 255 leaves the chunks as they are. -/
theorem Over.convertLow_eq (ho : Over R h c e) :
    ∃ m, forUp (convertLow c e) (min c.upper 255 + 1 - c.lower) c.lower
        (h, SymbolClass.emptied c e) = some m ∧
      m.1 = h ∧ m.2.otherSets = c.otherSets ∧ Converted h c e 256 256 m := by
  obtain ⟨m, hrun, hchunks, hsets, hm⟩ : ∃ m : Chunks × SymbolClass,
      forUp (convertLow c e) (min c.upper 255 + 1 - c.lower) c.lower
        (h, SymbolClass.emptied c e) = some m ∧
      m.1 = h ∧ m.2.otherSets = c.otherSets ∧
        Converted h c e 256 (c.lower + (min c.upper 255 + 1 - c.lower)) m := by
    refine forUp_spec (fun a (m : Chunks × SymbolClass) => m.1 = h ∧
      m.2.otherSets = c.otherSets ∧ Converted h c e 256 a m) ?_ ⟨rfl, rfl, ho.emptied⟩
    rintro a m hlower hlt ⟨hchunks, hsets, hm⟩
    have ha : a < 256 := by omega
    have htaken : c.oldAdded a = true ↔ Taken h c a := by
      rw [oldAdded_eq (h := h) ha, Taken, or_iff_left]
      omega
    obtain ⟨m', hrun, hm', hor⟩ := hm.add ho (by omega) htaken
    refine ⟨m', hrun, ?_, ?_, hm'⟩
    · rcases hor with rfl | ⟨n, hna, -, hadd⟩
      · exact hchunks
      · exact (addSymbol_of_lt (hna.trans_lt ha) hadd).1.trans hchunks
    · rcases hor with rfl | ⟨n, hna, -, hadd⟩
      · exact hsets
      · exact (addSymbol_of_lt (hna.trans_lt ha) hadd).2.trans hsets
  refine ⟨m, hrun, hchunks, hsets, hm.congr fun r ht => ?_⟩
  have hvalid := ht.valid ho
  omega

/-- A chunk that a class has stays. -/
theorem Good.addSymbol_slot (hg : Good h c) (ha : a ≤ c.upper)
    (hrun : c.addSymbol h a = some m) (hslot : slot c.otherSets i = some k) :
    slot m.2.otherSets i = some k := by
  rw [addSymbol] at hrun
  split_ifs at hrun
  · obtain rfl := some.inj hrun
    exact hslot
  · obtain rfl := some.inj hrun
    exact hslot
  · obtain rfl := some.inj hrun
    exact hslot
  · obtain rfl := some.inj hrun
    exact hslot
  · obtain ⟨hlt, hslots⟩ := attachedOtherSets_eq hg ha
    obtain ⟨⟨h₁, sets, k'⟩, hattached, hrest⟩ := bind_eq_some_iff.mp hrun
    have hsets : slot (some sets) i = some k := by
      have hget : (SymbolClass.attachedOtherSets c.upper c.otherSets)[chunkIndex a]? =
          some (slot c.otherSets (chunkIndex a)) := by
        rw [← hslots, List.getElem?_eq_getElem hlt,
          slot_of_getElem? (List.getElem?_eq_getElem hlt)]
      rw [attachedChunk] at hattached
      simp only [hget, some_bind] at hattached
      cases hk : slot c.otherSets (chunkIndex a) with
      | some l =>
          rw [hk] at hattached
          obtain ⟨-, rfl, -⟩ := some.inj hattached
          exact (hslots i).trans hslot
      | none =>
          rw [hk] at hattached
          simp only [putSlot_eq hlt, some_bind, some.injEq, Prod.mk.injEq] at hattached
          obtain ⟨-, rfl, -⟩ := hattached
          rw [slot_set hlt, hslots, if_neg fun heq => ?_]
          · exact hslot
          · rw [heq, hk] at hslot
            cases hslot
    simp only at hrest
    split_ifs at hrest
    · obtain rfl := some.inj hrest
      exact hsets
    · obtain ⟨w, -, hrest⟩ := bind_eq_some_iff.mp hrest
      obtain ⟨h₂, -, hrest⟩ := bind_eq_some_iff.mp hrest
      obtain rfl := some.inj hrest
      exact hsets

end SymbolClass

end Gobo
