/-
When a class of symbols contains the numbers of its former members after the conversion, and when
it says that it is full.
-/
import Gobo.SymbolClassReading

namespace Gobo

open Option List

namespace SymbolClass

variable {h h' : Chunks} {c c' : SymbolClass} {e : EquivalenceClasses} {R : Nat → Nat → Prop}
  {a b i j k n next symbol limit : Nat} {m m' : Chunks × SymbolClass}

/-- The chunk of which no symbol is a number is removed. -/
theorem Converted.removeChunk_eq (hm : Converted h c e limit symbol m)
    {sets : List (Option Nat)} (hsets : m.2.otherSets = some sets) (hi : i < sets.length)
    (hremoved : e.newUpper.toNat < chunkStart i) :
    ∃ sets', removeChunk i m = some (m.1, { m.2 with otherSets := some sets' }) ∧
      sets'.length = sets.length ∧
      (∀ j, slot (some sets') j = if j = i then none else slot m.2.otherSets j) ∧
      Converted h c e limit symbol (m.1, { m.2 with otherSets := some sets' }) := by
  have hslots : ∀ j, slot (some (sets.set i none)) j =
      if j = i then none else slot m.2.otherSets j := fun j => by rw [slot_set hi, hsets]
  have hold : ∀ j l, slot (some (sets.set i none)) j = some l → slot m.2.otherSets j = some l := by
    intro j l hj
    rw [hslots] at hj
    split_ifs at hj
    exact hj
  obtain ⟨hg, hlower, hupper, hnegated, hbits, hflag⟩ := hm
  refine ⟨sets.set i none, ?_, length_set, hslots, ⟨hg.1, fun sets' heq => ?_, fun j l hj => ?_,
    fun j j' l hj hj' => ?_⟩, hlower, hupper, hnegated, fun b hb hlt => ?_, hflag⟩
  · rw [removeChunk, hsets, some_bind, putSlot_eq hi]
    rfl
  · rw [← some.inj heq, length_set]
    exact hg.2.length_le sets hsets
  · exact hg.2.chunk j l (hold j l hj)
  · exact hg.2.unshared j j' l (hold j l hj) (hold j' l hj')
  · rw [← hbits b hb hlt, bit, bit]
    rcases Nat.lt_or_ge (b / 64) 4 with hlow | hhigh
    · obtain hq | hq | hq | hq : b / 64 = 0 ∨ b / 64 = 1 ∨ b / 64 = 2 ∨ b / 64 = 3 := by omega
      all_goals
        rw [hq]
        exact Iff.rfl
    · obtain ⟨j, hj⟩ := Nat.exists_eq_add_of_le' hhigh
      have hne : j / chunkSize ≠ i := by
        have hstart : chunkStart i = 256 + 11008 * i := rfl
        have hsize : j / chunkSize = j / 172 := rfl
        omega
      rw [hj, word, word, hslots, if_neg hne]

/-- The chunks before the index `i` have been passed, of which there are none. -/
structure Walking (h : Chunks) (c : SymbolClass) (e : EquivalenceClasses) (i : Nat)
    (m : Chunks × SymbolClass) : Prop where
  chunks : m.1 = h
  sets : ∃ sets, m.2.otherSets = some sets ∧ chunkIndex c.upper < sets.length
  slots : ∀ j, slot m.2.otherSets j = slot c.otherSets j
  converted : Converted h c e (chunkStart i) (chunkStart i) m

theorem chunkStart_succ (i : Nat) : chunkStart (i + 1) = chunkStart i + symbolsPerChunk :=
  (Nat.add_assoc 256 _ _).symm ▸ congrArg (256 + ·) (Nat.mul_succ _ _)

/-- The chunk at the index `i` is removed, when none of its symbols is a number. -/
theorem Walking.remove (hm : Walking h c e i m) (hi : i ≤ chunkIndex c.upper) :
    ∃ m', removeUnused i m = some m' ∧ m'.1 = h ∧
      (∃ sets, m'.2.otherSets = some sets ∧ chunkIndex c.upper < sets.length) ∧
      Converted h c e (chunkStart i) (chunkStart i) m' ∧
      ((∀ j, slot m'.2.otherSets j = slot c.otherSets j) ∨ e.newUpper.toNat < chunkStart i ∧
        ∀ j, slot m'.2.otherSets j = if j = i then none else slot c.otherSets j) := by
  obtain ⟨sets, hsets, hlength⟩ := hm.sets
  rw [removeUnused]
  split_ifs with hkept
  · exact ⟨m, rfl, hm.chunks, ⟨sets, hsets, hlength⟩, hm.converted, Or.inl hm.slots⟩
  · have hremoved : e.newUpper.toNat < chunkStart i := by
      rw [hm.converted.upper] at hkept
      have hstart : chunkStart i = 256 + 11008 * i := rfl
      have hindex : chunkIndex e.newUpper.toNat = (e.newUpper.toNat - 256) / 11008 := rfl
      omega
    obtain ⟨sets', hrun, hlength', hslots, hm'⟩ :=
      hm.converted.removeChunk_eq hsets (Nat.lt_of_le_of_lt hi hlength) hremoved
    refine ⟨_, hrun, hm.chunks, ⟨sets', rfl, hlength'.symm ▸ hlength⟩, hm',
      Or.inr ⟨hremoved, fun j => ?_⟩⟩
    rw [← hm.slots]
    exact hslots j

theorem word_of_absent (hslot : slot c.otherSets i = none) (hle : chunkStart i ≤ b)
    (hlt : b < chunkStart (i + 1)) : word h c (b / 64) = 0 := by
  have hstart : chunkStart i = 256 + 11008 * i := rfl
  have hnext := chunkStart_succ i
  have hsize : symbolsPerChunk = 11008 := rfl
  obtain ⟨j, hj⟩ := Nat.exists_eq_add_of_le' (show 4 ≤ b / 64 by omega)
  have hdiv : j / 172 = i := by omega
  have hindex : j / chunkSize = i := hdiv
  rw [hj, word, hindex, hslot]
  rfl

theorem Walking.get (hm : Walking h c e i m) (hi : i ≤ chunkIndex c.upper) :
    ∃ sets, m.2.otherSets = some sets ∧ sets[i]? = some (slot c.otherSets i) := by
  obtain ⟨sets, hsets, hlength⟩ := hm.sets
  have hget := getElem?_eq_getElem (Nat.lt_of_le_of_lt hi hlength)
  refine ⟨sets, hsets, ?_⟩
  rw [← hm.slots, hsets, slot_of_getElem? hget, hget]

theorem le_chunkIndex (hi : chunkStart i ≤ a) : i ≤ chunkIndex a := by
  have hstart : chunkStart i = 256 + 11008 * i := rfl
  have hindex : chunkIndex a = (a - 256) / 11008 := rfl
  omega

/-- A turn, after the chunk may have been removed. -/
theorem Walking.turn_eq (hm : Walking h c e i m) (hi : i ≤ chunkIndex c.upper)
    (hrun : removeUnused i m = some m') :
    convertChunksTurn e c.upper (i, chunkStart i, m) = (match slot c.otherSets i with
      | none => some (i + 1, chunkStart (i + 1), m')
      | some k =>
          if (m'.1.sets k).length = 0 then do
            let m ← removeChunk i m'
            let m ← forUp (addRepresentative e)
              (min c.upper (chunkStart (i + 1)) + 1 - chunkStart i) (chunkStart i) m
            some (i + 1, min c.upper (chunkStart (i + 1)) + 1, m)
          else do
            let (symbol, m) ← convertChunk e k (min c.upper (chunkStart (i + 1))) (chunkStart i) m'
            some (i + 1, symbol, m)) := by
  obtain ⟨sets, hsets, hget⟩ := hm.get hi
  cases hslot : slot c.otherSets i with
  | none =>
      rw [hslot] at hget
      simp only [convertChunksTurn, hsets, hget, hrun, chunkStart_succ, some_bind]
  | some k =>
      rw [hslot] at hget
      simp only [convertChunksTurn, hsets, hget, hrun, chunkStart_succ, some_bind]

section

variable (ho : Over R h c e) (hm : Walking h c e i m) (hi : chunkStart i ≤ c.upper)

include ho hm hi

/-- A chunk that has not been created is passed. -/
theorem Walking.turn_none (hslot : slot c.otherSets i = none) :
    ∃ m', convertChunksTurn e c.upper (i, chunkStart i, m) =
      some (i + 1, chunkStart (i + 1), m') ∧ Walking h c e (i + 1) m' := by
  have hindex := le_chunkIndex hi
  obtain ⟨m', hrun, hchunks, hsets', hm', hslots⟩ := hm.remove hindex
  have hslots' : ∀ j, slot m'.2.otherSets j = slot c.otherSets j := by
    rcases hslots with hslots | ⟨-, hslots⟩
    · exact hslots
    · intro j
      rw [hslots]
      split_ifs with hj
      · rw [hj, hslot]
      · rfl
  refine ⟨m', ?_, hchunks, hsets', hslots', ?_⟩
  · rw [hm.turn_eq hindex hrun, hslot]
  · rw [chunkStart_succ]
    refine (hm'.advance ho fun b _ hle hlt => ?_).congr fun r ht => ?_
    · rw [bit, word_of_absent ((hslots' i).trans hslot) hle ((chunkStart_succ i).symm ▸ hlt)]
      exact BitVec.getLsbD_zero
    · by_cases hr : chunkStart i ≤ r ∧ r < chunkStart i + symbolsPerChunk
      · have hzero := word_of_absent (h := h) hslot hr.1 ((chunkStart_succ i).symm ▸ hr.2)
        rcases ht.2 with hbit | ⟨-, hones⟩
        · rw [bit, hzero] at hbit
          exact absurd (BitVec.getLsbD_zero.symm.trans hbit) Bool.false_ne_true
        · rw [hzero] at hones
          exact absurd hones (by decide)
      · omega

/-- The sets of a chunk are not read yet. -/
theorem Walking.held (hslot : slot c.otherSets i = some k) :
    ∃ m', removeUnused i m = some m' ∧ Held h c e i k 0 (chunkStart i) m' := by
  have hindex := le_chunkIndex hi
  obtain ⟨m', hrun, hchunks, -, hm', hslots⟩ := hm.remove hindex
  obtain ⟨-, hcreated, hlength⟩ := ho.good.2.chunk i k hslot
  refine ⟨m', hrun, hm', fun j _ _ => by rw [hchunks], by rw [hchunks, hlength],
    by rw [hchunks]; exact hcreated, ?_⟩
  refine hslots.imp (fun hslots => (hslots i).trans hslot) fun ⟨hlt, hslots⟩ => ⟨hlt, ?_⟩
  rintro ⟨j, hj⟩
  rw [hslots] at hj
  split_ifs at hj with hji
  exact hji (ho.good.2.unshared j i k hj hslot)

/-- The last chunk. -/
theorem Walking.turn_last
    (hslot : slot c.otherSets i = some k) (hlast : c.upper < chunkStart (i + 1)) :
    ∃ s m', convertChunksTurn e c.upper (i, chunkStart i, m) = some (i + 1, s, m') ∧ c.upper < s ∧
      Converted h c e (c.upper + 1) (c.upper + 1) m' := by
  obtain ⟨m₁, hremove, hheld⟩ := hm.held ho hi hslot
  obtain ⟨s, m', hrun, hlt, hm'⟩ := hheld.convertChunk_eq ho hslot hi hlast
  have hne : ¬(m₁.1.sets k).length = 0 := by rw [hheld.length]; decide
  have hnb : min c.upper (chunkStart (i + 1)) = c.upper := Nat.min_eq_left (Nat.le_of_lt hlast)
  refine ⟨s, m', ?_, hlt, hm'⟩
  simp only [hm.turn_eq (le_chunkIndex hi) hremove, hslot, if_neg hne, hnb, hrun,
    some_bind]

end

/-- A chunk before the last one. -/
theorem Walking.turn_before (ho : Over R h c e) (hm : Walking h c e i m)
    (hslot : slot c.otherSets i = some k) (hnext : chunkStart (i + 1) ≤ c.upper) :
    convertChunksTurn e c.upper (i, chunkStart i, m) = none := by
  have hi : chunkStart i ≤ c.upper :=
    Nat.le_trans (chunkStart_succ i ▸ Nat.le_add_right _ _) hnext
  obtain ⟨m₁, hremove, hheld⟩ := hm.held ho hi hslot
  have hne : ¬(m₁.1.sets k).length = 0 := by rw [hheld.length]; decide
  simp only [hm.turn_eq (le_chunkIndex hi) hremove, hslot, if_neg hne, Nat.min_eq_right hnext,
    hheld.convertChunk_eq_none ho hslot hnext, bind_eq_bind, bind_none]

/-- A chunk ends before the last symbol. -/
def Overrun (c : SymbolClass) : Prop :=
  ∃ i k, slot c.otherSets i = some k ∧ chunkStart (i + 1) ≤ c.upper

/-- Without chunks there are no symbols above 255. -/
theorem Converted.finish_low (ho : Over R h c e) (hm : Converted h c e 256 256 m)
    (hsets : m.2.otherSets = none) (hnone : c.otherSets = none) :
    Converted h c e (c.upper + 1) (c.upper + 1) m := by
  have hzero : ∀ {h : Chunks} {c : SymbolClass} {b}, c.otherSets = none → 256 ≤ b →
      word h c (b / 64) = 0 := by
    intro h c b hnone hb
    obtain ⟨j, hj⟩ := Nat.exists_eq_add_of_le' (show 4 ≤ b / 64 by omega)
    rw [hj, word, hnone]
    rfl
  have hadvanced : Converted h c e (256 + (c.upper + 1)) 256 m := hm.advance ho fun b _ hb _ => by
    rw [bit, hzero hsets hb]
    exact BitVec.getLsbD_zero
  have hm' : Converted h c e (256 + (c.upper + 1)) (256 + (c.upper + 1)) m := by
    refine hadvanced.congr fun r ht => ?_
    refine ⟨fun hr => by omega, fun _ => Nat.lt_of_not_le fun hr => ?_⟩
    rcases ht.2 with hbit | ⟨-, hones⟩
    · rw [bit, hzero hnone hr] at hbit
      exact absurd (BitVec.getLsbD_zero.symm.trans hbit) Bool.false_ne_true
    · rw [hzero hnone hr] at hones
      exact absurd hones (by decide)
  exact hm'.finish ho (by omega) (by omega)

/-- The chunks before the last symbol are passed, or the conversion fails. -/
theorem Walking.loop_cases (ho : Over R h c e) (hm : Walking h c e 0 m) :
    (Overrun c → loopUntil (fun m : Nat × Nat × Chunks × SymbolClass => some (decide
        (c.upper < m.2.1))) (convertChunksTurn e c.upper) (c.upper + 2) (0, 256, m) = none) ∧
      (¬Overrun c → ∃ i s m', loopUntil (fun m : Nat × Nat × Chunks × SymbolClass => some (decide
        (c.upper < m.2.1))) (convertChunksTurn e c.upper) (c.upper + 2) (0, 256, m) =
          some (i, s, m') ∧ Converted h c e (c.upper + 1) (c.upper + 1) m') := by
  constructor
  · rintro ⟨l, k, hl, hend⟩
    have hlt : chunkStart l < chunkStart (l + 1) :=
      chunkStart_succ l ▸ Nat.lt_add_of_pos_right (by decide)
    have hmono : ∀ i, i ≤ l → chunkStart i ≤ chunkStart l := fun i hi =>
      Nat.add_le_add_left (Nat.mul_le_mul_left _ hi) _
    refine loopUntil_eq_none (fun m : Nat × Nat × Chunks × SymbolClass => m.1 ≤ l ∧
      m.2.1 = chunkStart m.1 ∧ Walking h c e m.1 m.2.2) ?_ ?_ ⟨Nat.zero_le l, rfl, hm⟩
    · rintro ⟨i, s, m⟩ ⟨hi, heq, -⟩
      obtain rfl : s = chunkStart i := heq
      exact congrArg some (decide_eq_false (Nat.not_lt_of_le
        ((hmono i hi).trans (hlt.le.trans hend))))
    · rintro ⟨i, s, m⟩ ⟨hi, heq, hm⟩
      obtain rfl : s = chunkStart i := heq
      rcases Nat.lt_or_eq_of_le hi with hi | rfl
      · have hnext : chunkStart (i + 1) ≤ c.upper := (hmono (i + 1) hi).trans (hlt.le.trans hend)
        cases hslot : slot c.otherSets i with
        | none =>
            have hle : chunkStart i ≤ c.upper := (hmono i hi.le).trans (hlt.le.trans hend)
            obtain ⟨m', hrun, hm'⟩ := hm.turn_none ho hle hslot
            exact Or.inr ⟨_, hrun, hi, rfl, hm'⟩
        | some k => exact Or.inl (hm.turn_before ho hslot hnext)
      · exact Or.inl (hm.turn_before ho hl hend)
  · intro hnot
    obtain ⟨⟨i, s, m'⟩, hrun, hm', hend⟩ : ∃ m' : Nat × Nat × Chunks × SymbolClass,
        loopUntil (fun m : Nat × Nat × Chunks × SymbolClass => some (decide (c.upper < m.2.1)))
          (convertChunksTurn e c.upper) (c.upper + 2) (0, 256, m) = some m' ∧
        (m'.2.1 = chunkStart m'.1 ∧ Walking h c e m'.1 m'.2.2 ∨ c.upper < m'.2.1 ∧
          Converted h c e (c.upper + 1) (c.upper + 1) m'.2.2) ∧ c.upper < m'.2.1 := by
      refine loopUntil_decide (fun m : Nat × Nat × Chunks × SymbolClass =>
        m.2.1 = chunkStart m.1 ∧ Walking h c e m.1 m.2.2 ∨ c.upper < m.2.1 ∧
          Converted h c e (c.upper + 1) (c.upper + 1) m.2.2)
        (fun m => c.upper + 1 - m.2.1) ?_ (Or.inl ⟨rfl, hm⟩) (by omega)
      rintro ⟨i, s, m⟩ (⟨heq, hm⟩ | ⟨hlt, -⟩) hgo
      · obtain rfl : s = chunkStart i := heq
        have hle : chunkStart i ≤ c.upper := Nat.le_of_not_lt hgo
        have hsucc := chunkStart_succ i
        have hsize : symbolsPerChunk = 11008 := rfl
        cases hslot : slot c.otherSets i with
        | none =>
            obtain ⟨m', hrun, hm'⟩ := hm.turn_none ho hle hslot
            refine ⟨_, hrun, ?_, Or.inl ⟨rfl, hm'⟩⟩
            show c.upper + 1 - chunkStart (i + 1) < c.upper + 1 - chunkStart i
            omega
        | some k =>
            have hlast : c.upper < chunkStart (i + 1) :=
              Nat.lt_of_not_le fun hle => hnot ⟨i, k, hslot, hle⟩
            obtain ⟨s, m', hrun, hlt, hm'⟩ := hm.turn_last ho hle hslot hlast
            refine ⟨_, hrun, ?_, Or.inr ⟨hlt, hm'⟩⟩
            show c.upper + 1 - s < c.upper + 1 - chunkStart i
            omega
      · exact absurd hlt hgo
    refine ⟨i, s, m', hrun, ?_⟩
    rcases hm' with ⟨heq, hm'⟩ | ⟨-, hm'⟩
    · exact hm'.converted.finish ho (heq ▸ hend) (heq ▸ hend)
    · exact hm'

/-- The conversion fails when a chunk ends before the last symbol. -/
theorem Over.convertToEquivalence_cases (ho : Over R h c e) :
    (Overrun c → convertToEquivalence h c e = none) ∧
      (¬Overrun c → ∃ m, convertToEquivalence h c e = some m ∧
        Converted h c e (c.upper + 1) (c.upper + 1) m) := by
  obtain ⟨m, hlow, hchunks, hsets, hm⟩ := ho.convertLow_eq
  rw [SymbolClass.emptied] at hlow
  rw [convertToEquivalence, hlow, some_bind, hsets]
  cases hother : c.otherSets with
  | none =>
      refine ⟨fun ⟨i, k, hslot, _⟩ => ?_, fun _ => ⟨m, if_pos rfl,
        hm.finish_low ho (hsets.trans hother) hother⟩⟩
      rw [hother] at hslot
      exact nomatch hslot
  | some sets =>
      have hwalking : Walking h c e 0 m := by
        refine ⟨hchunks, ⟨sets, hsets.trans hother, ho.good.2.length_le sets hother⟩,
          fun j => by rw [hsets], hm⟩
      obtain ⟨hover, hnot⟩ := hwalking.loop_cases ho
      rw [if_neg (by simp)]
      refine ⟨fun ho => ?_, fun hno => ?_⟩
      · rw [hover ho]
        rfl
      · obtain ⟨i, s, m', hrun, hm'⟩ := hnot hno
        refine ⟨m', ?_, hm'⟩
        rw [hrun]
        rfl

section

variable (h : Chunks) (c : SymbolClass) (e : EquivalenceClasses)

include h

/-- After the conversion the class contains exactly the numbers of the symbols that it had. -/
def Converts : Prop :=
  ∃ h' c', convertToEquivalence h c e = some (h', c') ∧ c'.lower = c.lower ∧
    (c'.upper : Int) = e.newUpper ∧ ∀ n, c'.lower ≤ n → n ≤ c'.upper → ∃ b, c'.has h' n = some b ∧
      (b = true ↔ ∃ a, c.lower ≤ a ∧ a ≤ c.upper ∧ c.has h a = some true ∧
        e.equivalenceClass a = some n)

/-- Some symbol of the class of `r` has been added. -/
def SomeAdded (r : Nat) : Prop :=
  ∃ a, c.lower ≤ a ∧ a ≤ c.upper ∧ e.equivalenceClass a = e.equivalenceClass r ∧
    c.added h a = some true

/-- All symbols of the class of `r` have been added. -/
def EachAdded (r : Nat) : Prop :=
  ∀ a, c.lower ≤ a → a ≤ c.upper → e.equivalenceClass a = e.equivalenceClass r →
    c.added h a = some true

/-- The classes that are converted as they should be: no chunk ends before the last symbol, and
what is taken for the representatives of the equivalence classes is right. -/
def ConversionAnswered : Prop := ¬Overrun c ∧ ∀ r, e.isRepresentative r = some true →
    (Taken h c r ↔ if c.isNegated then EachAdded h c e r else SomeAdded h c e r)

end

/-- The numbers that a class contains after the conversion. -/
theorem Converted.has_iff (ho : Over R h c e) (hm : Converted h c e (c.upper + 1) (c.upper + 1) m)
    {r n : Nat} (hr : e.isRepresentative r = some true) (hn : e.equivalenceClass r = some n)
    (hupper : n ≤ e.newUpper.toNat) :
    ∃ b, m.2.has m.1 n = some b ∧ (b = true ↔ (Taken h c r ↔ c.isNegated = false)) := by
  have hnumbers : Numbers h c e (c.upper + 1) n ↔ Taken h c r := by
    obtain ⟨hvalid, hleast⟩ := ho.numbered.representative_iff.mp hr
    constructor
    · rintro ⟨a, -, ht, ha⟩
      obtain ⟨havalid, haleast⟩ := ho.numbered.representative_iff.mp ht.1
      have heq : a = r := Nat.le_antisymm (haleast r hvalid (hn.trans ha.symm))
        (hleast a havalid (ha.trans hn.symm))
      exact heq ▸ ht.2
    · exact fun ht => ⟨r, Nat.lt_succ_of_le (ho.valid_iff.mp hvalid).2, ⟨hr, ht⟩, hn⟩
  have hle : n ≤ c.upper := hupper.trans ho.newUpper_le
  have hbit : (!m.2.isEmpty && bit m.1 m.2 n) = true ↔ Taken h c r := by
    rw [← hnumbers, ← hm.bits n hupper (Nat.lt_succ_of_le hle)]
    cases he : m.2.isEmpty with
    | false => rw [Bool.not_false, Bool.true_and]
    | true =>
        refine iff_of_false Bool.false_ne_true fun hbit => ?_
        obtain ⟨a, ha, ht, -⟩ := (hm.bits n hupper (Nat.lt_succ_of_le hle)).mp hbit
        exact hm.flag he a ha ht
  refine ⟨_, hm.good.has_eq (hm.upper.symm ▸ hupper), ?_⟩
  rw [hm.negated, ← hbit]
  cases !m.2.isEmpty && bit m.1 m.2 n <;> cases c.isNegated <;> decide

/-- Whether a class has a symbol of an equivalence class. -/
theorem Over.exists_has_iff (ho : Over R h c e) {r n : Nat} (hn : e.equivalenceClass r = some n) :
    (∃ a, c.lower ≤ a ∧ a ≤ c.upper ∧ c.has h a = some true ∧ e.equivalenceClass a = some n) ↔
      ((if c.isNegated then EachAdded h c e r else SomeAdded h c e r) ↔ c.isNegated = false) := by
  have hhas : ∀ a ≤ c.upper,
      (c.has h a = some true ↔ (c.added h a = some true ↔ c.isNegated = false)) := by
    intro a ha
    rw [has, ho.good.added_eq ha]
    cases !c.isEmpty && bit h c a <;> cases c.isNegated <;> decide
  cases hneg : c.isNegated with
  | false =>
      rw [if_neg Bool.false_ne_true, SomeAdded, hn, iff_true_right rfl]
      refine exists_congr fun a => ⟨?_, ?_⟩
      · rintro ⟨hlower, hupper, hadded, hclass⟩
        exact ⟨hlower, hupper, hclass, ((hhas a hupper).mp hadded).mpr hneg⟩
      · rintro ⟨hlower, hupper, hclass, hadded⟩
        exact ⟨hlower, hupper, (hhas a hupper).mpr (iff_of_true hadded hneg), hclass⟩
  | true =>
      have hnot : ¬true = false := Bool.noConfusion
      rw [if_pos rfl, EachAdded, hn, iff_false_right hnot]
      constructor
      · rintro ⟨a, hlower, hupper, hadded, hclass⟩ hall
        exact hnot (hneg.symm.trans (((hhas a hupper).mp hadded).mp (hall a hlower hupper hclass)))
      · intro hnall
        by_contra hnone
        refine hnall fun a hlower hupper hclass => ?_
        by_contra hadded
        refine hnone ⟨a, hlower, hupper, (hhas a hupper).mpr (iff_of_false hadded ?_), hclass⟩
        rw [hneg]
        exact hnot

theorem Over.converts_iff (ho : Over R h c e) : Converts h c e ↔ ConversionAnswered h c e := by
  obtain ⟨hover, hnot⟩ := ho.convertToEquivalence_cases
  have hbuilt : e.newUpper.toNat = e.newUpper := by
    obtain ⟨n, hn, -, -⟩ := ho.class_eq (Nat.le_refl _) ho.lower_le
    have hle := (ho.numbered.consecutive n).mp
      ⟨c.lower, ho.valid_iff.mpr ⟨Nat.le_refl _, ho.lower_le⟩, hn⟩
    omega
  by_cases hoverrun : Overrun c
  · refine iff_of_false ?_ fun hand => hand.1 hoverrun
    rintro ⟨h', c', hrun, -⟩
    exact nomatch (hover hoverrun).symm.trans hrun
  · obtain ⟨⟨h', c'⟩, hrun, hm⟩ := hnot hoverrun
    rw [ConversionAnswered, and_iff_right hoverrun]
    have hclass : ∀ r, e.isRepresentative r = some true →
        ∃ n, e.equivalenceClass r = some n ∧ c.lower ≤ n ∧ n ≤ e.newUpper.toNat := by
      intro r hr
      have hvalid := (ho.numbered.representative_iff.mp hr).1
      obtain ⟨n, hn, -, hle⟩ := ho.class_eq (ho.valid_iff.mp hvalid).1 (ho.valid_iff.mp hvalid).2
      exact ⟨n, hn, ho.lower ▸ ((ho.numbered.consecutive n).mp ⟨r, hvalid, hn⟩).1, hle⟩
    have hiff : ∀ A B C : Prop, ((A ↔ C) ↔ (B ↔ C)) ↔ (A ↔ B) := by tauto
    constructor
    · rintro ⟨h₁, c₁, hrun₁, -, hupper, hall⟩ r hr
      obtain ⟨rfl, rfl⟩ := Prod.mk.inj (some.inj (hrun₁.symm.trans hrun))
      obtain ⟨n, hn, hlower, hle⟩ := hclass r hr
      obtain ⟨b, hb, hbiff⟩ := hm.has_iff ho hr hn hle
      obtain ⟨b', hb', hbiff'⟩ := hall n (hm.lower.symm ▸ hlower) (hm.upper.symm ▸ hle)
      obtain rfl := some.inj (hb.symm.trans hb')
      rw [hbiff, ho.exists_has_iff hn] at hbiff'
      exact (hiff _ _ _).mp hbiff'
    · intro hall
      refine ⟨h', c', hrun, hm.lower, (congrArg Nat.cast hm.upper).trans hbuilt,
        fun n hlower hle => ?_⟩
      have hle : n ≤ e.newUpper.toNat := hm.upper ▸ hle
      have hlower : e.lower ≤ n := by rw [ho.lower, ← hm.lower]; exact hlower
      obtain ⟨a, ha, hn⟩ := (ho.numbered.consecutive n).mpr ⟨hlower, by omega⟩
      obtain ⟨r, hr, hra, -⟩ := ho.numbered.exists_representative ha
      obtain ⟨b, hb, hbiff⟩ := hm.has_iff ho hr (hra.trans hn) hle
      refine ⟨b, hb, ?_⟩
      rw [hbiff, ho.exists_has_iff (hra.trans hn)]
      exact (hiff _ _ _).mpr (hall r hr)

/-- In the classes that have been split by the class itself, the symbols of one class have been
added, or none of them. -/
theorem Over.conversionAnswered_iff (ho : Over R h c e)
    (hadded : ∀ a b, R a b → ¬EquivalenceClasses.Separates a b (.add h c)) :
    ConversionAnswered h c e ↔ ¬Overrun c ∧ ∀ r, e.isRepresentative r = some true →
      (Taken h c r ↔ c.added h r = some true) := by
  refine and_congr_right fun _ => forall_congr' fun r => forall_congr' fun hr => ?_
  have hvalid := (ho.numbered.representative_iff.mp hr).1
  have hrvalid := ho.valid_iff.mp hvalid
  have hsame : ∀ a, c.lower ≤ a → a ≤ c.upper → e.equivalenceClass a = e.equivalenceClass r →
      (c.added h a = some true ↔ c.added h r = some true) := by
    intro a hlower hupper hclass
    have hanswers := EquivalenceClasses.answers_of_good ho.good
    have hR := (ho.numbered.same a r (ho.valid_iff.mpr ⟨hlower, hupper⟩) hvalid).mp hclass
    have heq : EquivalenceClasses.addedTo h c a = EquivalenceClasses.addedTo h c r :=
      not_not.mp (hadded a r hR)
    rw [hanswers.added a hlower hupper, hanswers.added r hrvalid.1 hrvalid.2, heq]
  have hiff : (if c.isNegated then EachAdded h c e r else SomeAdded h c e r) ↔
      c.added h r = some true := by
    split_ifs
    · exact ⟨fun hall => hall r hrvalid.1 hrvalid.2 rfl,
        fun hr a hlower hupper hclass => (hsame a hlower hupper hclass).mpr hr⟩
    · constructor
      · rintro ⟨a, hlower, hupper, hclass, ha⟩
        exact (hsame a hlower hupper hclass).mp ha
      · exact fun hr => ⟨r, hrvalid.1, hrvalid.2, rfl, hr⟩
  rw [hiff]

/-- What calls make of a class. -/
structure WellFormed (h : Chunks) (c : SymbolClass) : Prop where
  good : Good h c
  lower_le : c.lower ≤ c.upper
  above : ∀ a, bit h c a = true → c.lower ≤ a

/-- Whatever the calls are. -/
theorem wellFormed_of_run {s : SymbolClasses} {calls : List SymbolClasses.Call} {i : Nat}
    (hcalls : Permitted SymbolClasses.exec SymbolClasses.Pre .initial calls)
    (hrun : runAll SymbolClasses.exec .initial calls = some s) (hi : s.classes[i]? = some c) :
    WellFormed s.chunks c := by
  have hs := SymbolClasses.sound_of_run hcalls hrun
  refine ⟨hs.good i c hi, hs.lower_le i c hi, fun a ha => Nat.le_of_not_lt fun hlt => ?_⟩
  exact Bool.false_ne_true ((hs.above i c hi a hlt).symm.trans ha)

open EquivalenceClasses in
theorem WellFormed.exists_over (hw : WellFormed h c) (calls : List EquivalenceClasses.Call)
    (hcalls : ∀ call ∈ calls, (EquivalenceClasses.make c.lower c.upper).Pre call) :
    ∃ e e', (EquivalenceClasses.make c.lower c.upper).execAll calls = some e ∧
      e.build = some e' ∧ Over (fun a b => ∀ call ∈ calls, ¬Separates a b call) h c e' := by
  obtain ⟨e, hrun, hlower, hupper, he⟩ := (holds_make hw.lower_le).execAll_eq calls hcalls
  obtain ⟨e', hbuild, hlower', hupper', -, hnumbered⟩ := he.build_eq
  have hmake := started_make c.lower c.upper
  refine ⟨e, e', hrun, hbuild, hw.good, hw.lower_le, hw.above,
    (hlower'.trans hlower).trans hmake.lower, (hupper'.trans hupper).trans hmake.upper, ?_⟩
  simpa only [true_and] using hnumbered

end SymbolClass

end Gobo
