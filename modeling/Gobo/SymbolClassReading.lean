/-
The conversion of the symbols of one chunk, of which the sets are read and cleared.
-/
import Gobo.SymbolClassConversion

namespace Gobo

open Option

namespace SymbolClass

variable {h h' : Chunks} {c c' : SymbolClass} {e : EquivalenceClasses} {R : Nat → Nat → Prop}
  {a b i j k n next symbol limit : Nat} {m m' : Chunks × SymbolClass}

theorem word_eq_of_bits (hbits : ∀ b, b / 64 = j → bit h' c' b = bit h c b) :
    word h' c' j = word h c j := by
  refine BitVec.eq_of_getLsbD_eq fun l hl => ?_
  have hbit := hbits (64 * j + l) (by omega)
  rwa [bit, bit, show (64 * j + l) / 64 = j by omega, show (64 * j + l) % 64 = l by omega] at hbit

/-- A chunk gets other sets. -/
theorem word_change (ws : List (BitVec 64)) (j : Nat) :
    word (h.change k ws) c (j + 4) =
      if slot c.otherSets (j / chunkSize) = some k then ws[j % chunkSize]?.getD 0
      else word h c (j + 4) := by
  rw [word, word]
  cases hslot : slot c.otherSets (j / chunkSize) with
  | none => rw [if_neg fun h => by cases h]; rfl
  | some l =>
      rw [setOf, setOf, elim_some, elim_some]
      by_cases hlk : l = k
      · rw [if_pos (congrArg some hlk), hlk, sets_change_self]
      · rw [if_neg fun heq => hlk (some.inj heq), sets_change_of_ne _ hlk]

theorem Good.change {ws : List (BitVec 64)} (hg : Good h c) (hlength : ws.length = chunkSize) :
    Good (h.change k ws) c := by
  refine ⟨hg.1, hg.2.length_le, fun i l hl => ?_, hg.2.unshared⟩
  obtain ⟨hpos, hlt, hold⟩ := hg.2.chunk i l hl
  refine ⟨hpos, hlt, ?_⟩
  by_cases hlk : l = k
  · rw [hlk, sets_change_self, hlength]
  · rw [sets_change_of_ne _ hlk, hold]

/-- The first symbol of the chunk `i`. -/
def chunkStart (i : Nat) : Nat := 256 + symbolsPerChunk * i

theorem chunkStart_add (i j : Nat) : chunkStart i + 64 * j = 64 * (chunkSize * i + j + 4) := by
  have hstart : chunkStart i = 256 + 11008 * i := rfl
  have hsize : chunkSize * i = 172 * i := rfl
  omega

/-- The sets of the chunk `k`, the one of the index `i`, are read from the set `next` on. -/
structure Held (h : Chunks) (c : SymbolClass) (e : EquivalenceClasses) (i k next symbol : Nat)
    (m : Chunks × SymbolClass) : Prop where
  converted : Converted h c e (chunkStart i + 64 * next) symbol m
  rest : ∀ j, next ≤ j → j < chunkSize → setOf m.1 (some k) j = setOf h (some k) j
  length : (m.1.sets k).length = chunkSize
  created : k < m.1.created
  place : slot m.2.otherSets i = some k ∨ e.newUpper.toNat < chunkStart i ∧ ¬m.2.Uses k

/-- The number of a symbol before the sets that have not been read is added. -/
theorem Held.add (ho : Over R h c e) (hm : Held h c e i k next a m)
    (ha : a < chunkStart i + 64 * next) (hupper : a ≤ c.upper) {taken : Bool}
    (htaken : taken = true ↔ Taken h c a) :
    ∃ m', convertSymbol taken e a m = some m' ∧
      Held h c e i k next (a + 1) m' := by
  obtain ⟨m', hrun, hm', hor⟩ := hm.converted.add ho hupper htaken
  refine ⟨m', hrun, ?_⟩
  rcases hor with rfl | ⟨n, hna, hnu, hadd⟩
  · exact ⟨hm', hm.rest, hm.length, hm.created, hm.place⟩
  · obtain ⟨h', c', hadd', hg, hf, -, -, -, -, hbit⟩ := hm.converted.good.addSymbol_eq hnu
    obtain rfl := some.inj (hadd'.symm.trans hadd)
    rcases hm.place with hslot | ⟨hlt, huses⟩
    · have hslot' : slot c'.otherSets i = some k := hm.converted.good.addSymbol_slot hnu hadd hslot
      obtain ⟨-, hcreated, hlength⟩ := hg.2.chunk i k hslot'
      refine ⟨hm', fun j hj hlt => ?_, hlength, hcreated, Or.inl hslot'⟩
      rw [← hm.rest j hj hlt, ← word_of_slot hslot' hlt, ← word_of_slot hslot hlt]
      refine word_eq_of_bits fun b hb => ?_
      have hstart := chunkStart_add i next
      rw [hbit, decide_eq_false (by omega), Bool.or_false]
    · have hsets : h'.sets k = m.1.sets k := hf.sets k hm.created huses
      refine ⟨hm', fun j hj hlt => ?_, ?_, Nat.lt_of_lt_of_le hm.created hf.created_le,
        Or.inr ⟨hlt, fun huses' => ?_⟩⟩
      · rw [← hm.rest j hj hlt, setOf, setOf, elim_some, elim_some, hsets]
      · rw [hsets, hm.length]
      · rcases hf.uses k huses' with hold | hge
        · exact huses hold
        · exact Nat.not_lt_of_le hge hm.created

/-- The numbers of some symbols are added, all of which are taken. -/
theorem Held.addAll (ho : Over R h c e) (hm : Held h c e i k next symbol m)
    (hlimit : symbol + n ≤ chunkStart i + 64 * next) (hupper : symbol + n ≤ c.upper + 1)
    (htaken : ∀ a, symbol ≤ a → a < symbol + n → Taken h c a) :
    ∃ m', forUp (addRepresentative e) n symbol m = some m' ∧
      Held h c e i k next (symbol + n) m' := by
  refine forUp_spec (fun a (m : Chunks × SymbolClass) => Held h c e i k next a m) ?_ hm
  intro a m ha hlt hm
  have htrue : true = true ↔ Taken h c a := iff_of_true rfl (htaken a ha hlt)
  obtain ⟨m', hrun, hm'⟩ := hm.add ho (by omega) (by omega) htrue
  exact ⟨m', (if_pos rfl).symm.trans hrun, hm'⟩

/-- The symbols of an empty set have no number. -/
theorem Converted.advance (ho : Over R h c e) (hm : Converted h c e symbol symbol m)
    (hzero : ∀ b ≤ e.newUpper.toNat, symbol ≤ b → b < symbol + n → bit m.1 m.2 b = false) :
    Converted h c e (symbol + n) symbol m := by
  refine ⟨hm.good, hm.lower, hm.upper, hm.negated, fun b hb hlt => ?_, hm.flag⟩
  rcases Nat.lt_or_ge b symbol with hbs | hsb
  · exact hm.bits b hb hbs
  · refine iff_of_false (by rw [hzero b hb hsb hlt]; exact Bool.false_ne_true) fun hnum => ?_
    exact Nat.not_lt_of_le hsb (hnum.lt ho)

/-- The set `next` of the chunk is cleared. -/
theorem Held.word_clear (hm : Held h c e i k next symbol m) (hnext : next < chunkSize) (j : Nat) :
    word (m.1.change k ((m.1.sets k).set next 0)) m.2 (j + 4) =
      if slot m.2.otherSets i = some k ∧ j = chunkSize * i + next then 0
      else word m.1 m.2 (j + 4) := by
  rw [word_change]
  by_cases hslot : slot m.2.otherSets (j / chunkSize) = some k
  · rcases hm.place with hplace | ⟨-, huses⟩
    · have hdiv : j / chunkSize = i := hm.converted.good.2.unshared _ _ _ hslot hplace
      have hmod : j = chunkSize * i + j % chunkSize := by rw [← hdiv, Nat.div_add_mod]
      rw [if_pos hslot, List.getElem?_set, hm.length, if_pos hnext]
      by_cases heq : next = j % chunkSize
      · rw [if_pos heq, if_pos ⟨hplace, heq ▸ hmod⟩]
        rfl
      · rw [if_neg heq, if_neg fun hand => heq (Nat.add_left_cancel (hand.2.symm.trans hmod)), word,
          hslot]
        rfl
    · exact absurd ⟨_, hslot⟩ huses
  · rw [if_neg hslot, if_neg]
    rintro ⟨hplace, rfl⟩
    rw [Nat.mul_add_div (by decide), Nat.div_eq_of_lt hnext, Nat.add_zero] at hslot
    exact hslot hplace

/-- A set of the chunk has been read and cleared. -/
theorem Held.clear (ho : Over R h c e) (hm : Held h c e i k next symbol m)
    (hsymbol : symbol = chunkStart i + 64 * next) (hnext : next < chunkSize) :
    Held h c e i k (next + 1) symbol (m.1.change k ((m.1.sets k).set next 0), m.2) := by
  have hlength : ((m.1.sets k).set next 0).length = chunkSize := by
    rw [List.length_set, hm.length]
  have hstart := chunkStart_add i next
  have hword := hm.word_clear hnext
  obtain ⟨hg, hlower, hupper, hnegated, hbits, hflag⟩ := hm.converted
  have hsame : ∀ b < chunkStart i + 64 * next,
      bit (m.1.change k ((m.1.sets k).set next 0)) m.2 b = bit m.1 m.2 b := by
    intro b hb
    rw [bit, bit]
    rcases Nat.lt_or_ge (b / 64) 4 with hlow | hhigh
    · obtain hq | hq | hq | hq : b / 64 = 0 ∨ b / 64 = 1 ∨ b / 64 = 2 ∨ b / 64 = 3 := by omega
      all_goals
        rw [hq]
        rfl
    · obtain ⟨j, hj⟩ := Nat.exists_eq_add_of_le' hhigh
      rw [hj, hword, if_neg]
      omega
  have hm' : Converted h c e symbol symbol (m.1.change k ((m.1.sets k).set next 0), m.2) := by
    refine ⟨hg.change hlength, hlower, hupper, hnegated, fun b hb hlt => ?_, hflag⟩
    rw [hsame b (hsymbol ▸ hlt)]
    exact hbits b hb (hsymbol ▸ hlt)
  have hlimit : chunkStart i + 64 * (next + 1) = symbol + 64 := by omega
  refine ⟨hlimit ▸ hm'.advance ho fun b hb hle hlt => ?_, fun j hj hlt => ?_, ?_, hm.created,
    hm.place⟩
  · rcases hm.place with hplace | ⟨hremoved, -⟩
    · have hj : b / 64 = chunkSize * i + next + 4 := by omega
      rw [bit, hj, hword, if_pos ⟨hplace, rfl⟩]
      exact BitVec.getLsbD_zero
    · omega
  · rw [← hm.rest j (by omega) hlt, setOf, setOf, elim_some, elim_some,
      sets_change_self, List.getElem?_set, if_neg (by omega)]
  · rw [sets_change_self, hlength]

/-- An empty set of the chunk is passed. -/
theorem Held.skip (ho : Over R h c e) (hm : Held h c e i k next symbol m)
    (hslot : slot c.otherSets i = some k) (hsymbol : symbol = chunkStart i + 64 * next)
    (hnext : next < chunkSize) (hzero : setOf h (some k) next = 0) :
    Held h c e i k (next + 1) (symbol + 64) m := by
  have hstart := chunkStart_add i next
  have hwords : word h c (chunkSize * i + next + 4) = 0 := (word_of_slot hslot hnext).trans hzero
  have hm' : Converted h c e (symbol + 64) symbol m := by
    have hm' : Converted h c e symbol symbol m := by
      have hm' := hm.converted
      rwa [← hsymbol] at hm'
    refine hm'.advance ho fun b hb hle hlt => ?_
    rcases hm.place with hplace | ⟨hremoved, -⟩
    · have hj : b / 64 = chunkSize * i + next + 4 := by omega
      rw [bit, hj, word_of_slot hplace hnext, hm.rest next (Nat.le_refl _) hnext, hzero]
      exact BitVec.getLsbD_zero
    · omega
  have hlimit : chunkStart i + 64 * (next + 1) = symbol + 64 := by omega
  refine ⟨hlimit ▸ hm'.congr fun r ht => ?_, fun j hj => hm.rest j (Nat.le_of_succ_le hj),
    hm.length, hm.created, hm.place⟩
  by_cases hr : symbol ≤ r ∧ r < symbol + 64
  · have hj : r / 64 = chunkSize * i + next + 4 := by omega
    rcases ht.2 with hbit | ⟨-, hones⟩
    · rw [bit, hj, hwords] at hbit
      exact absurd (BitVec.getLsbD_zero.symm.trans hbit) Bool.false_ne_true
    · rw [hj, hwords] at hones
      exact absurd hones (by decide)
  · omega

/-- The sets of the chunk are being read; the set before `next` has been read up to `symbol`, when
the index `i` is not above 64. -/
structure Reading (h : Chunks) (c : SymbolClass) (e : EquivalenceClasses) (i k nb : Nat)
    (m : Converting) : Prop where
  held : Held h c e i k m.next m.symbol (m.chunks, m.converted)
  next_le : m.next ≤ chunkSize
  phase : 64 < m.i ∧ m.symbol = chunkStart i + 64 * m.next ∨
    m.i ≤ 64 ∧ 1 ≤ m.i ∧ 1 ≤ m.next ∧ m.symbol + 65 = chunkStart i + 64 * m.next + m.i ∧
      (m.symbol ≤ nb → m.oldSet = setOf h (some k) (m.next - 1) ∧ m.oldSet ≠ ones)

/-- The turns that are left, at most. -/
def turnsLeft (nb : Nat) (m : Converting) : Nat :=
  2 * (nb + 1 - m.symbol) + if 64 < m.i then 1 else 0

/-- The set `next` is read. -/
theorem Reading.turn_next (ho : Over R h c e) {m : Converting} {nb : Nat}
    (hm : Reading h c e i k nb m) (hslot : slot c.otherSets i = some k) (hnb : nb ≤ c.upper)
    (hsymbol : m.symbol ≤ nb) (hi : 64 < m.i) (hnext : m.next < chunkSize) :
    ∃ m', convertTurn e k nb m = some m' ∧ Reading h c e i k nb m' ∧
      turnsLeft nb m' < turnsLeft nb m := by
  have hphase : m.symbol = chunkStart i + 64 * m.next := by
    rcases hm.phase with ⟨-, heq⟩ | ⟨hle, -⟩
    · exact heq
    · omega
  have hstart := chunkStart_add i m.next
  have hitem : m.chunks.item k m.next = some (setOf h (some k) m.next) :=
    (setOf_eq rfl hm.held.length hnext).trans
      (congrArg some (hm.held.rest m.next (Nat.le_refl _) hnext))
  have hput : m.chunks.put 0 k m.next =
      some (m.chunks.change k ((m.chunks.sets k).set m.next 0)) :=
    put_eq (hm.held.length.symm ▸ hnext)
  have hleft : turnsLeft nb m = 2 * (nb + 1 - m.symbol) + 1 := by rw [turnsLeft, if_pos hi]
  rw [convertTurn, if_pos hi, hitem, some_bind, hleft]
  by_cases hzero : setOf h (some k) m.next = 0
  · rw [if_pos hzero]
    refine ⟨_, rfl, ⟨hm.held.skip ho hslot hphase hnext hzero, hnext, Or.inl ⟨hi, ?_⟩⟩, ?_⟩
    · show m.symbol + 64 = chunkStart i + 64 * (m.next + 1)
      omega
    · rw [turnsLeft, if_pos (show 64 < m.i from hi)]
      show 2 * (nb + 1 - (m.symbol + 64)) + 1 < _
      omega
  · simp only [if_neg hzero, hput, some_bind]
    have hcleared := hm.held.clear ho hphase hnext
    by_cases hones : setOf h (some k) m.next = ones
    · rw [if_pos hones]
      have hle : min 64 (nb + 1 - m.symbol) ≤ 64 := Nat.min_le_left _ _
      have hpos : 0 < min 64 (nb + 1 - m.symbol) := by omega
      have hend : min 64 (nb + 1 - m.symbol) < 64 → m.symbol + min 64 (nb + 1 - m.symbol) =
          nb + 1 := by
        omega
      have hsum : m.symbol + min 64 (nb + 1 - m.symbol) ≤ nb + 1 := by omega
      generalize min 64 (nb + 1 - m.symbol) = n at hle hpos hend hsum
      obtain ⟨⟨h', c'⟩, hrun, hheld⟩ := hcleared.addAll (n := n) ho (by omega) (by omega)
        fun a hle hlt => by
          refine Or.inr ⟨by omega, ?_⟩
          rw [show a / 64 = chunkSize * i + m.next + 4 by omega, word_of_slot hslot hnext, hones]
      rw [hrun, some_bind]
      refine ⟨_, rfl, ⟨hheld, hnext, ?_⟩, ?_⟩
      · show 64 < 1 + n ∧ m.symbol + n = chunkStart i + 64 * (m.next + 1) ∨ 1 + n ≤ 64 ∧ 1 ≤ 1 + n ∧
          1 ≤ m.next + 1 ∧ m.symbol + n + 65 = chunkStart i + 64 * (m.next + 1) + (1 + n) ∧
            (m.symbol + n ≤ nb → _)
        rcases Nat.lt_or_ge n 64 with hlt | hge
        · refine Or.inr ⟨by omega, by omega, by omega, by omega, fun hle => ?_⟩
          exact absurd (hend hlt) (by omega)
        · exact Or.inl ⟨by omega, by omega⟩
      · have hone : (if 64 < 1 + n then 1 else 0) ≤ 1 := by split_ifs <;> decide
        show 2 * (nb + 1 - (m.symbol + n)) + (if 64 < 1 + n then 1 else 0) < _
        omega
    · rw [if_neg hones]
      refine ⟨_, rfl, ⟨hcleared, hnext, Or.inr ⟨?_, ?_, ?_, ?_, fun _ => ⟨rfl, hones⟩⟩⟩, ?_⟩
      · show 1 ≤ 64
        decide
      · exact Nat.le_refl 1
      · exact Nat.le_add_left 1 m.next
      · show m.symbol + 65 = chunkStart i + 64 * (m.next + 1) + 1
        omega
      · show 2 * (nb + 1 - m.symbol) + 0 < _
        omega

/-- A symbol of the set that has been read. -/
theorem Reading.turn_symbol (ho : Over R h c e) {m : Converting} {nb : Nat}
    (hm : Reading h c e i k nb m) (hslot : slot c.otherSets i = some k) (hnb : nb ≤ c.upper)
    (hsymbol : m.symbol ≤ nb) (hi : ¬64 < m.i) :
    ∃ m', convertTurn e k nb m = some m' ∧ Reading h c e i k nb m' ∧
      turnsLeft nb m' < turnsLeft nb m := by
  obtain ⟨hle, hpos, hnext, hphase, hold⟩ : m.i ≤ 64 ∧ 1 ≤ m.i ∧ 1 ≤ m.next ∧
      m.symbol + 65 = chunkStart i + 64 * m.next + m.i ∧
        (m.symbol ≤ nb → m.oldSet = setOf h (some k) (m.next - 1) ∧ m.oldSet ≠ ones) := by
    rcases hm.phase with ⟨hlt, -⟩ | hphase
    · exact absurd hlt hi
    · exact hphase
  obtain ⟨heq, hones⟩ := hold hsymbol
  have hstart := chunkStart_add i (m.next - 1)
  have hdiv : m.symbol / 64 = chunkSize * i + (m.next - 1) + 4 := by omega
  have hword : word h c (m.symbol / 64) = m.oldSet := by
    rw [hdiv, word_of_slot hslot (by have := hm.next_le; omega), heq]
  have htaken : (m.oldSet &&& mask (m.symbol % 64) != 0) = true ↔ Taken h c m.symbol := by
    rw [and_mask_ne_zero _ (Nat.mod_lt _ (by decide)), Taken, bit, hword,
      or_iff_left fun hand => hones hand.2]
  obtain ⟨⟨h', c'⟩, hrun, hheld⟩ := hm.held.add ho (by omega) (by omega) htaken
  rw [convertTurn, if_neg hi, hrun, some_bind]
  refine ⟨_, rfl, ⟨hheld, hm.next_le, ?_⟩, ?_⟩
  · show 64 < m.i + 1 ∧ m.symbol + 1 = chunkStart i + 64 * m.next ∨ m.i + 1 ≤ 64 ∧ 1 ≤ m.i + 1 ∧
      1 ≤ m.next ∧ m.symbol + 1 + 65 = chunkStart i + 64 * m.next + (m.i + 1) ∧
        (m.symbol + 1 ≤ nb → m.oldSet = setOf h (some k) (m.next - 1) ∧ m.oldSet ≠ ones)
    rcases Nat.lt_or_ge m.i 64 with hlt | hge
    · exact Or.inr ⟨hlt, by omega, hnext, by omega, fun _ => ⟨heq, hones⟩⟩
    · exact Or.inl ⟨by omega, by omega⟩
  · have hone : (if 64 < m.i + 1 then 1 else 0) ≤ 1 := by split_ifs <;> decide
    show 2 * (nb + 1 - (m.symbol + 1)) + (if 64 < m.i + 1 then 1 else 0) < turnsLeft nb m
    rw [turnsLeft, if_neg hi]
    omega

/-- All symbols have been looked at. -/
theorem Converted.finish (ho : Over R h c e) (hm : Converted h c e limit symbol m)
    (hlimit : c.upper < limit) (hsymbol : c.upper < symbol) :
    Converted h c e (c.upper + 1) (c.upper + 1) m := by
  have hm' := hm.congr fun r ht => (by
    have hvalid := ht.valid ho
    omega : r < symbol ↔ r < c.upper + 1)
  exact ⟨hm'.good, hm'.lower, hm'.upper, hm'.negated,
    fun b hb hlt => hm'.bits b hb (Nat.lt_of_lt_of_le hlt hlimit), hm'.flag⟩

/-- The sets of the last chunk are read up to the last symbol. -/
theorem Held.convertChunk_eq (ho : Over R h c e) (hm : Held h c e i k 0 (chunkStart i) m)
    (hslot : slot c.otherSets i = some k) (hle : chunkStart i ≤ c.upper)
    (hlast : c.upper < chunkStart (i + 1)) :
    ∃ s m', convertChunk e k c.upper (chunkStart i) m = some (s, m') ∧ c.upper < s ∧
      Converted h c e (c.upper + 1) (c.upper + 1) m' := by
  have hstart : chunkStart (i + 1) = chunkStart i + 64 * chunkSize := by
    have hi : chunkStart i = 256 + 11008 * i := rfl
    have hi' : chunkStart (i + 1) = 256 + 11008 * (i + 1) := rfl
    have hsize : chunkSize = 172 := rfl
    omega
  have hreading : Reading h c e i k c.upper ⟨m.1, m.2, chunkStart i, 0, 65, 0⟩ :=
    ⟨hm, Nat.zero_le _, Or.inl ⟨Nat.lt_succ_self 64, rfl⟩⟩
  obtain ⟨m', hrun, hm', hend⟩ : ∃ m', loopUntil (fun m : Converting => some (decide
      (c.upper < m.symbol))) (convertTurn e k c.upper) (2 * c.upper + 4)
      ⟨m.1, m.2, chunkStart i, 0, 65, 0⟩ = some m' ∧ Reading h c e i k c.upper m' ∧
        c.upper < m'.symbol := by
    refine loopUntil_decide (Reading h c e i k c.upper) (turnsLeft c.upper) ?_ hreading ?_
    · intro m hm hsymbol
      have hle := Nat.le_of_not_lt hsymbol
      by_cases hi : 64 < m.i
      · have hphase : m.symbol = chunkStart i + 64 * m.next := by
          rcases hm.phase with ⟨-, heq⟩ | ⟨hle, -⟩
          · exact heq
          · omega
        obtain ⟨m', hrun, hm', hlt⟩ := hm.turn_next ho hslot (Nat.le_refl _) hle hi (by omega)
        exact ⟨m', hrun, hlt, hm'⟩
      · obtain ⟨m', hrun, hm', hlt⟩ := hm.turn_symbol ho hslot (Nat.le_refl _) hle hi
        exact ⟨m', hrun, hlt, hm'⟩
    · show 2 * (c.upper + 1 - chunkStart i) + 1 < _
      omega
  refine ⟨m'.symbol, (m'.chunks, m'.converted), ?_, hend, ?_⟩
  · rw [convertChunk, hrun]
    rfl
  · refine hm'.held.converted.finish ho ?_ hend
    rcases hm'.phase with ⟨-, heq⟩ | ⟨hle, -, -, heq, -⟩
    · omega
    · omega

/-- After the last set of a chunk another one is read, when there are symbols after the chunk. -/
theorem Held.convertChunk_eq_none (ho : Over R h c e) (hm : Held h c e i k 0 (chunkStart i) m)
    (hslot : slot c.otherSets i = some k) (hnext : chunkStart (i + 1) ≤ c.upper) :
    convertChunk e k (chunkStart (i + 1)) (chunkStart i) m = none := by
  have hstart : chunkStart (i + 1) = chunkStart i + 64 * chunkSize := by
    have hi : chunkStart i = 256 + 11008 * i := rfl
    have hi' : chunkStart (i + 1) = 256 + 11008 * (i + 1) := rfl
    have hsize : chunkSize = 172 := rfl
    omega
  have hreading : Reading h c e i k (chunkStart (i + 1)) ⟨m.1, m.2, chunkStart i, 0, 65, 0⟩ :=
    ⟨hm, Nat.zero_le _, Or.inl ⟨Nat.lt_succ_self 64, rfl⟩⟩
  rw [convertChunk, loopUntil_eq_none (fun m : Converting =>
    Reading h c e i k (chunkStart (i + 1)) m ∧ m.symbol ≤ chunkStart (i + 1)) ?_ ?_
    ⟨hreading, show chunkStart i ≤ _ by omega⟩]
  · rfl
  · exact fun m ⟨_, hle⟩ => congrArg some (decide_eq_false (Nat.not_lt_of_le hle))
  · rintro m ⟨hm, hle⟩
    have hbound : ∀ m', Reading h c e i k (chunkStart (i + 1)) m' →
        m'.symbol ≤ chunkStart (i + 1) := fun m' hm' => by
      have hnext := hm'.next_le
      rcases hm'.phase with ⟨-, heq⟩ | ⟨hle, -, -, heq, -⟩
      · omega
      · omega
    by_cases hi : 64 < m.i
    · rcases Nat.lt_or_eq_of_le hm.next_le with hlt | heq
      · obtain ⟨m', hrun, hm', -⟩ := hm.turn_next ho hslot hnext hle hi hlt
        exact Or.inr ⟨m', hrun, hm', hbound m' hm'⟩
      · have hitem : m.chunks.item k m.next = none :=
          List.getElem?_eq_none (by rw [hm.held.length, heq])
        refine Or.inl ?_
        rw [convertTurn, if_pos hi, hitem]
        rfl
    · obtain ⟨m', hrun, hm', -⟩ := hm.turn_symbol ho hslot hnext hle hi
      exact Or.inr ⟨m', hrun, hm', hbound m' hm'⟩

end SymbolClass

end Gobo
