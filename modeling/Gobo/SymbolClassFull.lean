/-
The query `is_full` of a class of symbols, which compares the sets of 64 bits with 32 ones.
-/
import Gobo.SymbolClassRuns
import Mathlib.Tactic.SplitIfs

namespace Gobo

open List

namespace Chunks

/-- Whether the items from `i` to `j - 1` are all `v`. -/
def allFilled (h : Chunks) (v : BitVec 64) (k i j : Nat) : Option Bool :=
  if i < j → j ≤ (h.sets k).length then some (((h.sets k).extract i j).all fun w => w == v) else
    none

end Chunks

namespace SymbolClass

/-- `0xFFFFFFFF`. -/
def ones : BitVec 64 := 0xFFFFFFFF

/-- Whether a set has the symbols from `i` to `j`. -/
def hasAll (w : BitVec 64) (i j : Nat) : Bool :=
  (range' i (j + 1 - i)).all fun a => w &&& mask (a % 64) != 0

/-- Whether the set `w` of the symbols from `i` on says that the class is full. -/
def fullSet (c : SymbolClass) (w : BitVec 64) (i : Nat) : Bool :=
  if w = ones then true
  else if c.lower ≤ i ∧ i + 63 ≤ c.upper then false
  else hasAll w (max c.lower i) (min c.upper (i + 63))

/-- `l_chunk_lower`, when it is not -1. -/
def chunkLower (c : SymbolClass) : Option Nat :=
  if 256 < c.lower then some (chunkIndex c.lower) else none

/-- Whether the sets of a chunk from the one of the lower bound to the one of the upper bound say
that the class is full. -/
def fullEnds (h : Chunks) (c : SymbolClass) (k : Nat) (lower : Option Nat) (upper : Nat) :
    Option Bool := do
  if ← h.allFilled ones k (lower.elim 0 fun lower => lower + 1) upper then
    if lower = some upper then do
      let w ← h.item k upper
      some (w == ones || hasAll w (c.lower % 64) (c.upper % 64))
    else do
      let result ←
        if upper < chunkSize then do
          let w ← h.item k upper
          some (w == ones || hasAll w 0 (c.upper % 64))
        else some true
      match lower with
      | some lower => do
          let w ← h.item k lower
          some (result && (w == ones || hasAll w (c.lower % 64) 63))
      | none => some result
  else some false

/-- Whether the chunk `k`, at the index `i`, says that the class is full. -/
def fullChunk (h : Chunks) (c : SymbolClass) (k i : Nat) : Option Bool := do
  if ← h.allFilled ones k 0 chunkSize then some true
  else if i = chunkIndex c.upper ∨ some i = c.chunkLower then
    fullEnds h c k (if some i = c.chunkLower then some (indexInChunk c.lower) else none)
      (if i = chunkIndex c.upper then indexInChunk c.upper else chunkSize)
  else some false

/-- A turn of the loop over the chunks, as long as the result is true. -/
def fullTurn (h : Chunks) (c : SymbolClass) (sets : List (Option Nat)) (i : Nat) (_ : Bool) :
    Option Bool := do
  match ← sets[i]? with
  | none => some false
  | some k => if (h.sets k).length = 0 then some true else fullChunk h c k i

/-- `is_full`; the index of the loop over the chunks does not change. -/
def isFull (fuel : Nat) (h : Chunks) (c : SymbolClass) : Option Bool :=
  let result := c.fullSet c.firstSet 0 && c.fullSet c.secondSet 64 && c.fullSet c.thirdSet 128 &&
    c.fullSet c.fourthSet 192
  if result = true ∧ 256 ≤ c.upper then
    match c.otherSets with
    | none => some false
    | some sets =>
        let i := c.chunkLower.getD 0
        loopUntil (fun result => some (!result || decide (chunkIndex c.upper < i)))
          (fullTurn h c sets i) fuel true
  else some result

variable {h : Chunks} {c : SymbolClass} {w : BitVec 64} {a i j k : Nat}

/-- The block of 64 symbols from `64 * j` on lies within the bounds, as far as the query sees. -/
def Inner (c : SymbolClass) (j : Nat) : Prop :=
  if j < 4 then c.lower ≤ 64 * j ∧ 64 * j + 63 ≤ c.upper
  else (c.lower ≤ 256 ∨ c.lower / 64 < j) ∧ j < c.upper / 64

/-- The set of a block is not `0xFFFFFFFF`, and the block lies within the bounds or misses one
of their symbols. -/
def Refused (h : Chunks) (c : SymbolClass) (j : Nat) : Prop := word h c j ≠ ones ∧
    (c.Inner j ∨ ∃ a, c.lower ≤ a ∧ a ≤ c.upper ∧ a / 64 = j ∧ bit h c a = false)

/-- The blocks that the query looks at: the first four ones, and those of one chunk. -/
def Scanned (c : SymbolClass) (j : Nat) : Prop :=
  j < 4 ∨ 4 ≤ j ∧ (j - 4) / chunkSize = c.chunkLower.getD 0

theorem hasAll_iff (hj : j < 64) :
    hasAll w i j = true ↔ ∀ a, i ≤ a → a ≤ j → w.getLsbD a = true := by
  rw [hasAll, all_eq_true]
  constructor
  · intro hall a hia haj
    have ha := hall a (mem_range'_1.mpr ⟨hia, by omega⟩)
    rwa [Nat.mod_eq_of_lt (Nat.lt_of_le_of_lt haj hj), and_mask_ne_zero w (by omega)] at ha
  · intro hall a ha
    obtain ⟨hia, hlt⟩ := mem_range'_1.mp ha
    rw [Nat.mod_eq_of_lt (by omega), and_mask_ne_zero w (by omega)]
    exact hall a hia (by omega)

/-- The set of one of the first four blocks. -/
theorem fullSet_iff (hj : j < 4) :
    c.fullSet (word h c j) (64 * j) = true ↔ ¬Refused h c j := by
  rw [fullSet, Refused, Inner, if_pos hj]
  split_ifs with hones hinner
  · simp [hones]
  · simp [hones, hinner]
  · rw [not_and_or, not_or]
    have hbits : hasAll (word h c j) (max c.lower (64 * j)) (min c.upper (64 * j + 63)) = true ↔
        ∀ a, c.lower ≤ a → a ≤ c.upper → a / 64 = j → bit h c a = true := by
      rw [hasAll, all_eq_true]
      constructor
      · intro hall a hlower hupper haj
        have ha := hall a (mem_range'_1.mpr (by omega))
        rwa [and_mask_ne_zero _ (Nat.mod_lt a (by decide)), ← haj] at ha
      · intro hall a ha
        have hrange := mem_range'_1.mp ha
        rw [and_mask_ne_zero _ (Nat.mod_lt a (by decide))]
        have haj : a / 64 = j := by omega
        have hbit := hall a (by omega) (by omega) haj
        rwa [bit, haj] at hbit
    rw [hbits]
    simp only [hones, not_not, false_or, hinner, not_false_eq_true, true_and, not_exists, not_and,
      Bool.not_eq_false]

theorem not_refused_of_ones (hones : word h c j = ones) : ¬Refused h c j := fun hr => hr.1 hones

theorem refused_iff_of_inner (hinner : c.Inner j) : Refused h c j ↔ word h c j ≠ ones :=
  and_iff_left (Or.inl hinner)

/-- The set of a block that the query reads symbol by symbol. -/
theorem hasAll_iff_of_edge {x y : Nat} (hinner : ¬c.Inner j)
    (hrange : ∀ a, a / 64 = j → (c.lower ≤ a ∧ a ≤ c.upper ↔ x ≤ a % 64 ∧ a % 64 ≤ y))
    (hy : y < 64) :
    (word h c j == ones || hasAll (word h c j) x y) = true ↔ ¬Refused h c j := by
  rw [Bool.or_eq_true, beq_iff_eq, hasAll_iff hy, Refused, not_and_or, not_not, not_or]
  refine or_congr_right ⟨fun hall => ⟨hinner, ?_⟩, fun hnot i hx hiy => ?_⟩
  · rintro ⟨a, hlower, hupper, haj, hbit⟩
    obtain ⟨hx, hay⟩ := (hrange a haj).mp ⟨hlower, hupper⟩
    rw [bit, haj, hall _ hx hay] at hbit
    exact Bool.noConfusion hbit
  · have hdiv : (64 * j + i) / 64 = j := by omega
    have hmod : (64 * j + i) % 64 = i := by omega
    obtain ⟨hlower, hupper⟩ := (hrange _ hdiv).mpr (hmod.symm ▸ ⟨hx, hiy⟩)
    refine Bool.of_not_eq_false fun hbit => hnot.2 ⟨_, hlower, hupper, hdiv, ?_⟩
    rw [bit, hdiv, hmod]
    exact hbit

/-- A block without a symbol between the bounds. -/
theorem not_refused_of_outside (hinner : ¬c.Inner j)
    (hout : ∀ a, a / 64 = j → ¬(c.lower ≤ a ∧ a ≤ c.upper)) : ¬Refused h c j := by
  rintro ⟨-, hin | ⟨a, hlower, hupper, haj, -⟩⟩
  · exact hinner hin
  · exact hout a haj ⟨hlower, hupper⟩

theorem allFilled_eq (hlength : (h.sets i).length = chunkSize) {m n : Nat} (hn : n ≤ chunkSize) :
    ∃ b, h.allFilled ones i m n = some b ∧
      (b = true ↔ ∀ j, m ≤ j → j < n → setOf h (some i) j = ones) := by
  refine ⟨((h.sets i).extract m n).all fun w => w == ones, if_pos fun _ => hlength.symm ▸ hn, ?_⟩
  rw [all_eq_true]
  have hget : ∀ j, j < n → setOf h (some i) j = (h.sets i)[j]?.getD 0 := fun _ _ => rfl
  constructor
  · intro hall j hm hjn
    have hj : j < (h.sets i).length := by omega
    have hmem : (h.sets i)[j] ∈ (h.sets i).extract m n := by
      refine mem_of_getElem? (i := j - m) ?_
      rw [extract_eq_take_drop, getElem?_take_of_lt (by omega), getElem?_drop,
        Nat.add_sub_cancel' hm, getElem?_eq_getElem hj]
    rw [hget j hjn, getElem?_eq_getElem hj]
    exact beq_iff_eq.mp (hall _ hmem)
  · intro hall w hw
    obtain ⟨j, hj⟩ := mem_iff_getElem?.mp hw
    rw [extract_eq_take_drop, getElem?_take] at hj
    split_ifs at hj with hlt
    rw [getElem?_drop] at hj
    have hval := hall (m + j) (by omega) (by omega)
    rw [hget _ (by omega), hj] at hval
    exact beq_iff_eq.mpr hval

theorem word_of_slot (hslot : slot c.otherSets i = some k) (hj : j < chunkSize) :
    word h c (chunkSize * i + j + 4) = setOf h (some k) j := by
  have hdiv : (chunkSize * i + j) / chunkSize = i := by
    rw [Nat.mul_add_div (by decide), Nat.div_eq_of_lt hj, Nat.add_zero]
  rw [word, hdiv, hslot, Nat.mul_add_mod, Nat.mod_eq_of_lt hj]

/-- The block of a symbol, by its chunk. -/
theorem div_64_eq (ha : 256 ≤ a) : a / 64 = chunkSize * chunkIndex a + indexInChunk a + 4 := by
  rw [chunkIndex_eq, indexInChunk, Nat.div_add_mod]
  omega

theorem inner_of_le (hj : 4 ≤ j) :
    c.Inner j ↔ (c.lower ≤ 256 ∨ c.lower / 64 < j) ∧ j < c.upper / 64 := by
  rw [Inner, if_neg (Nat.not_lt_of_le hj)]

/-- A block out of the bounds. -/
theorem not_refused_of_apart (hj : 4 ≤ j)
    (hapart : 256 < c.lower ∧ j < c.lower / 64 ∨ c.upper / 64 < j) : ¬Refused h c j := by
  refine not_refused_of_outside ?_ fun a ha => ?_
  · rw [inner_of_le hj]
    omega
  · omega

/-- The block of the upper bound, of which the query reads the first symbols. -/
theorem hasAll_upper (hupper : 256 ≤ c.upper)
    (hlower : c.lower ≤ 256 ∨ c.lower / 64 < c.upper / 64) :
    (word h c (c.upper / 64) == ones || hasAll (word h c (c.upper / 64)) 0 (c.upper % 64)) = true ↔
      ¬Refused h c (c.upper / 64) := by
  refine hasAll_iff_of_edge ?_ (fun a ha => ?_) (Nat.mod_lt _ (by decide))
  · rw [inner_of_le (by omega)]
    omega
  · omega

/-- The block of the lower bound, of which the query reads the last symbols. -/
theorem hasAll_lower (hlower : 256 < c.lower) (hlt : c.lower / 64 < c.upper / 64) :
    (word h c (c.lower / 64) == ones || hasAll (word h c (c.lower / 64)) (c.lower % 64) 63) = true ↔
      ¬Refused h c (c.lower / 64) := by
  refine hasAll_iff_of_edge ?_ (fun a ha => ?_) (by decide)
  · rw [inner_of_le (by omega)]
    omega
  · omega

/-- The block of both bounds. -/
theorem hasAll_both (hlower : 256 < c.lower) (heq : c.lower / 64 = c.upper / 64) :
    (word h c (c.upper / 64) == ones ||
        hasAll (word h c (c.upper / 64)) (c.lower % 64) (c.upper % 64)) = true ↔
      ¬Refused h c (c.upper / 64) := by
  refine hasAll_iff_of_edge ?_ (fun a ha => ?_) (Nat.mod_lt _ (by decide))
  · rw [inner_of_le (by omega)]
    omega
  · omega

/-- The sets of a chunk between two of them, and those two. -/
theorem chunk_iff {lower : Option Nat} {upper : Nat} (hslot : slot c.otherSets i = some k)
    (hupper : upper ≤ chunkSize)
    (hinner : ∀ j, (lower.elim 0 fun lower => lower + 1) ≤ j → j < upper →
      c.Inner (chunkSize * i + j + 4))
    (hout : ∀ j < chunkSize, (∃ l ∈ lower, j < l) ∨ upper < j →
      ¬Refused h c (chunkSize * i + j + 4)) :
    (∀ j < chunkSize, ¬Refused h c (chunkSize * i + j + 4)) ↔
      (∀ j, (lower.elim 0 fun lower => lower + 1) ≤ j → j < upper → setOf h (some k) j = ones) ∧
        (upper < chunkSize → ¬Refused h c (chunkSize * i + upper + 4)) ∧
        ∀ l ∈ lower, l < chunkSize → ¬Refused h c (chunkSize * i + l + 4) := by
  have hmiddle : ∀ j, (lower.elim 0 fun lower => lower + 1) ≤ j → j < upper →
      (setOf h (some k) j = ones ↔ ¬Refused h c (chunkSize * i + j + 4)) := by
    intro j hj hju
    rw [refused_iff_of_inner (hinner j hj hju), not_not,
      word_of_slot hslot (Nat.lt_of_lt_of_le hju hupper)]
  constructor
  · intro hall
    exact ⟨fun j hj hju => (hmiddle j hj hju).mpr (hall j (Nat.lt_of_lt_of_le hju hupper)),
      hall upper, fun l _ hl => hall l hl⟩
  · rintro ⟨hones, hend, hstart⟩ j hj
    rcases Nat.lt_trichotomy j upper with hju | rfl | hju
    · by_cases hjl : (lower.elim 0 fun lower => lower + 1) ≤ j
      · exact (hmiddle j hjl hju).mp (hones j hjl hju)
      · cases lower with
        | none => exact absurd (Nat.zero_le j) hjl
        | some l =>
            rcases Nat.lt_or_eq_of_le (Nat.le_of_lt_succ (Nat.lt_of_not_le hjl)) with hlt | rfl
            · exact hout j hj (Or.inl ⟨l, rfl, hlt⟩)
            · exact hstart j rfl hj
    · exact hend hj
    · exact hout j hj (Or.inr hju)

/-- The sets of a chunk between two of them, and those two, decide. -/
theorem fullEnds_eq {lower : Option Nat} {upper : Nat} (hslot : slot c.otherSets i = some k)
    (hlength : (h.sets k).length = chunkSize) (hupper : upper ≤ chunkSize)
    (hlower : ∀ l ∈ lower, l < chunkSize)
    (hinner : ∀ j, (lower.elim 0 fun lower => lower + 1) ≤ j → j < upper →
      c.Inner (chunkSize * i + j + 4))
    (hout : ∀ j < chunkSize, (∃ l ∈ lower, j < l) ∨ upper < j →
      ¬Refused h c (chunkSize * i + j + 4))
    (hlast : upper < chunkSize → chunkSize * i + upper + 4 = c.upper / 64 ∧ 256 ≤ c.upper ∧
      (lower = none → c.lower ≤ 256))
    (hfirst : ∀ l ∈ lower, chunkSize * i + l + 4 = c.lower / 64 ∧ 256 < c.lower ∧
      (l ≠ upper → c.lower / 64 < c.upper / 64)) :
    ∃ b, fullEnds h c k lower upper = some b ∧
      (b = true ↔ ∀ j < chunkSize, ¬Refused h c (chunkSize * i + j + 4)) := by
  have hitem : ∀ j, j < chunkSize → h.item k j = some (word h c (chunkSize * i + j + 4)) :=
    fun j hj => (setOf_eq rfl hlength hj).trans (congrArg some (word_of_slot hslot hj).symm)
  have hiff := chunk_iff (h := h) hslot hupper hinner hout
  obtain ⟨b, hall, hb⟩ := allFilled_eq (m := lower.elim 0 fun lower => lower + 1) hlength hupper
  rw [fullEnds, hall, some_bind, hiff, ← hb]
  cases b with
  | false => exact ⟨false, rfl, by simp⟩
  | true =>
      rw [if_pos rfl]
      cases lower with
      | none =>
          rw [if_neg (by simp)]
          rcases Nat.lt_or_ge upper chunkSize with hlt | hge
          · obtain ⟨hblock, hle, hnone⟩ := hlast hlt
            have hend := hasAll_upper (h := h) hle (Or.inl (hnone rfl))
            rw [if_pos hlt, hitem upper hlt, hblock]
            exact ⟨_, rfl, by simp [hend, hlt]⟩
          · rw [if_neg (Nat.not_lt_of_le hge)]
            exact ⟨true, rfl, by simp [Nat.not_lt_of_le hge]⟩
      | some l =>
          obtain ⟨hblock, hle, hdiv⟩ := hfirst l rfl
          have hl := hlower l rfl
          by_cases hlu : l = upper
          · subst hlu
            obtain ⟨hblock', -, -⟩ := hlast hl
            have hends := hasAll_both (h := h) hle (hblock.symm.trans hblock')
            rw [if_pos rfl, hitem l hl, hblock']
            refine ⟨_, rfl, hends.trans ?_⟩
            simp [hl, hblock']
          · rw [if_neg (by simp [hlu])]
            have hstart := hasAll_lower (h := h) hle (hdiv hlu)
            rcases Nat.lt_or_ge upper chunkSize with hlt | hge
            · obtain ⟨hblock', hle', -⟩ := hlast hlt
              have hend := hasAll_upper (h := h) hle' (Or.inr (hdiv hlu))
              rw [if_pos hlt, hitem upper hlt, hblock']
              simp only [hitem l hl, hblock, some_bind]
              exact ⟨_, rfl, by simp [hstart, hend, hlt, hl, hblock]⟩
            · rw [if_neg (Nat.not_lt_of_le hge)]
              simp only [hitem l hl, hblock, some_bind]
              exact ⟨_, rfl, by simp [hstart, Nat.not_lt_of_le hge, hl, hblock]⟩

/-- The blocks of a chunk that the query looks at. -/
theorem Good.fullChunk_eq (hg : Good h c) (hle : c.lower ≤ c.upper) (hupper : 256 ≤ c.upper)
    (hi : i = c.chunkLower.getD 0) (hslot : slot c.otherSets i = some k) :
    ∃ b, fullChunk h c k i = some b ∧
      (b = true ↔ ∀ j < chunkSize, ¬Refused h c (chunkSize * i + j + 4)) := by
  obtain ⟨-, -, hlength⟩ := hg.2.chunk i k hslot
  have hu : c.upper / 64 = 172 * chunkIndex c.upper + indexInChunk c.upper + 4 := div_64_eq hupper
  have hiu : indexInChunk c.upper < 172 := indexInChunk_lt _
  obtain ⟨b, hall, hb⟩ := allFilled_eq (m := 0) hlength (Nat.le_refl chunkSize)
  rw [fullChunk, hall, some_bind]
  cases b with
  | true =>
      refine ⟨true, if_pos rfl, iff_of_true rfl fun j hj => not_refused_of_ones ?_⟩
      rw [word_of_slot hslot hj]
      exact hb.mp rfl j (Nat.zero_le j) hj
  | false =>
      rw [if_neg Bool.false_ne_true]
      by_cases hlower : 256 < c.lower
      · have hl : c.lower / 64 = 172 * chunkIndex c.lower + indexInChunk c.lower + 4 :=
          div_64_eq (Nat.le_of_lt hlower)
        have hil : indexInChunk c.lower < 172 := indexInChunk_lt _
        have hchunk : c.chunkLower = some (chunkIndex c.lower) := if_pos hlower
        obtain rfl : i = chunkIndex c.lower := hi.trans (by rw [hchunk]; rfl)
        rw [if_pos (Or.inr hchunk.symm), if_pos hchunk.symm]
        refine fullEnds_eq hslot hlength ?_ (fun l hl => Option.some.inj hl ▸ hil)
          (fun j hj hju => ?_) (fun j hj hjl => ?_) (fun hlt => ?_) fun l hmem => ?_
        · split_ifs
          · exact Nat.le_of_lt hiu
          · exact Nat.le_refl _
        · change indexInChunk c.lower + 1 ≤ j at hj
          change c.Inner (172 * chunkIndex c.lower + j + 4)
          rw [inner_of_le (by omega)]
          split_ifs at hju with heq
          · omega
          · change j < 172 at hju
            omega
        · change ¬Refused h c (172 * chunkIndex c.lower + j + 4)
          refine not_refused_of_apart (by omega) (hjl.imp (fun hjl => ?_) fun hjl => ?_)
          · obtain ⟨l, hl, hjl⟩ := hjl
            obtain rfl := Option.some.inj hl
            omega
          · split_ifs at hjl with heq
            · omega
            · exact absurd hjl (Nat.not_lt_of_le (Nat.le_of_lt hj))
        · split_ifs at hlt with heq
          · rw [if_pos heq, heq]
            exact ⟨hu.symm, hupper, nofun⟩
          · exact absurd hlt (Nat.lt_irrefl _)
        · obtain rfl := Option.some.inj hmem
          refine ⟨hl.symm, hlower, fun hne => ?_⟩
          split_ifs at hne with heq
          · omega
          · omega
      · have hchunk : c.chunkLower = none := if_neg hlower
        obtain rfl : i = 0 := hi.trans (by rw [hchunk]; rfl)
        have hnone : ¬some 0 = c.chunkLower := by rw [hchunk]; exact nofun
        by_cases hzero : chunkIndex c.upper = 0
        · rw [if_pos (Or.inl hzero.symm), if_neg hnone, if_pos hzero.symm]
          rw [hzero] at hu
          refine fullEnds_eq hslot hlength (Nat.le_of_lt hiu) nofun (fun j hj hju => ?_)
            (fun j hj hjl => ?_) (fun hlt => ⟨hu.symm, hupper, fun _ => Nat.le_of_not_lt hlower⟩)
            nofun
          · change c.Inner (172 * 0 + j + 4)
            rw [inner_of_le (by omega)]
            omega
          · change ¬Refused h c (172 * 0 + j + 4)
            refine not_refused_of_apart (by omega) (Or.inr ?_)
            rcases hjl with ⟨l, hl, -⟩ | hjl
            · exact nomatch hl
            · omega
        · have hne : ¬(0 = chunkIndex c.upper ∨ some 0 = c.chunkLower) :=
            not_or.mpr ⟨Ne.symm hzero, hnone⟩
          refine ⟨false, if_neg hne, iff_of_false Bool.false_ne_true fun hrefused => ?_⟩
          refine Bool.noConfusion (hb.mpr fun j _ hj => ?_)
          have hinner : c.Inner (172 * 0 + j + 4) := by
            have hj : j < 172 := hj
            rw [inner_of_le (by omega)]
            omega
          rw [← word_of_slot hslot hj]
          exact not_not.mp ((refused_iff_of_inner hinner).not.mp (hrefused j hj))

theorem div_chunkSize_add (hk : k < chunkSize) :
    (chunkSize * i + k + 4 - 4) / chunkSize = i := by
  rw [Nat.add_sub_cancel, Nat.mul_add_div (by decide), Nat.div_eq_of_lt hk, Nat.add_zero]

/-- The first four sets. -/
theorem fullSets_iff :
    (c.fullSet c.firstSet 0 && c.fullSet c.secondSet 64 && c.fullSet c.thirdSet 128 &&
      c.fullSet c.fourthSet 192) = true ↔ ∀ j < 4, ¬Refused h c j := by
  have hset : ∀ j, j < 4 → (c.fullSet (word h c j) (64 * j) = true ↔ ¬Refused h c j) :=
    fun j hj => fullSet_iff hj
  have hfirst := hset 0 (by decide)
  have hsecond := hset 1 (by decide)
  have hthird := hset 2 (by decide)
  have hfourth := hset 3 (by decide)
  simp only [Bool.and_eq_true]
  constructor
  · rintro ⟨⟨⟨h₀, h₁⟩, h₂⟩, h₃⟩ j hj
    match j with
    | 0 => exact hfirst.mp h₀
    | 1 => exact hsecond.mp h₁
    | 2 => exact hthird.mp h₂
    | 3 => exact hfourth.mp h₃
  · intro hall
    exact ⟨⟨⟨hfirst.mpr (hall 0 (by decide)), hsecond.mpr (hall 1 (by decide))⟩,
      hthird.mpr (hall 2 (by decide))⟩, hfourth.mpr (hall 3 (by decide))⟩

/-- The first chunk that the query looks at exists when none of its blocks is refused. -/
theorem exists_refused (hle : c.lower ≤ c.upper) (hupper : 256 ≤ c.upper)
    (hslot : slot c.otherSets (c.chunkLower.getD 0) = none) :
    ∃ j, c.Scanned j ∧ Refused h c j := by
  obtain ⟨a, ha, hlower, haupper, hchunk⟩ : ∃ a, 256 ≤ a ∧ c.lower ≤ a ∧ a ≤ c.upper ∧
      chunkIndex a = c.chunkLower.getD 0 := by
    rw [chunkLower]
    split_ifs with hlower
    · exact ⟨c.lower, Nat.le_of_lt hlower, Nat.le_refl _, hle, rfl⟩
    · exact ⟨256, Nat.le_refl _, Nat.le_of_not_lt hlower, hupper, rfl⟩
  have hdiv : a / 64 = (a - 256) / 64 + 4 := by omega
  have hword : word h c (a / 64) = 0 := by
    rw [hdiv, word, ← chunkIndex_eq, hchunk, hslot]
    rfl
  refine ⟨a / 64, Or.inr ⟨by omega, ?_⟩, ?_, Or.inr ⟨a, hlower, haupper, rfl, ?_⟩⟩
  · rw [hdiv, Nat.add_sub_cancel, ← chunkIndex_eq]
    exact hchunk
  · rw [hword]
    decide
  · rw [bit, hword]
    exact BitVec.getLsbD_zero

/-- The loop over the chunks looks at the same chunk again and again. -/
theorem Good.fullTurn_eq (hg : Good h c) (hle : c.lower ≤ c.upper) (hupper : 256 ≤ c.upper)
    {sets : List (Option Nat)} (hsets : c.otherSets = some sets) (hlow : ∀ j < 4, ¬Refused h c j) :
    ∃ b, fullTurn h c sets (c.chunkLower.getD 0) true = some b ∧
      (b = true ↔ ¬∃ j, c.Scanned j ∧ Refused h c j) := by
  have hlt : c.chunkLower.getD 0 < sets.length := by
    refine Nat.lt_of_le_of_lt ?_ (hg.2.length_le sets hsets)
    rw [chunkLower]
    split_ifs
    · exact chunkIndex_mono hle
    · exact Nat.zero_le _
  have hget := getElem?_eq_getElem hlt
  have hslot : slot c.otherSets (c.chunkLower.getD 0) = sets[c.chunkLower.getD 0] := by
    rw [hsets]
    exact slot_of_getElem? hget
  rw [fullTurn, hget, ← hslot]
  cases hk : slot c.otherSets (c.chunkLower.getD 0) with
  | none =>
      exact ⟨false, rfl, iff_of_false Bool.false_ne_true
        (not_not.mpr (exists_refused hle hupper hk))⟩
  | some k =>
      obtain ⟨b, hrun, hb⟩ := hg.fullChunk_eq hle hupper rfl hk
      have hne : ¬(h.sets k).length = 0 := by
        rw [(hg.2.chunk _ k hk).2.2]
        decide
      refine ⟨b, (if_neg hne).trans hrun, hb.trans ⟨?_, fun hnone j hj hrefused => ?_⟩⟩
      · rintro hall ⟨j, hj | ⟨hj, hchunk⟩, hrefused⟩
        · exact hlow j hj hrefused
        · refine hall ((j - 4) % chunkSize) (Nat.mod_lt _ (by decide)) ?_
          rw [← hchunk, Nat.div_add_mod, Nat.sub_add_cancel hj]
          exact hrefused
      · exact hnone ⟨_, Or.inr ⟨Nat.le_add_left _ _, div_chunkSize_add hj⟩, hrefused⟩

/-- A loop which ends when the result is false, and of which each turn does the same. -/
theorem loopUntil_flag {P f : Bool → Option Bool} {b : Bool} (hstop : ∀ b, P b = some (!b))
    (hturn : f true = some b) :
    (b = true → ∀ fuel, loopUntil P f fuel true = none) ∧
      (b = false → loopUntil P f 2 true = some false ∧
        ∀ fuel b', loopUntil P f fuel true = some b' → b' = false) := by
  have hgo : P true = some false := hstop true
  have hend : P false = some true := hstop false
  refine ⟨?_, ?_⟩
  · rintro rfl fuel
    refine loopUntil_eq_none (fun b => b = true) ?_ ?_ rfl
    · rintro _ rfl
      exact hgo
    · rintro _ rfl
      exact Or.inr ⟨true, hturn, rfl⟩
  · rintro rfl
    have hfalse : ∀ fuel, loopUntil P f (fuel + 2) true = some false := fun fuel => by
      rw [loopUntil_of_go hgo hturn, loopUntil_of_stop hend]
    refine ⟨hfalse 0, fun fuel b' hb => ?_⟩
    match fuel with
    | 0 => exact nomatch hb
    | 1 =>
        rw [loopUntil_of_go hgo hturn] at hb
        exact nomatch hb
    | fuel + 2 => exact (Option.some.inj ((hfalse fuel).symm.trans hb)).symm

/-- What the query answers, when it ends. -/
theorem Good.isFull_cases (hg : Good h c) (hle : c.lower ≤ c.upper) :
    ((∃ j, c.Scanned j ∧ Refused h c j) →
      (∃ fuel, isFull fuel h c = some false) ∧ ∀ fuel b, isFull fuel h c = some b → b = false) ∧
    ((¬∃ j, c.Scanned j ∧ Refused h c j) → ∀ fuel,
      isFull fuel h c = if c.upper < 256 then some true else none) := by
  by_cases hlow : ∀ j < 4, ¬Refused h c j
  · have hresult := fullSets_iff.mpr hlow
    rcases Nat.lt_or_ge c.upper 256 with hlt | hupper
    · have hrun : ∀ fuel, isFull fuel h c = some true := fun fuel => by
        rw [isFull, hresult]
        exact if_neg fun hand => Nat.not_le_of_lt hlt hand.2
      refine ⟨?_, fun _ fuel => (hrun fuel).trans (if_pos hlt).symm⟩
      rintro ⟨j, hj | ⟨hj, -⟩, hrefused⟩
      · exact absurd hrefused (hlow j hj)
      · exact absurd hrefused (not_refused_of_apart hj (Or.inr (by omega)))
    · have hge : ¬c.upper < 256 := Nat.not_lt_of_le hupper
      cases hsets : c.otherSets with
      | none =>
          have hrun : ∀ fuel, isFull fuel h c = some false := fun fuel => by
            rw [isFull, hresult, hsets]
            exact if_pos ⟨rfl, hupper⟩
          refine ⟨fun _ => ⟨⟨0, hrun 0⟩, fun fuel b hb => ?_⟩, fun hnone => ?_⟩
          · exact (Option.some.inj ((hrun fuel).symm.trans hb)).symm
          · exact absurd (exists_refused hle hupper (by rw [hsets]; rfl)) hnone
      | some sets =>
          obtain ⟨b, hturn, hb⟩ := hg.fullTurn_eq hle hupper hsets hlow
          have hindex : ¬chunkIndex c.upper < c.chunkLower.getD 0 := by
            rw [chunkLower]
            split_ifs
            · exact Nat.not_lt_of_le (chunkIndex_mono hle)
            · exact Nat.not_lt_zero _
          have hstop : ∀ b, (fun result => some (!result ||
              decide (chunkIndex c.upper < c.chunkLower.getD 0))) b = some (!b) := fun b => by
            rw [decide_eq_false hindex]
            cases b <;> rfl
          have hrun : ∀ fuel, isFull fuel h c = loopUntil (fun result => some (!result ||
              decide (chunkIndex c.upper < c.chunkLower.getD 0)))
              (fullTurn h c sets (c.chunkLower.getD 0)) fuel true := fun fuel => by
            rw [isFull, hresult, hsets]
            exact if_pos ⟨rfl, hupper⟩
          obtain ⟨htrue, hfalse⟩ := loopUntil_flag hstop hturn
          cases b with
          | true =>
              refine ⟨fun hex => absurd hex (hb.mp rfl), fun _ fuel => ?_⟩
              rw [hrun, if_neg hge, htrue rfl]
          | false =>
              obtain ⟨htwo, hall⟩ := hfalse rfl
              exact ⟨fun _ => ⟨⟨2, (hrun 2).trans htwo⟩, fun fuel b hb =>
                hall fuel b ((hrun fuel).symm.trans hb)⟩,
                fun hnone => absurd (hb.mpr hnone) Bool.false_ne_true⟩
  · have hresult := Bool.eq_false_iff.mpr (mt fullSets_iff.mp hlow)
    have hrun : ∀ fuel, isFull fuel h c = some false := fun fuel => by
      rw [isFull, hresult]
      exact if_neg fun hand => Bool.false_ne_true hand.1
    refine ⟨fun _ => ⟨⟨0, hrun 0⟩, fun fuel b hb => ?_⟩, fun hnone => absurd ?_ hlow⟩
    · exact (Option.some.inj ((hrun fuel).symm.trans hb)).symm
    · exact fun j hj hrefused => hnone ⟨j, Or.inl hj, hrefused⟩

/-- All symbols between the bounds have been added. -/
def AllAdded (h : Chunks) (c : SymbolClass) : Prop :=
  ∀ a, c.lower ≤ a → a ≤ c.upper → c.added h a = some true

/-- The query ends, and says whether all symbols have been added. -/
def SaysFull (h : Chunks) (c : SymbolClass) : Prop :=
  ∃ fuel b, isFull fuel h c = some b ∧ (b = true ↔ AllAdded h c)

/-- The classes of which the query says the truth. -/
def FullAnswered (h : Chunks) (c : SymbolClass) : Prop :=
  AllAdded h c ∧ c.upper < 256 ∧ (∀ j < 4, ¬c.Inner j) ∨
    ¬AllAdded h c ∧ ∃ j, c.Scanned j ∧ Refused h c j

theorem ones_ne_of_bits (hbits : ∀ i < 64, w.getLsbD i = true) : w ≠ ones := by
  rintro rfl
  exact absurd (hbits 32 (by decide)) (by decide)

theorem Good.saysFull_iff (hg : Good h c) (hle : c.lower ≤ c.upper) :
    SaysFull h c ↔ FullAnswered h c := by
  obtain ⟨hrefused, hnot⟩ := hg.isFull_cases hle
  have hbits : AllAdded h c → ∀ a, c.lower ≤ a → a ≤ c.upper → bit h c a = true := by
    intro hall a hlower hupper
    have ha := hall a hlower hupper
    rw [hg.added_eq hupper, Option.some.injEq, Bool.and_eq_true] at ha
    exact ha.2
  by_cases hex : ∃ j, c.Scanned j ∧ Refused h c j
  · obtain ⟨⟨fuel, hrun⟩, hfalse⟩ := hrefused hex
    constructor
    · rintro ⟨fuel, b, hb, hiff⟩
      obtain rfl := hfalse fuel b hb
      exact Or.inr ⟨fun hall => Bool.false_ne_true (hiff.mpr hall), hex⟩
    · rintro (⟨hall, hlt, hinner⟩ | ⟨hall, -⟩)
      · obtain ⟨j, hj, -, hor⟩ := hex
        rcases hj with hj | ⟨hj, -⟩
        · rcases hor with hin | ⟨a, hlower, hupper, -, hbit⟩
          · exact absurd hin (hinner j hj)
          · exact absurd (hbits hall a hlower hupper) (by rw [hbit]; exact Bool.false_ne_true)
        · rcases hor with hin | ⟨a, hlower, hupper, haj, -⟩
          · rw [inner_of_le hj] at hin
            omega
          · omega
      · exact ⟨fuel, false, hrun, iff_of_false Bool.false_ne_true hall⟩
  · have hrun := hnot hex
    constructor
    · rintro ⟨fuel, b, hb, hiff⟩
      rw [hrun] at hb
      split_ifs at hb with hlt
      obtain rfl := Option.some.inj hb
      have hall := hiff.mp rfl
      refine Or.inl ⟨hall, hlt, fun j hj hin => hex ⟨j, Or.inl hj, ?_, Or.inl hin⟩⟩
      rw [Inner, if_pos hj] at hin
      refine ones_ne_of_bits fun i hi => ?_
      have hbit := hbits hall (64 * j + i) (by omega) (by omega)
      rwa [bit, show (64 * j + i) / 64 = j by omega, show (64 * j + i) % 64 = i by omega] at hbit
    · rintro (⟨hall, hlt, -⟩ | ⟨-, hex'⟩)
      · exact ⟨0, true, by rw [hrun, if_pos hlt], iff_of_true rfl hall⟩
      · exact absurd hex' hex

end SymbolClass

end Gobo
