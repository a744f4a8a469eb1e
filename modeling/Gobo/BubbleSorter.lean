/-
Bubble sort (`DS_BUBBLE_SORTER`): items that are next to each other change places as long
as the second one is less, so that equivalent items keep their order.
-/
import Gobo.Indexable
import Gobo.Loop

namespace Gobo

open Function

universe u

variable {G : Type u}

/-- `g` has the items of `f`, moved within `lower`..`upper`, and an item has come before
another one that was before it only if it is less. -/
def StablyPermutes (less : G → G → Bool) (lower upper : Int) (f g : Int → G) : Prop :=
  ∃ p : Equiv.Perm Int, (∀ i, i < lower ∨ upper < i → p i = i) ∧ (∀ i, g i = f (p i)) ∧
    ∀ i j, i < j → p j < p i → less (g i) (g j) = true

section

variable {less : G → G → Bool} {lower upper upper' i j : Int} {f g h : Int → G}

theorem StablyPermutes.permutes (hfg : StablyPermutes less lower upper f g) :
    Permutes lower upper f g := by
  obtain ⟨p, hp, hg, -⟩ := hfg
  exact ⟨p, hp, hg⟩

theorem StablyPermutes.refl (less : G → G → Bool) (lower upper : Int) (f : Int → G) :
    StablyPermutes less lower upper f f :=
  ⟨Equiv.refl Int, fun _ _ => rfl, fun _ => rfl, fun _ _ hij hji => absurd hji (by simp; omega)⟩

theorem StablyPermutes.trans (hfg : StablyPermutes less lower upper f g)
    (hgh : StablyPermutes less lower upper g h) : StablyPermutes less lower upper f h := by
  obtain ⟨p, hp, hg, hpless⟩ := hfg
  obtain ⟨q, hq, hh, hqless⟩ := hgh
  refine ⟨q.trans p, fun i hi => ?_, fun i => ?_, fun i j hij hji => ?_⟩
  · rw [Equiv.trans_apply, hq i hi, hp i hi]
  · rw [hh, hg, Equiv.trans_apply]
  · rcases Int.lt_or_le (q j) (q i) with hlt | hle
    · exact hqless i j hij hlt
    · have hne : q i ≠ q j := fun heq => Int.ne_of_lt hij (q.injective heq)
      rw [hh, hh]
      exact hpless (q i) (q j) (Int.lt_iff_le_and_ne.mpr ⟨hle, hne⟩) hji

theorem StablyPermutes.mono (h : StablyPermutes less lower upper f g) (hupper : upper ≤ upper') :
    StablyPermutes less lower upper' f g := by
  obtain ⟨p, hp, hg, hless⟩ := h
  exact ⟨p, fun i hi => hp i (by omega), hg, hless⟩

/-- Two neighbors change places, of which the second one is less. -/
theorem stablyPermutes_flip (hlower : lower ≤ j) (hupper : j < upper)
    (hless : less (f (j + 1)) (f j) = true) :
    StablyPermutes less lower upper f
      (update (update f j (f (j + 1))) (j + 1) (f j)) := by
  refine ⟨Equiv.swap j (j + 1), fun k hk => ?_, fun k => ?_, fun k l hkl hlk => ?_⟩
  · exact Equiv.swap_apply_of_ne_of_ne (by omega) (by omega)
  · rw [Equiv.swap_apply_def]
    split_ifs with hkj hkj'
    · rw [hkj, update_of_ne (by omega), update_self]
    · rw [hkj', update_self]
    · rw [update_of_ne hkj', update_of_ne hkj]
  · have hboth : k = j ∧ l = j + 1 := by
      rw [Equiv.swap_apply_def, Equiv.swap_apply_def] at hlk
      split_ifs at hlk <;> omega
    rw [hboth.1, hboth.2, update_of_ne (by omega), update_self, update_self]
    exact hless

end

namespace BubbleSorter

/-- One turn of the inner loop: `j`, `flipped` and the container. -/
def flip (less : G → G → Bool) : Int × Bool × Indexable G → Option (Int × Bool × Indexable G)
  | (j, flipped, a) => do
      let v1 ← a.item j
      let v2 ← a.item (j + 1)
      if less v2 v1 then
        let a ← a.replace v2 j
        let a ← a.replace v1 (j + 1)
        some (j + 1, true, a)
      else some (j + 1, flipped, a)

/-- The inner loop. -/
def flipAll (less : G → G → Bool) (lower i : Int) (s : Bool × Indexable G) :
    Option (Bool × Indexable G) :=
  (loopUntil (fun s => some (decide (i ≤ s.1))) (flip less) ((i - lower).toNat + 1)
    (lower, s)).map Prod.snd

/-- One turn of the outer loop: `i`, `flipped` and the container. -/
def nextPass (less : G → G → Bool) (lower : Int) :
    Int × Bool × Indexable G → Option (Int × Bool × Indexable G)
  | (i, s) => (flipAll less lower i s).map fun t =>
      if t.1 then (i - 1, false, t.2) else (lower, t)

/-- `subsort_with_comparator`. -/
def subsort (less : G → G → Bool) (a : Indexable G) (lower upper : Int) :
    Option (Indexable G) :=
  (loopUntil (fun s => some (decide (s.1 ≤ lower))) (nextPass less lower)
    ((upper - lower).toNat + 1) (upper, false, a)).map fun s => s.2.2

section

variable {less : G → G → Bool} {lower upper i j : Int} {a : Indexable G} {f g : Int → G}

/-- What the inner loop keeps: the item at `j` is not less than those before it, and they
are sorted if none has changed its place. -/
structure Bubbling (less : G → G → Bool) (lower i : Int) (a : Indexable G)
    (s : Int × Bool × Indexable G) : Prop where
  lower_le : lower ≤ s.1
  le_upper : s.1 ≤ i
  items : ∃ g, s.2.2 = a.withItems g ∧ StablyPermutes less lower i a.items g ∧
    (∀ k, lower ≤ k → k < s.1 → less (g s.1) (g k) = false) ∧
    (s.2.1 = false → IsSorted less lower s.1 g)

theorem Bubbling.turn (hless : IsStrictWeakOrder G fun x y => less x y = true)
    (hfirst : a.first ≤ lower) (hlast : i ≤ a.last) {s : Int × Bool × Indexable G}
    (h : Bubbling less lower i a s) (hs : ¬i ≤ s.1) :
    ∃ s', flip less s = some s' ∧ s'.1 = s.1 + 1 ∧ Bubbling less lower i a s' := by
  obtain ⟨j, flipped, b⟩ := s
  obtain ⟨hlower, hupper, g, rfl, hperm, hmax, hsorted⟩ := h
  dsimp only at hlower hupper hmax hsorted hs
  have hin : a.first ≤ j ∧ j ≤ a.last := by omega
  have hin' : a.first ≤ j + 1 ∧ j + 1 ≤ a.last := by omega
  have hj : (a.withItems g).item j = some (g j) := Indexable.item_eq hin
  have hj' : (a.withItems g).item (j + 1) = some (g (j + 1)) := Indexable.item_eq hin'
  rw [flip, hj, hj', some_bind, some_bind]
  split
  case isTrue hlt =>
      have hput : (a.withItems g).replace (g (j + 1)) j =
          some (a.withItems (update g j (g (j + 1)))) := Indexable.replace_eq hin
      have hput' : (a.withItems (update g j (g (j + 1)))).replace (g j) (j + 1) =
          some (a.withItems (update (update g j (g (j + 1))) (j + 1) (g j))) :=
        Indexable.replace_eq hin'
      rw [hput, some_bind, hput', some_bind]
      refine ⟨_, rfl, rfl, by dsimp only; omega, by dsimp only; omega, _, rfl,
        hperm.trans (stablyPermutes_flip hlower (by omega) hlt), fun k hk hkj => ?_, by simp⟩
      dsimp only at hkj ⊢
      rw [update_self, update_of_ne (by omega)]
      by_cases hkj' : k = j
      · rw [hkj', update_self]
        exact notLess_of_less hless hlt
      · rw [update_of_ne hkj']
        exact hmax k hk (by omega)
  case isFalse hge =>
      have hnot : less (g (j + 1)) (g j) = false := Bool.eq_false_iff.mpr hge
      have hnext : ∀ k, lower ≤ k → k < j + 1 → less (g (j + 1)) (g k) = false := by
        intro k hk hkj
        by_cases hkj' : k = j
        · exact hkj' ▸ hnot
        · exact notLess_trans hless (hmax k hk (by omega)) hnot
      refine ⟨_, rfl, rfl, by dsimp only; omega, by dsimp only; omega, g, rfl, hperm, hnext,
        fun hflipped k l hk hkl hl => ?_⟩
      dsimp only at hl
      by_cases hlj : l = j + 1
      · exact hlj ▸ hnext k hk (by omega)
      · exact hsorted hflipped k l hk hkl (by omega)

theorem flipAll_eq (hless : IsStrictWeakOrder G fun x y => less x y = true)
    (hfirst : a.first ≤ lower) (hlast : i ≤ a.last) (hi : lower ≤ i) :
    ∃ flipped g, flipAll less lower i (false, a) = some (flipped, a.withItems g) ∧
      StablyPermutes less lower i a.items g ∧
      (∀ k, lower ≤ k → k < i → less (g i) (g k) = false) ∧
      (flipped = false → IsSorted less lower i g) := by
  have hstart : Bubbling less lower i a (lower, false, a) :=
    ⟨Int.le_refl _, hi, a.items, rfl, StablyPermutes.refl less lower i a.items,
      fun k hk hkl => absurd hkl (by dsimp only; omega),
      fun _ k l hk hkl hl => absurd hl (by dsimp only; omega)⟩
  have hturn : ∀ s, Bubbling less lower i a s → ¬i ≤ s.1 → ∃ s', flip less s = some s' ∧
      (i - s'.1).toNat < (i - s.1).toNat ∧ Bubbling less lower i a s' := by
    intro s hs hi
    obtain ⟨s', hrun, heq, hs'⟩ := hs.turn hless hfirst hlast hi
    exact ⟨s', hrun, by omega, hs'⟩
  obtain ⟨⟨j, flipped, b⟩, hrun, ⟨-, hji, g, rfl, hperm, hmax, hsorted⟩, hij⟩ := loopUntil_decide
    (Bubbling less lower i a) (fun s => (i - s.1).toNat) hturn hstart
    (by dsimp only; omega : _ < (i - lower).toNat + 1)
  obtain rfl : j = i := Int.le_antisymm hji hij
  exact ⟨flipped, g, by rw [flipAll, hrun, Option.map_some], hperm, hmax, hsorted⟩

/-- What the outer loop keeps: every item after `i` is in its place. -/
structure Sorting (less : G → G → Bool) (lower upper : Int) (a : Indexable G)
    (s : Int × Bool × Indexable G) : Prop where
  le_upper : s.1 ≤ upper
  flipped : s.2.1 = false
  items : ∃ g, s.2.2 = a.withItems g ∧ StablyPermutes less lower upper a.items g ∧
    ∀ k l, lower ≤ k → k < l → s.1 < l → l ≤ upper → less (g l) (g k) = false

theorem Sorting.turn (hless : IsStrictWeakOrder G fun x y => less x y = true)
    (hfirst : a.first ≤ lower) (hlast : upper ≤ a.last) {s : Int × Bool × Indexable G}
    (h : Sorting less lower upper a s) (hs : ¬s.1 ≤ lower) :
    ∃ s', nextPass less lower s = some s' ∧ s'.1 < s.1 ∧ Sorting less lower upper a s' := by
  obtain ⟨i, flipped, b⟩ := s
  obtain ⟨hi, rfl, g, rfl, hperm, hafter⟩ := h
  dsimp only at hi hafter hs
  have hlast' : i ≤ (a.withItems g).last := Int.le_trans hi hlast
  obtain ⟨flipped, g', hrun, hperm', hmax, hsorted⟩ :=
    flipAll_eq (a := a.withItems g) hless hfirst hlast' (by omega)
  have hstable := hperm.trans (hperm'.mono hi)
  -- The pass moves no item beyond `i`.
  have hkept : ∀ k l, lower ≤ k → k < l → i < l → l ≤ upper → less (g' l) (g' k) = false := by
    intro k l hk hkl hil hl
    rw [hperm'.permutes.outside (Or.inr hil)]
    rcases Int.lt_or_le i k with hik | hki
    · rw [hperm'.permutes.outside (Or.inr hik)]
      exact hafter k l hk hkl hil hl
    · obtain ⟨m, hm, heq⟩ := hperm'.permutes.exists_index ⟨hk, hki⟩
      rw [heq]
      exact hafter m l hm.1 (by omega) hil hl
  rw [nextPass, hrun, Option.map_some]
  cases flipped with
  | true =>
      refine ⟨(i - 1, false, a.withItems g'), rfl, by dsimp only; omega, by dsimp only; omega, rfl,
        g', rfl, hstable, fun k l hk hkl hil hl => ?_⟩
      dsimp only at hil
      by_cases hli : l = i
      · exact hli ▸ hmax k hk (hli ▸ hkl)
      · exact hkept k l hk hkl (by omega) hl
  | false =>
      refine ⟨(lower, false, a.withItems g'), rfl, by dsimp only; omega, by dsimp only; omega, rfl,
        g', rfl, hstable, fun k l hk hkl _ hl => ?_⟩
      rcases Int.lt_or_le i l with hil | hli
      · exact hkept k l hk hkl hil hl
      · exact hsorted rfl k l hk hkl hli

end

/-- Any slice is sorted, with no access to an invalid index, and items of which neither is
less than the other keep their order. -/
theorem bubbleSort_sorts {less : G → G → Bool}
    (hless : IsStrictWeakOrder G fun x y => less x y = true) (a : Indexable G) {lower upper : Int}
    (hfirst : a.first ≤ lower) (hlast : upper ≤ a.last) :
    ∃ g, subsort less a lower upper = some (a.withItems g) ∧
      Subsorted less lower upper a.items g ∧ StablyPermutes less lower upper a.items g := by
  have hstart : Sorting less lower upper a (upper, false, a) :=
    ⟨Int.le_refl _, rfl, a.items, rfl, StablyPermutes.refl less lower upper a.items,
      fun k l hk hkl hil hl => absurd hil (by dsimp only; omega)⟩
  have hturn : ∀ s, Sorting less lower upper a s → ¬s.1 ≤ lower →
      ∃ s', nextPass less lower s = some s' ∧ (s'.1 - lower).toNat < (s.1 - lower).toNat ∧
        Sorting less lower upper a s' := by
    intro s hs hi
    obtain ⟨s', hrun, hlt, hs'⟩ := hs.turn hless hfirst hlast hi
    exact ⟨s', hrun, by omega, hs'⟩
  obtain ⟨s, hrun, ⟨-, -, g, hg, hperm, hsorted⟩, hdone⟩ := loopUntil_decide
    (Sorting less lower upper a) (fun s => (s.1 - lower).toNat) hturn hstart
    (by dsimp only; omega : _ < (upper - lower).toNat + 1)
  refine ⟨g, ?_, ⟨fun k l hk hkl hl => hsorted k l hk hkl (by omega) hl,
    hperm.permutes.slice_perm, fun i hi => hperm.permutes.outside hi⟩, hperm⟩
  rw [subsort, hrun, Option.map_some, hg]

theorem bubbleSort_sorts_three : ∃ g,
    subsort (fun x y : Int => decide (x < y)) ⟨1, 3, fun i => -i⟩ 1 3 = some ⟨1, 3, g⟩ ∧
      g 1 ≤ g 2 := by
  obtain ⟨g, hrun, hsorted, -⟩ := bubbleSort_sorts strictWeak_lt ⟨1, 3, fun i => -i⟩
    (Int.le_refl 1) (Int.le_refl 3)
  refine ⟨g, hrun, ?_⟩
  have hnot := hsorted.sorted 1 2 (by omega) (by omega) (by omega)
  exact Int.not_lt.mp (of_decide_eq_false hnot)

end BubbleSorter

end Gobo
