/-
Shell sort (`DS_SHELL_SORTER`): the last pass is an insertion sort, whatever the passes
before it have done.
-/
import Gobo.Indexable
import Gobo.Integer32
import Gobo.Loop

namespace Gobo

open Function

universe u

variable {G : Type u}

namespace ShellSorter

section

variable (less : G → G → Bool)

/-- The item at `j + gap` goes down by `gap`, or stays where it is. -/
def insert (lower gap : Int) : Int × Indexable G → Option (Int × Indexable G)
  | (j, a) => do
      let jg := int32 (j + gap)
      let v1 ← a.item j
      let v2 ← a.item jg
      if less v2 v1 then
        let a ← a.replace v2 j
        let a ← a.replace v1 jg
        some (int32 (j - gap), a)
      else some (lower - 1, a)

/-- The innermost loop. -/
def insertAll (lower gap i : Int) (a : Indexable G) : Option (Indexable G) :=
  (loopUntil (fun s => some (decide (s.1 < lower))) (insert less lower gap)
    ((i - lower).toNat + 2) (int32 (i - gap), a)).map Prod.snd

/-- One turn of the loop around it. -/
def insertNext (lower gap : Int) : Int × Indexable G → Option (Int × Indexable G)
  | (i, a) => (insertAll less lower gap i a).map fun b => (int32 (i + 1), b)

/-- The items that are `gap` indexes apart. -/
def pass (lower upper gap : Int) (a : Indexable G) : Option (Indexable G) :=
  (loopUntil (fun s => some (decide (upper < s.1))) (insertNext less lower gap)
    ((upper - lower).toNat + 2) (lower + gap, a)).map Prod.snd

/-- One turn of the outermost loop. -/
def nextPass (lower upper : Int) : Int × Indexable G → Option (Int × Indexable G)
  | (gap, a) => (pass less lower upper gap a).map fun b => (gap / 2, b)

/-- `subsort_with_comparator`. -/
def subsort (a : Indexable G) (lower upper : Int) : Option (Indexable G) :=
  if lower < upper then
    (loopUntil (fun s => some (decide (s.1 ≤ 0))) (nextPass less lower upper)
      ((upper - lower).toNat + 2) ((upper - lower + 1) / 2, a)).map Prod.snd
  else some a

end

/-- The items up to `i` are sorted, but for the one at `k`, which is not greater than
those after it. -/
structure SortedBut (less : G → G → Bool) (lower i k : Int) (f : Int → G) : Prop where
  others : ∀ p q, lower ≤ p → p < q → q ≤ i → p ≠ k → q ≠ k → less (f q) (f p) = false
  after : ∀ q, k < q → q ≤ i → less (f q) (f k) = false

section

variable {less : G → G → Bool} {lower upper gap i j k : Int} {a : Indexable G} {f g : Int → G}

theorem SortedBut.first (h : SortedBut less lower i lower f) : IsSorted less lower i f := by
  intro p q hp hpq hq
  by_cases hlower : p = lower
  · exact hlower ▸ h.after q (hlower ▸ hpq) hq
  · exact h.others p q hp hpq hq hlower (by omega)

/-- The item is in its place. -/
theorem SortedBut.stop (hless : IsStrictWeakOrder G fun x y => less x y = true)
    (h : SortedBut less lower i (j + 1) f) (hle : less (f (j + 1)) (f j) = false) :
    IsSorted less lower i f := by
  intro p q hp hpq hq
  by_cases hpj : p = j + 1
  · exact hpj ▸ h.after q (hpj ▸ hpq) hq
  · by_cases hqj : q = j + 1
    · subst hqj
      by_cases hpj' : p = j
      · exact hpj' ▸ hle
      · exact notLess_trans hless (h.others p j hp (by omega) (by omega) hpj (by omega)) hle
    · exact h.others p q hp hpq hq hpj hqj

/-- The item goes down by one. -/
theorem SortedBut.down (hless : IsStrictWeakOrder G fun x y => less x y = true)
    (h : SortedBut less lower i (j + 1) f) (hj : lower ≤ j) (hji : j + 1 ≤ i)
    (hlt : less (f (j + 1)) (f j) = true) :
    SortedBut less lower i j (update (update f j (f (j + 1))) (j + 1) (f j)) := by
  have hself : update (update f j (f (j + 1))) (j + 1) (f j) j = f (j + 1) := by
    rw [update_of_ne (by omega), update_self]
  have hnext : update (update f j (f (j + 1))) (j + 1) (f j) (j + 1) = f j :=
    update_self _ _ _
  have hother : ∀ p, p ≠ j → p ≠ j + 1 →
      update (update f j (f (j + 1))) (j + 1) (f j) p = f p := by
    intro p hpj hpj'
    rw [update_of_ne hpj', update_of_ne hpj]
  refine ⟨fun p q hp hpq hq hpj hqj => ?_, fun q hjq hq => ?_⟩
  · by_cases hp' : p = j + 1
    · rw [hp', hnext, hother q hqj (by omega)]
      exact h.others j q hj (by omega) hq (by omega) (by omega)
    · by_cases hq' : q = j + 1
      · rw [hq', hnext, hother p hpj hp']
        exact h.others p j hp (by omega) (by omega) hp' (by omega)
      · rw [hother p hpj hp', hother q hqj hq']
        exact h.others p q hp hpq hq hp' hq'
  · rw [hself]
    by_cases hq' : q = j + 1
    · rw [hq', hnext]
      exact notLess_of_less hless hlt
    · rw [hother q (by omega) hq']
      exact h.after q (by omega) hq

/-- What the innermost loop keeps. -/
structure Inserting (less : G → G → Bool) (lower i gap : Int) (a : Indexable G)
    (s : Int × Indexable G) : Prop where
  index_le : s.1 + gap ≤ i
  items : ∃ g, s.2 = a.withItems g ∧ Permutes lower i a.items g ∧
    (gap = 1 → if lower ≤ s.1 then SortedBut less lower i (s.1 + 1) g else IsSorted less lower i g)

theorem Inserting.turn (hless : IsStrictWeakOrder G fun x y => less x y = true)
    (hlower : 1 ≤ lower) (hupper : i < 2 ^ 31) (hfirst : a.first ≤ lower) (hlast : i ≤ a.last)
    (hgap : 0 < gap) (hi : lower ≤ i) {s : Int × Indexable G}
    (h : Inserting less lower i gap a s) (hs : lower ≤ s.1) :
    ∃ s', insert less lower gap s = some s' ∧ s'.1 < s.1 ∧ Inserting less lower i gap a s' := by
  obtain ⟨j, b⟩ := s
  obtain ⟨hle, g, rfl, hperm, hsorted⟩ := h
  dsimp only at hle hs hsorted
  have hin : a.first ≤ j ∧ j ≤ a.last := by omega
  have hin' : a.first ≤ j + gap ∧ j + gap ≤ a.last := by omega
  have hj : (a.withItems g).item j = some (g j) := Indexable.item_eq hin
  have hjg : (a.withItems g).item (j + gap) = some (g (j + gap)) := Indexable.item_eq hin'
  have hup : int32 (j + gap) = j + gap := int32_of_mem (by omega) (by omega)
  have hdown : int32 (j - gap) = j - gap := int32_of_mem (by omega) (by omega)
  rw [insert, hup, hdown, hj, hjg, some_bind, some_bind]
  split
  case isTrue hlt =>
      have hput : (a.withItems g).replace (g (j + gap)) j =
          some (a.withItems (update g j (g (j + gap)))) := Indexable.replace_eq hin
      have hput' : (a.withItems (update g j (g (j + gap)))).replace (g j) (j + gap) =
          some (a.withItems (update (update g j (g (j + gap))) (j + gap) (g j))) :=
        Indexable.replace_eq hin'
      rw [hput, some_bind, hput', some_bind]
      refine ⟨_, rfl, by dsimp only; omega, by dsimp only; omega, _, rfl,
        hperm.trans (permutes_swap (by omega) (by omega) g), fun hone => ?_⟩
      subst hone
      have hsorted := hsorted rfl
      rw [if_pos hs] at hsorted
      have hdown := hsorted.down hless hs hle hlt
      rw [Int.sub_add_cancel]
      split
      case isTrue => exact hdown
      case isFalse hlower =>
          obtain rfl : j = lower := by omega
          exact hdown.first
  case isFalse hge =>
      refine ⟨_, rfl, by dsimp only; omega, by dsimp only; omega, g, rfl, hperm, fun hone => ?_⟩
      subst hone
      have hsorted := hsorted rfl
      rw [if_pos hs] at hsorted
      rw [if_neg (by dsimp only; omega)]
      exact hsorted.stop hless (Bool.eq_false_iff.mpr hge)

theorem insertAll_eq (hless : IsStrictWeakOrder G fun x y => less x y = true)
    (hfrom : 1 ≤ lower) (hupper : i < 2 ^ 31) (hfirst : a.first ≤ lower) (hlast : i ≤ a.last)
    (hgap : 0 < gap) (hi : lower + gap ≤ i)
    (hsorted : gap = 1 → IsSorted less lower (i - 1) a.items) :
    ∃ g, insertAll less lower gap i a = some (a.withItems g) ∧ Permutes lower i a.items g ∧
      (gap = 1 → IsSorted less lower i g) := by
  have hstart : Inserting less lower i gap a (i - gap, a) := by
    refine ⟨by dsimp only; omega, a.items, rfl, Permutes.refl _ _ _, fun hone => ?_⟩
    subst hone
    rw [if_pos (by dsimp only; omega), Int.sub_add_cancel]
    exact ⟨fun p q hp hpq hq hpi hqi => hsorted rfl p q hp hpq (by omega),
      fun q hiq hq => absurd hiq (by omega)⟩
  have hturn : ∀ s, Inserting less lower i gap a s → ¬s.1 < lower →
      ∃ s', insert less lower gap s = some s' ∧
        (s'.1 - lower + 1).toNat < (s.1 - lower + 1).toNat ∧ Inserting less lower i gap a s' := by
    intro s hs hlower
    obtain ⟨s', hrun, hlt, hs'⟩ :=
      hs.turn hless hfrom hupper hfirst hlast hgap (by omega) (by omega)
    exact ⟨s', hrun, by omega, hs'⟩
  obtain ⟨s, hrun, ⟨-, g, hg, hperm, hdone⟩, hlower⟩ := loopUntil_decide
    (Inserting less lower i gap a) (fun s => (s.1 - lower + 1).toNat) hturn hstart
    (by dsimp only; omega : _ < (i - lower).toNat + 2)
  refine ⟨g, ?_, hperm, fun hone => ?_⟩
  · have hdown : int32 (i - gap) = i - gap := int32_of_mem (by omega) (by omega)
    rw [insertAll, hdown, hrun, Option.map_some, hg]
  · have hdone := hdone hone
    rwa [if_neg (by omega)] at hdone

/-- What a pass keeps. -/
structure Passing (less : G → G → Bool) (lower upper gap : Int) (a : Indexable G)
    (s : Int × Indexable G) : Prop where
  lower_le : lower + gap ≤ s.1
  le_upper : s.1 ≤ upper + 1
  items : ∃ g, s.2 = a.withItems g ∧ Permutes lower upper a.items g ∧
    (gap = 1 → IsSorted less lower (s.1 - 1) g)

theorem Passing.turn (hless : IsStrictWeakOrder G fun x y => less x y = true)
    (hlower : 1 ≤ lower) (hmaximum : upper < 2 ^ 31) (hfirst : a.first ≤ lower)
    (hlast : upper ≤ a.last) (hgap : 0 < gap) {s : Int × Indexable G}
    (h : Passing less lower upper gap a s) (hs : s.1 ≤ upper) :
    ∃ b, insertNext less lower gap s = some (int32 (s.1 + 1), b) ∧
      Passing less lower upper gap a (s.1 + 1, b) := by
  obtain ⟨i, b⟩ := s
  obtain ⟨hlower_le, hupper, g, rfl, hperm, hsorted⟩ := h
  dsimp only at hlower_le hupper hsorted hs ⊢
  have hi : i ≤ (a.withItems g).last := Int.le_trans (by omega) hlast
  obtain ⟨g', hrun, hperm', hsorted'⟩ :=
    insertAll_eq (a := a.withItems g) hless hlower (by omega) hfirst hi hgap hlower_le hsorted
  rw [insertNext, hrun]
  refine ⟨_, rfl, by dsimp only; omega, by dsimp only; omega, g', rfl,
    hperm.trans (hperm'.mono (Int.le_refl _) (by omega)), fun hone => ?_⟩
  rw [Int.add_sub_cancel]
  exact hsorted' hone

theorem Passing.start (hupper : lower + gap ≤ upper + 1) :
    Passing less lower upper gap a (lower + gap, a) := by
  refine ⟨Int.le_refl _, hupper, a.items, rfl, Permutes.refl _ _ _, fun hone p q hp hpq hq => ?_⟩
  dsimp only at hq
  omega

theorem pass_eq (hless : IsStrictWeakOrder G fun x y => less x y = true)
    (hlower : 1 ≤ lower) (hmaximum : upper + 1 < 2 ^ 31) (hfirst : a.first ≤ lower)
    (hlast : upper ≤ a.last) (hgap : 0 < gap) (hupper : lower + gap ≤ upper + 1) :
    ∃ g, pass less lower upper gap a = some (a.withItems g) ∧ Permutes lower upper a.items g ∧
      (gap = 1 → IsSorted less lower upper g) := by
  have hturn : ∀ s, Passing less lower upper gap a s → ¬upper < s.1 →
      ∃ s', insertNext less lower gap s = some s' ∧
        (upper + 1 - s'.1).toNat < (upper + 1 - s.1).toNat ∧
          Passing less lower upper gap a s' := by
    intro s hs hi
    obtain ⟨b, hrun, hb⟩ :=
      hs.turn hless hlower (by omega) hfirst hlast hgap (by omega)
    have hlower_le := hs.lower_le
    rw [int32_of_mem (by omega) (by omega)] at hrun
    exact ⟨_, hrun, by dsimp only; omega, hb⟩
  obtain ⟨s, hrun, ⟨-, hi, g, hg, hperm, hsorted⟩, hdone⟩ := loopUntil_decide
    (Passing less lower upper gap a) (fun s => (upper + 1 - s.1).toNat) hturn
    (Passing.start hupper)
    (by dsimp only; omega : _ < (upper - lower).toNat + 2)
  refine ⟨g, ?_, hperm, fun hone => ?_⟩
  · rw [pass, hrun, Option.map_some, hg]
  · have hupper : s.1 - 1 = upper := by omega
    exact hupper ▸ hsorted hone

/-- The index is cut after the last one there is.  What is `gap` indexes before the cut one is
in the slice, but not the cut one itself. -/
theorem insertAll_cut (hfirst : 1 ≤ a.first) (hlower : 1 ≤ lower) (hgap : 0 < gap)
    (hupper : lower + gap ≤ 2 ^ 31) :
    insertAll less lower gap (int32 (2 ^ 31)) a = none := by
  have hcut : int32 (2 ^ 31) = -2 ^ 31 := rfl
  have hj : int32 (-2 ^ 31 - gap) = 2 ^ 31 - gap := by
    rw [int32, Int.bmod_def]
    omega
  have hfails : insert less lower gap (2 ^ 31 - gap, a) = none := by
    have hout : a.item (-2 ^ 31) = none := if_neg (by omega)
    rw [insert, Int.sub_add_cancel, hcut, hout]
    cases a.item (2 ^ 31 - gap) <;> rfl
  rw [insertAll, hcut, hj, loopUntil_of_fail ?_ hfails]
  · rfl
  · rw [decide_eq_false (by dsimp only; omega)]

/-- A pass over a slice that ends at the last index there is does not end. -/
theorem pass_eq_none (hless : IsStrictWeakOrder G fun x y => less x y = true) (hlower : 1 ≤ lower)
    (hmaximum : upper + 1 = 2 ^ 31) (hfrom : 1 ≤ a.first) (hfirst : a.first ≤ lower)
    (hlast : upper ≤ a.last) (hgap : 0 < gap) (hupper : lower + gap ≤ upper) :
    pass less lower upper gap a = none := by
  have hrun : ∀ fuel, loopUntil (fun s => some (decide (upper < s.1))) (insertNext less lower gap)
      fuel (lower + gap, a) = none := by
    intro fuel
    refine loopUntil_eq_none (fun s => Passing less lower upper gap a s ∧ s.1 ≤ upper ∨
      s.1 = int32 (2 ^ 31) ∧ 1 ≤ s.2.first) (fun s hs => ?_) (fun s hs => ?_)
      (Or.inl ⟨Passing.start (by omega), hupper⟩)
    · refine congrArg some (decide_eq_false ?_)
      rcases hs with ⟨-, hle⟩ | ⟨hcut, -⟩
      · omega
      · rw [hcut, show int32 (2 ^ 31) = -2 ^ 31 from rfl]
        omega
    · rcases hs with ⟨hs, hle⟩ | ⟨hcut, hfirst⟩
      · obtain ⟨b, hrun, hb⟩ := hs.turn hless hlower (by omega) hfirst hlast hgap hle
        refine Or.inr ⟨_, hrun, ?_⟩
        have hnext := hs.lower_le
        by_cases hmore : s.1 < upper
        · rw [int32_of_mem (by omega) (by omega)]
          exact Or.inl ⟨hb, hmore⟩
        · obtain ⟨g, hg, -⟩ := hb.items
          refine Or.inr ⟨congrArg int32 (by omega), ?_⟩
          rw [show b = a.withItems g from hg]
          exact hfrom
      · obtain ⟨i, b⟩ := s
        obtain rfl : i = int32 (2 ^ 31) := hcut
        refine Or.inl ?_
        rw [insertNext, insertAll_cut hfirst hlower hgap (by omega)]
        rfl
  rw [pass, hrun]
  rfl

/-- What the passes keep. -/
structure Sorting (less : G → G → Bool) (lower upper : Int) (a : Indexable G)
    (s : Int × Indexable G) : Prop where
  gap_le : lower + s.1 ≤ upper
  items : ∃ g, s.2 = a.withItems g ∧ Permutes lower upper a.items g ∧
    (s.1 ≤ 0 → IsSorted less lower upper g)

theorem Sorting.turn (hless : IsStrictWeakOrder G fun x y => less x y = true)
    (hlower : 1 ≤ lower) (hmaximum : upper + 1 < 2 ^ 31) (hfirst : a.first ≤ lower)
    (hlast : upper ≤ a.last) {s : Int × Indexable G} (h : Sorting less lower upper a s)
    (hs : ¬s.1 ≤ 0) :
    ∃ s', nextPass less lower upper s = some s' ∧ s'.1 = s.1 / 2 ∧
      Sorting less lower upper a s' := by
  obtain ⟨gap, b⟩ := s
  obtain ⟨hgap, g, rfl, hperm, hsorted⟩ := h
  dsimp only at hgap hs ⊢
  have hpos : 0 < gap := by omega
  have hupper : lower + gap ≤ upper + 1 := by omega
  obtain ⟨g', hrun, hperm', hsorted'⟩ :=
    pass_eq (a := a.withItems g) hless hlower hmaximum hfirst hlast hpos hupper
  rw [nextPass, hrun]
  refine ⟨_, rfl, rfl, by dsimp only; omega, g', rfl, hperm.trans hperm', fun hzero => ?_⟩
  -- The last gap is 1.
  dsimp only at hzero
  exact hsorted' (by omega)

end

/-- A slice that ends before the last index there is gets sorted, with no access to an index
outside of it: the indexes that may be accessed are those from `a.first` to `a.last`. -/
theorem subsort_eq {less : G → G → Bool}
    (hless : IsStrictWeakOrder G fun x y => less x y = true) (a : Indexable G) {lower upper : Int}
    (hlower : 1 ≤ lower) (hmaximum : upper + 1 < 2 ^ 31) (hfirst : a.first ≤ lower)
    (hlast : upper ≤ a.last) :
    ∃ g, subsort less a lower upper = some (a.withItems g) ∧
      Subsorted less lower upper a.items g := by
  have hdone : ∀ {g : Int → G}, Permutes lower upper a.items g → IsSorted less lower upper g →
      Subsorted less lower upper a.items g :=
    fun hperm hsorted => ⟨hsorted, hperm.slice_perm, fun i hi => hperm.outside hi⟩
  rw [subsort]
  split
  case isTrue hlt =>
      have hstart : Sorting less lower upper a ((upper - lower + 1) / 2, a) := by
        refine ⟨by dsimp only; omega, a.items, rfl, Permutes.refl _ _ _, fun hzero => ?_⟩
        dsimp only at hzero
        omega
      have hturn : ∀ s, Sorting less lower upper a s → ¬s.1 ≤ 0 →
          ∃ s', nextPass less lower upper s = some s' ∧ s'.1.toNat < s.1.toNat ∧
            Sorting less lower upper a s' := by
        intro s hs hpos
        obtain ⟨s', hrun, hgap, hs'⟩ := hs.turn hless hlower hmaximum hfirst hlast hpos
        exact ⟨s', hrun, by omega, hs'⟩
      obtain ⟨s, hrun, ⟨-, g, hg, hperm, hsorted⟩, hzero⟩ := loopUntil_decide
        (Sorting less lower upper a) (fun s => s.1.toNat) hturn hstart
        (by dsimp only; omega : _ < (upper - lower).toNat + 2)
      refine ⟨g, ?_, hdone hperm (hsorted hzero)⟩
      rw [hrun, Option.map_some, hg]
  case isFalse hge =>
      refine ⟨a.items, rfl, hdone (Permutes.refl _ _ _) fun i j hi hij hj => ?_⟩
      omega

/-- Only a slice of several items that ends at the last index there is does not get sorted. -/
theorem shellSort_sorts_iff {lower upper : Int} (hlower : 1 ≤ lower) (hbounds : lower ≤ upper)
    (hupper : upper < 2 ^ 31) :
    Indexable.SortsSlices.{u} @subsort lower upper ↔ lower = upper ∨ upper < 2147483647 := by
  constructor
  · intro hsorts
    by_contra hnot
    have hless : IsStrictWeakOrder PUnit.{u + 1} fun _ _ => false = true :=
      { irrefl := fun _ h => Bool.false_ne_true h
        trans := fun _ _ _ h _ => h
        incomp_trans := fun _ _ _ h _ => h }
    obtain ⟨g, hrun, -⟩ := hsorts PUnit (fun _ _ => false) ⟨lower, upper, fun _ => PUnit.unit⟩
      hless (Int.le_refl _) (Int.le_refl _)
    have hfails := pass_eq_none (a := ⟨lower, upper, fun _ => PUnit.unit⟩) hless hlower
      (by omega : upper + 1 = 2 ^ 31) hlower (Int.le_refl _) (Int.le_refl _)
      (by omega : 0 < (upper - lower + 1) / 2) (by omega)
    have hnext : nextPass (fun _ _ => false) lower upper ((upper - lower + 1) / 2,
        ⟨lower, upper, fun _ => PUnit.unit⟩) = none := by
      rw [nextPass, hfails]
      rfl
    rw [subsort, if_pos (by omega), loopUntil_of_fail ?_ hnext] at hrun
    · exact Option.some_ne_none _ hrun.symm
    · rw [decide_eq_false (by dsimp only; omega)]
  · rintro (rfl | hmaximum) G less a hless hfirst hlast
    · refine ⟨a.items, if_neg (Int.lt_irrefl _), fun i j hi hij hj => by omega, List.Perm.refl _,
        fun _ _ => rfl⟩
    · exact subsort_eq hless a hlower (by omega) hfirst hlast

theorem shellSort_sorts_iff_three :
    Indexable.SortsSlices.{0} @subsort 1 3 ↔ (1 : Int) = 3 ∨ (3 : Int) < 2147483647 :=
  shellSort_sorts_iff (by decide) (by decide) (by decide)

/-- The last two items of a container with as many as there can be. -/
theorem shellSort_last :
    subsort (fun x y => decide (x < y)) ⟨1, 2147483647, fun i => -i⟩ 2147483646 2147483647 =
      none := by
  decide

end ShellSorter

end Gobo
