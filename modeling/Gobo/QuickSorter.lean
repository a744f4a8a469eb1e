/-
Quick sort (`DS_QUICK_SORTER`) without recursion: the slices that are still to be sorted
are on a stack.
-/
import Gobo.Indexable
import Gobo.Integer32
import Gobo.Loop
import Mathlib.Algebra.Ring.Nat
import Mathlib.Data.Int.Interval

namespace Gobo

open Option List Function

variable {G : Type}

namespace QuickSorter

/-- What the partition of a slice works on. -/
structure Partition (G : Type) where
  l : Int
  u : Int
  container : Indexable G

section

variable (less : G → G → Bool)

/-- The scan from below stops at an item that is not less than the pivot. -/
def stopsUp (pivot : G) (a : Indexable G) (u l : Int) : Option Bool :=
  if u ≤ l then some true else (a.item l).map fun v => !less v pivot

def scanUp (pivot : G) (a : Indexable G) (u l : Int) : Option Int :=
  loopUntil (stopsUp less pivot a u) (fun l => some (l + 1)) ((u - l).toNat + 1) l

/-- The scan from above stops at an item that is not greater than the pivot. -/
def stopsDown (pivot : G) (a : Indexable G) (l u : Int) : Option Bool :=
  if u ≤ l then some true else (a.item u).map fun v => !less pivot v

def scanDown (pivot : G) (a : Indexable G) (l u : Int) : Option Int :=
  loopUntil (stopsDown less pivot a l) (fun u => some (u - 1)) ((u - l).toNat + 1) u

/-- Both scans; the items at which they stop change places. -/
def exchange (pivot : G) (s : Partition G) : Option (Partition G) :=
  (scanUp less pivot s.container s.u s.l).bind fun l =>
    (scanDown less pivot s.container l (s.u - 1)).bind fun u =>
      if l < u then (s.container.swap l u).map fun a => ⟨l + 1, u, a⟩
      else some ⟨l, u, s.container⟩

/-- The partition of a slice: where the pivot is afterwards. The last item of the slice
is in the slot of the pivot meanwhile. -/
def partition (a : Indexable G) (lower upper : Int) : Option (Int × Indexable G) :=
  let m := (int32 (lower + upper)).tdiv 2
  (a.item m).bind fun pivot =>
    (a.item upper).bind fun v =>
      (a.replace v m).bind fun a =>
        (loopUntil (fun s => some (decide (s.u ≤ s.l))) (exchange less pivot)
          ((upper - lower).toNat + 1) ⟨lower, upper, a⟩).bind fun s =>
          (s.container.item s.l).bind fun w =>
            (s.container.replace w upper).bind fun a =>
              (a.replace pivot s.l).map fun a => (s.l, a)

/-- Two items. -/
def sortPair (a : Indexable G) (l u : Int) : Option (Indexable G) :=
  (a.item l).bind fun lv =>
    (a.item u).bind fun uv =>
      if less uv lv then (a.replace lv u).bind fun a => a.replace uv l else some a

/-- One turn of the outer loop: a slice is taken from the stack, and its parts are put
on it. -/
def turn : List (Int × Int) × Indexable G → Option (List (Int × Int) × Indexable G)
  | ([], _) => none
  | ((lower, upper) :: rest, a) =>
      if lower < upper then
        if upper = lower + 1 then (sortPair less a lower upper).map fun a => (rest, a)
        else (partition less a lower upper).map fun s =>
          let stack := if lower < s.1 - 1 then (lower, s.1 - 1) :: rest else rest
          (if s.1 + 1 < upper then (s.1 + 1, upper) :: stack else stack, s.2)
      else some (rest, a)

/-- `subsort_with_comparator`. -/
def subsort (a : Indexable G) (lower upper : Int) : Option (Indexable G) :=
  (loopUntil (fun s => some (decide (s.1 = []))) (turn less)
    ((upper - lower + 1).toNat + 1) ([(lower, upper)], a)).map Prod.snd

end

section

variable {less : G → G → Bool} {lower upper l u : Int} {a : Indexable G} {f g : Int → G}
  {pivot : G}

theorem scanUp_eq (hless : IsStrictWeakOrder G fun x y => less x y = true) (pivot : G)
    (hl : l ≤ u) (hfirst : a.first ≤ l) (hlast : u ≤ a.last + 1) :
    ∃ l', scanUp less pivot a u l = some l' ∧ l ≤ l' ∧ l' ≤ u ∧
      (∀ k, l ≤ k → k < l' → less pivot (a.items k) = false) ∧
      (l' < u → less (a.items l') pivot = false) := by
  have hturn : ∀ n l', (n = (u - l').toNat ∧ l ≤ l' ∧ l' ≤ u ∧
      ∀ k, l ≤ k → k < l' → less pivot (a.items k) = false) →
      stopsUp less pivot a u l' = some true ∨ stopsUp less pivot a u l' = some false ∧
        ∃ l'' m, some (l' + 1) = some l'' ∧ m < n ∧ m = (u - l'').toNat ∧ l ≤ l'' ∧ l'' ≤ u ∧
          ∀ k, l ≤ k → k < l'' → less pivot (a.items k) = false := by
    rintro n l' ⟨rfl, hl', hlu, hbefore⟩
    rw [stopsUp]
    by_cases hend : u ≤ l'
    · exact Or.inl (if_pos hend)
    · have hitem : a.item l' = some (a.items l') := Indexable.item_eq (by omega)
      rw [if_neg hend, hitem, map_some]
      cases hlt : less (a.items l') pivot with
      | false => exact Or.inl rfl
      | true =>
          refine Or.inr ⟨rfl, l' + 1, _, rfl, by omega, rfl, by omega, by omega, ?_⟩
          intro k hk hkl
          by_cases hkl' : k = l'
          · exact hkl' ▸ notLess_of_less hless hlt
          · exact hbefore k hk (by omega)
  obtain ⟨l', n, hrun, ⟨-, hl', hlu, hbefore⟩, hstop⟩ := loopUntil_spec _ hturn
    (Nat.lt_succ_self _) ⟨rfl, Int.le_refl l, hl, fun k hk hkl => by omega⟩
  refine ⟨l', hrun, hl', hlu, hbefore, fun hlt => ?_⟩
  have hitem : a.item l' = some (a.items l') := Indexable.item_eq (by omega)
  rw [stopsUp, if_neg (by omega), hitem, map_some] at hstop
  simpa using hstop

theorem scanDown_eq (hless : IsStrictWeakOrder G fun x y => less x y = true) (pivot : G)
    (hfirst : a.first ≤ l) (hlast : u ≤ a.last) :
    ∃ u', scanDown less pivot a l u = some u' ∧ u' ≤ u ∧ (l ≤ u' ∨ u' = u) ∧
      (∀ k, u' < k → k ≤ u → less (a.items k) pivot = false) ∧
      (l < u' → less pivot (a.items u') = false) := by
  have hturn : ∀ n u', (n = (u' - l).toNat ∧ u' ≤ u ∧ (l ≤ u' ∨ u' = u) ∧
      ∀ k, u' < k → k ≤ u → less (a.items k) pivot = false) →
      stopsDown less pivot a l u' = some true ∨ stopsDown less pivot a l u' = some false ∧
        ∃ u'' m, some (u' - 1) = some u'' ∧ m < n ∧ m = (u'' - l).toNat ∧ u'' ≤ u ∧
          (l ≤ u'' ∨ u'' = u) ∧ ∀ k, u'' < k → k ≤ u → less (a.items k) pivot = false := by
    rintro n u' ⟨rfl, hu', hlu, hafter⟩
    rw [stopsDown]
    by_cases hend : u' ≤ l
    · exact Or.inl (if_pos hend)
    · have hitem : a.item u' = some (a.items u') := Indexable.item_eq (by omega)
      rw [if_neg hend, hitem, map_some]
      cases hlt : less pivot (a.items u') with
      | false => exact Or.inl rfl
      | true =>
          refine Or.inr ⟨rfl, u' - 1, _, rfl, by omega, rfl, by omega, by omega, ?_⟩
          intro k hk hku
          by_cases hku' : k = u'
          · exact hku' ▸ notLess_of_less hless hlt
          · exact hafter k (by omega) hku
  obtain ⟨u', n, hrun, ⟨-, hu', hlu, hafter⟩, hstop⟩ := loopUntil_spec _ hturn
    (Nat.lt_succ_self _) ⟨rfl, Int.le_refl u, Or.inr rfl, fun k hk hku => by omega⟩
  refine ⟨u', hrun, hu', hlu, hafter, fun hlt => ?_⟩
  have hitem : a.item u' = some (a.items u') := Indexable.item_eq (by omega)
  rw [stopsDown, if_neg (by omega), hitem, map_some] at hstop
  simpa using hstop

/-- What the partition keeps: with the pivot in its last slot, the slice is permuted. -/
structure Partitioning (less : G → G → Bool) (lower upper : Int) (pivot : G) (a : Indexable G)
    (s : Partition G) : Prop where
  lower_le : lower ≤ s.l
  le_upper : s.l ≤ upper
  u_le : s.u ≤ upper
  l_le : s.l ≤ s.u + 1
  items : ∃ g, s.container = a.withItems g ∧
    Permutes lower upper a.items (update g upper pivot) ∧
    (∀ k, lower ≤ k → k < s.l → less pivot (g k) = false) ∧
    ∀ k, s.l ≤ k → s.u ≤ k → k < upper → less (g k) pivot = false

/-- Two items before the last slot change places. -/
theorem update_swap (hl : l ≠ upper) (hu : u ≠ upper) (g : Int → G) :
    update (update (update g l (g u)) u (g l)) upper pivot =
      update (update (update g upper pivot) l
        (update g upper pivot u)) u (update g upper pivot l) := by
  rw [update_of_ne hu, update_of_ne hl, update_comm hl.symm, update_comm hu.symm]

section

variable (hless : IsStrictWeakOrder G fun x y => less x y = true)

include hless

theorem Partitioning.turn (hfirst : a.first ≤ lower) (hlast : upper ≤ a.last) {s : Partition G}
    (h : Partitioning less lower upper pivot a s) (hs : ¬s.u ≤ s.l) :
    ∃ s', exchange less pivot s = some s' ∧ (s'.u - s'.l).toNat < (s.u - s.l).toNat ∧
      Partitioning less lower upper pivot a s' := by
  obtain ⟨l, u, b⟩ := s
  obtain ⟨hlower, hl, hu, -, g, rfl, hperm, hbefore, hafter⟩ := h
  dsimp only at hlower hl hu hbefore hafter hs ⊢
  have hin : u ≤ (a.withItems g).last + 1 := Int.le_trans hu (Int.le_add_one hlast)
  obtain ⟨l', hup, hll, hlu, hlow, hstopUp⟩ := scanUp_eq (a := a.withItems g) hless pivot
    (by omega : l ≤ u) (Int.le_trans hfirst hlower) hin
  have hin' : u - 1 ≤ (a.withItems g).last := Int.le_trans (by omega : u - 1 ≤ upper) hlast
  obtain ⟨u', hdown, huu, hul, hhigh, hstopDown⟩ := scanDown_eq (a := a.withItems g) hless pivot
    (Int.le_trans hfirst (by omega) : a.first ≤ l') hin'
  dsimp only [Indexable.withItems_items] at hlow hstopUp hhigh hstopDown
  rw [exchange, hup, bind_some, hdown, bind_some]
  -- Before the exchange: the items that were passed.
  have hbefore' : ∀ k, lower ≤ k → k < l' → less pivot (g k) = false := by
    intro k hk hkl
    by_cases hkl' : k < l
    · exact hbefore k hk hkl'
    · exact hlow k (by omega) hkl
  have hafter' : ∀ k, l' ≤ k → u' < k → k < upper → less (g k) pivot = false := by
    intro k hlk hk hku
    by_cases hku' : k < u
    · exact hhigh k hk (by omega)
    · exact hafter k (by omega) (by omega) hku
  split
  case isTrue hlt =>
      have hswap : (a.withItems g).swap l' u' = some (a.withItems
          (update (update g l' (g u')) u' (g l'))) :=
        Indexable.swap_eq ⟨Int.le_trans hfirst (by omega), Int.le_trans (by omega) hlast⟩
          ⟨Int.le_trans hfirst (by omega), Int.le_trans (by omega) hlast⟩
      have hl_eq : update (update g l' (g u')) u' (g l') l' = g u' := by
        rw [update_of_ne (by omega), update_self]
      have hu_eq : update (update g l' (g u')) u' (g l') u' = g l' :=
        update_self _ _ _
      have hother : ∀ k, k ≠ l' → k ≠ u' →
          update (update g l' (g u')) u' (g l') k = g k := by
        intro k hkl hku
        rw [update_of_ne hku, update_of_ne hkl]
      rw [hswap]
      refine ⟨_, rfl, by dsimp only; omega, by dsimp only; omega, by dsimp only; omega,
        by dsimp only; omega, by dsimp only; omega, _, rfl, ?_, fun k hk hkl => ?_,
        fun k hlk huk hku => ?_⟩
      · rw [update_swap (by omega) (by omega)]
        exact hperm.trans (permutes_swap (by omega) (by omega) _)
      · dsimp only at hkl
        by_cases hkl' : k = l'
        · rw [hkl', hl_eq]
          exact hstopDown hlt
        · rw [hother k hkl' (by omega)]
          exact hbefore' k hk (by omega)
      · dsimp only at hlk huk
        by_cases hku' : k = u'
        · rw [hku', hu_eq]
          exact hstopUp (by omega)
        · rw [hother k (by omega) hku']
          exact hafter' k (by omega) (by omega) hku
  case isFalse hge =>
      refine ⟨_, rfl, by dsimp only; omega, by dsimp only; omega, by dsimp only; omega,
        by dsimp only; omega, by dsimp only; omega, g, rfl, hperm, hbefore', ?_⟩
      intro k hlk huk hku
      dsimp only at hlk huk
      by_cases hku' : u' < k
      · exact hafter' k hlk hku' hku
      · obtain rfl : k = l' := by omega
        exact hstopUp (by omega)

/-- The pivot is put where the parts meet. -/
theorem partition_eq (hlower : 1 ≤ lower) (hsum : lower + upper < 2 ^ 31) (hbounds : lower < upper)
    (hfirst : a.first ≤ lower) (hlast : upper ≤ a.last) :
    ∃ l g, partition less a lower upper = some (l, a.withItems g) ∧ lower ≤ l ∧ l ≤ upper ∧
      g l = a.items ((lower + upper) / 2) ∧ Permutes lower upper a.items g ∧
      ∀ i j, lower ≤ i → i < j → j ≤ upper → less (g j) (g i) = false ∨ j < l ∨ l < i := by
  have hmiddle : (int32 (lower + upper)).tdiv 2 = (lower + upper) / 2 := by
    rw [int32_of_mem (by omega) (by omega), Int.tdiv_eq_ediv_of_nonneg (by omega)]
  generalize hm : (lower + upper) / 2 = m at hmiddle
  have hpivot : a.item m = some (a.items m) := Indexable.item_eq (by omega)
  have hitem : a.item upper = some (a.items upper) := Indexable.item_eq (by omega)
  have hput : a.replace (a.items upper) m =
      some (a.withItems (update a.items m (a.items upper))) :=
    Indexable.replace_eq (by omega)
  have hstart : Partitioning less lower upper (a.items m) a
      ⟨lower, upper, a.withItems (update a.items m (a.items upper))⟩ := by
    refine ⟨Int.le_refl _, Int.le_of_lt hbounds, Int.le_refl _, by dsimp only; omega, _, rfl, ?_,
      fun k hk hkl => ?_, fun k hk hku hkup => ?_⟩
    · exact permutes_swap (by omega) (by omega) a.items
    · dsimp only at hkl
      omega
    · dsimp only at hku
      omega
  obtain ⟨s, hrun, ⟨hlower_le, hupper, -, -, g, hg, hperm, hbefore, hafter⟩, hstop⟩ :=
    loopUntil_decide (Partitioning less lower upper (a.items m) a) (fun s => (s.u - s.l).toNat)
      (fun s hs hgo => hs.turn hless hfirst hlast hgo) hstart
      (Nat.lt_succ_self (upper - lower).toNat)
  generalize hl : s.l = l at hlower_le hupper hbefore hafter hstop
  have hlast_item : (a.withItems g).item l = some (g l) :=
    Indexable.item_eq ⟨Int.le_trans hfirst hlower_le, Int.le_trans hupper hlast⟩
  have hlast_put : (a.withItems g).replace (g l) upper =
      some (a.withItems (update g upper (g l))) :=
    Indexable.replace_eq ⟨Int.le_trans hfirst (by omega), hlast⟩
  have hpivot_put : (a.withItems (update g upper (g l))).replace (a.items m) l =
      some (a.withItems (update (update g upper (g l)) l (a.items m))) :=
    Indexable.replace_eq ⟨Int.le_trans hfirst hlower_le, Int.le_trans hupper hlast⟩
  refine ⟨l, update (update g upper (g l)) l (a.items m), ?_, hlower_le, hupper,
    update_self _ _ _, ?_, fun i j hi hij hj => ?_⟩
  · rw [partition, hmiddle, hpivot, bind_some, hitem, bind_some, hput,
      bind_some, hrun, bind_some, hg, hl, hlast_item, bind_some, hlast_put,
      bind_some, hpivot_put, map_some]
  · have hswap : update (update g upper (g l)) l (a.items m) =
        update (update (update g upper (a.items m)) l
          (update g upper (a.items m) upper)) upper
          (update g upper (a.items m) l) := by
      rw [update_self]
      by_cases hlu : l = upper
      · subst hlu
        rw [update_self, update_idem, update_idem, update_idem]
      · rw [update_of_ne hlu, update_comm (Ne.symm hlu) (g l) (a.items m) g,
          update_comm (Ne.symm hlu) (a.items m) (a.items m) g, update_idem]
    rw [hswap]
    exact hperm.trans (permutes_swap (by omega) (by omega) _)
  · have hpivot_eq : update (update g upper (g l)) l (a.items m) l = a.items m :=
      update_self _ _ _
    have hless_eq : ∀ k, lower ≤ k → k < l → less (a.items m)
        (update (update g upper (g l)) l (a.items m) k) = false := by
      intro k hk hkl
      rw [update_of_ne (by omega), update_of_ne (by omega)]
      exact hbefore k hk hkl
    have hgreater_eq : ∀ k, l < k → k ≤ upper → less
        (update (update g upper (g l)) l (a.items m) k) (a.items m) = false := by
      intro k hk hku
      rw [update_of_ne (by omega)]
      by_cases hkup : k = upper
      · rw [hkup, update_self]
        exact hafter l (Int.le_refl l) hstop (by omega)
      · rw [update_of_ne hkup]
        exact hafter k (by omega) (by omega) (by omega)
    by_cases hjl : j < l
    · exact Or.inr (Or.inl hjl)
    · by_cases hli : l < i
      · exact Or.inr (Or.inr hli)
      · refine Or.inl ?_
        by_cases hil : i = l
        · rw [hil, hpivot_eq]
          exact hgreater_eq j (by omega) hj
        · by_cases hjl' : j = l
          · rw [hjl', hpivot_eq]
            exact hless_eq i hi (by omega)
          · exact notLess_trans hless (hless_eq i hi (by omega)) (hgreater_eq j (by omega) hj)

theorem sortPair_eq (hfirst : a.first ≤ lower) (hlast : lower + 1 ≤ a.last) :
    ∃ g, sortPair less a lower (lower + 1) = some (a.withItems g) ∧
      Permutes lower (lower + 1) a.items g ∧ less (g (lower + 1)) (g lower) = false := by
  have hl : a.item lower = some (a.items lower) := Indexable.item_eq (by omega)
  have hu : a.item (lower + 1) = some (a.items (lower + 1)) := Indexable.item_eq (by omega)
  rw [sortPair, hl, bind_some, hu, bind_some]
  split
  case isTrue hlt =>
      have hput : a.replace (a.items lower) (lower + 1) =
          some (a.withItems (update a.items (lower + 1) (a.items lower))) :=
        Indexable.replace_eq (by omega)
      have hput' : (a.withItems (update a.items (lower + 1) (a.items lower))).replace
          (a.items (lower + 1)) lower = some (a.withItems (update
            (update a.items (lower + 1) (a.items lower)) lower (a.items (lower + 1)))) :=
        Indexable.replace_eq ⟨hfirst, Int.le_trans (by omega) hlast⟩
      rw [hput, bind_some, hput']
      refine ⟨_, rfl, permutes_swap (by omega) (by omega) _, ?_⟩
      rw [update_self, update_of_ne (by omega), update_self]
      exact notLess_of_less hless hlt
  case isFalse hge => exact ⟨a.items, rfl, Permutes.refl _ _ _, Bool.eq_false_iff.mpr hge⟩

end

/-- The number of items of slices. -/
def sizes (stack : List (Int × Int)) : Nat :=
  (stack.map fun s => (s.2 + 1 - s.1).toNat).sum

theorem sizes_nil : sizes [] = 0 := rfl

theorem sizes_cons (s : Int × Int) (stack : List (Int × Int)) :
    sizes (s :: stack) = (s.2 + 1 - s.1).toNat + sizes stack := by
  rw [sizes, map_cons, sum_cons]
  rfl

/-- Two slices have no item in common. -/
def AreDisjoint (s t : Int × Int) : Prop := s.2 < t.1 ∨ t.2 < s.1

/-- What is not sorted yet is on the stack. -/
structure Stacked (less : G → G → Bool) (lower upper : Int) (f : Int → G)
    (stack : List (Int × Int)) : Prop where
  inside : ∀ s ∈ stack, lower ≤ s.1 ∧ s.1 ≤ s.2 ∧ s.2 ≤ upper
  disjoint : stack.Pairwise AreDisjoint
  ordered : ∀ i j, lower ≤ i → i < j → j ≤ upper → less (f j) (f i) = false ∨
    ∃ s ∈ stack, s.1 ≤ i ∧ j ≤ s.2

/-- A slice is replaced by its parts. -/
theorem Stacked.replace {lo up : Int} {parts rest : List (Int × Int)}
    (h : Stacked less lower upper f ((lo, up) :: rest)) (hperm : Permutes lo up f g)
    (hparts : Stacked less lo up g parts) : Stacked less lower upper g (parts ++ rest) := by
  obtain ⟨⟨hlo, hloup, hup⟩, hrest⟩ := forall_mem_cons.mp h.inside
  obtain ⟨hapart, hdisjoint⟩ := pairwise_cons.mp h.disjoint
  dsimp only at hlo hloup hup
  refine ⟨fun s hs => ?_, ?_, fun i j hi hij hj => ?_⟩
  · rcases mem_append.mp hs with hs | hs
    · have hs' := hparts.inside s hs
      omega
    · exact hrest s hs
  · refine pairwise_append.mpr ⟨hparts.disjoint, hdisjoint, fun s hs t ht => ?_⟩
    have hs' := hparts.inside s hs
    have hst : up < t.1 ∨ t.2 < lo := hapart t ht
    rw [AreDisjoint]
    omega
  · -- Another slice does not have an item of this one and one outside of it.
    have hmixed : ∀ p q, lower ≤ p → p < q → q ≤ upper → (lo ≤ p ∧ p ≤ up ∨ lo ≤ q ∧ q ≤ up) →
        ¬(lo ≤ p ∧ q ≤ up) → less (f q) (f p) = false := by
      intro p q hp hpq hq hone hnot
      refine (h.ordered p q hp hpq hq).resolve_right ?_
      rintro ⟨s, hs, hsp, hqs⟩
      rcases mem_cons.mp hs with rfl | hs
      · exact hnot ⟨hsp, hqs⟩
      · have hst : up < s.1 ∨ s.2 < lo := hapart s hs
        omega
    by_cases hiin : lo ≤ i ∧ i ≤ up
    · by_cases hjin : j ≤ up
      · rcases hparts.ordered i j hiin.1 hij hjin with hsorted | ⟨s, hs, hsi, hjs⟩
        · exact Or.inl hsorted
        · exact Or.inr ⟨s, mem_append_left rest hs, hsi, hjs⟩
      · obtain ⟨i', hi', heq⟩ := hperm.exists_index hiin
        rw [heq, hperm.outside (Or.inr (by omega : up < j))]
        exact Or.inl (hmixed i' j (by omega) (by omega) hj (Or.inl hi') (by omega))
    · by_cases hjin : lo ≤ j ∧ j ≤ up
      · obtain ⟨j', hj', heq⟩ := hperm.exists_index hjin
        rw [heq, hperm.outside (by omega : i < lo ∨ up < i)]
        exact Or.inl (hmixed i j' hi (by omega) (by omega) (Or.inr hj') (by omega))
      · rw [hperm.outside (by omega : i < lo ∨ up < i),
          hperm.outside (by omega : j < lo ∨ up < j)]
        rcases h.ordered i j hi hij hj with hsorted | ⟨s, hs, hsi, hjs⟩
        · exact Or.inl hsorted
        · rcases mem_cons.mp hs with rfl | hs
          · omega
          · exact Or.inr ⟨s, mem_append_right parts hs, hsi, hjs⟩

/-- One turn sorts a slice or replaces it by smaller ones. -/
theorem turn_eq (hless : IsStrictWeakOrder G fun x y => less x y = true)
    (rest : List (Int × Int)) (hlower : 1 ≤ lower) (hsmall : upper ≤ lower + 1 ∨ upper ≤ 2 ^ 30)
    (hbounds : lower ≤ upper) (hfirst : a.first ≤ lower)
    (hlast : upper ≤ a.last) :
    ∃ parts g, turn less ((lower, upper) :: rest, a) = some (parts ++ rest, a.withItems g) ∧
      Permutes lower upper a.items g ∧ Stacked less lower upper g parts ∧
      sizes parts < (upper + 1 - lower).toNat := by
  rw [turn]
  have hnone : ∀ {g : Int → G}, IsSorted less lower upper g → Stacked less lower upper g [] :=
    fun hsorted => ⟨fun s hs => absurd hs not_mem_nil, List.Pairwise.nil,
      fun i j hi hij hj => Or.inl (hsorted i j hi hij hj)⟩
  split
  case isTrue hlt =>
      split
      case isTrue htwo =>
          subst htwo
          obtain ⟨g, hrun, hperm, hsorted⟩ := sortPair_eq hless hfirst hlast
          rw [hrun]
          refine ⟨[], g, rfl, hperm, hnone fun i j hi hij hj => ?_, by rw [sizes_nil]; omega⟩
          obtain rfl : i = lower := by omega
          obtain rfl : j = i + 1 := by omega
          exact hsorted
      case isFalse =>
          obtain ⟨l, g, hrun, hl, hlu, -, hperm, hordered⟩ :=
            partition_eq hless hlower (by omega) hlt hfirst hlast
          rw [hrun, map_some]
          refine ⟨(if l + 1 < upper then [(l + 1, upper)] else []) ++
            (if lower < l - 1 then [(lower, l - 1)] else []), g, ?_, hperm, ⟨?_, ?_, ?_⟩, ?_⟩
          · dsimp only
            split <;> split <;> rfl
          · intro s hs
            rcases mem_append.mp hs with hs | hs
            · split at hs
              case isTrue hsmall =>
                  obtain rfl := mem_singleton.mp hs
                  omega
              case isFalse => exact absurd hs not_mem_nil
            · split at hs
              case isTrue hsmall =>
                  obtain rfl := mem_singleton.mp hs
                  omega
              case isFalse => exact absurd hs not_mem_nil
          · split <;> split
            · refine pairwise_pair.mpr (Or.inr ?_)
              omega
            · exact pairwise_singleton _ _
            · exact pairwise_singleton _ _
            · exact List.Pairwise.nil
          · intro i j hi hij hj
            rcases hordered i j hi hij hj with hsorted | hjl | hli
            · exact Or.inl hsorted
            · refine Or.inr ⟨(lower, l - 1), mem_append_right _ ?_, hi, by dsimp only; omega⟩
              rw [if_pos (by omega)]
              exact mem_singleton_self _
            · refine Or.inr ⟨(l + 1, upper), mem_append_left _ ?_, by dsimp only; omega, hj⟩
              rw [if_pos (by omega)]
              exact mem_singleton_self _
          · split <;> split <;> simp only [cons_append, nil_append, append_nil,
              sizes_cons, sizes_nil] <;> omega
  case isFalse hge =>
      refine ⟨[], a.items, rfl, Permutes.refl _ _ _, hnone fun i j hi hij hj => ?_, ?_⟩
      · omega
      · rw [sizes_nil]
        omega

end

/-- A slice with small indexes is sorted, with no access to an index outside of it: the indexes
that may be accessed are those from `a.first` to `a.last`. -/
theorem subsort_eq {less : G → G → Bool}
    (hless : IsStrictWeakOrder G fun x y => less x y = true) (a : Indexable G) {lower upper : Int}
    (hlower : 1 ≤ lower) (hsmall : upper ≤ lower + 1 ∨ upper ≤ 2 ^ 30) (hbounds : lower ≤ upper)
    (hfirst : a.first ≤ lower) (hlast : upper ≤ a.last) :
    ∃ g, subsort less a lower upper = some (a.withItems g) ∧
      Subsorted less lower upper a.items g := by
  let I : List (Int × Int) × Indexable G → Prop := fun s => ∃ g, s.2 = a.withItems g ∧
    Permutes lower upper a.items g ∧ Stacked less lower upper g s.1
  have hstart : I ([(lower, upper)], a) := by
    refine ⟨a.items, rfl, Permutes.refl _ _ _, ?_, pairwise_singleton _ _, ?_⟩
    · exact forall_mem_singleton.mpr ⟨Int.le_refl _, hbounds, Int.le_refl _⟩
    · exact fun i j hi _ hj => Or.inr ⟨_, mem_singleton_self _, hi, hj⟩
  have hturn : ∀ s, I s → ¬s.1 = [] → ∃ s', turn less s = some s' ∧ sizes s'.1 < sizes s.1 ∧
      I s' := by
    rintro ⟨stack, b⟩ ⟨g, rfl, hperm, hstacked⟩ hne
    obtain ⟨⟨lo, up⟩, rest, rfl⟩ := exists_cons_of_ne_nil hne
    have hin := hstacked.inside _ mem_cons_self
    obtain ⟨parts, g', hrun, hperm', hparts, hsmaller⟩ := turn_eq (a := a.withItems g) hless rest
      (Int.le_trans hlower hin.1) (by dsimp only at hin; omega) hin.2.1
      (Int.le_trans hfirst hin.1) (Int.le_trans hin.2.2 hlast)
    refine ⟨_, hrun, ?_, g', rfl, hperm.trans (hperm'.mono hin.1 hin.2.2),
      hstacked.replace hperm' hparts⟩
    dsimp only [sizes] at hsmaller ⊢
    rw [map_append, sum_append, map_cons, sum_cons]
    omega
  have hfuel : sizes [(lower, upper)] < (upper - lower + 1).toNat + 1 := by
    rw [sizes_cons, sizes_nil]
    omega
  obtain ⟨s, hrun, ⟨g, hg, hperm, hstacked⟩, hempty⟩ :=
    loopUntil_decide I (fun s => sizes s.1) hturn hstart hfuel
  refine ⟨g, ?_, fun i j hi hij hj => ?_, hperm.slice_perm, fun i hi => hperm.outside hi⟩
  · rw [subsort, hrun, map_some, hg]
  · refine (hstacked.ordered i j hi hij hj).resolve_right ?_
    rintro ⟨s, hs, -⟩
    rw [hempty] at hs
    exact not_mem_nil hs

/-- The sum of the bounds is cut. -/
theorem partition_cut {less : G → G → Bool} {a : Indexable G} {lower upper : Int}
    (hfirst : 1 ≤ a.first) (hsum : 2 ^ 31 ≤ lower + upper) (hbounds : lower ≤ upper)
    (hupper : upper < 2 ^ 31) : partition less a lower upper = none := by
  have hnegative : (int32 (lower + upper)).tdiv 2 < a.first := by
    rw [int32_of_ge hsum (by omega),
      show lower + upper - 2 ^ 32 = -(2 ^ 32 - lower - upper) by omega, Int.neg_tdiv,
      Int.tdiv_eq_ediv_of_nonneg (by omega)]
    omega
  have hout : a.item ((int32 (lower + upper)).tdiv 2) = none := if_neg (by omega)
  rw [partition, hout]
  rfl

theorem turn_cut {less : G → G → Bool} {a : Indexable G} {lower upper : Int}
    (rest : List (Int × Int)) (hfirst : 1 ≤ a.first) (hsum : 2 ^ 31 ≤ lower + upper)
    (hbounds : lower + 1 < upper) (hupper : upper < 2 ^ 31) :
    turn less ((lower, upper) :: rest, a) = none := by
  rw [turn, if_pos (by omega), if_neg (by omega), partition_cut hfirst hsum (by omega) hupper]
  rfl

/-- A number of a slice stays where it is if those before it are sent to smaller ones, and those
after it to greater ones. -/
theorem perm_fixes {p : Equiv.Perm Int} {lower upper l : Int}
    (hp : ∀ i, i < lower ∨ upper < i → p i = i)
    (hbefore : ∀ i, lower ≤ i → i < l → p i < p l) (hafter : ∀ i, l < i → i ≤ upper → p l < p i)
    (hl : lower ≤ l ∧ l ≤ upper) : p l = l := by
  have hin := perm_maps hp hl
  refine Int.le_antisymm ?_ ?_
  · have hcard := Finset.card_le_card_of_injOn (s := Finset.Ioc l upper)
      (t := Finset.Ioc (p l) upper) p (fun i hi => ?_) p.injective.injOn
    · rw [Int.card_Ioc, Int.card_Ioc] at hcard
      omega
    · obtain ⟨hli, hiu⟩ := Finset.mem_Ioc.mp hi
      exact Finset.mem_Ioc.mpr ⟨hafter i hli hiu, (perm_maps hp ⟨by omega, hiu⟩).2⟩
  · have hcard := Finset.card_le_card_of_injOn (s := Finset.Ico lower l)
      (t := Finset.Ico lower (p l)) p (fun i hi => ?_) p.injective.injOn
    · rw [Int.card_Ico, Int.card_Ico] at hcard
      omega
    · obtain ⟨hli, hil⟩ := Finset.mem_Ico.mp hi
      exact Finset.mem_Ico.mpr ⟨(perm_maps hp ⟨hli, by omega⟩).1, hbefore i hli hil⟩

/-- The numbers from `lower` to `upper` in order, but for the one in the middle, which changes
places with the fourth one from the end. -/
def withMiddle (lower upper : Int) : Indexable Int :=
  ⟨lower, upper, Equiv.swap ((lower + upper) / 2) (upper - 3)⟩

/-- The partition of these numbers leaves the last three of them, whose bounds have a sum that is
cut. -/
theorem partition_withMiddle {lower upper : Int} (hlower : 1 ≤ lower) (hlong : lower + 3 ≤ upper)
    (hsum : lower + upper < 2 ^ 31) :
    ∃ g, partition (fun x y => decide (x < y)) (withMiddle lower upper) lower upper =
      some (upper - 3, (withMiddle lower upper).withItems g) := by
  obtain ⟨l, g, hrun, hl, hlu, hpivot, ⟨p, hp, hg⟩, hordered⟩ :=
    partition_eq (a := withMiddle lower upper) strictWeak_lt hlower hsum (by omega)
      (Int.le_refl _) (Int.le_refl _)
  have hmiddle : g l = upper - 3 := hpivot.trans (Equiv.swap_apply_left _ _)
  let q := p.trans (Equiv.swap ((lower + upper) / 2) (upper - 3))
  have hgq : ∀ i, g i = q i := hg
  have hfixed : ∀ i, i < lower ∨ upper < i → q i = i := by
    intro i hi
    rw [Equiv.trans_apply, hp i hi, Equiv.swap_apply_of_ne_of_ne (by omega) (by omega)]
  have hne : ∀ i, i ≠ l → q i ≠ q l := fun i hi heq => hi (q.injective heq)
  have hbefore : ∀ i, lower ≤ i → i < l → q i < q l := by
    intro i hi hil
    have hle := (hordered i l hi hil hlu).resolve_right (by omega)
    rw [hgq, hgq, decide_eq_false_iff_not] at hle
    exact lt_of_le_of_ne (Int.not_lt.mp hle) (hne i (by omega))
  have hafter : ∀ i, l < i → i ≤ upper → q l < q i := by
    intro i hli hiu
    have hle := (hordered l i hl hli hiu).resolve_right (by omega)
    rw [hgq, hgq, decide_eq_false_iff_not] at hle
    exact lt_of_le_of_ne (Int.not_lt.mp hle) (hne i (by omega)).symm
  have hplace : l = upper - 3 :=
    (perm_fixes hfixed hbefore hafter ⟨hl, hlu⟩).symm.trans ((hgq l).symm.trans hmiddle)
  exact ⟨g, hplace ▸ hrun⟩

theorem subsort_cut {lower upper : Int} (hlower : 1 ≤ lower) (hbounds : lower + 1 < upper)
    (hlarge : 2 ^ 30 < upper) (hupper : upper < 2 ^ 31) :
    subsort (fun x y => decide (x < y)) (withMiddle lower upper) lower upper = none := by
  obtain ⟨fuel, hfuel⟩ : ∃ fuel : Nat, (upper - lower + 1).toNat + 1 = fuel + 2 :=
    ⟨(upper - lower).toNat, by omega⟩
  rw [subsort, hfuel]
  by_cases hsum : 2 ^ 31 ≤ lower + upper
  · rw [loopUntil_of_fail ?_ (turn_cut [] hlower hsum hbounds hupper)] <;> rfl
  · obtain ⟨g, hrun⟩ := partition_withMiddle hlower (by omega) (by omega : lower + upper < 2 ^ 31)
    -- The last three items are on the top of the stack.
    obtain ⟨rest, hturn⟩ : ∃ rest, turn (fun x y => decide (x < y))
        ([(lower, upper)], withMiddle lower upper) =
          some ((upper - 2, upper) :: rest, (withMiddle lower upper).withItems g) := by
      rw [turn, if_pos (by omega), if_neg (by omega), hrun, map_some]
      dsimp only
      rw [if_pos (by omega), show upper - 3 + 1 = upper - 2 by omega]
      exact ⟨_, rfl⟩
    rw [loopUntil_of_go ?_ hturn,
      loopUntil_of_fail ?_ (turn_cut rest hlower (by omega) (by omega) hupper)] <;> rfl

/-- A slice of more than two items that ends after index `2 ^ 30` does not get sorted. -/
theorem quickSort_sorts_iff {lower upper : Int} (hlower : 1 ≤ lower) (hbounds : lower ≤ upper)
    (hupper : upper < 2 ^ 31) :
    Indexable.SortsSlices @subsort lower upper ↔ upper ≤ lower + 1 ∨ upper ≤ 2 ^ 30 := by
  constructor
  · intro hsorts
    by_contra hnot
    obtain ⟨g, hrun, -⟩ := hsorts Int (fun x y => decide (x < y)) (withMiddle lower upper)
      strictWeak_lt (Int.le_refl _) (Int.le_refl _)
    rw [subsort_cut hlower (by omega) (by omega) hupper] at hrun
    exact some_ne_none _ hrun.symm
  · intro hsmall G less a hless hfirst hlast
    exact subsort_eq hless a hlower hsmall hbounds hfirst hlast

theorem quickSort_sorts_iff_three :
    Indexable.SortsSlices @subsort 1 3 ↔ (3 : Int) ≤ 1 + 1 ∨ (3 : Int) ≤ 2 ^ 30 :=
  quickSort_sorts_iff (by decide) (by decide) (by decide)

/-- The middle of three items at large indexes is looked for at a negative one. -/
theorem quickSort_three_large :
    subsort (fun x y => decide (x < y)) ⟨1, 1073741826, fun i => -i⟩ 1073741824 1073741826 =
      none := by
  decide

end QuickSorter

end Gobo
