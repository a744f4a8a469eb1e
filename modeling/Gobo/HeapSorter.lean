/-
Heap sort (`DS_HEAP_SORTER`): the children of the node at index `k` are at the indexes
`2 * k` and `2 * k + 1`, wherever the slice begins.
-/
import Gobo.Indexable
import Gobo.Integer32
import Gobo.Loop

namespace Gobo

open Option Function

variable {G : Type}

namespace HeapSorter

/-- The child of a node that is not less than the other one. -/
def largestLeaf (less : G → G → Bool) (a : Indexable G) (root upper : Int) : Option Int :=
  let leftLeaveIndex := int32 (2 * root)
  if leftLeaveIndex < upper then do
    let v ← a.item leftLeaveIndex
    let w ← a.item (leftLeaveIndex + 1)
    some (if less v w then leftLeaveIndex + 1 else leftLeaveIndex)
  else some leftLeaveIndex

/-- `add_root`. -/
def addRoot (less : G → G → Bool) : Nat → Indexable G → Int → Int → Option (Indexable G)
  | 0, _, _, _ => none
  | fuel + 1, a, root, upper =>
      if int32 (2 * root) ≤ upper then do
        let leaf ← largestLeaf less a root upper
        let v ← a.item root
        let w ← a.item leaf
        if less v w then do
          let a ← a.swap root leaf
          addRoot less fuel a leaf upper
        else some a
      else some a

section

variable (less : G → G → Bool)

/-- `build_heap`: `i` goes from `upper // 2` down to `lower`. -/
def buildHeap (a : Indexable G) (lower upper : Int) : Option (Indexable G) :=
  forDown (fun i a => addRoot less (upper.toNat + 1) a i upper)
    (upper / 2 + 1 - lower).toNat (upper / 2) a

/-- One turn of the loop that extracts the items. -/
def extract (lower upper : Int) (i : Int) (a : Indexable G) :
    Option (Indexable G) := do
  let a ← a.swap lower i
  addRoot less (upper.toNat + 1) a lower (i - 1)

/-- `subsort_with_comparator`. -/
def subsort (a : Indexable G) (lower upper : Int) : Option (Indexable G) := do
  let count := upper - lower + 1
  let a ← buildHeap less a lower upper
  forDown (extract less lower upper) (count - lower).toNat count a

/-- The node at index `i` is not less than its children. -/
def IsHeapAt (upper : Int) (f : Int → G) (i : Int) : Prop :=
  ∀ c, c = 2 * i ∨ c = 2 * i + 1 → c ≤ upper → less (f i) (f c) = false

def IsHeap (lower upper : Int) (f : Int → G) : Prop :=
  ∀ i, lower ≤ i → IsHeapAt less upper f i

end

/-- A heap but for the node at index `root`, whose children are not greater than the node
above it. -/
structure IsHeapBut (less : G → G → Bool) (lower upper root : Int) (f : Int → G) : Prop where
  others : ∀ i, lower ≤ i → i ≠ root → IsHeapAt less upper f i
  above : ∀ i, lower ≤ i → root = 2 * i ∨ root = 2 * i + 1 →
    ∀ c, c = 2 * root ∨ c = 2 * root + 1 → c ≤ upper → less (f i) (f c) = false

section

variable {less : G → G → Bool} {lower upper root leaf i : Int} {a : Indexable G} {f g : Int → G}
  {fuel : Nat}

theorem IsHeap.mono (h : IsHeap less lower upper f) {lower' : Int} (hle : lower ≤ lower') :
    IsHeap less lower' upper f :=
  fun i hi => h i (Int.le_trans hle hi)

/-- The leaves of a node of a small heap have their indexes. -/
theorem leaves_eq (hroot : 1 ≤ root) (hsmall : root < 2 ^ 30) : int32 (2 * root) = 2 * root :=
  int32_of_mem (by omega) (by omega)

theorem largestLeaf_eq (hless : IsStrictWeakOrder G fun x y => less x y = true)
    (hsmall : upper < 2 ^ 30) (hroot : 1 ≤ root) (hfirst : a.first ≤ root) (hlast : upper ≤ a.last)
    (hle : 2 * root ≤ upper) :
    ∃ leaf, largestLeaf less a root upper = some leaf ∧ (leaf = 2 * root ∨ leaf = 2 * root + 1) ∧
      leaf ≤ upper ∧ ∀ c, c = 2 * root ∨ c = 2 * root + 1 → c ≤ upper →
        less (a.items leaf) (a.items c) = false := by
  rw [largestLeaf, leaves_eq hroot (by omega)]
  split
  case isTrue hlt =>
      have hleft : a.item (2 * root) = some (a.items (2 * root)) := Indexable.item_eq (by omega)
      have hright : a.item (2 * root + 1) = some (a.items (2 * root + 1)) :=
        Indexable.item_eq (by omega)
      simp only [hleft, hright, some_bind]
      refine ⟨_, rfl, ?_⟩
      split
      case isTrue hright =>
          refine ⟨Or.inr rfl, hlt, ?_⟩
          rintro c (rfl | rfl) -
          · exact notLess_of_less hless hright
          · exact notLess_self hless _
      case isFalse hleft =>
          refine ⟨Or.inl rfl, hle, ?_⟩
          rintro c (rfl | rfl) -
          · exact notLess_self hless _
          · exact Bool.eq_false_iff.mpr hleft
  case isFalse hge =>
      refine ⟨_, rfl, Or.inl rfl, hle, ?_⟩
      rintro c (rfl | rfl) hc
      · exact notLess_self hless _
      · omega

/-- The root is not less than its leaves. -/
theorem IsHeapBut.stop (h : IsHeapBut less lower upper root f)
    (hroot : IsHeapAt less upper f root) : IsHeap less lower upper f := by
  intro i hi
  by_cases hne : i = root
  · exact hne ▸ hroot
  · exact h.others i hi hne

section

variable (hless : IsStrictWeakOrder G fun x y => less x y = true)

include hless

/-- The root changes places with its larger leaf. -/
theorem IsHeapBut.down
    (h : IsHeapBut less lower upper root f) (hlower : 1 ≤ lower) (hroot : lower ≤ root)
    (hleaf : leaf = 2 * root ∨ leaf = 2 * root + 1) (hle : leaf ≤ upper)
    (hmax : ∀ c, c = 2 * root ∨ c = 2 * root + 1 → c ≤ upper → less (f leaf) (f c) = false)
    (hlt : less (f root) (f leaf) = true) :
    IsHeapBut less lower upper leaf
      (update (update f root (f leaf)) leaf (f root)) := by
  have hleaf_eq : update (update f root (f leaf)) leaf (f root) leaf = f root :=
    update_self _ _ _
  have hroot_eq : update (update f root (f leaf)) leaf (f root) root = f leaf := by
    rw [update_of_ne (by omega), update_self]
  have hother : ∀ k, k ≠ root → k ≠ leaf →
      update (update f root (f leaf)) leaf (f root) k = f k := by
    intro k hroot hleaf
    rw [update_of_ne hleaf, update_of_ne hroot]
  refine ⟨fun i hi hne c hc hcu => ?_, fun i hi hparent c hc hcu => ?_⟩
  · by_cases hir : i = root
    · subst hir
      rw [hroot_eq]
      by_cases hcl : c = leaf
      · rw [hcl, hleaf_eq]
        exact notLess_of_less hless hlt
      · rw [hother c (by omega) hcl]
        exact hmax c hc hcu
    · rw [hother i hir hne]
      by_cases hcr : c = root
      · rw [hcr, hroot_eq]
        exact h.above i hi (hcr ▸ hc) leaf hleaf hle
      · rw [hother c hcr (by omega)]
        exact h.others i hi hir c hc hcu
  · obtain rfl : i = root := by omega
    rw [hroot_eq, hother c (by omega) (by omega)]
    exact h.others leaf (by omega) (by omega) c hc hcu

theorem addRoot_eq
    (hsmall : upper < 2 ^ 30) (hroot : 1 ≤ root) (hupper : root ≤ upper) (hfirst : a.first ≤ root)
    (hlast : upper ≤ a.last) (hfuel : (upper - root).toNat < fuel) :
    ∃ g, addRoot less fuel a root upper = some (a.withItems g) ∧ Permutes root upper a.items g ∧
      ∀ lower, 1 ≤ lower → lower ≤ root → IsHeapBut less lower upper root a.items →
        IsHeap less lower upper g := by
  induction fuel generalizing a root with
  | zero => omega
  | succ fuel ih =>
      rw [addRoot, leaves_eq hroot (by omega)]
      split
      case isTrue hle =>
          obtain ⟨leaf, hleaf, hchild, hleaf_le, hmax⟩ :=
            largestLeaf_eq hless hsmall hroot hfirst hlast hle
          have hitem : a.item root = some (a.items root) := Indexable.item_eq (by omega)
          have hitem' : a.item leaf = some (a.items leaf) := Indexable.item_eq (by omega)
          rw [hleaf, hitem, some_bind, some_bind, hitem', some_bind]
          split
          case isTrue hlt =>
              rw [Indexable.swap_eq (by omega) (by omega), some_bind]
              obtain ⟨g, hrun, hperm, hheap⟩ := ih (a := a.withItems (update
                (update a.items root (a.items leaf)) leaf (a.items root)))
                (by omega : 1 ≤ leaf) hleaf_le (Int.le_trans hfirst (by omega)) hlast (by omega)
              refine ⟨g, hrun, ?_, fun lower hlower hlr hbut => ?_⟩
              · exact (permutes_swap (by omega) (by omega) _).trans
                  (hperm.mono (by omega) (Int.le_refl _))
              · exact hheap lower hlower (by omega)
                  (hbut.down hless hlower hlr hchild hleaf_le hmax hlt)
          case isFalse hge =>
              refine ⟨a.items, rfl, Permutes.refl _ _ _, fun lower _ _ hbut => hbut.stop ?_⟩
              intro c hc hcu
              exact notLess_trans hless (hmax c hc hcu) (Bool.eq_false_iff.mpr hge)
      case isFalse hgt =>
          refine ⟨a.items, rfl, Permutes.refl _ _ _, fun lower _ _ hbut => hbut.stop ?_⟩
          intro c hc hcu
          omega

/-- A heap is left as it is. -/
theorem addRoot_self
    (hsmall : upper < 2 ^ 30) (hroot : 1 ≤ root) (hupper : root ≤ upper) (hfirst : a.first ≤ root)
    (hlast : upper ≤ a.last) (hheap : IsHeapAt less upper a.items root) :
    addRoot less (fuel + 1) a root upper = some a := by
  rw [addRoot, leaves_eq hroot (by omega)]
  split
  case isTrue hle =>
      obtain ⟨leaf, hleaf, hchild, hleaf_le, -⟩ :=
        largestLeaf_eq hless hsmall hroot hfirst hlast hle
      have hitem : a.item root = some (a.items root) := Indexable.item_eq (by omega)
      have hitem' : a.item leaf = some (a.items leaf) := Indexable.item_eq (by omega)
      rw [hleaf, hitem, bind_eq_bind, bind_some, bind_eq_bind,
        bind_some, hitem', bind_eq_bind, bind_some,
        if_neg (by simp [hheap leaf hchild hleaf_le])]
  case isFalse => rfl

end

/-- The last node that has leaves is put in its place, and in an ascending slice it goes down to
the last index.  The leaves of a node there are looked for at an index that is cut. -/
theorem addRoot_ascending (hlarge : 2 ^ 30 ≤ upper) (hupper : upper < 2 ^ 31)
    (hfirst : 1 ≤ a.first) (hroot : a.first ≤ upper / 2) (hlast : upper ≤ a.last)
    (hless : ∀ i j, i < j → less (a.items i) (a.items j) = true) :
    addRoot less (fuel + 2) a (upper / 2) upper = none := by
  have hleaves : int32 (2 * (upper / 2)) = 2 * (upper / 2) := leaves_eq (by omega) (by omega)
  have hitem : ∀ i, a.first ≤ i → i ≤ upper → a.item i = some (a.items i) :=
    fun i hi hiu => Indexable.item_eq ⟨hi, Int.le_trans hiu hlast⟩
  have hleaf : largestLeaf less a (upper / 2) upper = some upper := by
    rw [largestLeaf, hleaves]
    split
    case isTrue hlt =>
        rw [hitem _ (by omega) (by omega), hitem _ (by omega) (by omega), some_bind, some_bind,
          if_pos (hless _ _ (by omega))]
        exact congrArg some (by omega)
    case isFalse hge => exact congrArg some (by omega)
  -- An index that is cut is negative.
  have hcut : int32 (2 * upper) = 2 * upper - 2 ^ 32 := int32_of_ge (by omega) (by omega)
  have hdown : ∀ b : Indexable G, b.first = a.first →
      addRoot less (fuel + 1) b upper upper = none := by
    intro b hb
    have hout : b.item (2 * upper - 2 ^ 32) = none := if_neg (by omega)
    rw [addRoot, hcut, if_pos (by omega), largestLeaf, hcut, if_pos (by omega), hout]
    rfl
  rw [addRoot, hleaves, if_pos (by omega), hleaf, some_bind,
    hitem _ hroot (by omega), some_bind,
    hitem _ (by omega) (Int.le_refl _), some_bind,
    if_pos (hless _ _ (by omega)), Indexable.swap_eq (by omega) (by omega), some_bind]
  exact hdown _ rfl

section

variable (hless : IsStrictWeakOrder G fun x y => less x y = true)

include hless

theorem buildHeap_eq (hsmall : upper < 2 ^ 30) (hlower : 1 ≤ lower) (hfirst : a.first ≤ lower)
    (hlast : upper ≤ a.last) :
    ∃ g, buildHeap less a lower upper = some (a.withItems g) ∧ Permutes lower upper a.items g ∧
      IsHeap less lower upper g := by
  have hstart : ∃ g, a = a.withItems g ∧ Permutes lower upper a.items g ∧
      IsHeap less (upper / 2 + 1) upper g := by
    refine ⟨a.items, rfl, Permutes.refl _ _ _, fun i hi c hc hcu => ?_⟩
    omega
  obtain ⟨b, hrun, g, rfl, hperm, hheap⟩ := forDown_spec
    (fun i b => ∃ g, b = a.withItems g ∧ Permutes lower upper a.items g ∧
      IsHeap less (i + 1) upper g)
    (g := fun i b => addRoot less (upper.toNat + 1) b i upper)
    (n := (upper / 2 + 1 - lower).toNat) (fun i b hi hiu hb => by
      obtain ⟨g, rfl, hperm, hheap⟩ := hb
      obtain ⟨g', hrun, hperm', hheap'⟩ := addRoot_eq (a := a.withItems g) hless
        hsmall (by omega : 1 ≤ i) (by omega : i ≤ upper) (Int.le_trans hfirst (by omega)) hlast
        (by omega : _ < upper.toNat + 1)
      refine ⟨_, hrun, g', rfl, hperm.trans (hperm'.mono (by omega) (Int.le_refl _)), ?_⟩
      rw [Int.sub_add_cancel]
      refine hheap' i (by omega) (Int.le_refl _) ⟨fun k hk hne => hheap k (by omega), ?_⟩
      intro k hk hparent
      omega) hstart
  exact ⟨g, hrun, hperm, hheap.mono (by omega)⟩

theorem buildHeap_self (hsmall : upper < 2 ^ 30) (hlower : 1 ≤ lower) (hfirst : a.first ≤ lower)
    (hlast : upper ≤ a.last) (hheap : IsHeap less lower upper a.items) :
    buildHeap less a lower upper = some a := by
  obtain ⟨b, hrun, rfl⟩ := forDown_spec (fun _ b => b = a)
    (g := fun i b => addRoot less (upper.toNat + 1) b i upper) (i := upper / 2)
    (n := (upper / 2 + 1 - lower).toNat) (fun i b hi hiu hb => by
      subst hb
      exact ⟨b, addRoot_self hless hsmall (by omega) (by omega) (by omega) hlast
        (hheap i (by omega)), rfl⟩)
    rfl
  exact hrun

/-- No item is greater than the root of a heap. -/
theorem IsHeap.root_max (h : IsHeap less 1 upper f) {n : Nat} (hn : (n : Int) + 1 ≤ upper) :
    less (f 1) (f (n + 1)) = false := by
  induction n using Nat.strongRecOn with
  | ind n ih =>
      by_cases hzero : n = 0
      · subst hzero
        exact notLess_self hless _
      · have hparent : (((n - 1) / 2 : Nat) : Int) + 1 ≤ upper := by omega
        have hroot := ih ((n - 1) / 2) (by omega) hparent
        exact notLess_trans hless (h _ (by omega) ((n : Int) + 1) (by omega) hn) hroot

/-- One item is extracted, whatever is in the heap. -/
theorem extract_eq
    (hsmall : upper < 2 ^ 30) (hlower : 1 ≤ lower) (hi : lower < i) (hupper : i ≤ upper)
    (hfirst : a.first ≤ lower) (hlast : i ≤ a.last) :
    ∃ g, extract less lower upper i a = some (a.withItems g) ∧
      Permutes lower (i - 1)
        (update (update a.items lower (a.items i)) i (a.items lower)) g ∧
      (IsHeapBut less lower (i - 1) lower
        (update (update a.items lower (a.items i)) i (a.items lower)) →
        IsHeap less lower (i - 1) g) := by
  obtain ⟨g, hrun, hperm, hheap⟩ := addRoot_eq (a := a.withItems
    (update (update a.items lower (a.items i)) i (a.items lower))) hless
    (by omega : i - 1 < 2 ^ 30) hlower (by omega : lower ≤ i - 1) hfirst
    (Int.le_trans (by omega) hlast) (by omega : _ < upper.toNat + 1)
  refine ⟨g, ?_, hperm, hheap lower hlower (Int.le_refl _)⟩
  rw [extract, Indexable.swap_eq (by omega) (by omega), some_bind]
  exact hrun

end

/-- The items after `i` are sorted, and the others are not greater. -/
structure Extracted (less : G → G → Bool) (upper i : Int) (f : Int → G) : Prop where
  heap : IsHeap less 1 i f
  sorted : IsSorted less (i + 1) upper f
  before : ∀ x y, 1 ≤ x → x ≤ i → i < y → y ≤ upper → less (f y) (f x) = false

section

variable (hless : IsStrictWeakOrder G fun x y => less x y = true)

include hless

theorem Extracted.turn (hsmall : upper < 2 ^ 30) (h : Extracted less upper i a.items) (hi : 1 < i)
    (hupper : i ≤ upper) (hfirst : a.first ≤ 1) (hlast : upper ≤ a.last) :
    ∃ g, extract less 1 upper i a = some (a.withItems g) ∧ Permutes 1 upper a.items g ∧
      Extracted less upper (i - 1) g := by
  obtain ⟨g, hrun, hperm, hheap⟩ :=
    extract_eq hless hsmall (Int.le_refl 1) hi hupper hfirst (Int.le_trans hupper hlast)
  have hswap : Permutes 1 i a.items
      (update (update a.items 1 (a.items i)) i (a.items 1)) :=
    permutes_swap (by omega) (by omega) a.items
  generalize hf : update (update a.items 1 (a.items i)) i (a.items 1) = f
    at hperm hheap hswap
  have hf_last : f i = a.items 1 := by
    rw [← hf]
    exact update_self _ _ _
  have hf_other : ∀ k, k ≠ 1 → k ≠ i → f k = a.items k := by
    intro k hk hki
    rw [← hf, update_of_ne hki, update_of_ne hk]
  have hg : ∀ k, i ≤ k → g k = f k := fun k hk => hperm.outside (Or.inr (by omega))
  have hmove := hswap.trans (hperm.mono (Int.le_refl 1) (by omega))
  have hmax : ∀ x, 1 ≤ x → x ≤ i → less (a.items 1) (a.items x) = false := by
    intro x hx hxi
    have hroot := h.heap.root_max hless (n := (x - 1).toNat) (by omega)
    rwa [Int.toNat_of_nonneg (by omega), Int.sub_add_cancel] at hroot
  -- What is before `i` now was not after `i`.
  have hfrom : ∀ x, 1 ≤ x → x ≤ i → ∃ x', 1 ≤ x' ∧ x' ≤ i ∧ g x = a.items x' := by
    intro x hx hxi
    obtain ⟨x', hx', heq⟩ := hmove.exists_index ⟨hx, hxi⟩
    exact ⟨x', hx'.1, hx'.2, heq⟩
  refine ⟨g, hrun, hmove.mono (Int.le_refl 1) hupper, hheap ?_, fun p q hp hpq hq => ?_,
    fun x y hx hxi hiy hy => ?_⟩
  · refine ⟨fun k hk hne c hc hci => ?_, fun k hk hparent => ?_⟩
    · rw [hf_other k hne (by omega), hf_other c (by omega) (by omega)]
      exact h.heap k hk c hc (by omega)
    · omega
  · by_cases hpi : p = i
    · rw [hpi, hg i (Int.le_refl i), hf_last, hg q (by omega), hf_other q (by omega) (by omega)]
      exact h.before 1 q (Int.le_refl 1) (by omega) (by omega) hq
    · rw [hg p (by omega), hg q (by omega), hf_other p (by omega) hpi,
        hf_other q (by omega) (by omega)]
      exact h.sorted p q (by omega) hpq hq
  · obtain ⟨x', hx', hxi', heq⟩ := hfrom x hx (by omega)
    rw [heq, hg y (by omega)]
    by_cases hyi : y = i
    · rw [hyi, hf_last]
      exact hmax x' hx' hxi'
    · rw [hf_other y (by omega) hyi]
      exact h.before x' y hx' hxi' (by omega) hy

/-- The items from `lower` to `count` are permuted. -/
theorem extractAll_eq {count : Int}
    (hsmall : upper < 2 ^ 30) (hlower : 1 ≤ lower) (hcount : count ≤ upper)
    (hfirst : a.first ≤ lower) (hlast : upper ≤ a.last) :
    ∃ g, forDown (extract less lower upper) (count - lower).toNat count a =
      some (a.withItems g) ∧ Permutes lower count a.items g := by
  obtain ⟨b, hrun, g, rfl, hperm⟩ := forDown_spec
    (fun _ b => ∃ g, b = a.withItems g ∧ Permutes lower count a.items g)
    (g := extract less lower upper) (i := count) (n := (count - lower).toNat)
    (fun i b hi hic hb => by
      obtain ⟨g, rfl, hperm⟩ := hb
      obtain ⟨g', hrun, hperm', -⟩ := extract_eq (a := a.withItems g) hless hsmall hlower
        (by omega : lower < i) (by omega : i ≤ upper) hfirst (Int.le_trans (by omega) hlast)
      have hswap : Permutes lower count g
          (update (update g lower (g i)) i (g lower)) :=
        permutes_swap (by omega) (by omega) g
      refine ⟨_, hrun, g', rfl, (hperm.trans hswap).trans ?_⟩
      exact hperm'.mono (Int.le_refl _) (by omega)) ⟨a.items, rfl, Permutes.refl _ _ _⟩
  exact ⟨g, hrun, hperm⟩

theorem subsort_one
    (hsmall : upper < 2 ^ 30) (hupper : 1 ≤ upper) (hfirst : a.first ≤ 1) (hlast : upper ≤ a.last) :
    ∃ g, subsort less a 1 upper = some (a.withItems g) ∧ Subsorted less 1 upper a.items g := by
  obtain ⟨g, hbuild, hperm, hheap⟩ := buildHeap_eq hless hsmall (Int.le_refl 1) hfirst hlast
  have hstart : Extracted less upper upper g :=
    ⟨hheap, fun p q hp hpq hq => by omega, fun x y hx hxi hy hyu => by omega⟩
  obtain ⟨b, hrun, f, rfl, hperm', hdone⟩ := forDown_spec
    (fun i b => ∃ f, b = a.withItems f ∧ Permutes 1 upper a.items f ∧ Extracted less upper i f)
    (g := extract less 1 upper) (i := upper) (n := (upper - 1).toNat)
    (fun i b hi hiu hb => by
      obtain ⟨f, rfl, hperm, h⟩ := hb
      obtain ⟨f', hrun, hperm', h'⟩ := Extracted.turn (a := a.withItems f) hless hsmall h (by omega)
        hiu hfirst hlast
      exact ⟨_, hrun, f', rfl, hperm.trans hperm', h'⟩) ⟨g, rfl, hperm, hstart⟩
  have hend : upper - (upper - 1).toNat = 1 := by omega
  rw [hend] at hdone
  refine ⟨f, ?_, fun p q hp hpq hq => ?_, hperm'.slice_perm, fun i hi => hperm'.outside hi⟩
  · rw [subsort, hbuild, some_bind, Int.sub_add_cancel]
    exact hrun
  · by_cases hone : p = 1
    · exact hone ▸ hdone.before 1 q (Int.le_refl 1) (Int.le_refl 1) (by omega) hq
    · exact hdone.sorted p q (by omega) hpq hq

end

/-- If no node of the slice has leaves in it, there is no turn of either loop. -/
theorem subsort_self (hleaves : upper / 2 < lower) :
    subsort less a lower upper = some a := by
  have hbuild : (upper / 2 + 1 - lower).toNat = 0 := by omega
  have hextract : (upper - lower + 1 - lower).toNat = 0 := by omega
  rw [subsort, buildHeap, hbuild, forDown, some_bind, hextract, forDown]

/-- From index `2 ^ 30` on, an ascending slice is not sorted. -/
theorem subsort_ascending (hlarge : 2 ^ 30 ≤ upper) (hupper : upper < 2 ^ 31) (hfirst : 1 ≤ a.first)
    (hfirst_le : a.first ≤ lower) (hlower : lower ≤ upper / 2) (hlast : upper ≤ a.last)
    (hless : ∀ i j, i < j → less (a.items i) (a.items j) = true) :
    subsort less a lower upper = none := by
  obtain ⟨n, hn⟩ : ∃ n : Nat, (upper / 2 + 1 - lower).toNat = n + 1 :=
    ⟨(upper / 2 - lower).toNat, by omega⟩
  obtain ⟨fuel, hfuel⟩ : ∃ fuel : Nat, upper.toNat + 1 = fuel + 2 := ⟨upper.toNat - 1, by omega⟩
  rw [subsort, buildHeap, hn, forDown, hfuel,
    addRoot_ascending hlarge hupper hfirst (by omega) hlast hless]
  rfl

/-- If the slice does not begin at index 1, the last item of a decreasing one stays where
it is. -/
theorem subsort_decreasing (hless : IsStrictWeakOrder G fun x y => less x y = true)
    (hsmall : upper < 2 ^ 30) (hlower : 2 ≤ lower) (hbounds : lower < upper)
    (hfirst : a.first ≤ lower) (hlast : upper ≤ a.last)
    (hdecreasing : ∀ i j, lower ≤ i → i < j → less (a.items j) (a.items i) = true) :
    ∃ g, subsort less a lower upper = some (a.withItems g) ∧
      less (g upper) (g lower) = true := by
  have hheap : IsHeap less lower upper a.items :=
    fun i hi c hc hcu => notLess_of_less hless (hdecreasing i c hi (by omega))
  have hbuild := buildHeap_self hless hsmall (by omega : 1 ≤ lower) hfirst hlast hheap
  have hcount : upper - lower + 1 ≤ upper := by omega
  obtain ⟨g, hrun, hperm⟩ := extractAll_eq hless hsmall (by omega : 1 ≤ lower) hcount hfirst hlast
  refine ⟨g, ?_, ?_⟩
  · rw [subsort, hbuild, some_bind]
    exact hrun
  · obtain ⟨j, hj, hju, heq⟩ : ∃ j, lower ≤ j ∧ j < upper ∧ g lower = a.items j := by
      by_cases hshort : upper - lower + 1 < lower
      · exact ⟨lower, Int.le_refl _, hbounds, hperm.outside (Or.inr hshort)⟩
      · obtain ⟨j, hj, heq⟩ := hperm.exists_index ⟨Int.le_refl lower, by omega⟩
        exact ⟨j, hj.1, by omega, heq⟩
    rw [heq, hperm.outside (Or.inr (by omega))]
    exact hdecreasing j upper hj hju

end

open Indexable (SortsSlices)

/-- Items in descending order are not sorted, unless the slice begins at index 1. -/
theorem not_sortsSlices_descending {lower upper : Int} (hlower : 2 ≤ lower)
    (hbounds : lower < upper) (hleaves : upper < 2 ^ 30 ∨ upper / 2 < lower) :
    ¬SortsSlices @subsort lower upper := by
  intro hsorts
  obtain ⟨g, hrun, hg⟩ := hsorts Int (fun x y => decide (x < y)) ⟨lower, upper, fun i => -i⟩
    strictWeak_lt (Int.le_refl _) (Int.le_refl _)
  obtain ⟨g', hrun', hlast⟩ : ∃ g', subsort (fun x y => decide (x < y))
      ⟨lower, upper, fun i => -i⟩ lower upper = some ⟨lower, upper, g'⟩ ∧
        decide (g' upper < g' lower) = true := by
    rcases hleaves with hsmall | hnone
    · exact subsort_decreasing strictWeak_lt (a := ⟨lower, upper, fun i => -i⟩) hsmall hlower
        hbounds (Int.le_refl _) (Int.le_refl _)
        fun i j _ hij => decide_eq_true (by omega : -j < -i)
    · exact ⟨_, subsort_self hnone, decide_eq_true (by omega : -upper < -lower)⟩
  have hitems : g = g' := congrArg Indexable.items (some.inj (hrun.symm.trans hrun'))
  have hsorted := hg.sorted lower upper (Int.le_refl _) hbounds (Int.le_refl _)
  rw [hitems] at hsorted
  exact Bool.false_ne_true (hsorted.symm.trans hlast)

/-- Only slices that begin at index 1 and end before index `2 ^ 30` get sorted, and those with
one item. -/
theorem heapSort_sorts_iff {lower upper : Int} (hlower : 1 ≤ lower) (hbounds : lower ≤ upper)
    (hupper : upper < 2 ^ 31) :
    SortsSlices @subsort lower upper ↔ lower = upper ∨ lower = 1 ∧ upper < 2 ^ 30 := by
  constructor
  · intro hsorts
    by_contra hnot
    by_cases hascending : 2 ^ 30 ≤ upper ∧ lower ≤ upper / 2
    · obtain ⟨g, hrun, -⟩ := hsorts Int (fun x y => decide (x < y)) ⟨lower, upper, fun i => i⟩
        strictWeak_lt (Int.le_refl _) (Int.le_refl _)
      rw [subsort_ascending hascending.1 hupper hlower (Int.le_refl _) hascending.2 (Int.le_refl _)
        fun i j hij => decide_eq_true hij] at hrun
      exact some_ne_none _ hrun.symm
    · exact not_sortsSlices_descending (by omega) (by omega) (by omega) hsorts
  · rintro hcases G less a hless hfirst hlast
    rcases hcases with rfl | ⟨rfl, hsmall⟩
    · refine ⟨a.items, subsort_self (by omega), fun i j hi hij hj => by omega,
        List.Perm.refl _, fun _ _ => rfl⟩
    · exact subsort_one hless hsmall hbounds hfirst hlast

theorem heapSort_sorts_iff_three :
    SortsSlices @subsort 1 3 ↔ (1 : Int) = 3 ∨ (1 : Int) = 1 ∧ (3 : Int) < 2 ^ 30 :=
  heapSort_sorts_iff (by decide) (by decide) (by decide)

/-- The items 3 and 2 at the indexes 2 and 3 are not even compared. -/
theorem heapSort_offset :
    subsort (fun x y => decide (x < y)) ⟨1, 3, fun i => 5 - i⟩ 2 3 =
        some ⟨1, 3, fun i : Int => 5 - i⟩ ∧
      ¬IsSorted (fun x y => decide (x < y)) 2 3 (fun i : Int => 5 - i) := by
  refine ⟨rfl, fun hsorted => ?_⟩
  exact absurd (hsorted 2 3 (by decide) (by decide) (by decide)) (by decide)

end HeapSorter

end Gobo
