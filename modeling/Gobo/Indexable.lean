/-
Containers whose items are accessed by their index (`DS_INDEXABLE`). An access outside
of the accessible indexes fails, so that a result shows which indexes are accessed.
-/
import Gobo.IndexedItems

namespace Gobo

universe u

/-- The items at the indexes that may be accessed. -/
structure Indexable (G : Type u) where
  first : Int
  last : Int
  items : Int → G

namespace Indexable

variable {G : Type u}

def item (a : Indexable G) (i : Int) : Option G :=
  if a.first ≤ i ∧ i ≤ a.last then some (a.items i) else none

def replace (a : Indexable G) (v : G) (i : Int) : Option (Indexable G) :=
  if a.first ≤ i ∧ i ≤ a.last then some { a with items := Function.update a.items i v } else none

def swap (a : Indexable G) (i j : Int) : Option (Indexable G) := do
  let v ← a.item i
  let w ← a.item j
  let a ← a.replace w i
  a.replace v j

/-- The same indexes are accessible. -/
def withItems (a : Indexable G) (f : Int → G) : Indexable G :=
  { a with items := f }

/-- All slices `lower`..`upper` get sorted, with no access to an index outside of them. -/
def SortsSlices
    (subsort : (G : Type u) → (G → G → Bool) → Indexable G → Int → Int → Option (Indexable G))
    (lower upper : Int) : Prop :=
  ∀ (G : Type u) (less : G → G → Bool) (a : Indexable G),
    IsStrictWeakOrder G (fun x y => less x y = true) → a.first ≤ lower → upper ≤ a.last →
      ∃ g, subsort G less a lower upper = some (a.withItems g) ∧
        Subsorted less lower upper a.items g

section

variable {a : Indexable G} {f : Int → G} {i j : Int} {v : G}

@[simp] theorem withItems_items : (a.withItems f).items = f := rfl

theorem item_eq (hi : a.first ≤ i ∧ i ≤ a.last) : a.item i = some (a.items i) :=
  if_pos hi

theorem replace_eq (hi : a.first ≤ i ∧ i ≤ a.last) :
    a.replace v i = some (a.withItems (Function.update a.items i v)) :=
  if_pos hi

theorem swap_eq (hi : a.first ≤ i ∧ i ≤ a.last) (hj : a.first ≤ j ∧ j ≤ a.last) :
    a.swap i j = some (a.withItems
      (Function.update (Function.update a.items i (a.items j)) j (a.items i))) := by
  have hj' : (a.withItems (Function.update a.items i (a.items j))).first ≤ j ∧
      j ≤ (a.withItems (Function.update a.items i (a.items j))).last := hj
  simp only [swap, item_eq hi, item_eq hj, Option.bind_eq_bind, Option.bind_some, replace_eq hi]
  exact replace_eq hj'

end

end Indexable

end Gobo
