/-
Lists in which a relation goes forwards, cycles of a relation, and what a topological sort
is.
-/
import Mathlib.Data.List.Nodup
import Mathlib.Data.List.Perm.Subperm
import Mathlib.Logic.Relation

namespace Gobo

open List

universe u

variable {A : Type u} {R : A → A → Prop} {l : List A} {u v w : A}

/-- `u` is in the list, and `v` somewhere after it. -/
def Precedes (l : List A) (u v : A) : Prop := [u, v].Sublist l

theorem Precedes.right_mem (h : Precedes l u v) : v ∈ l :=
  h.subset (mem_cons_of_mem u mem_cons_self)

theorem Precedes.append (h : Precedes l u v) (l' : List A) : Precedes (l ++ l') u v :=
  h.trans (sublist_append_left l l')

theorem precedes_concat (hu : u ∈ l) (v : A) : Precedes (l ++ [v]) u v :=
  (singleton_sublist.mpr hu).append (List.Sublist.refl [v])

theorem Precedes.trans (hl : l.Nodup) (huv : Precedes l u v) (hvw : Precedes l v w) :
    Precedes l u w := by
  induction l with
  | nil => exact absurd huv.right_mem not_mem_nil
  | cons a l ih =>
      obtain ⟨ha, hl⟩ := nodup_cons.mp hl
      rcases sublist_cons_iff.mp huv with huv | ⟨_, heq, hv⟩
      · have hmem : v ∈ l := Precedes.right_mem huv
        rcases sublist_cons_iff.mp hvw with hvw | ⟨_, heq, -⟩
        · exact (ih hl huv hvw).cons a
        · obtain ⟨rfl, -⟩ := cons.inj heq
          exact absurd hmem ha
      · obtain ⟨rfl, rfl⟩ := cons.inj heq
        have hmem := singleton_sublist.mp hv
        rcases sublist_cons_iff.mp hvw with hvw | ⟨_, heq, -⟩
        · exact (singleton_sublist.mpr (Precedes.right_mem hvw)).cons_cons u
        · obtain ⟨rfl, -⟩ := cons.inj heq
          exact absurd hmem ha

theorem not_precedes_self (hl : l.Nodup) : ¬Precedes l u u := fun h =>
  (nodup_cons.mp (h.nodup hl)).1 mem_cons_self

/-- Each item precedes the ones it is related to. -/
def Forward (R : A → A → Prop) (l : List A) : Prop := ∀ u v, R u v → Precedes l u v

theorem Forward.precedes (hl : l.Nodup) (h : Forward R l) (huv : Relation.TransGen R u v) :
    Precedes l u v := by
  induction huv with
  | single huv => exact h _ _ huv
  | tail _ hvw ih => exact ih.trans hl (h _ _ hvw)

/-- A relation without cycles. -/
def Acyclic (R : A → A → Prop) : Prop := ∀ u, ¬Relation.TransGen R u u

theorem Forward.acyclic (hl : l.Nodup) (h : Forward R l) : Acyclic R :=
  fun _ huu => not_precedes_self hl (h.precedes hl huu)

/-- A cycle in reverse order, with its first item repeated at the end. -/
def IsReverseCycle (R : A → A → Prop) (c : List A) : Prop :=
  ∃ v path, c = v :: path ++ [v] ∧ (v :: path).Nodup ∧ c.IsChain fun a b => R b a

theorem transGen_of_isChain {path : List A}
    (h : (v :: path ++ [w]).IsChain fun a b => R b a) : Relation.TransGen R w v := by
  induction path generalizing v with
  | nil => exact .single (isChain_cons_cons.mp h).1
  | cons a path ih =>
      obtain ⟨hav, hrest⟩ := isChain_cons_cons.mp h
      exact (ih hrest).tail hav

theorem IsReverseCycle.not_acyclic {c : List A} (h : IsReverseCycle R c) : ¬Acyclic R := by
  obtain ⟨v, path, rfl, -, hchain⟩ := h
  exact fun hacyclic => hacyclic v (transGen_of_isChain hchain)

/-- The result of a topological sort: the items in an order of the relation, or some of them
and a cycle. -/
structure IsTopologicalSort (items : List A) (R : A → A → Prop) (sorted : List A)
    (cycle : Option (List A)) : Prop where
  acyclic : Acyclic R → sorted.Perm items ∧ Forward R sorted ∧ cycle = none
  cyclic : ¬Acyclic R → sorted.Subperm items ∧ sorted.length < items.length ∧
    ∃ c, cycle = some c ∧ IsReverseCycle R c

end Gobo
