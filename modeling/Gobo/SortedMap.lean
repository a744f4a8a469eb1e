/-
Sorted maps: lists of pairs in strictly increasing order of their keys, for a
comparison that is total up to equivalence.
-/
import Mathlib.Data.List.Pairwise

namespace Gobo

open List

/-- A total order up to equivalence: of three values, the middle one is beyond
the least or before the greatest. -/
structure Comparator (κ : Type) where
  lessThan : κ → κ → Bool
  irrefl : ∀ a, lessThan a a = false
  trans : ∀ a b c, lessThan a b = true → lessThan b c = true → lessThan a c = true
  total : ∀ a b c, lessThan a c = true → lessThan a b = true ∨ lessThan b c = true

namespace Comparator

variable {κ : Type} (o : Comparator κ) {a b c : κ}

/-- Neither less nor greater. -/
def equal (a b : κ) : Bool := !o.lessThan a b && !o.lessThan b a

variable {o}

theorem equal_iff : o.equal a b = true ↔
    o.lessThan a b = false ∧ o.lessThan b a = false := by
  simp [equal]

theorem equal_refl (a : κ) : o.equal a a = true :=
  equal_iff.mpr ⟨o.irrefl a, o.irrefl a⟩

theorem equal_symm (h : o.equal a b = true) : o.equal b a = true :=
  equal_iff.mpr (equal_iff.mp h).symm

theorem asymm (h : o.lessThan a b = true) : o.lessThan b a = false := by
  by_contra hba
  have haa := o.trans a b a h (by simpa using hba)
  rw [o.irrefl] at haa
  exact Bool.false_ne_true haa

theorem equal_of_less (h : o.lessThan a b = true) : o.equal a b = false := by
  simp [equal, h]

theorem equal_of_greater (h : o.lessThan b a = true) : o.equal a b = false := by
  simp [equal, h]

theorem less_of_less_of_equal (h : o.lessThan a b = true) (hbc : o.equal b c = true) :
    o.lessThan a c = true := by
  rcases o.total a c b h with hac | hcb
  · exact hac
  · rw [(equal_iff.mp hbc).2] at hcb
    exact absurd hcb Bool.false_ne_true

theorem less_of_equal_of_less (hab : o.equal a b = true) (h : o.lessThan b c = true) :
    o.lessThan a c = true := by
  rcases o.total b a c h with hba | hac
  · rw [(equal_iff.mp hab).2] at hba
    exact absurd hba Bool.false_ne_true
  · exact hac

/-- The order with a further value below all others. -/
def withBottom (o : Comparator κ) : Comparator (Option κ) where
  lessThan
    | none, none => false
    | none, some _ => true
    | some _, none => false
    | some a, some b => o.lessThan a b
  irrefl
    | none => rfl
    | some a => o.irrefl a
  trans
    | none, none, _, h, _ => absurd h Bool.false_ne_true
    | none, some _, none, _, h => absurd h Bool.false_ne_true
    | none, some _, some _, _, _ => rfl
    | some _, none, _, h, _ => absurd h Bool.false_ne_true
    | some _, some _, none, _, h => absurd h Bool.false_ne_true
    | some a, some b, some c, hab, hbc => o.trans a b c hab hbc
  total
    | none, none, none, h => absurd h Bool.false_ne_true
    | none, none, some _, _ => Or.inr rfl
    | none, some _, _, _ => Or.inl rfl
    | some _, none, none, h => absurd h Bool.false_ne_true
    | some _, none, some _, _ => Or.inr rfl
    | some _, some _, none, h => absurd h Bool.false_ne_true
    | some a, some b, some c, h => o.total a b c h

end Comparator

namespace SortedMap

variable {κ υ : Type} (o : Comparator κ)

/-- Strictly increasing keys. -/
def Sorted (l : List (κ × υ)) : Prop :=
  l.Pairwise fun a b => o.lessThan a.1 b.1 = true

/-- Adds a pair at its place, or exchanges the item of an equal key; then
`renew` tells whether the key is exchanged as well. -/
def insert (renew : Bool) (k : κ) (v : υ) : List (κ × υ) → List (κ × υ)
  | [] => [(k, v)]
  | (l, w) :: rest =>
      if o.lessThan k l then (k, v) :: (l, w) :: rest
      else if o.lessThan l k then (l, w) :: insert renew k v rest
      else (if renew then k else l, v) :: rest

def erase (k : κ) (l : List (κ × υ)) : List (κ × υ) :=
  l.filter fun p => !o.equal k p.1

def lookup (k : κ) (l : List (κ × υ)) : Option υ :=
  (l.find? fun p => o.equal k p.1).map Prod.snd

variable {o} {renew : Bool} {k k' : κ} {v : υ} {front back l : List (κ × υ)}

/-- A key beyond a front and before a back goes between them. -/
theorem insert_between (hfront : ∀ p ∈ front, o.lessThan p.1 k = true)
    (hback : ∀ p ∈ back, o.lessThan k p.1 = true) :
    insert o renew k v (front ++ back) = front ++ (k, v) :: back := by
  induction front with
  | nil =>
      cases back with
      | nil => rfl
      | cons p back =>
          rw [nil_append, insert, if_pos (hback p mem_cons_self)]
          rfl
  | cons p front ih =>
      have hp := hfront p mem_cons_self
      have hp' := Comparator.asymm hp
      rw [cons_append, insert, if_neg (by simp [hp']), if_pos hp,
        ih fun q hq => hfront q (mem_cons_of_mem p hq)]
      rfl

/-- An equal key after a front of smaller ones keeps its place. -/
theorem insert_at {w : υ} (hfront : ∀ p ∈ front, o.lessThan p.1 k = true)
    (hk : o.equal k k' = true) :
    insert o renew k v (front ++ (k', w) :: back) =
      front ++ (if renew then k else k', v) :: back := by
  induction front with
  | nil =>
      obtain ⟨h₁, h₂⟩ := Comparator.equal_iff.mp hk
      simp [insert, h₁, h₂]
  | cons p front ih =>
      have hp := hfront p mem_cons_self
      have hp' := Comparator.asymm hp
      rw [cons_append, insert, if_neg (by simp [hp']), if_pos hp,
        ih fun q hq => hfront q (mem_cons_of_mem p hq)]
      rfl

theorem erase_at {w : υ} (hfront : ∀ p ∈ front, o.equal k p.1 = false)
    (hk : o.equal k k' = true) (hback : ∀ p ∈ back, o.equal k p.1 = false) :
    erase o k (front ++ (k', w) :: back) = front ++ back := by
  have hkeep : ∀ l : List (κ × υ), (∀ p ∈ l, o.equal k p.1 = false) →
      l.filter (fun p => !o.equal k p.1) = l := by
    intro l hl
    apply filter_eq_self.mpr
    intro p hp
    rw [hl p hp]
    rfl
  rw [erase, filter_append, filter_cons_of_neg (by simp [hk]),
    hkeep front hfront, hkeep back hback]

theorem erase_of_absent (h : ∀ p ∈ l, o.equal k p.1 = false) : erase o k l = l := by
  apply filter_eq_self.mpr
  intro p hp
  rw [h p hp]
  rfl

theorem lookup_of_absent (h : ∀ p ∈ l, o.equal k p.1 = false) :
    lookup o k l = none := by
  rw [lookup, find?_eq_none.mpr]
  · rfl
  · intro p hp
    simp [h p hp]

theorem lookup_at {w : υ} (hfront : ∀ p ∈ front, o.equal k p.1 = false)
    (hk : o.equal k k' = true) :
    lookup o k (front ++ (k', w) :: back) = some w := by
  induction front with
  | nil => simp [lookup, hk]
  | cons p front ih =>
      have hp := hfront p mem_cons_self
      rw [lookup, cons_append, find?_cons_of_neg (by simp [hp])]
      exact ih fun q hq => hfront q (mem_cons_of_mem p hq)

end SortedMap

end Gobo
