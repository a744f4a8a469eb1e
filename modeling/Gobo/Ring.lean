/-
Rings over an arbitrary successor function: the elements met from one of them until
it is met again.
-/
import Mathlib.Data.List.Nodup
import Mathlib.Logic.Function.Basic

namespace Gobo

open List Function

universe u

variable {X : Type u}

/-- Along `next`, the elements `ys` lie between `x` and `z`. -/
def LeadsTo (next : X → X) : X → List X → X → Prop
  | x, [], z => next x = z
  | x, y :: ys, z => next x = y ∧ LeadsTo next y ys z

/-- From `x` along `next`, the elements `ys` are met before `x` is met again. -/
def Ring (next : X → X) (x : X) (ys : List X) : Prop := LeadsTo next x ys x

namespace LeadsTo

variable {next : X → X} {x y z : X} {xs ys : List X}

theorem append_iff : LeadsTo next x (xs ++ y :: ys) z ↔ LeadsTo next x xs y ∧
    LeadsTo next y ys z := by
  induction xs generalizing x with
  | nil => exact Iff.rfl
  | cons w xs ih => rw [cons_append, LeadsTo, LeadsTo, ih, and_assoc]

theorem congr {next' : X → X} (h : LeadsTo next x xs z)
    (heq : ∀ w ∈ x :: xs, next' w = next w) : LeadsTo next' x xs z := by
  induction xs generalizing x with
  | nil => exact (heq x mem_cons_self).trans h
  | cons w xs ih =>
      refine ⟨(heq x mem_cons_self).trans h.1, ih h.2 ?_⟩
      exact fun v hv => heq v (mem_cons_of_mem x hv)

end LeadsTo

namespace Ring

variable {next : X → X} {x y z : X} {xs ys : List X}

theorem rotate (h : Ring next x (xs ++ y :: ys)) : Ring next y (ys ++ x :: xs) := by
  obtain ⟨hfront, hback⟩ := LeadsTo.append_iff.mp h
  exact LeadsTo.append_iff.mpr ⟨hback, hfront⟩

/-- Every element of a ring has a ring of the same elements. -/
theorem exists_of_mem (h : Ring next x xs) (hy : y ∈ x :: xs) :
    ∃ ys, Ring next y ys ∧ (y :: ys).Perm (x :: xs) := by
  rcases mem_cons.mp hy with rfl | hy
  · exact ⟨xs, h, List.Perm.refl _⟩
  · obtain ⟨front, back, rfl⟩ := append_of_mem hy
    refine ⟨back ++ x :: front, h.rotate, ?_⟩
    have hperm : (y :: back ++ x :: front).Perm (x :: front ++ y :: back) := perm_append_comm
    exact hperm

theorem next_eq_self_iff (h : Ring next x xs) (hx : x ∉ xs) : next x = x ↔ xs = [] := by
  cases xs with
  | nil => exact ⟨fun _ => rfl, fun _ => h⟩
  | cons y ys =>
      have hne : y ≠ x := fun heq => hx (heq ▸ mem_cons_self)
      simp [h.1, hne]

variable [DecidableEq X]

/-- A new element after one of the ring. -/
theorem insert (h : Ring next x xs) (hx : x ∉ xs) (hz : z ∉ x :: xs) :
    Ring (update (update next z (next x)) x z) x (z :: xs) := by
  have hzx : z ≠ x := fun heq => hz (heq ▸ mem_cons_self)
  refine ⟨update_self _ _ _, ?_⟩
  have hkeep : ∀ w ∈ xs, update (update next z (next x)) x z w = next w := by
    intro w hw
    have hwx : w ≠ x := fun heq => hx (heq ▸ hw)
    have hwz : w ≠ z := fun heq => hz (heq ▸ mem_cons_of_mem x hw)
    rw [update_of_ne hwx, update_of_ne hwz]
  have hnew : update (update next z (next x)) x z z = next x := by
    rw [update_of_ne hzx, update_self]
  cases xs with
  | nil => exact hnew.trans h
  | cons y ys => exact ⟨hnew.trans h.1, h.2.congr hkeep⟩

/-- The elements after `x`, by walking until `x` is met again. -/
def walk (next : X → X) (x : X) : Nat → X → List X
  | 0, _ => []
  | fuel + 1, y => if y = x then [] else y :: walk next x fuel (next y)

theorem walk_eq {fuel : Nat} (h : Ring next x xs) (hx : x ∉ xs) (hfuel : xs.length < fuel) :
    walk next x fuel (next x) = xs := by
  have hpath : ∀ (w : X) (zs : List X) (n : Nat), LeadsTo next w zs x → x ∉ zs → zs.length < n →
      walk next x n (next w) = zs := by
    intro w zs
    induction zs generalizing w with
    | nil =>
        intro n hend _ hn
        obtain ⟨n, rfl⟩ : ∃ m, n = m + 1 := ⟨n - 1, by omega⟩
        exact if_pos hend
    | cons v zs ih =>
        intro n hp hnot hn
        obtain ⟨n, rfl⟩ : ∃ m, n = m + 1 := ⟨n - 1, by omega⟩
        rw [length_cons] at hn
        have hne : v ≠ x := fun heq => hnot (heq ▸ mem_cons_self)
        rw [hp.1, walk, if_neg hne,
          ih v n hp.2 (fun hmem => hnot (mem_cons_of_mem v hmem)) (by omega)]
  exact hpath x xs fuel h hx hfuel

end Ring

end Gobo
