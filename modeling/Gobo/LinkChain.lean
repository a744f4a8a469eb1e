/-
Singly linked chains over an arbitrary successor function.  A chain is the list
of cells met from a starting cell until the successor is undefined; everything
an intrusive list does to its links is a change of the successor function at
one cell.
-/
import Mathlib.Data.List.Nodup
import Mathlib.Data.List.Perm.Subperm
import Mathlib.Logic.Function.Basic

namespace Gobo

open List Function

universe u

variable {X : Type u}

/-- `xs` are the cells met from `start` along `next`, the last one having no
successor. -/
def Chain (next : X → Option X) : Option X → List X → Prop
  | start, [] => start = none
  | start, x :: xs => start = some x ∧ Chain next (next x) xs

namespace Chain

variable {next : X → Option X} {start : Option X} {xs ys : List X}

theorem head?_eq (h : Chain next start xs) : xs.head? = start := by
  cases xs with
  | nil => exact h.symm
  | cons x xs => exact h.1.symm

theorem unique (hx : Chain next start xs) (hy : Chain next start ys) : xs = ys := by
  induction xs generalizing start ys with
  | nil =>
      cases ys with
      | nil => rfl
      | cons y ys => exact absurd (hx.symm.trans hy.1) (by simp)
  | cons x xs ih =>
      cases ys with
      | nil => exact absurd (hy.symm.trans hx.1) (by simp)
      | cons y ys =>
          obtain rfl : x = y := Option.some.inj (hx.1.symm.trans hy.1)
          rw [ih hx.2 hy.2]

/-- Every cell of a chain starts a chain of its own, the rest of the list. -/
theorem suffix {x : X} (h : Chain next start (xs ++ x :: ys)) :
    Chain next (next x) ys := by
  induction xs generalizing start with
  | nil => exact h.2
  | cons z zs ih => exact ih h.2

/-- A chain never meets a cell twice: from a repeated cell it could not end. -/
theorem nodup (h : Chain next start xs) : xs.Nodup := by
  induction xs generalizing start with
  | nil => exact nodup_nil
  | cons x xs ih =>
      refine nodup_cons.mpr ⟨?_, ih h.2⟩
      intro hmem
      obtain ⟨front, back, rfl⟩ := append_of_mem hmem
      have hback : front ++ x :: back = back := h.2.unique (suffix h.2)
      have hlength := congrArg length hback
      simp only [length_append, length_cons] at hlength
      omega

/-- A chain starts with its first cell only. -/
theorem start_ne {x : X} (h : Chain next start (xs ++ x :: ys)) (hxs : xs ≠ []) :
    start ≠ some x := by
  rintro rfl
  have hsame : xs ++ x :: ys = x :: ys := h.unique ⟨rfl, suffix h⟩
  have hlength := congrArg length hsame
  rw [length_append, Nat.add_eq_right] at hlength
  exact hxs (eq_nil_of_length_eq_zero hlength)

/-- A chain of numbers below `n` has at most `n` cells. -/
theorem length_le {next : Nat → Option Nat} {start : Option Nat} {n : Nat}
    {cells : List Nat} (h : Chain next start cells) (hlt : ∀ j ∈ cells, j < n) :
    cells.length ≤ n := by
  have hsub : cells ⊆ range n := fun j hj => mem_range.mpr (hlt j hj)
  simpa using (subperm_of_subset h.nodup hsub).length_le

theorem congr {next' : X → Option X} (h : Chain next start xs)
    (heq : ∀ x ∈ xs, next' x = next x) : Chain next' start xs := by
  induction xs generalizing start with
  | nil => exact h
  | cons x xs ih =>
      refine ⟨h.1, ?_⟩
      rw [heq x mem_cons_self]
      exact ih h.2 fun y hy => heq y (mem_cons_of_mem x hy)

theorem eq_nil_of_none (h : Chain next none xs) : xs = [] := by
  cases xs with
  | nil => rfl
  | cons x xs => exact absurd h.1 (by simp)

theorem next_last {x : X} (h : Chain next start (xs ++ [x])) : next x = none :=
  suffix h

theorem next_eq {x : X} (h : Chain next start (xs ++ x :: ys)) : next x = ys.head? :=
  (suffix h).head?_eq.symm

variable [DecidableEq X]

theorem update_of_notMem {x : X} {v : Option X} (h : Chain next start xs)
    (hx : x ∉ xs) : Chain (update next x v) start xs := by
  refine h.congr fun y hy => ?_
  have hne : y ≠ x := by
    rintro rfl
    exact hx hy
  rw [update_of_ne hne]

/-- Linking a new cell in front of a chain. -/
theorem push {x : X} (h : Chain next start xs) (hx : x ∉ xs) :
    Chain (update next x start) (some x) (x :: xs) := by
  refine ⟨rfl, ?_⟩
  rw [update_self]
  exact h.update_of_notMem hx

/-- Linking a new cell behind a cell of a chain. -/
theorem insertAfter {x z : X} (h : Chain next start (xs ++ x :: ys))
    (hz : z ∉ xs ++ x :: ys) :
    Chain (update (update next z (next x)) x (some z)) start
      (xs ++ x :: z :: ys) := by
  induction xs generalizing start with
  | nil =>
      simp only [nil_append, mem_cons, not_or] at hz
      have hnodup := h.nodup
      simp only [nil_append, nodup_cons] at hnodup
      refine ⟨h.1, ?_⟩
      rw [update_self]
      refine ⟨rfl, ?_⟩
      rw [update_of_ne hz.1, update_self]
      exact (h.2.update_of_notMem hz.2).update_of_notMem hnodup.1
  | cons w ws ih =>
      have hnodup := h.nodup
      simp only [cons_append, nodup_cons, mem_append, mem_cons, not_or] at hnodup
      simp only [cons_append, mem_cons, not_or] at hz
      refine ⟨h.1, ?_⟩
      rw [update_of_ne hnodup.1.2.1, update_of_ne (Ne.symm hz.1)]
      exact ih h.2 hz.2

/-- Unlinking a cell that has a predecessor. -/
theorem unlink {x y : X} (h : Chain next start (xs ++ x :: y :: ys)) :
    Chain (update next x (next y)) start (xs ++ x :: ys) := by
  induction xs generalizing start with
  | nil =>
      have hnodup := h.nodup
      simp only [nil_append, nodup_cons, mem_cons, not_or] at hnodup
      refine ⟨h.1, ?_⟩
      rw [update_self]
      exact h.2.2.update_of_notMem hnodup.1.2
  | cons w ws ih =>
      have hnodup := h.nodup
      simp only [cons_append, nodup_cons, mem_append, mem_cons, not_or] at hnodup
      refine ⟨h.1, ?_⟩
      rw [update_of_ne hnodup.1.2.1]
      exact ih h.2

end Chain

section

universe v

variable {S : Type v} {right : S → X → Option X} {f : X → S → Option S}

/-- A loop over the cells of a chain, which reads the successor of a cell after its turn; it
fails when it has not ended after `fuel` turns. -/
def forCells (right : S → X → Option X) (f : X → S → Option S) :
    Nat → Option X → S → Option S
  | _, none, s => some s
  | 0, some _, _ => none
  | fuel + 1, some x, s => (f x s).bind fun s => forCells right f fuel (right s x) s

/-- The rule of a loop over a chain: `I done s` holds after the cells of `done`. -/
theorem forCells_spec {xs : List X} (I : List X → S → Prop)
    (hturn : ∀ done x rest s, xs = done ++ x :: rest → I done s →
      ∃ s', f x s = some s' ∧ right s' x = rest.head? ∧ I (done ++ [x]) s')
    {fuel : Nat} {s : S} (hfuel : xs.length ≤ fuel) (hs : I [] s) :
    ∃ s', forCells right f fuel xs.head? s = some s' ∧ I xs s' := by
  have hrun : ∀ rest done fuel s, xs = done ++ rest → rest.length ≤ fuel → I done s →
      ∃ s', forCells right f fuel rest.head? s = some s' ∧ I xs s' := by
    intro rest
    induction rest with
    | nil =>
        intro done fuel s hxs _ hs
        rw [append_nil] at hxs
        exact ⟨s, by cases fuel <;> rfl, hxs ▸ hs⟩
    | cons x rest ih =>
        intro done fuel s hxs hfuel hs
        obtain ⟨s₁, hbody, hright, hs₁⟩ := hturn done x rest s hxs hs
        cases fuel with
        | zero => exact absurd hfuel (Nat.not_succ_le_zero _)
        | succ fuel =>
            obtain ⟨s', hrest, hs'⟩ := ih (done ++ [x]) fuel s₁
              (by rw [hxs, append_assoc]; rfl) (Nat.le_of_succ_le_succ hfuel) hs₁
            refine ⟨s', ?_, hs'⟩
            rw [head?_cons, forCells, hbody, Option.bind_some, hright]
            exact hrest
  exact hrun xs [] fuel s rfl hfuel hs

/-- A loop that does not change the chain goes over the list of its cells. -/
theorem forCells_eq_foldlM {next : X → Option X} {start : Option X} {xs : List X} {fuel : Nat}
    {s : S} (h : Chain next start xs) (hfuel : xs.length ≤ fuel) :
    forCells (fun _ => next) f fuel start s = xs.foldlM (fun s x => f x s) s := by
  induction xs generalizing start fuel s with
  | nil =>
      rw [show start = none from h]
      cases fuel <;> rfl
  | cons x xs ih =>
      cases fuel with
      | zero => exact absurd hfuel (Nat.not_succ_le_zero _)
      | succ fuel =>
          rw [h.1, forCells, foldlM_cons]
          exact Option.bind_congr fun s' _ => ih h.2 (Nat.le_of_succ_le_succ hfuel)

end

end Gobo
