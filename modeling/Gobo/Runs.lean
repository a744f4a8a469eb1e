/-
Runs of a state machine whose steps may fail, and the simulation of a run by a
fold over an abstract state.
-/

namespace Gobo

universe u v w

variable {S : Type u} {C : Type v} {A : Type w}

/-- Do all commands, one after the other. -/
def runAll (exec : S → C → Option S) (s : S) : List C → Option S
  | [] => some s
  | c :: cs => (exec s c).bind fun t => runAll exec t cs

/-- Every command is called in a state where `ok` is true. -/
def Permitted (exec : S → C → Option S) (ok : S → C → Prop) (s : S) : List C → Prop
  | [] => True
  | c :: cs => ok s c ∧ (exec s c).elim True fun t => Permitted exec ok t cs

section

variable {exec : S → C → Option S} {ok ok' : S → C → Prop}

instance decidablePermitted [∀ s c, Decidable (ok s c)] (s : S) :
    (cs : List C) → Decidable (Permitted exec ok s cs)
  | [] => isTrue trivial
  | c :: cs => by
      unfold Permitted
      cases exec s c with
      | none => exact inferInstanceAs (Decidable (_ ∧ True))
      | some t =>
          have := decidablePermitted t cs
          exact inferInstanceAs (Decidable (_ ∧ Permitted exec ok t cs))

/-- What every permitted step preserves of a state and the abstract state beside
it, every permitted run preserves. -/
theorem run_simulates (R : S → A → Prop) (next : A → C → A)
    (hstep : ∀ s a c, R s a → ok s c → ∃ t, exec s c = some t ∧ R t (next a c))
    {s : S} {a : A} (hs : R s a) {cs : List C} (hcs : Permitted exec ok s cs) :
    ∃ t, runAll exec s cs = some t ∧ R t (cs.foldl next a) := by
  induction cs generalizing s a with
  | nil => exact ⟨s, rfl, hs⟩
  | cons c cs ih =>
      obtain ⟨hok, hrest⟩ := hcs
      obtain ⟨t, hrun, ht⟩ := hstep s a c hs hok
      rw [hrun] at hrest
      obtain ⟨u, hrun', hu⟩ := ih ht hrest
      exact ⟨u, Option.bind_eq_some_iff.mpr ⟨t, hrun, hrun'⟩, hu⟩

/-- What every permitted step preserves, every permitted run preserves. -/
theorem run_preserves (I : S → Prop)
    (hstep : ∀ s c t, I s → ok s c → exec s c = some t → I t)
    {s t : S} (hs : I s) {cs : List C} (hcs : Permitted exec ok s cs)
    (h : runAll exec s cs = some t) : I t := by
  induction cs generalizing s with
  | nil => exact Option.some.inj h ▸ hs
  | cons c cs ih =>
      obtain ⟨u, hu, h⟩ := Option.bind_eq_some_iff.mp h
      obtain ⟨hok, hcs⟩ := hcs
      rw [hu] at hcs
      exact ih (hstep s c u hs hok hu) hcs h

theorem permitted_of_forall (hok : ∀ s c, ok s c) (s : S) (cs : List C) :
    Permitted exec ok s cs := by
  induction cs generalizing s with
  | nil => trivial
  | cons c cs ih =>
      refine ⟨hok s c, ?_⟩
      cases exec s c with
      | none => trivial
      | some t => exact ih t

/-- A run that is cut in two. -/
theorem runAll_append (s : S) (front back : List C) : runAll exec s (front ++ back) =
      (runAll exec s front).bind fun t => runAll exec t back := by
  induction front generalizing s with
  | nil => rfl
  | cons c front ih =>
      cases hrun : exec s c with
      | none => simp [runAll, hrun]
      | some t =>
          simp only [List.cons_append, runAll, hrun, Option.bind_some]
          exact ih t

theorem permitted_append (s : S) (front back : List C) :
    Permitted exec ok s (front ++ back) ↔
      Permitted exec ok s front ∧ ∀ t, runAll exec s front = some t → Permitted exec ok t back := by
  induction front generalizing s with
  | nil => simp [runAll, Permitted]
  | cons c front ih =>
      rw [List.cons_append, Permitted, Permitted, runAll]
      cases hrun : exec s c with
      | none => simp
      | some u =>
          simp only [Option.elim_some, Option.bind_some]
          rw [ih, and_assoc]

/-- From one state of a permitted run, a permitted run leads to each later one. -/
theorem exists_run_between {s u v : S} {cs : List C} {i j : Nat} (hcs : Permitted exec ok s cs)
    (hij : i ≤ j) (hu : runAll exec s (cs.take i) = some u)
    (hv : runAll exec s (cs.take j) = some v) :
    ∃ ds, Permitted exec ok u ds ∧ runAll exec u ds = some v := by
  obtain ⟨d, rfl⟩ := Nat.exists_eq_add_of_le hij
  rw [List.take_add, runAll_append, hu] at hv
  refine ⟨(cs.drop i).take d, ?_, hv⟩
  rw [← List.take_append_drop i cs, permitted_append] at hcs
  have hdrop := hcs.2 u hu
  rw [← List.take_append_drop d (cs.drop i), permitted_append] at hdrop
  exact hdrop.1

end

end Gobo
