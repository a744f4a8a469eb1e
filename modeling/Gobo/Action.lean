/-
Routines that read and change a state and may raise an exception.  A raise leaves the state as
it is at that moment.  A step that is not defined has no result at all.
-/
import Mathlib.Data.Option.Basic

namespace Gobo

/-- A routine over the state `S` with a result in `A`. -/
def Action (S A : Type) : Type := S → Option (Except String A × S)

namespace Action

variable {S A B : Type}

/-- The result of a routine goes to the next one, unless an exception is raised. -/
def andThen (x : Action S A) (f : A → Action S B) : Action S B := fun s =>
  match x s with
  | none => none
  | some (.error m, s') => some (.error m, s')
  | some (.ok a, s') => f a s'

instance : Monad (Action S) where
  pure a := fun s => some (.ok a, s)
  bind := andThen

/-- A step that may not be defined. -/
def lift (x : Option A) : Action S A := fun s => x.map fun a => (.ok a, s)

/-- The state. -/
def state : Action S S := fun s => some (.ok s, s)

/-- Change the state. -/
def change (f : S → S) : Action S Unit := fun s => some (.ok (), f s)

/-- Raise an exception. -/
def raise (message : String) : Action S A := fun s => some (.error message, s)

/-- A routine that is called only if `c` holds. -/
def onlyIf (c : Prop) [Decidable c] (x : Action S Unit) : Action S Unit := if c then x else pure ()

/-- The routine ends: without an exception under `Q`, with one under `E`. -/
def Meets (x : Action S A) (s : S) (Q : A → S → Prop) (E : S → Prop) : Prop :=
  (∃ a s', x s = some (.ok a, s') ∧ Q a s') ∨ ∃ m s', x s = some (.error m, s') ∧ E s'

/-- From a state under `I` the routine ends under `Q`, or with an exception under `E`, if it
ends. -/
def Leads (I : S → Prop) (x : Action S A) (Q : A → S → Prop) (E : S → Prop) : Prop :=
  ∀ s, I s → (∀ a s', x s = some (.ok a, s') → Q a s') ∧ ∀ m s', x s = some (.error m, s') → E s'

section

variable {x : Action S A} {f : A → Action S B} {s s' : S} {a : A} {Q Q' : A → S → Prop}
  {R : B → S → Prop} {E E' : S → Prop}

theorem bind_of_ok (h : x s = some (.ok a, s')) : (x >>= f) s = f a s' := by
  change andThen x f s = _
  rw [andThen, h]

theorem bind_of_error {m : String} (h : x s = some (.error m, s')) :
    (x >>= f) s = some (.error m, s') := by
  change andThen x f s = _
  rw [andThen, h]

namespace Meets

theorem pure (h : Q a s) : Meets (Pure.pure a) s Q E := Or.inl ⟨a, s, rfl, h⟩

theorem bind (hx : x.Meets s Q E) (hf : ∀ a s', Q a s' → (f a).Meets s' R E) :
    (x >>= f).Meets s R E := by
  rcases hx with ⟨a, s', hrun, ha⟩ | ⟨m, s', hrun, hs'⟩
  · rcases hf a s' ha with ⟨b, s'', hrun', hb⟩ | ⟨m, s'', hrun', hs''⟩
    · exact Or.inl ⟨b, s'', (bind_of_ok hrun).trans hrun', hb⟩
    · exact Or.inr ⟨m, s'', (bind_of_ok hrun).trans hrun', hs''⟩
  · exact Or.inr ⟨m, s', bind_of_error hrun, hs'⟩

theorem mono (hx : x.Meets s Q E) (hQ : ∀ a s', Q a s' → Q' a s') (hE : ∀ s', E s' → E' s') :
    x.Meets s Q' E' := by
  rcases hx with ⟨a, s', hrun, ha⟩ | ⟨m, s', hrun, hs'⟩
  · exact Or.inl ⟨a, s', hrun, hQ a s' ha⟩
  · exact Or.inr ⟨m, s', hrun, hE s' hs'⟩

theorem lift {o : Option A} (ho : o = some a) (h : Q a s) : (Action.lift o).Meets s Q E :=
  Or.inl ⟨a, s, by rw [Action.lift, ho]; rfl, h⟩

theorem state {Q : S → S → Prop} (h : Q s s) : Action.state.Meets s Q E := Or.inl ⟨s, s, rfl, h⟩

theorem change {g : S → S} {Q : Unit → S → Prop} (h : Q () (g s)) :
    (Action.change g).Meets s Q E :=
  Or.inl ⟨(), g s, rfl, h⟩

theorem raise {m : String} (h : E s) : (Action.raise m : Action S A).Meets s Q E :=
  Or.inr ⟨m, s, rfl, h⟩

theorem onlyIf {c : Prop} [Decidable c] {x : Action S Unit} {Q : Unit → S → Prop}
    (hx : c → x.Meets s Q E) (hs : ¬c → Q () s) : (Action.onlyIf c x).Meets s Q E := by
  rw [Action.onlyIf]
  split
  · exact hx ‹_›
  · exact Meets.pure (hs ‹_›)

theorem state_bind {f : S → Action S B} (h : (f s).Meets s R E) :
    (Action.state >>= f).Meets s R E :=
  (Meets.state (Q := fun a t => a = s ∧ t = s) ⟨rfl, rfl⟩).bind fun _ _ hst => by
    rw [hst.1, hst.2]
    exact h

theorem change_bind {g : S → S} {f : Unit → Action S B} (h : (f ()).Meets (g s) R E) :
    (Action.change g >>= f).Meets s R E :=
  (Meets.change (Q := fun _ t => t = g s) rfl).bind fun _ _ hst => by
    rw [hst]
    exact h

theorem lift_bind {o : Option A} (ho : o = some a) (h : (f a).Meets s R E) :
    (Action.lift o >>= f).Meets s R E :=
  (Meets.lift (Q := fun b t => b = a ∧ t = s) ho ⟨rfl, rfl⟩).bind fun _ _ hst => by
    rw [hst.1, hst.2]
    exact h

/-- What holds at the end of a run. -/
theorem of_run (hx : x.Meets s Q E) (hrun : x s = some (.ok a, s')) : Q a s' := by
  rcases hx with ⟨b, t, hrun', hb⟩ | ⟨m, t, hrun', -⟩
  · obtain ⟨rfl, rfl⟩ : b = a ∧ t = s' := by
      rw [hrun'] at hrun
      simpa using hrun
    exact hb
  · rw [hrun'] at hrun
    simp at hrun

/-- What holds at the end of a run that ends with an exception. -/
theorem error (hx : x.Meets s Q E) (h : ∀ m s', x s = some (.error m, s') → E' s') :
    x.Meets s Q fun s' => E s' ∧ E' s' := by
  rcases hx with hok | ⟨m, s', hrun, hs'⟩
  · exact Or.inl hok
  · exact Or.inr ⟨m, s', hrun, hs', h m s' hrun⟩

end Meets

namespace Leads

variable {I : S → Prop}

theorem pure (h : ∀ s, I s → Q a s) : Leads I (Pure.pure a) Q E := by
  intro s hs
  constructor
  · rintro b s' ⟨⟩
    exact h s hs
  · rintro m s' ⟨⟩

theorem bind (hx : Leads I x Q E) (hf : ∀ a, Leads (Q a) (f a) R E) :
    Leads I (x >>= f) R E := by
  intro s hs
  obtain ⟨hok, herror⟩ := hx s hs
  match hrun : x s with
  | none =>
      have hnone : (x >>= f) s = none := by
        change andThen x f s = _
        rw [andThen, hrun]
      rw [hnone]
      exact ⟨nofun, nofun⟩
  | some (.error m, s') =>
      rw [bind_of_error hrun]
      refine ⟨nofun, ?_⟩
      rintro m' s'' ⟨⟩
      exact herror m s' hrun
  | some (.ok a, s') =>
      rw [bind_of_ok hrun]
      exact hf a s' (hok a s' hrun)

theorem mono (hx : Leads I x Q E) (hQ : ∀ a s, Q a s → Q' a s) (hE : ∀ s, E s → E' s) :
    Leads I x Q' E' := fun s hs =>
  ⟨fun a s' hrun => hQ a s' ((hx s hs).1 a s' hrun), fun m s' hrun => hE s' ((hx s hs).2 m s' hrun)⟩

theorem lift {o : Option A} (h : ∀ a s, o = some a → I s → Q a s) :
    Leads I (Action.lift o) Q E := by
  intro s hs
  cases o with
  | none => exact ⟨nofun, nofun⟩
  | some a =>
      constructor
      · rintro b s' ⟨⟩
        exact h a s rfl hs
      · rintro m s' ⟨⟩

theorem lift_bind {o : Option A} (h : ∀ a, o = some a → Leads I (f a) R E) :
    Leads I (Action.lift o >>= f) R E :=
  bind (Q := fun a s => o = some a ∧ I s) (lift fun _ _ ho hs => ⟨ho, hs⟩)
    fun a s hs => h a hs.1 s hs.2

theorem state_bind {f : S → Action S B} (h : ∀ s, I s → Leads I (f s) R E) :
    Leads I (Action.state >>= f) R E := by
  have hstate : Leads I Action.state (fun a s => I a ∧ I s) E := by
    intro s hs
    constructor
    · rintro a s' ⟨⟩
      exact ⟨hs, hs⟩
    · rintro m s' ⟨⟩
  exact bind hstate fun a s hs => h a hs.1 s hs.2

theorem change {g : S → S} {Q : Unit → S → Prop} (h : ∀ s, I s → Q () (g s)) :
    Leads I (Action.change g) Q E := by
  intro s hs
  constructor
  · rintro a s' ⟨⟩
    exact h s hs
  · rintro m s' ⟨⟩

theorem raise {m : String} (h : ∀ s, I s → E s) : Leads I (Action.raise m : Action S A) Q E := by
  intro s hs
  constructor
  · rintro a s' ⟨⟩
  · rintro m' s' ⟨⟩
    exact h s hs

theorem ite {c : Prop} [Decidable c] {y : Action S A} (hx : c → Leads I x Q E)
    (hy : ¬c → Leads I y Q E) : Leads I (if c then x else y) Q E := by
  split
  · exact hx ‹_›
  · exact hy ‹_›

theorem onlyIf {c : Prop} [Decidable c] {x : Action S Unit} {Q : Unit → S → Prop}
    (hx : Leads I x Q E) (hs : ∀ s, I s → Q () s) : Leads I (Action.onlyIf c x) Q E :=
  ite (fun _ => hx) fun _ => pure hs

end Leads

end

end Action

end Gobo
