/-
Loops of the form `from ... until ... loop ... end` over an explicit state.
The exit test and the body may fail; a loop that has not ended after the given
number of turns fails as well, so a result is a proof of termination.
-/
import Mathlib.Data.Option.Basic

namespace Gobo

universe u

variable {S : Type u}

/-- A step that does not fail. -/
theorem some_bind {A B : Type u} (a : A) (f : A → Option B) : (some a >>= f) = f a := rfl

theorem bind_of_some {A B : Type u} {x : Option A} {a : A} {f : A → Option B} {b : B}
    (hx : x = some a) (hf : f a = some b) : x.bind f = some b :=
  Option.bind_eq_some_iff.mpr ⟨a, hx, hf⟩

/-- Run `body` until `stop` holds, at most `fuel` times. -/
def loopUntil (stop : S → Option Bool) (body : S → Option S) : Nat → S → Option S
  | 0, _ => none
  | fuel + 1, s =>
      match stop s with
      | none => none
      | some true => some s
      | some false => (body s).bind (loopUntil stop body fuel)

section

variable {stop : S → Option Bool} {body : S → Option S} {fuel : Nat} {s s' : S}

theorem loopUntil_of_stop (hstop : stop s = some true) :
    loopUntil stop body (fuel + 1) s = some s := by
  simp [loopUntil, hstop]

theorem loopUntil_of_go (hgo : stop s = some false) (hbody : body s = some s') :
    loopUntil stop body (fuel + 1) s = loopUntil stop body fuel s' := by
  simp [loopUntil, hgo, hbody]

theorem loopUntil_of_fail (hgo : stop s = some false) (hbody : body s = none) :
    loopUntil stop body fuel s = none := by
  cases fuel with
  | zero => rfl
  | succ fuel => simp [loopUntil, hgo, hbody]

/-- The loop rule.  `I n s` is the invariant at a state whose variant is `n`;
every turn of the body decreases the variant. -/
theorem loopUntil_spec (I : Nat → S → Prop)
    (hturn : ∀ n s, I n s → stop s = some true ∨
      stop s = some false ∧ ∃ s' m, body s = some s' ∧ m < n ∧ I m s')
    {n : Nat} (hn : n < fuel) (hs : I n s) :
    ∃ s' m, loopUntil stop body fuel s = some s' ∧ I m s' ∧
      stop s' = some true := by
  induction fuel generalizing n s with
  | zero => omega
  | succ fuel ih =>
      rcases hturn n s hs with hstop | ⟨hgo, s₁, m, hbody, hm, hs₁⟩
      · exact ⟨s, n, loopUntil_of_stop hstop, hs, hstop⟩
      · obtain ⟨s', k, hrun, hI, hend⟩ := ih (by omega : m < fuel) hs₁
        exact ⟨s', k, (loopUntil_of_go hgo hbody).trans hrun, hI, hend⟩

/-- A loop that does not end: it goes on under the invariant, unless a turn fails. -/
theorem loopUntil_eq_none (I : S → Prop) (hgo : ∀ s, I s → stop s = some false)
    (hturn : ∀ s, I s → body s = none ∨ ∃ s', body s = some s' ∧ I s') (hs : I s) :
    loopUntil stop body fuel s = none := by
  induction fuel generalizing s with
  | zero => rfl
  | succ fuel ih =>
      rcases hturn s hs with hfail | ⟨s', hbody, hs'⟩
      · rw [loopUntil, hgo s hs]
        exact congrArg (Option.bind · _) hfail
      · rw [loopUntil_of_go (hgo s hs) hbody, ih hs']

/-- The rule of a loop whose exit test does not fail: the turns decrease a variant. -/
theorem loopUntil_decide {P : S → Prop} [DecidablePred P] (I : S → Prop) (variant : S → Nat)
    (hturn : ∀ s, I s → ¬P s → ∃ s', body s = some s' ∧ variant s' < variant s ∧ I s')
    (hs : I s) (hn : variant s < fuel) :
    ∃ s', loopUntil (fun s => some (decide (P s))) body fuel s = some s' ∧ I s' ∧ P s' := by
  have hvariant : ∀ n s, n = variant s ∧ I s → some (decide (P s)) = some true ∨
      some (decide (P s)) = some false ∧
        ∃ s' m, body s = some s' ∧ m < n ∧ m = variant s' ∧ I s' := by
    rintro n s ⟨rfl, hs⟩
    by_cases hstop : P s
    · exact Or.inl (congrArg some (decide_eq_true hstop))
    · obtain ⟨s', hbody, hlt, hs'⟩ := hturn s hs hstop
      exact Or.inr ⟨congrArg some (decide_eq_false hstop), s', variant s', hbody, hlt, rfl, hs'⟩
  obtain ⟨s', m, hrun, ⟨-, hs'⟩, hend⟩ := loopUntil_spec _ hvariant hn ⟨rfl, hs⟩
  exact ⟨s', hrun, hs', of_decide_eq_true (Option.some.inj hend)⟩

/-- The rule of a loop with an index that goes up until it is after `count`. -/
theorem loopUntil_index (I : S → Prop) {index : S → Nat} {count : Nat}
    (hstop : ∀ s, stop s = some (decide (count < index s)))
    (hturn : ∀ s, I s → index s ≤ count → ∃ s', body s = some s' ∧ index s < index s' ∧ I s')
    (hs : I s) (hn : count + 1 - index s < fuel) :
    ∃ s', loopUntil stop body fuel s = some s' ∧ count < index s' ∧ I s' := by
  have hvariant : ∀ n s, n = count + 1 - index s ∧ I s → stop s = some true ∨
      stop s = some false ∧ ∃ s' m, body s = some s' ∧ m < n ∧ m = count + 1 - index s' ∧ I s' := by
    rintro n s ⟨rfl, hs⟩
    rcases Nat.lt_or_ge count (index s) with hlt | hle
    · exact Or.inl ((hstop s).trans (congrArg some (decide_eq_true hlt)))
    · obtain ⟨s', hbody, hindex, hs'⟩ := hturn s hs hle
      exact Or.inr ⟨(hstop s).trans (congrArg some (decide_eq_false (Nat.not_lt.mpr hle))), s',
        count + 1 - index s', hbody, by omega, rfl, hs'⟩
  obtain ⟨s', m, hrun, ⟨-, hs'⟩, hend⟩ := loopUntil_spec _ hvariant hn ⟨rfl, hs⟩
  exact ⟨s', hrun, of_decide_eq_true (Option.some.inj ((hstop s').symm.trans hend)), hs'⟩

/-- `n` turns of the loop lead from `s` to `s'`. -/
def Turns (stop : S → Option Bool) (body : S → Option S) (n : Nat) (s s' : S) : Prop :=
  ∀ fuel, loopUntil stop body (fuel + n) s = loopUntil stop body fuel s'

theorem Turns.refl (s : S) : Turns stop body 0 s s := fun _ => rfl

theorem Turns.one (hgo : stop s = some false) (hbody : body s = some s') :
    Turns stop body 1 s s' := fun _ => loopUntil_of_go hgo hbody

theorem Turns.trans {n m : Nat} {s₁ : S} (h : Turns stop body n s s₁)
    (h' : Turns stop body m s₁ s') : Turns stop body (n + m) s s' := by
  intro fuel
  rw [Nat.add_comm n m, ← Nat.add_assoc, h, h']

theorem Turns.loopUntil_eq {n : Nat} (h : Turns stop body n s s') (hstop : stop s' = some true)
    (hn : n < fuel) : loopUntil stop body fuel s = some s' := by
  obtain ⟨k, rfl⟩ := Nat.exists_eq_add_of_lt hn
  rw [show n + k + 1 = k + 1 + n by omega, h, loopUntil_of_stop hstop]

end

section

variable {f : Nat → S → Option S} {g : Int → S → Option S}

/-- `n` turns of a loop whose index goes up by one. -/
def forUp (f : Nat → S → Option S) : Nat → Nat → S → Option S
  | 0, _, s => some s
  | n + 1, i, s => (f i s).bind (forUp f n (i + 1))

/-- `n` turns of a loop whose index goes down by one. -/
def forDown (g : Int → S → Option S) : Nat → Int → S → Option S
  | 0, _, s => some s
  | n + 1, i, s => (g i s).bind (forDown g n (i - 1))

/-- The rule of a counted loop: `I i s` holds when the index is `i`. -/
theorem forUp_spec (I : Nat → S → Prop) {n i : Nat} {s : S}
    (hturn : ∀ j s, i ≤ j → j < i + n → I j s → ∃ s', f j s = some s' ∧ I (j + 1) s')
    (hs : I i s) : ∃ s', forUp f n i s = some s' ∧ I (i + n) s' := by
  induction n generalizing i s with
  | zero => exact ⟨s, rfl, hs⟩
  | succ n ih =>
      obtain ⟨s₁, hbody, hs₁⟩ := hturn i s (Nat.le_refl i) (by omega) hs
      obtain ⟨s', hrun, hI⟩ := ih (fun j s hij hjn => hturn j s (by omega) (by omega)) hs₁
      refine ⟨s', ?_, (by omega : i + 1 + n = i + (n + 1)) ▸ hI⟩
      rw [forUp, hbody]
      exact hrun

theorem forDown_spec (I : Int → S → Prop) {n : Nat} {i : Int} {s : S}
    (hturn : ∀ j s, i - n < j → j ≤ i → I j s → ∃ s', g j s = some s' ∧ I (j - 1) s')
    (hs : I i s) : ∃ s', forDown g n i s = some s' ∧ I (i - n) s' := by
  induction n generalizing i s with
  | zero => exact ⟨s, rfl, by rwa [Int.natCast_zero, Int.sub_zero]⟩
  | succ n ih =>
      obtain ⟨s₁, hbody, hs₁⟩ := hturn i s (by omega) (Int.le_refl i) hs
      obtain ⟨s', hrun, hI⟩ := ih (fun j s hij hjn => hturn j s (by omega) (by omega)) hs₁
      refine ⟨s', ?_, (by omega : i - 1 - n = i - (n + 1 : Nat)) ▸ hI⟩
      rw [forDown, hbody]
      exact hrun

end

section

variable {A : Type*} {f : S → A → Option S} {l : List A}

/-- The rule of a loop over the items of a list: `I done s` holds after the items of
`done`. -/
theorem foldlM_spec (I : List A → S → Prop)
    (hturn : ∀ done a rest s, l = done ++ a :: rest → I done s →
      ∃ s', f s a = some s' ∧ I (done ++ [a]) s')
    {s : S} (hs : I [] s) : ∃ s', l.foldlM f s = some s' ∧ I l s' := by
  have hrun : ∀ rest done s, l = done ++ rest → I done s →
      ∃ s', rest.foldlM f s = some s' ∧ I l s' := by
    intro rest
    induction rest with
    | nil =>
        intro done s hl hs
        rw [List.append_nil] at hl
        exact ⟨s, rfl, hl ▸ hs⟩
    | cons a rest ih =>
        intro done s hl hs
        obtain ⟨s₁, hbody, hs₁⟩ := hturn done a rest s hl hs
        obtain ⟨s', hrest, hs'⟩ := ih (done ++ [a]) s₁ (by rw [hl, List.append_assoc]; rfl) hs₁
        exact ⟨s', by rw [List.foldlM_cons, hbody]; exact hrest, hs'⟩
  exact hrun l [] s rfl hs

/-- The same for a loop whose body does not fail. -/
theorem foldl_spec {f : S → A → S} (I : List A → S → Prop)
    (hturn : ∀ done a rest s, l = done ++ a :: rest → I done s → I (done ++ [a]) (f s a))
    {s : S} (hs : I [] s) : I l (l.foldl f s) := by
  have hrun : ∀ rest done s, l = done ++ rest → I done s → I l (rest.foldl f s) := by
    intro rest
    induction rest with
    | nil =>
        intro done s hl hs
        rw [List.append_nil] at hl
        exact hl ▸ hs
    | cons a rest ih =>
        intro done s hl hs
        exact ih (done ++ [a]) (f s a) (by rw [hl, List.append_assoc]; rfl)
          (hturn done a rest s hl hs)
  exact hrun l [] s rfl hs

end

end Gobo
