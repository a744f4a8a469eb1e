/-
Runs that make classes of symbols: when the union and the difference of two of them are what
`has` says.
-/
import Gobo.Runs
import Gobo.SymbolClassUnion

namespace Gobo

open Option List

/-- Some classes, with their chunks. -/
structure SymbolClasses where
  chunks : Chunks
  classes : List SymbolClass

namespace SymbolClasses

open SymbolClass

/-- A call of a class; the classes have numbers. -/
inductive Call
  | make (min max : Nat)
  | addSymbol (i a : Nat)
  | setNegated (i : Nat) (b : Bool)
  | addSymbolClass (i j : Nat)
  | removeSymbolClass (i j : Nat)

def initial : SymbolClasses := ⟨Chunks.initial, []⟩

/-- The class `i` gets another value. -/
def change (s : SymbolClasses) (i : Nat) (r : Chunks × SymbolClass) : SymbolClasses :=
  ⟨r.1, s.classes.set i r.2⟩

/-- When a class is removed from itself, it has been negated before it is added. -/
def exec (s : SymbolClasses) : Call → Option SymbolClasses
  | .make min max => some { s with classes := s.classes ++ [SymbolClass.make min max] }
  | .addSymbol i a => do
      let c ← s.classes[i]?
      (c.addSymbol s.chunks a).map (s.change i)
  | .setNegated i b => do
      let c ← s.classes[i]?
      some (s.change i (s.chunks, c.setNegated b))
  | .addSymbolClass i j => do
      let c ← s.classes[i]?
      let other ← s.classes[j]?
      (c.addSymbolClass s.chunks other).map (s.change i)
  | .removeSymbolClass i j => do
      let c ← s.classes[i]?
      let other ← (s.classes.set i (c.setNegated !c.isNegated))[j]?
      (c.removeSymbolClass s.chunks other).map (s.change i)

/-- The two classes have the same bounds. -/
def SameBounds (s : SymbolClasses) (i j : Nat) : Prop :=
  ∃ c ∈ s.classes[i]?, ∃ d ∈ s.classes[j]?, c.lower = d.lower ∧ c.upper = d.upper

instance (s : SymbolClasses) (i j : Nat) : Decidable (s.SameBounds i j) :=
  inferInstanceAs (Decidable (∃ c ∈ _, _))

/-- The preconditions. -/
def Pre (s : SymbolClasses) : Call → Prop
  | .make min max => min ≤ max
  | .addSymbol i a => ∃ c ∈ s.classes[i]?, c.lower ≤ a ∧ a ≤ c.upper
  | .setNegated i _ => i < s.classes.length
  | .addSymbolClass i j => s.SameBounds i j
  | .removeSymbolClass i j => s.SameBounds i j

instance (s : SymbolClasses) (c : Call) : Decidable (s.Pre c) := by
  cases c <;> unfold Pre <;> infer_instance

/-- No two classes share a chunk, and none has a bit below its bounds. -/
structure Sound (s : SymbolClasses) : Prop where
  created : 0 < s.chunks.created
  good : ∀ (i : Nat) c, s.classes[i]? = some c → Good s.chunks c
  apart : ∀ (i j : Nat) c d, i ≠ j → s.classes[i]? = some c → s.classes[j]? = some d →
    ∀ k, c.Uses k → ¬d.Uses k
  lower_le : ∀ (i : Nat) c, s.classes[i]? = some c → c.lower ≤ c.upper
  above : ∀ (i : Nat) c, s.classes[i]? = some c → ∀ a < c.lower, bit s.chunks c a = false

variable {s s' : SymbolClasses} {i j a : Nat} {c c' d : SymbolClass} {h : Chunks}

/-- A class is changed, without the chunks of the other ones. -/
theorem Sound.change (hs : s.Sound) (hi : s.classes[i]? = some c) (hg : Good h c')
    (hf : Frame s.chunks c h c') (hlower : c'.lower = c.lower) (hupper : c'.upper = c.upper)
    (hbits : ∀ a < c.lower, bit h c' a = false) : (s.change i (h, c')).Sound := by
  have hget : ∀ j, (s.change i (h, c')).classes[j]? = if i = j then some c' else s.classes[j]? := by
    intro j
    have hlt := (List.getElem?_eq_some_iff.mp hi).1
    rw [SymbolClasses.change, List.getElem?_set]
    by_cases hij : i = j
    · rw [if_pos hij, if_pos hlt, if_pos hij]
    · rw [if_neg hij, if_neg hij]
  have hother : ∀ j d, i ≠ j → s.classes[j]? = some d → ∀ k, c'.Uses k → ¬d.Uses k := by
    intro j d hij hj k hk hd
    rcases hf.uses k hk with hold | hge
    · exact hs.apart i j c d hij hi hj k hold hd
    · obtain ⟨l, hl⟩ := hd
      exact Nat.not_lt_of_le hge ((hs.good j d hj).2.chunk l k hl).2.1
  refine ⟨Nat.lt_of_lt_of_le hs.created hf.created_le, fun j d hj => ?_,
    fun j l d e hjl hj hl => ?_, fun j d hj => ?_, fun j d hj => ?_⟩
  · rw [hget] at hj
    split at hj
    · exact some.inj hj ▸ hg
    · rename_i hij
      exact hf.good (hs.good j d hj) (hs.apart i j c d hij hi hj)
  · rw [hget] at hj hl
    by_cases hij : i = j
    · rw [if_pos hij] at hj
      rw [if_neg fun hil => hjl (hij.symm.trans hil)] at hl
      exact some.inj hj ▸ hother l e (fun hil => hjl (hij.symm.trans hil)) hl
    · rw [if_neg hij] at hj
      by_cases hil : i = l
      · rw [if_pos hil] at hl
        obtain rfl := some.inj hl
        exact fun k hk hk' => hother j d hij hj k hk' hk
      · rw [if_neg hil] at hl
        exact hs.apart j l d e hjl hj hl
  · rw [hget] at hj
    split at hj
    · obtain rfl := some.inj hj
      rw [hlower, hupper]
      exact hs.lower_le i c hi
    · exact hs.lower_le j d hj
  · rw [hget] at hj
    split at hj
    · obtain rfl := some.inj hj
      rw [hlower]
      exact hbits
    · rename_i hij
      have hbit := hf.bit_eq (hs.good j d hj) (hs.apart i j c d hij hi hj)
      exact fun a ha => (congrFun hbit a).trans (hs.above j d hj a ha)

theorem Sound.aligned (hs : s.Sound) (hi : s.classes[i]? = some c) (hj : s.classes[j]? = some d) :
    Aligned c d := by
  intro l l' k hl hl'
  by_cases hij : i = j
  · subst hij
    obtain rfl := some.inj (hi.symm.trans hj)
    exact (hs.good i c hi).2.unshared l l' k hl hl'
  · exact absurd ⟨l', hl'⟩ (hs.apart i j c d hij hi hj k ⟨l, hl⟩)

theorem sound_initial : initial.Sound := ⟨by decide, nofun, nofun, nofun, nofun⟩

/-- Each call succeeds, and keeps the chunks of the classes apart. -/
theorem Sound.step (hs : s.Sound) (call : Call) (hpre : s.Pre call) :
    ∃ s', s.exec call = some s' ∧ s'.Sound := by
  cases call with
  | make min max =>
      have hget : ∀ (i : Nat) c, (s.classes ++ [SymbolClass.make min max])[i]? = some c →
          s.classes[i]? = some c ∨ c = SymbolClass.make min max := by
        intro i c hi
        rcases Nat.lt_or_ge i s.classes.length with hlt | hge
        · rw [List.getElem?_append_left hlt] at hi
          exact Or.inl hi
        · rw [List.getElem?_append_right hge] at hi
          exact Or.inr (List.mem_singleton.mp (List.mem_of_getElem? hi))
      refine ⟨_, rfl, hs.created, fun i c hi => ?_, fun i j c d hij hi hj k hc hd => ?_,
        fun i c hi => ?_, fun i c hi => ?_⟩
      · rcases hget i c hi with hi | rfl
        · exact hs.good i c hi
        · exact good_make hs.created min max
      · rcases hget i c hi with hi | rfl
        · rcases hget j d hj with hj | rfl
          · exact hs.apart i j c d hij hi hj k hc hd
          · obtain ⟨l, hl⟩ := hd
            exact nomatch hl
        · obtain ⟨l, hl⟩ := hc
          exact nomatch hl
      · rcases hget i c hi with hi | rfl
        · exact hs.lower_le i c hi
        · exact hpre
      · rcases hget i c hi with hi | rfl
        · exact hs.above i c hi
        · exact fun a _ => bit_make min max a
  | addSymbol i a =>
      obtain ⟨c, hi, hlower, hle⟩ := hpre
      obtain ⟨h', c', hrun, hg, hf, hlow, hup, -, -, hbit⟩ := (hs.good i c hi).addSymbol_eq hle
      refine ⟨_, ?_, hs.change hi hg hf hlow hup fun b hb => ?_⟩
      · rw [exec, hi, some_bind, hrun]
        rfl
      · rw [hbit, hs.above i c hi b hb,
          decide_eq_false (Nat.ne_of_lt (Nat.lt_of_lt_of_le hb hlower))]
        rfl
  | setNegated i b =>
      obtain ⟨c, hi⟩ : ∃ c, s.classes[i]? = some c := ⟨_, List.getElem?_eq_getElem hpre⟩
      have hg : Good s.chunks (c.setNegated b) := hs.good i c hi
      refine ⟨_, ?_, hs.change hi hg (.of_eq rfl) rfl rfl fun a ha => ?_⟩
      · rw [exec, hi, some_bind]
      · exact (bit_setNegated b a).trans (hs.above i c hi a ha)
  | addSymbolClass i j =>
      obtain ⟨c, hi, d, hj, hlower, hupper⟩ := hpre
      obtain ⟨h', c', hrun, hg, hf, hlow, hup, -, -, -, hbit⟩ :=
        (hs.good i c hi).addSymbolClass_eq (hs.good j d hj) hupper.symm (hs.aligned hi hj)
      refine ⟨_, ?_, hs.change hi hg hf hlow hup fun a ha => ?_⟩
      · rw [exec, hi, some_bind, hj, some_bind, hrun]
        rfl
      · have hb := hbit a (Nat.le_of_lt (Nat.lt_of_lt_of_le ha (hs.lower_le i c hi)))
        rw [hs.above i c hi a ha, hs.above j d hj a (hlower ▸ ha)] at hb
        revert hb
        cases bit h' c' a <;> cases c.isNegated <;> cases d.isNegated <;> decide
  | removeSymbolClass i j =>
      obtain ⟨c, hi, d, hj, hlower, hupper⟩ := hpre
      obtain ⟨d', hj', hsets, hupper', hbits⟩ : ∃ d',
          (s.classes.set i (c.setNegated !c.isNegated))[j]? = some d' ∧
            d'.otherSets = d.otherSets ∧ d'.upper = d.upper ∧
              ∀ a, bit s.chunks d' a = bit s.chunks d a := by
        rw [List.getElem?_set]
        by_cases hij : i = j
        · subst hij
          obtain rfl := some.inj (hi.symm.trans hj)
          rw [if_pos rfl, if_pos (List.getElem?_eq_some_iff.mp hi).1]
          exact ⟨_, rfl, rfl, rfl, bit_setNegated _⟩
        · rw [if_neg hij]
          exact ⟨d, hj, rfl, rfl, fun _ => rfl⟩
      have hg : Good s.chunks d' := by
        have hg := hs.good j d hj
        rwa [Good, ← hsets, ← hupper'] at hg
      have ha : Aligned c d' := by
        have ha := hs.aligned hi hj
        rwa [Aligned, ← hsets] at ha
      obtain ⟨h', c', hrun, hg', hf, hlow, hup, -, -, -, hbit⟩ :=
        (hs.good i c hi).removeSymbolClass_eq hg (hupper'.trans hupper.symm) ha
      refine ⟨_, ?_, hs.change hi hg' hf hlow hup fun a ha => ?_⟩
      · rw [exec, hi, some_bind, hj', some_bind, hrun]
        rfl
      · have hb := hbit a (Nat.le_of_lt (Nat.lt_of_lt_of_le ha (hs.lower_le i c hi)))
        rw [hbits, hs.above i c hi a ha, hs.above j d hj a (hlower ▸ ha)] at hb
        revert hb
        cases bit h' c' a <;> cases c.isNegated <;> cases d'.isNegated <;> decide

theorem sound_of_run {calls : List Call} (hcalls : Permitted exec Pre initial calls)
    (hrun : runAll exec initial calls = some s) : s.Sound :=
  run_preserves Sound (fun t call t' ht hpre hexec => by
    obtain ⟨t'', hexec', ht''⟩ := ht.step call hpre
    exact some.inj (hexec'.symm.trans hexec) ▸ ht'') sound_initial hcalls hrun

/-- The query `has` of the class `i`. -/
def has (s : SymbolClasses) (i a : Nat) : Option Bool := do
  let c ← s.classes[i]?
  c.has s.chunks a

/-- The class `i` has what the old ones had, combined with `op`. -/
def Combines (op : Bool → Bool → Bool) (s s' : SymbolClasses) (i j : Nat) : Prop :=
  ∀ c, s.classes[i]? = some c → ∀ a, c.lower ≤ a → a ≤ c.upper →
    ∃ b b', s.has i a = some b ∧ s.has j a = some b' ∧ s'.has i a = some (op b b')

/-- The class `j` is unchanged. -/
def Keeps (s s' : SymbolClasses) (j : Nat) : Prop := s'.classes[j]? = s.classes[j]? ∧
    ∀ d, s.classes[j]? = some d → ∀ k, d.Uses k → s'.chunks.sets k = s.chunks.sets k

/-- Nothing is hidden by the flag `is_empty` of the class `i`, and nothing that was hidden by the
one of the class `j` appears. -/
def NothingHidden (removed : Bool) (s : SymbolClasses) (i j : Nat) : Prop :=
  ∀ c d, s.classes[i]? = some c → s.classes[j]? = some d → ∀ a, c.lower ≤ a → a ≤ c.upper →
    (c.isEmpty = true → c.isNegated = removed → d.added s.chunks a = some false) ∧
    (c.isEmpty = false → d.isEmpty = true → bit s.chunks d a = true →
      c.has s.chunks a = some !removed)

section

variable {e x n f y o e' x' : Bool}

/-- The flags of the classes, their negated status and the bits of a symbol. -/
theorem union_iff_of_bits (hflag : e = true ∨ f = true → e' = e)
    (hzero : e = false → f = false → e' = true → x' = false)
    (hbit : (x' != (n || o)) = ((x != n) || (y != o))) :
    ((!e' && x') != (n || o)) = (((!e && x) != n) || ((!f && y) != o)) ↔
      (e = true → n = false → (!f && y) = false) ∧
        (e = false → f = true → y = true → ((!e && x) != n) = true) := by
  cases e with
  | true =>
      obtain rfl := hflag (Or.inl rfl)
      cases n <;> cases f <;> cases y <;> cases o <;> simp
  | false =>
      have hsame : (!e' && x') = x' := by
        cases e' with
        | false => rfl
        | true =>
            cases f with
            | true => exact absurd (hflag (Or.inr rfl)) (by decide)
            | false => exact (hzero rfl rfl rfl).symm
      rw [hsame, hbit]
      cases x <;> cases n <;> cases f <;> cases y <;> cases o <;> simp

theorem difference_iff_of_bits (hflag : e = true ∨ f = true → e' = e)
    (hzero : e = false → f = false → e' = true → x' = false)
    (hbit : (x' != (n && !o)) = ((x != n) && !(y != o))) :
    ((!e' && x') != (n && !o)) = (((!e && x) != n) && !((!f && y) != o)) ↔
      (e = true → n = true → (!f && y) = false) ∧
        (e = false → f = true → y = true → ((!e && x) != n) = false) := by
  have hnegate : ∀ x' n o x y : Bool, (x' != (n && !o)) = ((x != n) && !(y != o)) →
      (x' != ((!n) || o)) = ((x != !n) || (y != o)) := by decide
  have hunion := union_iff_of_bits hflag hzero (hnegate _ _ _ _ _ hbit)
  have hresult : ∀ b' b d n o : Bool, ((b' != (n && !o)) = ((b != n) && !(d != o)) ↔
      (b' != ((!n) || o)) = ((b != !n) || (d != o))) := by decide
  have hnot : ∀ b n : Bool, ((b != !n) = true ↔ (b != n) = false) := by decide
  rw [hresult, hunion, hnot, Bool.not_eq_false']

end

theorem Sound.keeps (hs : s.Sound) (hi : s.classes[i]? = some c) (hf : Frame s.chunks c h c')
    (hij : i ≠ j) : s.Keeps (s.change i (h, c')) j := by
  refine ⟨getElem?_set_ne hij, fun d hj k hk => ?_⟩
  obtain ⟨l, hl⟩ := hk
  exact hf.sets k ((hs.good j d hj).2.chunk l k hl).2.1 fun hc =>
    hs.apart i j c d hij hi hj k hc ⟨l, hl⟩

/-- A class that is changed to `c'` combines the old ones. -/
theorem Sound.combines_iff (hs : s.Sound) (hi : s.classes[i]? = some c)
    (hj : s.classes[j]? = some d) (hupper : c.upper = d.upper) (hg : Good h c')
    (hupper' : c'.upper = c.upper) (op : Bool → Bool → Bool) :
    Combines op s (s.change i (h, c')) i j ↔ ∀ a, c.lower ≤ a → a ≤ c.upper →
      ((!c'.isEmpty && bit h c' a) != c'.isNegated) =
        op ((!c.isEmpty && bit s.chunks c a) != c.isNegated)
          ((!d.isEmpty && bit s.chunks d a) != d.isNegated) := by
  have hget : (s.change i (h, c')).classes[i]? = some c' := by
    rw [SymbolClasses.change, List.getElem?_set, if_pos rfl,
      if_pos (List.getElem?_eq_some_iff.mp hi).1]
  have hhas : ∀ a ≤ c.upper, (s.change i (h, c')).has i a =
      some ((!c'.isEmpty && bit h c' a) != c'.isNegated) := by
    intro a ha
    rw [has, hget, some_bind]
    exact hg.has_eq (hupper'.symm ▸ ha)
  have hhasc : ∀ a ≤ c.upper, s.has i a =
      some ((!c.isEmpty && bit s.chunks c a) != c.isNegated) := by
    intro a ha
    rw [has, hi, some_bind, (hs.good i c hi).has_eq ha]
  have hhasd : ∀ a ≤ c.upper, s.has j a =
      some ((!d.isEmpty && bit s.chunks d a) != d.isNegated) := by
    intro a ha
    rw [has, hj, some_bind, (hs.good j d hj).has_eq (hupper ▸ ha)]
  constructor
  · intro hall a hlower ha
    obtain ⟨b, b', hb, hb', hop⟩ := hall c hi a hlower ha
    rw [hhasc a ha] at hb
    rw [hhasd a ha] at hb'
    rw [hhas a ha, ← some.inj hb, ← some.inj hb'] at hop
    exact some.inj hop
  · intro hall c₁ hc₁ a hlower ha
    obtain rfl := some.inj (hi.symm.trans hc₁)
    exact ⟨_, _, hhasc a ha, hhasd a ha, (hhas a ha).trans (congrArg some (hall a hlower ha))⟩

theorem Sound.nothingHidden_iff (hs : s.Sound) (hi : s.classes[i]? = some c)
    (hj : s.classes[j]? = some d) (hupper : c.upper = d.upper) (removed : Bool) :
    NothingHidden removed s i j ↔ ∀ a, c.lower ≤ a → a ≤ c.upper →
      (c.isEmpty = true → c.isNegated = removed → (!d.isEmpty && bit s.chunks d a) = false) ∧
      (c.isEmpty = false → d.isEmpty = true → bit s.chunks d a = true →
        ((!c.isEmpty && bit s.chunks c a) != c.isNegated) = !removed) := by
  have hadded : ∀ a ≤ c.upper, (d.added s.chunks a = some false ↔
      (!d.isEmpty && bit s.chunks d a) = false) := by
    intro a ha
    rw [(hs.good j d hj).added_eq (hupper ▸ ha), some.injEq]
  have hhas : ∀ a ≤ c.upper, (c.has s.chunks a = some (!removed) ↔
      ((!c.isEmpty && bit s.chunks c a) != c.isNegated) = !removed) := by
    intro a ha
    rw [(hs.good i c hi).has_eq ha, some.injEq]
  constructor
  · intro hall a hlower ha
    rw [← hadded a ha, ← hhas a ha]
    exact hall c d hi hj a hlower ha
  · intro hall c₁ d₁ hc₁ hd₁ a hlower ha
    obtain rfl := some.inj (hi.symm.trans hc₁)
    obtain rfl := some.inj (hj.symm.trans hd₁)
    rw [hadded a ha, hhas a ha]
    exact hall a hlower ha

/-- In every state that a run reaches, the union and the difference of two classes are what the
query `has` says, and the second class is unchanged, if and only if nothing is hidden. -/
theorem union_and_difference_iff {calls : List Call} (hcalls : Permitted exec Pre initial calls)
    (hrun : runAll exec initial calls = some s) (hij : i ≠ j) (hbounds : s.SameBounds i j) :
    ((∃ s', s.exec (.addSymbolClass i j) = some s' ∧ Combines (fun b b' => b || b') s s' i j ∧
        s.Keeps s' j) ↔ NothingHidden false s i j) ∧
      ((∃ s', s.exec (.removeSymbolClass i j) = some s' ∧
        Combines (fun b b' => b && !b') s s' i j ∧ s.Keeps s' j) ↔ NothingHidden true s i j) := by
  have hs := sound_of_run hcalls hrun
  obtain ⟨c, hi, d, hj, -, hupper⟩ := hbounds
  have hg := hs.good i c hi
  have hd := hs.good j d hj
  have ha := hs.aligned hi hj
  constructor
  · obtain ⟨h', c', hadd, hg', hf, -, hupper', hnegated, hflag, hzero, hbit⟩ :=
      hg.addSymbolClass_eq hd hupper.symm ha
    have hexec : s.exec (.addSymbolClass i j) = some (s.change i (h', c')) := by
      rw [exec, hi, some_bind, hj, some_bind, hadd]
      rfl
    rw [hs.nothingHidden_iff hi hj hupper, hexec]
    simp only [some.injEq, exists_eq_left']
    rw [and_iff_left (hs.keeps hi hf hij), hs.combines_iff hi hj hupper hg' hupper', hnegated]
    refine forall_congr' fun a => forall_congr' fun _ => forall_congr' fun ha => ?_
    exact union_iff_of_bits hflag (fun hc hd he => hzero hc hd he a ha) (hbit a ha)
  · obtain ⟨h', c', hremove, hg', hf, -, hupper', hnegated, hflag, hzero, hbit⟩ :=
      hg.removeSymbolClass_eq hd hupper.symm ha
    have hexec : s.exec (.removeSymbolClass i j) = some (s.change i (h', c')) := by
      rw [exec, hi, some_bind, getElem?_set_ne hij, hj, some_bind, hremove]
      rfl
    rw [hs.nothingHidden_iff hi hj hupper, hexec]
    simp only [some.injEq, exists_eq_left']
    rw [and_iff_left (hs.keeps hi hf hij), hs.combines_iff hi hj hupper hg' hupper', hnegated]
    refine forall_congr' fun a => forall_congr' fun _ => forall_congr' fun ha => ?_
    exact difference_iff_of_bits hflag (fun hc hd he => hzero hc hd he a ha) (hbit a ha)

theorem union_and_difference_two :
    ∃ s, runAll exec initial [.make 0 300, .make 0 300, .addSymbol 0 5, .addSymbol 1 280,
        .setNegated 1 true] = some s ∧
      (∃ s', s.exec (.addSymbolClass 0 1) = some s' ∧ Combines (fun b b' => b || b') s s' 0 1 ∧
        s.Keeps s' 1) ∧
      ∃ s', s.exec (.removeSymbolClass 0 1) = some s' ∧
        Combines (fun b b' => b && !b') s s' 0 1 ∧ s.Keeps s' 1 := by
  have hcalls : Permitted exec Pre initial [.make 0 300, .make 0 300, .addSymbol 0 5,
      .addSymbol 1 280, .setNegated 1 true] := by decide +kernel
  have hstate : ∃ s ∈ runAll exec initial [.make 0 300, .make 0 300, .addSymbol 0 5,
      .addSymbol 1 280, .setNegated 1 true], s.SameBounds 0 1 ∧
      ∀ c ∈ s.classes, c.isEmpty = false := by decide +kernel
  obtain ⟨s, hrun, hbounds, hfilled⟩ := hstate
  have hiff := union_and_difference_iff hcalls hrun (by decide) hbounds
  have hhidden : ∀ removed, NothingHidden removed s 0 1 := by
    intro removed c d hc hd a _ _
    have hc := hfilled c (mem_of_getElem? hc)
    have hd := hfilled d (mem_of_getElem? hd)
    rw [hc, hd]
    exact ⟨nofun, fun _ => nofun⟩
  exact ⟨s, hrun, hiff.1.mpr (hhidden false), hiff.2.mpr (hhidden true)⟩

/-- The letter a is added to the second class, and the second class to the first one, which then
still has no symbol. -/
theorem union_of_empty_class :
    ¬ ∀ (calls : List Call) (s : SymbolClasses) (i j : Nat),
      Permitted exec Pre initial calls → runAll exec initial calls = some s → i ≠ j →
      s.SameBounds i j →
      (∃ s', s.exec (.addSymbolClass i j) = some s' ∧ Combines (fun b b' => b || b') s s' i j ∧
        s.Keeps s' j) ∧
      ∃ s', s.exec (.removeSymbolClass i j) = some s' ∧
        Combines (fun b b' => b && !b') s s' i j ∧ s.Keeps s' j := by
  intro hall
  have hstate : ∃ s ∈ runAll exec initial [.make 0 255, .make 0 255, .addSymbol 1 97],
      s.SameBounds 0 1 ∧ s.classes[0]? = some (SymbolClass.make 0 255) ∧
      s.has 1 97 = some true ∧
      ((s.exec (.addSymbolClass 0 1)).bind fun s => s.has 0 97) = some false := by decide
  obtain ⟨s, hrun, hbounds, hfirst, hsecond, hresult⟩ := hstate
  obtain ⟨⟨s', hadd, hunion, -⟩, -⟩ := hall [.make 0 255, .make 0 255, .addSymbol 1 97] s 0 1
    (by decide) hrun (by decide) hbounds
  obtain ⟨b, b', -, hb', hb⟩ := hunion _ hfirst 97 (by decide) (by decide)
  obtain rfl := some.inj (hsecond.symm.trans hb')
  rw [hadd, bind_some, hb] at hresult
  exact absurd (some.inj hresult) (by cases b <;> decide)

end SymbolClasses

end Gobo
