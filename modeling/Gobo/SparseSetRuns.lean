/-
Runs of a sparse set: commands on single items, and union, intersection, difference and
symmetric difference with other sets.
-/
import Gobo.SparseSetTraversal

namespace Gobo

open List

/-- The calls a client of a set can make; in the operations on two sets no operand means the
set itself. -/
inductive SetCommand (K O : Type) where
  | plain (c : Command (Key K) K)
  | merge (other : Option O)
  | intersect (other : Option O)
  | subtract (other : Option O)
  | symdif (other : Option O)

variable {K O : Type} {gen : SparseGenerics (Key K) K}

/-- The operand that is another set. -/
def SetCommand.operand : SetCommand K O → Option O
  | plain _ => none
  | merge other => other
  | intersect other => other
  | subtract other => other
  | symdif other => other

/-- The items that a command stores are stored under themselves. -/
def SetCommand.Agrees : SetCommand K O → Prop
  | plain c => c.Agrees (some id)
  | _ => True

/-! ### Finite sets -/

namespace FiniteMap

theorem lookup_sdiff {A : Type} {B : A → Type} [DecidableEq A] (m w : Finmap B) (a : A)
    (b : B a) : (m \ w).lookup a = some b ↔ a ∉ w ∧ m.lookup a = some b := by
  have herase : ∀ (entries : List (Sigma B)) (m : Finmap B),
      (entries.foldl (fun m e => m.erase e.1) m).lookup a = some b ↔
        a ∉ entries.keys ∧ m.lookup a = some b := by
    intro entries
    induction entries with
    | nil => simp
    | cons e entries ih =>
        intro m
        obtain ⟨c, v⟩ := e
        rw [foldl_cons, ih, keys_cons, mem_cons]
        by_cases ha : a = c
        · subst ha
          simp
        · simp [ha, Finmap.lookup_erase_ne ha]
  induction w using Finmap.induction_on with
  | H w => exact herase w.entries m

variable {E : KeyEquality gen}

/-- The set of some items; an item stands under its class. -/
def ofItems (E : KeyEquality gen) (vs : List (Key K)) : Finmap (fun _ : E.Class => Key K) :=
  (vs.map fun v => ⟨E.classOf v, v⟩).toFinmap

/-- The part of `m` that is in `w` too. -/
def inter (m w : Finmap (fun _ : E.Class => Key K)) : Finmap (fun _ : E.Class => Key K) :=
  m \ (m \ w)

def symmDiff (m w : Finmap (fun _ : E.Class => Key K)) : Finmap (fun _ : E.Class => Key K) :=
  (m \ w) ∪ (w \ m)

/-- The other set of an operation with two operands. -/
def other (m : FiniteMap (Key K) E) (items : O → List (Key K)) (operand : Option O) :
    Finmap (fun _ : E.Class => Key K) :=
  operand.elim m.map fun o => ofItems E (items o)

/-- The meaning of each command on a set. -/
def nextSet (items : O → List (Key K)) (m : FiniteMap (Key K) E) :
    SetCommand K O → FiniteMap (Key K) E
  | .plain c => m.next c
  | .merge o => ⟨m.map ∪ m.other items o, none⟩
  | .intersect o => ⟨inter m.map (m.other items o), none⟩
  | .subtract o => ⟨m.map \ m.other items o, none⟩
  | .symdif o => ⟨symmDiff m.map (m.other items o), none⟩

theorem lookup_ofItems {vs : List (Key K)}
    (hvs : vs.Pairwise fun v w => E.same v w = false) (k w : Key K) :
    (ofItems E vs).lookup (E.classOf k) = some w ↔ w ∈ vs ∧ E.same k w = true := by
  rw [ofItems, Finmap.dlookup_list_toFinmap]
  induction vs with
  | nil => simp
  | cons v vs ih =>
      rw [pairwise_cons] at hvs
      rw [map_cons, mem_cons]
      by_cases hkv : E.same k v = true
      · have hclass := (E.classOf_eq_iff k v).mpr hkv
        rw [← hclass, dlookup_cons_eq, Option.some_inj]
        constructor
        · rintro rfl
          exact ⟨Or.inl rfl, hkv⟩
        · rintro ⟨rfl | hw, hkw⟩
          · rfl
          · have := E.trans v k w (E.symm _ _ hkv) hkw
            exact absurd ((hvs.1 w hw).symm.trans this) (by decide)
      · have hclass : E.classOf k ≠ E.classOf v := fun h =>
          hkv ((E.classOf_eq_iff k v).mp h)
        rw [dlookup_cons_ne _ _ hclass, ih hvs.2]
        refine ⟨fun h => ⟨Or.inr h.1, h.2⟩, ?_⟩
        rintro ⟨rfl | hw, hkw⟩
        · exact absurd hkw hkv
        · exact ⟨hw, hkw⟩

theorem mem_ofItems (vs : List (Key K)) (k : Key K) :
    E.classOf k ∈ ofItems E vs ↔ vs.any (E.same k) = true := by
  rw [ofItems, Finmap.mem_list_toFinmap, any_eq_true]
  constructor
  · rintro ⟨_, hmem⟩
    obtain ⟨w, hw, heq⟩ := mem_map.mp hmem
    exact ⟨w, hw, (E.classOf_eq_iff k w).mp (Sigma.mk.inj_iff.mp heq).1.symm⟩
  · rintro ⟨w, hw, hkw⟩
    refine ⟨w, mem_map.mpr ⟨w, hw, ?_⟩⟩
    rw [(E.classOf_eq_iff k w).mpr hkw]

section

variable {m w : Finmap (fun _ : E.Class => Key K)} {c : E.Class} {v : Key K}

theorem mem_sdiff : c ∈ m \ w ↔ c ∉ w ∧ c ∈ m := by
  simp only [Finmap.mem_iff, lookup_sdiff, exists_and_left]

theorem lookup_inter : (inter m w).lookup c = some v ↔ c ∈ w ∧ m.lookup c = some v := by
  rw [inter, lookup_sdiff, mem_sdiff]
  refine and_congr_left fun hv => ?_
  have hc := Finmap.mem_of_lookup_eq_some hv
  simp [hc]

theorem lookup_union : (m ∪ w).lookup c = some v ↔
    m.lookup c = some v ∨ c ∉ m ∧ w.lookup c = some v :=
  Finmap.mem_lookup_union

theorem lookup_symmDiff : (symmDiff m w).lookup c = some v ↔
    c ∉ w ∧ m.lookup c = some v ∨ c ∉ m ∧ w.lookup c = some v := by
  rw [symmDiff, lookup_union, lookup_sdiff, lookup_sdiff, mem_sdiff]
  refine or_congr_right ⟨fun h => h.2, fun h => ⟨fun hc => h.1 hc.2, h⟩⟩

end

end FiniteMap

namespace SparseSet

open SparseContainer SparseStorage FiniteMap

variable [DecidableEq K]

/-- The state after a command, and the other set after it. -/
def exec (gen : SparseGenerics (Key K) K) (ops : OtherSet K O) (s : SparseSet K) :
    SetCommand K O → Option (SparseSet K × Option O)
  | .plain c => (SparseContainer.exec gen s c).map fun t => (t, none)
  | .merge other => merge gen ops s other
  | .intersect other => intersect gen ops s other
  | .subtract other => subtract gen ops s other
  | .symdif other => symdif gen ops s other

/-- Do all commands, one after the other. -/
def run (gen : SparseGenerics (Key K) K) (ops : OtherSet K O) (s : SparseSet K) :
    List (SetCommand K O) → Option (SparseSet K × List (Option O))
  | [] => some (s, [])
  | c :: cs => do
      let (t, o) ← exec gen ops s c
      let (t, os) ← run gen ops t cs
      return (t, o :: os)

/-- When the first item that is removed, of those for which `P` is true, is the one at the
position remembered, what is remembered with it still leads to it. -/
def RemovesLinked (s : SparseSet K) (P : Key K → Bool) : Prop :=
  ∀ p ∈ s.positions, s.position = p → P (s.key p) = true →
    (∀ q ∈ s.positions, p < q → P (s.key q) = false) → s.PositionLinked

/-- No removal of the command relies on a stale position. -/
def LeadsBack (E : KeyEquality gen) (items : O → List (Key K)) (s : SparseSet K) :
    SetCommand K O → Prop
  | .plain c => SparseContainer.LeadsBack s c
  | .intersect (some o) =>
      items o ≠ [] → RemovesLinked s fun k => !(items o).any (E.same k)
  | .subtract (some o) => RemovesLinked s fun k => (items o).any (E.same k)
  | .symdif (some o) => s.count + (items o).length ≤ s.capacity →
      ∀ v ∈ (items o).head?, v ≠ none → s.isCached v = some true → s.PositionLinked
  | _ => True

/-- The set grows to at most `maximumCapacity`, for which `new_modulus` exceeds no
`INTEGER`. -/
def ModulusFits (gen : SparseGenerics (Key K) K) (items : O → List (Key K)) (s : SparseSet K) :
    SetCommand K O → Prop
  | .plain c => SparseContainer.ModulusFits gen s c
  | .merge (some o) | .symdif (some o) => s.count + (items o).length ≤ s.capacity ∨
      2 * (s.count + (items o).length) ≤ maximumCapacity
  | _ => True

/-- The precondition of a command, and that it moves nothing over a hole. -/
def Pre (gen : SparseGenerics (Key K) K) (s : SparseSet K) : SetCommand K O → Prop
  | .plain c => SparseContainer.Pre gen s c ∧ SparseContainer.NoHoles gen s c
  | _ => True

/-- Every command is called where its precondition and `cond` are true. -/
def Permitted (gen : SparseGenerics (Key K) K) (ops : OtherSet K O)
    (cond : SparseSet K → SetCommand K O → Prop) (s : SparseSet K) :
    List (SetCommand K O) → Prop
  | [] => True
  | c :: cs => Pre gen s c ∧ cond s c ∧
      (exec gen ops s c).elim True fun t => Permitted gen ops cond t.1 cs

section

variable {E : KeyEquality gen} {items : O → List (Key K)} (s : SparseSet K)

instance (P : Key K → Bool) : Decidable (RemovesLinked s P) :=
  inferInstanceAs (Decidable (∀ p ∈ s.positions, s.position = p → P (s.key p) = true →
    (∀ q ∈ s.positions, p < q → P (s.key q) = false) → s.PositionLinked))

instance (c : SetCommand K O) : Decidable (LeadsBack E items s c) := by
  cases c with
  | plain c => exact inferInstanceAs (Decidable (SparseContainer.LeadsBack s c))
  | merge other => exact isTrue trivial
  | intersect other => cases other <;> unfold LeadsBack <;> infer_instance
  | subtract other => cases other <;> unfold LeadsBack <;> infer_instance
  | symdif other => cases other <;> unfold LeadsBack <;> infer_instance

instance (c : SetCommand K O) : Decidable (ModulusFits gen items s c) := by
  cases c with
  | plain c => exact inferInstanceAs (Decidable (SparseContainer.ModulusFits gen s c))
  | merge other => cases other <;> unfold ModulusFits <;> infer_instance
  | intersect other => exact isTrue trivial
  | subtract other => exact isTrue trivial
  | symdif other => cases other <;> unfold ModulusFits <;> infer_instance

instance (c : SetCommand K O) : Decidable (Pre gen s c) := by
  cases c <;> unfold Pre <;> infer_instance

end

instance decidablePermitted (ops : OtherSet K O) (cond : SparseSet K → SetCommand K O → Prop)
    [∀ s c, Decidable (cond s c)] (s : SparseSet K) :
    (cs : List (SetCommand K O)) → Decidable (Permitted gen ops cond s cs)
  | [] => isTrue trivial
  | c :: cs => by
      unfold Permitted
      cases exec gen ops s c with
      | none => exact inferInstanceAs (Decidable (_ ∧ _ ∧ True))
      | some t =>
          have := decidablePermitted ops cond t.1 cs
          exact inferInstanceAs (Decidable (_ ∧ _ ∧ Permitted gen ops cond t.1 cs))

/-! ### One command -/

section

variable {E : KeyEquality gen} {ops : OtherSet K O} {valid : O → Prop}
  {items : O → List (Key K)} {s t : SparseSet K} {m : FiniteMap (Key K) E}

omit [DecidableEq K] in
theorem any_congr {k l : Key K} (h : E.same k l = true) (vs : List (Key K)) :
    vs.any (E.same k) = vs.any (E.same l) := by
  refine List.any_congr rfl fun v => Bool.eq_iff_iff.mpr ⟨?_, ?_⟩
  · exact E.trans l k v (E.symm _ _ h)
  · exact E.trans k l v h

omit [DecidableEq K] in
theorem Kept.holds_iff {s t : SparseStorage (Key K) K} {P : Nat → Prop} (h : Kept s t P)
    {Q : Key K → Prop} (hP : ∀ j, s.Occupied j → (P j ↔ Q (s.key j)))
    (hQ : ∀ k l, E.same k l = true → (Q k ↔ Q l)) (k w : Key K) :
    t.Holds E k w ↔ Q k ∧ s.Holds E k w := by
  constructor
  · rintro ⟨j, hj, hkey, hitem⟩
    obtain ⟨hsj, hPj⟩ := (h.occupied j).mp hj
    rw [(h.keep j hj).1] at hkey
    rw [(h.keep j hj).2] at hitem
    exact ⟨(hQ _ _ hkey).mpr ((hP j hsj).mp hPj), j, hsj, hkey, hitem⟩
  · rintro ⟨hQk, j, hj, hkey, hitem⟩
    have htj := (h.occupied j).mpr ⟨hj, (hP j hj).mpr ((hQ _ _ hkey).mp hQk)⟩
    refine ⟨j, htj, ?_, ?_⟩
    · rw [(h.keep j htj).1]
      exact hkey
    · rw [(h.keep j htj).2]
      exact hitem

theorem represents_of_lookup (ht : WellFormed E (some id) t)
    (hfound : t.foundPosition = noPosition) {w : Finmap (fun _ : E.Class => Key K)}
    (hw : ∀ k v, w.lookup (E.classOf k) = some v ↔ t.Holds E k v) :
    Represents E (some id) t ⟨w, none⟩ :=
  ⟨ht, hw, Or.inl ⟨hfound, rfl⟩⟩

theorem represents_none (ht : WellFormed E (some id) t)
    (hfound : t.foundPosition = noPosition) (hnone : ∀ j, ¬ t.Occupied j)
    {w : Finmap (fun _ : E.Class => Key K)}
    (hw : ∀ k v, w.lookup (E.classOf k) ≠ some v) :
    Represents E (some id) t ⟨w, none⟩ := by
  refine represents_of_lookup ht hfound fun k v => iff_of_false (hw k v) ?_
  rintro ⟨j, hj, -⟩
  exact hnone j hj

theorem not_occupied_of_count {s : SparseContainer (Key K) K} (hs : WellFormed E (some id) s)
    (hzero : s.count = 0) (j : Nat) : ¬ s.Occupied j := by
  intro hj
  have hcount := hs.stored.count_eq
  have hnil : s.positions = [] := length_eq_zero_iff.mp (by omega)
  have := (s.mem_positions j).mpr hj
  simp [hnil] at this

variable (hops : ops.Lawful E valid items) (hs : Represents E (some id) s m) {o : O}
  (ho : valid o)

include hops hs ho

theorem exists_merge (hfits : ModulusFits gen items s (.merge (some o))) :
    ∃ t o', merge gen ops s (some o) = some (t, some o') ∧
    Represents E (some id) t ⟨m.map ∪ ofItems E (items o), none⟩ ∧ valid o' ∧
    items o' = items o := by
  have hwf := hs.wellFormed.unsetFoundItem
  obtain ⟨t, hresize, ht, hfound, hroom, hsame, -⟩ :=
    exists_resizeFor hwf rfl (n := (items o).length) hfits
  obtain ⟨o', htraverse, ho', hitems⟩ := hops.traverse o ho
  obtain ⟨u, hput, hu, hfound', hjoins⟩ :=
    exists_putMissing ht hfound hroom (hops.distinct o ho)
  rw [← hops.count o ho] at hresize
  refine ⟨u, o', ?_, represents_of_lookup hu hfound' ?_, ho', hitems⟩
  · simp [merge, hresize, htraverse, hput]
  · intro k v
    rw [lookup_union, hjoins k v, hs.lookup, hs.mem_iff,
      lookup_ofItems (hops.distinct o ho)]
    simp only [hsame.holds_iff]
    rfl

theorem exists_removeItems (removed : Bool)
    (hlead : RemovesLinked s fun k => (items o).any (E.same k) == removed) :
    ∃ t o', removeItems gen ops removed s o = some (t, some o') ∧
      WellFormed E (some id) t ∧ t.foundPosition = noPosition ∧
      (∀ k v, t.Holds E k v ↔
        (items o).any (E.same k) ≠ removed ∧ s.Holds E k v) ∧
      valid o' ∧ items o' = items o := by
  have hstored := hs.wellFormed.stored
  have hlast := hstored.last_ge
  obtain ⟨c, hmove, hwf⟩ := exists_moveAfter hs.wellFormed
  obtain ⟨t, o', hrun, ht, hfound, ho', hitems, hkept⟩ := exists_removeDown hops
    removed (n := (s.lastPosition + 1).toNat) hwf ho rfl
    (by show _ ≤ s.lastPosition + 1; omega) (by
      intro p hp hcached hoccupied hremoved hfirst
      refine linked_of_positionLinked hwf.stored hcached
        (hlead p ((s.mem_positions p).mpr hoccupied) hcached (beq_iff_eq.mpr hremoved) ?_)
      intro q hq hlt
      have hq := (s.mem_positions q).mp hq
      have := hfirst q (by have := hq.1; omega) hlt hq
      exact beq_eq_false_iff_ne.mpr this)
  refine ⟨t, o', ?_, ht, hfound, ?_, ho', hitems⟩
  · simp only [removeItems, hmove, some_bind]
    exact bind_of_some hrun rfl
  · refine hkept.holds_iff (Q := fun k => (items o).any (E.same k) ≠ removed) ?_ ?_
    · intro j hj
      have hle : (j : Int) ≤ s.lastPosition := hj.1
      have : j < (s.lastPosition + 1).toNat := by omega
      exact ⟨fun h => h this, fun h _ => h⟩
    · intro k l hkl
      rw [any_congr hkl]

theorem exists_intersect (hlead : LeadsBack E items s (.intersect (some o))) :
    ∃ t o', intersect gen ops s (some o) = some (t, some o') ∧
      Represents E (some id) t ⟨inter m.map (ofItems E (items o)), none⟩ ∧ valid o' ∧
      items o' = items o := by
  have hcount := hops.count o ho
  by_cases hnil : items o = []
  · obtain ⟨t, hrun, ht, hfound, -, -, hnone⟩ := exists_wipeOut hs.wellFormed
    have hzero : ops.count o = 0 := by rw [hcount, hnil]; rfl
    refine ⟨t, o, by simp [intersect, hzero, hrun], ?_, ho, rfl⟩
    refine represents_none ht hfound hnone fun k v h => ?_
    have hmem := (mem_ofItems _ k).mp (lookup_inter.mp h).1
    rw [hnil] at hmem
    exact absurd hmem (by simp)
  · have hne : ops.count o ≠ 0 := by
      rw [hcount]
      exact Int.natCast_ne_zero.mpr (mt length_eq_zero_iff.mp hnil)
    obtain ⟨t, o', hrun, ht, hfound, hholds, ho', hitems⟩ :=
      exists_removeItems hops hs ho false (by
        simpa only [beq_false] using hlead hnil)
    refine ⟨t, o', by rw [intersect, if_neg hne, hrun], ?_, ho', hitems⟩
    refine represents_of_lookup ht hfound fun k v => ?_
    rw [lookup_inter, mem_ofItems, hholds, hs.lookup]
    simp

theorem exists_subtract (hlead : LeadsBack E items s (.subtract (some o))) :
    ∃ t o', subtract gen ops s (some o) = some (t, some o') ∧
      Represents E (some id) t ⟨m.map \ ofItems E (items o), none⟩ ∧ valid o' ∧
      items o' = items o := by
  have hcount := hops.count o ho
  by_cases hzero : ops.count o = 0
  · obtain ⟨c, hmove, hwf⟩ := exists_moveAfter hs.wellFormed
    have hnil : items o = [] := length_eq_zero_iff.mp (by omega)
    refine ⟨_, o, ?_, represents_of_lookup hwf rfl fun k v => ?_, ho, rfl⟩
    · simp [subtract, hzero, hmove, SparseContainer.unsetFoundItem]
    · rw [lookup_sdiff, mem_ofItems, hs.lookup, hnil]
      simp [SparseContainer.unsetFoundItem]
  · obtain ⟨t, o', hrun, ht, hfound, hholds, ho', hitems⟩ :=
      exists_removeItems hops hs ho true (by
        simp only [beq_true]
        exact hlead)
    refine ⟨t, o', by simp [subtract, hzero, hrun], ?_, ho', hitems⟩
    refine represents_of_lookup ht hfound fun k v => ?_
    rw [lookup_sdiff, mem_ofItems, hholds, hs.lookup]

theorem exists_symdif (hlead : LeadsBack E items s (.symdif (some o)))
    (hfits : ModulusFits gen items s (.symdif (some o))) :
    ∃ t o', symdif gen ops s (some o) = some (t, some o') ∧
      Represents E (some id) t ⟨symmDiff m.map (ofItems E (items o)), none⟩ ∧ valid o' ∧
      items o' = items o := by
  have hcount := hops.count o ho
  have hdistinct := hops.distinct o ho
  by_cases hzero : ops.count o = 0
  · obtain ⟨c, hmove, hwf⟩ := exists_moveAfter hs.wellFormed
    have hnil : items o = [] := length_eq_zero_iff.mp (by omega)
    refine ⟨_, o, ?_, represents_of_lookup hwf rfl fun k v => ?_, ho, rfl⟩
    · simp [symdif, hzero, hmove, SparseContainer.unsetFoundItem]
    · rw [lookup_symmDiff, mem_ofItems, lookup_ofItems hdistinct, hs.lookup, hnil]
      simp [SparseContainer.unsetFoundItem]
  · by_cases hempty : s.count = 0
    · obtain ⟨t, o', hrun, ht, ho', hitems⟩ := exists_merge hops hs ho hfits
      refine ⟨t, o', by simp [symdif, hzero, hempty, hrun], ?_, ho', hitems⟩
      refine ⟨ht.wellFormed, fun k v => ?_, ht.found⟩
      have hnone : ∀ v, ¬ s.Holds E k v := by
        rintro v ⟨j, hj, -⟩
        exact not_occupied_of_count hs.wellFormed hempty j hj
      rw [← ht.lookup, lookup_symmDiff, lookup_union, hs.lookup]
      simp [hnone]
    · obtain ⟨c, hmove, hwf⟩ := exists_moveAfter hs.wellFormed
      obtain ⟨t, hresize, ht, hfound, hroom, hsame, hposition⟩ :=
        exists_resizeFor hwf rfl (n := (items o).length) hfits
      obtain ⟨o', htraverse, ho', hitems⟩ := hops.traverse o ho
      obtain ⟨u, htoggle, hu, hfound', hholds⟩ := exists_toggle ht hfound hroom hdistinct (by
        intro v hv hvoid hcached
        rcases hposition with ⟨hroom, rfl⟩ | hposition
        · exact hlead hroom v hv hvoid hcached
        · simp [SparseContainer.isCached, hposition] at hcached)
      rw [← hcount] at hresize
      refine ⟨u, o', ?_, represents_of_lookup hu hfound' fun k v => ?_, ho', hitems⟩
      · simp only [symdif, Option.elim_some, hzero, if_false, hempty, hmove,
          some_bind]
        refine bind_of_some hresize ?_
        simp [htraverse, htoggle]
      · rw [lookup_symmDiff, mem_ofItems, lookup_ofItems hdistinct, hs.mem_iff, hs.lookup,
          hholds]
        simp only [hsame.holds_iff, Bool.not_eq_true, and_comm]
        rfl

end

section

variable {E : KeyEquality gen} {ops : OtherSet K O} {valid : O → Prop}
  {items : O → List (Key K)} {s : SparseSet K} {m : FiniteMap (Key K) E}

variable (ops) in
/-- What the operations do when they are called with the set itself. -/
theorem exec_represents_self (hs : Represents E (some id) s m) :
    (∃ t, merge gen ops s none = some (t, none) ∧
      Represents E (some id) t ⟨m.map ∪ m.map, none⟩) ∧
    (∃ t, intersect gen ops s none = some (t, none) ∧
      Represents E (some id) t ⟨inter m.map m.map, none⟩) ∧
    (∃ t, subtract gen ops s none = some (t, none) ∧
      Represents E (some id) t ⟨m.map \ m.map, none⟩) ∧
    ∃ t, symdif gen ops s none = some (t, none) ∧
      Represents E (some id) t ⟨symmDiff m.map m.map, none⟩ := by
  obtain ⟨c, hmove, hwf⟩ := exists_moveAfter hs.wellFormed
  obtain ⟨t, hwipe, ht, hfound, -, -, hnone⟩ := exists_wipeOut hs.wellFormed
  have hsdiff : ∀ k v, (m.map \ m.map).lookup (E.classOf k) ≠ some v := by
    intro k v h
    obtain ⟨hnot, hv⟩ := (lookup_sdiff _ _ _ _).mp h
    exact hnot (Finmap.mem_of_lookup_eq_some hv)
  have hsymm : ∀ k v, (symmDiff m.map m.map).lookup (E.classOf k) ≠ some v := by
    intro k v h
    rcases lookup_symmDiff.mp h with ⟨hnot, hv⟩ | ⟨hnot, hv⟩
    · exact hnot (Finmap.mem_of_lookup_eq_some hv)
    · exact hnot (Finmap.mem_of_lookup_eq_some hv)
  have hempty := not_occupied_of_count hs.wellFormed
  refine ⟨⟨_, rfl, ?_⟩, ⟨_, ?_, represents_of_lookup hwf rfl fun k v => ?_⟩, ?_, ?_⟩
  · refine represents_of_lookup hs.wellFormed.unsetFoundItem rfl fun k v => ?_
    rw [lookup_union, hs.lookup]
    refine or_iff_left_of_imp ?_
    rintro ⟨hnot, hv⟩
    exact absurd (Finmap.mem_of_lookup_eq_some ((hs.lookup k v).mpr hv)) hnot
  · simp [intersect, hmove, SparseContainer.unsetFoundItem]
  · rw [lookup_inter, hs.lookup]
    refine and_iff_right_of_imp fun hv => ?_
    exact Finmap.mem_of_lookup_eq_some ((hs.lookup k v).mpr hv)
  · by_cases hzero : s.count = 0
    · refine ⟨_, ?_, represents_none hwf rfl (hempty hzero) hsdiff⟩
      simp [subtract, hzero, hmove, SparseContainer.unsetFoundItem]
    · exact ⟨t, by simp [subtract, hzero, hwipe], represents_none ht hfound hnone hsdiff⟩
  · by_cases hzero : s.count = 0
    · refine ⟨_, ?_, represents_none hwf rfl (hempty hzero) hsymm⟩
      simp [symdif, hzero, hmove, SparseContainer.unsetFoundItem]
    · exact ⟨t, by simp [symdif, hzero, hwipe], represents_none ht hfound hnone hsymm⟩

/-- The other set is valid and has its items, as before. -/
def Unchanged (valid : O → Prop) (items : O → List (Key K)) : Option O → Option O → Prop :=
  Option.Rel fun o o' => valid o' ∧ items o' = items o

/-- Every command, called where its precondition is true, does what it means, provided that
its removals rely on no stale position and the set does not grow too large. -/
theorem exec_represents (hops : ops.Lawful E valid items)
    (hs : Represents E (some id) s m) {c : SetCommand K O}
    (hvalid : ∀ o ∈ c.operand, valid o) (hagree : c.Agrees) (hpre : Pre gen s c)
    (hlead : LeadsBack E items s c) (hfits : ModulusFits gen items s c) :
    ∃ t o', exec gen ops s c = some (t, o') ∧
      Represents E (some id) t (m.nextSet items c) ∧
      Unchanged valid items c.operand o' := by
  obtain ⟨⟨t₁, hmerge, ht₁⟩, ⟨t₂, hintersect, ht₂⟩, ⟨t₃, hsubtract, ht₃⟩, t₄, hsymdif, ht₄⟩ :=
    exec_represents_self ops hs
  cases c with
  | plain c =>
      obtain ⟨t, hrun, ht⟩ := SparseContainer.exec_represents hs hpre.1 hagree hlead hpre.2 hfits
      exact ⟨t, none, by simp [exec, hrun], ht, .none⟩
  | merge other =>
      cases other with
      | none => exact ⟨t₁, none, hmerge, ht₁, .none⟩
      | some o =>
          obtain ⟨t, o', hrun, ht, ho', hitems⟩ := exists_merge hops hs (hvalid o rfl) hfits
          exact ⟨t, some o', hrun, ht, .some ⟨ho', hitems⟩⟩
  | intersect other =>
      cases other with
      | none => exact ⟨t₂, none, hintersect, ht₂, .none⟩
      | some o =>
          obtain ⟨t, o', hrun, ht, ho', hitems⟩ :=
            exists_intersect hops hs (hvalid o rfl) hlead
          exact ⟨t, some o', hrun, ht, .some ⟨ho', hitems⟩⟩
  | subtract other =>
      cases other with
      | none => exact ⟨t₃, none, hsubtract, ht₃, .none⟩
      | some o =>
          obtain ⟨t, o', hrun, ht, ho', hitems⟩ :=
            exists_subtract hops hs (hvalid o rfl) hlead
          exact ⟨t, some o', hrun, ht, .some ⟨ho', hitems⟩⟩
  | symdif other =>
      cases other with
      | none => exact ⟨t₄, none, hsymdif, ht₄, .none⟩
      | some o =>
          obtain ⟨t, o', hrun, ht, ho', hitems⟩ :=
            exists_symdif hops hs (hvalid o rfl) hlead hfits
          exact ⟨t, some o', hrun, ht, .some ⟨ho', hitems⟩⟩

/-! ### Runs -/

/-- Every permitted run ends, and its last state represents the set that the commands mean. -/
theorem run_represents (hops : ops.Lawful E valid items) (hs : Represents E (some id) s m)
    {cs : List (SetCommand K O)} (hvalid : ∀ c ∈ cs, ∀ o ∈ c.operand, valid o)
    (hagree : ∀ c ∈ cs, c.Agrees)
    (hcs : Permitted gen ops (fun s c => LeadsBack E items s c ∧ ModulusFits gen items s c)
      s cs) :
    ∃ t os, run gen ops s cs = some (t, os) ∧
      Represents E (some id) t (cs.foldl (nextSet items) m) ∧
      List.Forall₂ (Unchanged valid items) (cs.map SetCommand.operand) os := by
  induction cs generalizing s m with
  | nil => exact ⟨s, [], rfl, hs, .nil⟩
  | cons c cs ih =>
      obtain ⟨hpre, ⟨hlead, hfits⟩, hrest⟩ := hcs
      obtain ⟨t, o, hexec, ht, hunchanged⟩ := exec_represents hops hs
        (hvalid c mem_cons_self) (hagree c mem_cons_self) hpre hlead hfits
      rw [hexec] at hrest
      obtain ⟨u, os, hrun, hu, hos⟩ := ih ht
        (fun d hd => hvalid d (mem_cons_of_mem c hd))
        (fun d hd => hagree d (mem_cons_of_mem c hd)) hrest
      exact ⟨u, o :: os, by simp [run, hexec, hrun], hu, .cons hunchanged hos⟩

/-- In every run of a set whose removals rely on no stale position and which does not grow too
large, union, intersection, difference and symmetric difference leave exactly what they mean,
the other sets have the items they had, and the buckets and the free list cover the positions. -/
theorem run_isSet {aTester : Option (KeyTester K)} {n : Nat} (hn : n ≤ maximumCapacity)
    (htester : ∀ k l, (makeSet id aTester n).sameKeys k l = E.same k l)
    (hops : ops.Lawful E valid items) {cs : List (SetCommand K O)}
    (hvalid : ∀ c ∈ cs, ∀ o ∈ c.operand, valid o) (hagree : ∀ c ∈ cs, c.Agrees)
    (hperm : Permitted gen ops (fun s c => LeadsBack E items s c ∧ ModulusFits gen items s c)
      (makeSet id aTester n) cs) :
    ∃ t os, run gen ops (makeSet id aTester n) cs = some (t, os) ∧
      (∀ k v, (cs.foldl (nextSet items) (.empty : FiniteMap (Key K) E)).map.lookup
        (E.classOf k) = some v ↔ t.Holds E k v) ∧
      Stored E (some id) t.toSparseStorage ∧
      List.Forall₂ (Unchanged valid items) (cs.map SetCommand.operand) os := by
  obtain ⟨t, os, hrun, ht, hos⟩ := run_represents hops
    (@represents_make _ _ _ _ _ (.items id) _ _ hn htester) hvalid hagree hperm
  exact ⟨t, os, hrun, ht.lookup, ht.wellFormed.stored, hos⟩

/-- After every such run a new cursor that goes forth until it is after meets each item of the set
once, and is left after and unregistered; nothing else changes, and the other cursors do not. -/
theorem run_traverse {aTester : Option (KeyTester K)} {n : Nat} (hn : n ≤ maximumCapacity)
    (htester : ∀ k l, (makeSet id aTester n).sameKeys k l = E.same k l)
    (hops : ops.Lawful E valid items) {cs : List (SetCommand K O)}
    (hvalid : ∀ c ∈ cs, ∀ o ∈ c.operand, valid o) (hagree : ∀ c ∈ cs, c.Agrees)
    (hperm : Permitted gen ops (fun s c => LeadsBack E items s c ∧ ModulusFits gen items s c)
      (makeSet id aTester n) cs) :
    ∃ t os vs cursors, run gen ops (makeSet id aTester n) cs = some (t, os) ∧
      t.traverse = some (vs, { t with cursors }) ∧ (∃ listed, cursors.Listed listed) ∧
      t.cursors.OneMore afterPosition cursors ∧
      vs.Pairwise (fun v w => E.same v w = false) ∧
      ∀ k v, (cs.foldl (nextSet items) (.empty : FiniteMap (Key K) E)).map.lookup
        (E.classOf k) = some v ↔ v ∈ vs ∧ E.same k v = true := by
  obtain ⟨t, os, hrun, ht, -⟩ := run_represents hops
    (@represents_make _ _ _ _ _ (.items id) _ _ hn htester) hvalid hagree hperm
  have hstored := ht.wellFormed.stored
  obtain ⟨listed, hlisted⟩ := ht.wellFormed.cursors
  obtain ⟨cursors, htraverse, hcursors⟩ := exists_traverse hstored hlisted
  refine ⟨t, os, _, cursors, hrun, htraverse, ⟨listed, (hcursors.listed listed hlisted).1⟩,
    hcursors, lawful_asOther.distinct t ht.wellFormed,
    fun k v => ?_⟩
  rw [ht.lookup, mem_map]
  constructor
  · rintro ⟨i, hi, hsame, hitem⟩
    obtain rfl : t.key i = v := Option.some.inj ((itemStorageItem_eq hstored hi).symm.trans hitem)
    exact ⟨⟨i, (t.mem_positions i).mpr hi, rfl⟩, hsame⟩
  · rintro ⟨⟨i, hi, rfl⟩, hsame⟩
    have hi := (t.mem_positions i).mp hi
    exact ⟨i, hi, hsame, itemStorageItem_eq hstored hi⟩

end

/-! ### Sets of numbers -/

def natItems : SparseGenerics (Key Nat) Nat where
  hashCode := id
  itemDefault := some (some 0)
  keyDefault := some (some 0)

def natItemEquality : KeyEquality natItems where
  same := natEquality.same
  refl := natEquality.refl
  symm := natEquality.symm
  trans := natEquality.trans
  hashCode_eq := natEquality.hashCode_eq
  ne_void := natEquality.ne_void

def noNumbers : SparseSet Nat := makeSet id none 3

def onlySeven : SparseSet Nat :=
  (SparseSet.put natItems noNumbers (some 7)).getD noNumbers

theorem wellFormed_onlySeven : WellFormed natItemEquality (some id) onlySeven := by
  have hnone := (@represents_make _ _ _ natItemEquality _ (.items id) none 3
    (by decide) fun _ _ => rfl).wellFormed
  obtain ⟨t, hput, ht⟩ := @exists_put _ _ natItems _ _ _ _ hnone (some 7) (some 7)
    (fun key hkey => by cases hkey; rfl) (Or.inl (by decide))
  have heq : onlySeven = t := congrArg (·.getD noNumbers) hput
  rw [heq]
  exact ht.wellFormed

theorem run_isSet_with_seven :
    ∃ t os, run natItems (asOther natItems) noNumbers
        [.plain (.put (some 1) (some 1)), .plain (.has (some 1)), .merge (some onlySeven),
          .plain (.has (some 7)), .intersect (some onlySeven), .symdif (some onlySeven),
          .subtract none] = some (t, os) ∧
      Stored natItemEquality (some id) t.toSparseStorage := by
  obtain ⟨t, os, hrun, -, hstored, -⟩ := @run_isSet _ _ _ _ natItemEquality _ _ _ none 3
    (by decide) (fun _ _ => rfl) lawful_asOther
    [.plain (.put (some 1) (some 1)), .plain (.has (some 1)), .merge (some onlySeven),
      .plain (.has (some 7)), .intersect (some onlySeven), .symdif (some onlySeven),
      .subtract none]
    (by
      have := wellFormed_onlySeven
      simp [SetCommand.operand, this])
    (by
      simp [SetCommand.Agrees, Command.Agrees, Command.stores, KeyStorage.Agrees])
    (by decide)
  exact ⟨t, os, hrun, hstored⟩

theorem run_traverse_two :
    ∃ t os vs cursors, run natItems (asOther natItems) noNumbers
        [.plain (.put (some 1) (some 1)), .merge (some onlySeven)] = some (t, os) ∧
      t.traverse = some (vs, { t with cursors }) ∧
      t.cursors.OneMore afterPosition cursors ∧
      vs.Pairwise fun v w => natItemEquality.same v w = false := by
  obtain ⟨t, os, vs, cursors, hrun, htraverse, -, hcursors, hvs, -⟩ :=
      @run_traverse _ _ _ _ natItemEquality
    _ _ _ none 3 (by decide) (fun _ _ => rfl) lawful_asOther
    [.plain (.put (some 1) (some 1)), .merge (some onlySeven)]
    (by
      have := wellFormed_onlySeven
      simp [SetCommand.operand, this])
    (by
      simp [SetCommand.Agrees, Command.Agrees, Command.stores, KeyStorage.Agrees])
    (by decide)
  exact ⟨t, os, vs, cursors, hrun, htraverse, hcursors, hvs⟩

/-- `put_new` does not refresh the position found last: key 7, which it puts in front of
key 1, is lost when `intersect` removes key 1, although the other set has key 7. -/
theorem intersect_loses_common_item :
    Permitted natItems (asOther natItems) (fun _ _ => True) noNumbers
        [.plain (.put (some 1) (some 1)), .plain (.has (some 1)),
          .plain (.putNew (some 7) (some 7)), .intersect (some onlySeven)] ∧
      ((run natItems (asOther natItems) noNumbers
        [.plain (.put (some 1) (some 1)), .plain (.has (some 1)),
          .plain (.putNew (some 7) (some 7)), .intersect (some onlySeven)]).bind
        fun t => (t.1.has natItems (some 7)).map Prod.fst) = some false ∧
      natItemEquality.classOf (some 7) ∈
        ([.plain (.put (some 1) (some 1)), .plain (.has (some 1)),
          .plain (.putNew (some 7) (some 7)), .intersect (some onlySeven)].foldl
          (nextSet fun s : SparseSet Nat => s.positions.map s.key)
          (.empty : FiniteMap (Key Nat) natItemEquality)).map := by
  refine ⟨by decide, by decide, by decide⟩

end SparseSet

end Gobo
