/-
Runs of a sparse container: any sequence of commands, each called where its
precondition is true.
-/
import Gobo.FiniteMap
import Gobo.SparseAssociation

namespace Gobo

open List

variable {G K : Type} {gen : SparseGenerics G K} {E : KeyEquality gen}
  {kind : Option (G → Key K)}

/-- The item a command stores, and its key, are those of one kind of container. -/
def Command.Agrees (kind : Option (G → Key K)) (c : Command G K) : Prop :=
  ∀ v k, c.stores = some (v, k) → KeyStorage.Agrees kind v k

theorem Command.agrees_none (c : Command G K) : c.Agrees none := by
  intro v k _ key hkey
  exact absurd hkey (by simp)

namespace SparseContainer

open SparseStorage

variable [DecidableEq K]

section

variable (gen : SparseGenerics G K) (s : SparseContainer G K)

/-- The state after a command; the answer of a query is left out. -/
def exec : Command G K → Option (SparseContainer G K)
  | .has k => (s.has gen k).map Prod.snd
  | .item k => (s.item gen k).map Prod.snd
  | .search k => s.search gen k
  | .put v k => s.put gen v k
  | .putNew v k => s.putNew gen v k
  | .putLast v k => s.putLast gen v k
  | .putLastNew v k => s.putLastNew gen v k
  | .force v k => s.force gen v k
  | .forceNew v k => s.forceNew gen v k
  | .forceLast v k => s.forceLast gen v k
  | .forceLastNew v k => s.forceLastNew gen v k
  | .replace v k => s.replace gen v k
  | .remove k => s.remove gen k
  | .removeFoundItem => s.removeFoundItem gen
  | .wipeOut => s.wipeOut
  | .resize n => s.resize gen n
  | .compress => s.compress gen

/-- The answer that `has` would give, without the effect of calling it. -/
def Has (k : Key K) : Prop := (s.has gen k).map Prod.fst = some true

/-- The documented preconditions. -/
def Pre : Command G K → Prop
  | .has _ => True
  | .item k => s.Has gen k
  | .search _ => True
  | .put _ k => ¬ s.isFull ∨ s.Has gen k
  | .putNew _ k => ¬ s.isFull ∧ ¬ s.Has gen k
  | .putLast _ k => ¬ s.isFull ∨ s.Has gen k
  | .putLastNew _ k => ¬ s.isFull ∧ ¬ s.Has gen k
  | .force _ _ => True
  | .forceNew _ k => ¬ s.Has gen k
  | .forceLast _ _ => True
  | .forceLastNew _ k => ¬ s.Has gen k
  | .replace _ k => s.Has gen k
  | .remove _ => True
  | .removeFoundItem => s.found
  | .wipeOut => True
  | .resize n => s.capacity ≤ n
  | .compress => True

end

/-- Do all commands, one after the other. -/
def run (gen : SparseGenerics G K) (s : SparseContainer G K) :
    List (Command G K) → Option (SparseContainer G K)
  | [] => some s
  | c :: cs => do (← s.exec gen c).run gen cs

/-- Every command is called where its precondition and `cond` are true. -/
def Permitted (gen : SparseGenerics G K)
    (cond : SparseContainer G K → Command G K → Prop) (s : SparseContainer G K) :
    List (Command G K) → Prop
  | [] => True
  | c :: cs => s.Pre gen c ∧ cond s c ∧
      (s.exec gen c).elim True fun t => t.Permitted gen cond cs

/-- When a removal is answered from the position found last, what is remembered
with that position still leads to it. -/
def LeadsBack (s : SparseContainer G K) : Command G K → Prop
  | .remove k => k ≠ none → s.isCached k = some true → s.PositionLinked
  | .removeFoundItem => s.position = s.foundPosition → s.PositionLinked
  | _ => True

/-- Nothing has to be moved over a hole: `compress` is called, or called by
`put_last` and `put_last_new`, only when there is no hole. -/
def NoHoles (gen : SparseGenerics G K) (s : SparseContainer G K) : Command G K → Prop
  | .compress => s.lastPosition = s.count - 1
  | .putLast _ k => s.lastPosition + 1 < s.capacity ∨ s.Has gen k
  | .putLastNew _ _ => s.lastPosition + 1 < s.capacity
  | _ => True

/-- The container is resized to at most `maximumCapacity`, for which
`new_modulus` exceeds no `INTEGER`. -/
def ModulusFits (gen : SparseGenerics G K) (s : SparseContainer G K) :
    Command G K → Prop
  | .force _ k => s.count < s.capacity ∨ s.Has gen k ∨
      2 * (s.count + 1) ≤ maximumCapacity
  | .forceNew _ _ => s.count < s.capacity ∨ 2 * (s.count + 1) ≤ maximumCapacity
  | .forceLast _ k => s.lastPosition + 1 < s.capacity ∨ s.Has gen k ∨
      2 * (s.lastPosition + 2) ≤ maximumCapacity
  | .forceLastNew _ _ => s.lastPosition + 1 < s.capacity ∨
      2 * (s.lastPosition + 2) ≤ maximumCapacity
  | .resize n => n ≤ maximumCapacity
  | _ => True

section

variable (s : SparseContainer G K)

instance : Decidable s.isFull :=
  inferInstanceAs (Decidable (_ = _))

instance : Decidable s.found :=
  inferInstanceAs (Decidable (_ ≠ _))

instance (k : Key K) : Decidable (s.Has gen k) :=
  inferInstanceAs (Decidable (_ = _))

instance (c : Command G K) : Decidable (s.Pre gen c) := by
  cases c <;> unfold Pre <;> infer_instance

instance (c : Command G K) : Decidable (s.LeadsBack c) := by
  cases c <;> unfold LeadsBack <;> infer_instance

instance (c : Command G K) : Decidable (s.NoHoles gen c) := by
  cases c <;> unfold NoHoles <;> infer_instance

instance (c : Command G K) : Decidable (s.ModulusFits gen c) := by
  cases c <;> unfold ModulusFits <;> infer_instance

end

instance decidablePermitted (cond : SparseContainer G K → Command G K → Prop)
    [∀ s c, Decidable (cond s c)] (s : SparseContainer G K) :
    (cs : List (Command G K)) → Decidable (s.Permitted gen cond cs)
  | [] => isTrue trivial
  | c :: cs => by
      unfold Permitted
      cases s.exec gen c with
      | none => exact inferInstanceAs (Decidable (_ ∧ _ ∧ True))
      | some t =>
          have := decidablePermitted cond t cs
          exact inferInstanceAs (Decidable (_ ∧ _ ∧ t.Permitted gen cond cs))

/-- `m` is the map that the container stands for. -/
structure Represents (E : KeyEquality gen) (kind : Option (G → Key K))
    (s : SparseContainer G K) (m : FiniteMap G E) : Prop where
  wellFormed : WellFormed E kind s
  lookup : ∀ k v, m.map.lookup (E.classOf k) = some v ↔ s.Holds E k v
  found : s.foundPosition = noPosition ∧ m.found = none ∨
    ∃ p : Nat, s.foundPosition = p ∧ s.Occupied p ∧
      m.found = some (E.classOf (s.key p))

/-! ### Queries -/

section

variable {s : SparseContainer G K} (hs : WellFormed E kind s) (k : Key K)

include hs

theorem exists_has : ∃ b t, s.has gen k = some (b, t) ∧
    (b = true ↔ ∃ j, s.Occupied j ∧ E.same k (s.key j) = true) ∧
    WellFormed E kind t ∧ t.toSparseStorage = s.toSparseStorage ∧
    t.foundPosition = s.foundPosition := by
  obtain ⟨q, sp, prev, hrun, hcases⟩ := exists_searchPosition hs k
  rcases hcases with ⟨rfl, -, habsent⟩ | ⟨p, rfl, hp, hsame, -⟩
  · refine ⟨false, _, bind_of_some hrun rfl, ?_,
      ⟨hs.stored, hs.tester, Or.inl rfl, hs.cursors⟩, rfl, rfl⟩
    refine iff_of_false (by decide) ?_
    rintro ⟨j, hj, hsame⟩
    exact absurd ((habsent j hj).symm.trans hsame) (by decide)
  · refine ⟨true, { s with
        position := p, slotsPosition := sp, clashesPreviousPosition := prev },
      bind_of_some hrun ?_, ?_,
      ⟨hs.stored, hs.tester, Or.inr ⟨p, rfl, hp.1⟩, hs.cursors⟩, rfl, rfl⟩
    · have hne : (p : Int) ≠ noPosition := by
        rw [noPosition]
        omega
      simp [hne]
    · exact iff_of_true rfl ⟨p, hp, hsame⟩

theorem has_iff : s.Has gen k ↔
    ∃ j, s.Occupied j ∧ E.same k (s.key j) = true := by
  obtain ⟨b, t, hrun, hb, -⟩ := exists_has hs k
  rw [Has, hrun, ← hb]
  exact Option.some_inj

theorem absent_of_not_has (h : ¬ s.Has gen k) (j : Nat) (hj : s.Occupied j) :
    E.same k (s.key j) = false := by
  by_contra hsame
  exact h ((has_iff hs k).mpr ⟨j, hj, by simpa using hsame⟩)

theorem has_iff_holds : s.Has gen k ↔ ∃ v, s.Holds E k v := by
  rw [has_iff hs k]
  constructor
  · rintro ⟨j, hj, hsame⟩
    obtain ⟨v, hv, -⟩ := hs.stored.exists_item hj.1
    exact ⟨v, j, hj, hsame, hv⟩
  · rintro ⟨v, j, hj, hsame, -⟩
    exact ⟨j, hj, hsame⟩

theorem exists_itemOf {v : G} (hv : s.Holds E k v) :
    ∃ t, s.item gen k = some (v, t) ∧ WellFormed E kind t ∧
      t.toSparseStorage = s.toSparseStorage ∧
      t.foundPosition = s.foundPosition := by
  obtain ⟨j, hj, hsame, hitem⟩ := hv
  obtain ⟨q, sp, prev, hrun, hcases⟩ := exists_searchPosition hs k
  rcases hcases with ⟨-, -, habsent⟩ | ⟨p, rfl, hp, hsame', -⟩
  · exact absurd ((habsent j hj).symm.trans hsame) (by decide)
  · obtain rfl := hs.stored.distinct j p hj hp
      (E.trans _ _ _ (E.symm _ _ hsame) hsame')
    exact ⟨_, bind_of_some hrun (bind_of_some hitem rfl),
      ⟨hs.stored, hs.tester, Or.inr ⟨j, rfl, hj.1⟩, hs.cursors⟩, rfl, rfl⟩

theorem exists_search : ∃ t, s.search gen k = some t ∧ WellFormed E kind t ∧
    t.toSparseStorage = s.toSparseStorage ∧
    (t.foundPosition = noPosition ∧
        (∀ j, s.Occupied j → E.same k (s.key j) = false) ∨
      ∃ p : Nat, t.foundPosition = p ∧ s.Occupied p ∧
        E.same k (s.key p) = true) := by
  obtain ⟨q, sp, prev, hrun, hcases⟩ := exists_searchPosition hs k
  rcases hcases with ⟨rfl, -, habsent⟩ | ⟨p, rfl, hp, hsame, -⟩
  · exact ⟨_, bind_of_some hrun rfl,
      ⟨hs.stored, hs.tester, Or.inl rfl, hs.cursors⟩, rfl,
      Or.inl ⟨rfl, habsent⟩⟩
  · exact ⟨_, bind_of_some hrun rfl,
      ⟨hs.stored, hs.tester, Or.inr ⟨p, rfl, hp.1⟩, hs.cursors⟩, rfl,
      Or.inr ⟨p, rfl, hp, hsame⟩⟩

end

/-! ### One command -/

namespace Represents

variable {s t : SparseContainer G K} {m : FiniteMap G E}

theorem mem_iff (h : Represents E kind s m) (k : Key K) :
    E.classOf k ∈ m.map ↔ ∃ v, s.Holds E k v := by
  rw [Finmap.mem_iff]
  exact exists_congr fun v => h.lookup k v

/-- A query leaves the map alone. -/
theorem query (h : Represents E kind s m) (ht : WellFormed E kind t)
    (hstorage : t.toSparseStorage = s.toSparseStorage)
    (hfound : t.foundPosition = s.foundPosition) : Represents E kind t m := by
  refine ⟨ht, ?_, ?_⟩
  · rw [hstorage]
    exact h.lookup
  · rw [hstorage, hfound]
    exact h.found

theorem insert (h : Represents E kind s m) {k : Key K} {v : G}
    (ht : Associated E kind s.toSparseStorage k v t) :
    Represents E kind t (m.insert k v) := by
  refine ⟨ht.wellFormed, ?_, Or.inl ⟨ht.found, rfl⟩⟩
  intro l w
  rw [ht.associates l w]
  by_cases hkl : E.same k l = true
  · rw [if_pos hkl, ← (E.classOf_eq_iff k l).mpr hkl, FiniteMap.insert,
      Finmap.lookup_insert, Option.some_inj]
    exact eq_comm
  · have hne : E.classOf l ≠ E.classOf k := by
      intro heq
      exact hkl ((E.classOf_eq_iff k l).mp heq.symm)
    rw [if_neg hkl, FiniteMap.insert, Finmap.lookup_insert_of_ne _ hne]
    exact h.lookup l w

theorem erase (h : Represents E kind s m) {k : Key K} (ht : WellFormed E kind t)
    (hfound : t.foundPosition = noPosition)
    (hstorage : Dissociates E s.toSparseStorage t.toSparseStorage k) :
    Represents E kind t ⟨m.map.erase (E.classOf k), none⟩ := by
  refine ⟨ht, ?_, Or.inl ⟨hfound, rfl⟩⟩
  intro l w
  rw [hstorage l w]
  by_cases hkl : E.same k l = true
  · rw [← (E.classOf_eq_iff k l).mpr hkl, Finmap.lookup_erase, hkl]
    simp
  · have hne : E.classOf l ≠ E.classOf k := by
      intro heq
      exact hkl ((E.classOf_eq_iff k l).mp heq.symm)
    rw [Finmap.lookup_erase_ne hne, h.lookup l w]
    simp [hkl]

end Represents

/-- A command that stores an item under a key, called where its precondition is
true, stores it and touches no other item. -/
theorem exec_associated {s : SparseContainer G K} (hs : WellFormed E kind s)
    {c : Command G K} {v : G} {k : Key K} (hc : c.stores = some (v, k))
    (hpre : s.Pre gen c) (hagree : c.Agrees kind) (hholes : s.NoHoles gen c)
    (hfits : s.ModulusFits gen c) :
    ∃ t, s.exec gen c = some t ∧ Associated E kind s.toSparseStorage k v t := by
  have hkeys := hagree v k hc
  have hroom : ¬ s.isFull → s.count < s.capacity := by
    intro hfull
    rw [isFull] at hfull
    have := hs.stored.count_le_capacity
    omega
  have hnew := absent_of_not_has hs k
  have hhas := (has_iff hs k).mp
  cases c with
  | put =>
      cases hc
      exact exists_put hs hkeys (hpre.imp hroom hhas)
  | putNew =>
      cases hc
      exact exists_putNew hs hkeys (hroom hpre.1) (hnew hpre.2)
  | putLast =>
      cases hc
      exact exists_putLast hs hkeys (hholes.imp_right hhas)
  | putLastNew =>
      cases hc
      exact exists_putLastNew hs hkeys hholes (hnew hpre.2)
  | force =>
      cases hc
      exact exists_force hs hkeys (hfits.imp_right (Or.imp_left hhas))
  | forceNew =>
      cases hc
      exact exists_forceNew hs hkeys hfits (hnew hpre)
  | forceLast =>
      cases hc
      exact exists_forceLast hs hkeys (hfits.imp_right (Or.imp_left hhas))
  | forceLastNew =>
      cases hc
      exact exists_forceLastNew hs hkeys hfits (hnew hpre)
  | replace =>
      cases hc
      exact exists_replace hs hkeys (hhas hpre)
  | _ => cases hc

/-- A command called where its precondition is true does what it means,
provided that it does not rely on a stale position, moves no item over a hole
and makes the container not too large. -/
theorem exec_represents {s : SparseContainer G K} {m : FiniteMap G E}
    (hs : Represents E kind s m) {c : Command G K} (hpre : s.Pre gen c)
    (hagree : c.Agrees kind) (hlead : s.LeadsBack c) (hholes : s.NoHoles gen c)
    (hfits : s.ModulusFits gen c) :
    ∃ t, s.exec gen c = some t ∧ Represents E kind t (m.next c) := by
  have hwf := hs.wellFormed
  have hstores : ∀ v k, c.stores = some (v, k) →
      ∃ t, s.exec gen c = some t ∧ Represents E kind t (m.next c) := by
    intro v k hc
    obtain ⟨t, hrun, ht⟩ := exec_associated hwf hc hpre hagree hholes hfits
    exact ⟨t, hrun, by rw [m.next_of_stores hc]; exact hs.insert ht⟩
  cases c with
  | has k =>
      obtain ⟨b, t, hrun, -, ht, hstorage, hfound⟩ := exists_has hwf k
      exact ⟨t, by simp [exec, hrun], hs.query ht hstorage hfound⟩
  | item k =>
      obtain ⟨v, hv⟩ := (has_iff_holds hwf k).mp hpre
      obtain ⟨t, hrun, ht, hstorage, hfound⟩ := exists_itemOf hwf k hv
      exact ⟨t, by simp [exec, hrun], hs.query ht hstorage hfound⟩
  | search k =>
      obtain ⟨t, hrun, ht, hstorage, hcases⟩ := exists_search hwf k
      refine ⟨t, hrun, ht, by rw [hstorage]; exact hs.lookup, ?_⟩
      rcases hcases with ⟨hfound, habsent⟩ | ⟨p, hfound, hp, hsame⟩
      · have hnot : E.classOf k ∉ m.map := by
          rw [hs.mem_iff]
          rintro ⟨v, j, hj, hsame, -⟩
          exact absurd ((habsent j hj).symm.trans hsame) (by decide)
        exact Or.inl ⟨hfound, if_neg hnot⟩
      · have hin : E.classOf k ∈ m.map := by
          rw [hs.mem_iff, ← has_iff_holds hwf, has_iff hwf]
          exact ⟨p, hp, hsame⟩
        refine Or.inr ⟨p, hfound, hstorage ▸ hp, (if_pos hin).trans ?_⟩
        rw [hstorage, (E.classOf_eq_iff _ _).mpr hsame]
  | put v k => exact hstores v k rfl
  | putNew v k => exact hstores v k rfl
  | putLast v k => exact hstores v k rfl
  | putLastNew v k => exact hstores v k rfl
  | force v k => exact hstores v k rfl
  | forceNew v k => exact hstores v k rfl
  | forceLast v k => exact hstores v k rfl
  | forceLastNew v k => exact hstores v k rfl
  | replace v k => exact hstores v k rfl
  | remove k =>
      obtain ⟨t, hrun, ht, hfound, -, hcases⟩ := exists_remove hwf k hlead
      refine ⟨t, hrun, hs.erase ht hfound ?_⟩
      rcases hcases with ⟨p, hp, hsame, hremoved, -⟩ | ⟨habsent, hstorage⟩
      · exact hremoved.dissociates hwf.stored hp hsame
      · intro l w
        rw [hstorage]
        refine (and_iff_right_of_imp ?_).symm
        rintro ⟨j, hj, hsame, -⟩
        by_contra hkl
        have := E.trans _ _ _ (by simpa using hkl) hsame
        exact absurd ((habsent j hj).symm.trans this) (by decide)
  | removeFoundItem =>
      rcases hs.found with ⟨hnone, -⟩ | ⟨p, hfound, hp, hclass⟩
      · exact absurd hnone hpre
      · obtain ⟨t, hrun, ht, hunset, -, hremoved, -⟩ :=
          exists_removeFoundItem hwf hp hfound
            fun hposition => hlead (hposition.trans hfound.symm)
        refine ⟨t, hrun, ?_⟩
        rw [FiniteMap.next, hclass]
        exact hs.erase ht hunset (hremoved.dissociates hwf.stored hp (E.refl _))
  | wipeOut =>
      obtain ⟨t, hrun, ht, hfound, -, -, hnone⟩ := exists_wipeOut hwf
      refine ⟨t, hrun, ht, ?_, Or.inl ⟨hfound, rfl⟩⟩
      intro k v
      refine iff_of_false ?_ ?_
      · simp [FiniteMap.next, FiniteMap.empty]
      · rintro ⟨j, hj, -⟩
        exact hnone j hj
  | resize n =>
      obtain ⟨t, hrun, ht, -, hfound, -, -, hsame⟩ := exists_resize hwf hpre hfits
      refine ⟨t, hrun, ht, ?_, Or.inl ⟨hfound, rfl⟩⟩
      intro k v
      rw [hsame.holds_iff]
      exact hs.lookup k v
  | compress =>
      have hrun : s.compress gen = some s := if_neg (not_not_intro hholes)
      exact ⟨s, hrun, hs⟩

/-! ### Runs -/

/-- A new container is well-formed and stands for the empty map. -/
theorem represents_make {storage : KeyStorage G K}
    {aTester : Option (KeyTester K)} {n : Nat} (hn : n ≤ maximumCapacity)
    (htester : ∀ k l, (make storage aTester n).sameKeys k l = E.same k l) :
    Represents E storage.kind (make storage aTester n) .empty := by
  have hnone : ∀ i : Nat, ¬ ((i : Int) ≤ (make storage aTester n).lastPosition) := by
    intro i
    simp only [make, noPosition]
    omega
  have hslots : ((newModulus n + 1).toNat : Int) = newModulus n + 1 := by
    have := newModulus_eq (Int.natCast_nonneg n) hn
    omega
  refine ⟨⟨?_, htester, Or.inl rfl, ⟨[0], ⟨rfl, rfl⟩, ?_⟩⟩, ?_,
    Or.inl ⟨rfl, rfl⟩⟩
  · exact {
      capacity_le := hn
      modulus_eq := by simp only [make]
      slots_count := by
        simp only [make, Special.count_makeFilled, hslots]
      slots_capacity := by
        simp only [make, Special.makeFilled]
        exact hslots
      clashes_count := by simp only [make, Special.count_makeFilled]
      clashes_capacity := rfl
      items_count := rfl
      items_capacity := rfl
      keys_fit := by cases storage with
        | separate area => exact ⟨rfl, rfl⟩
        | items key => trivial
      kind_eq := by cases storage <;> rfl
      last_lt := by
        simp only [make, noPosition]
        omega
      beyond := fun i _ => Special.get_makeFilled _ _ i
      buckets := Buckets.empty (fun h _ => Special.get_makeFilled _ _ h)
        fun i hi => hnone i hi.1
      free := FreeList.empty fun i hi => hnone i hi.1
      distinct := fun i j hi => absurd hi.1 (hnone i)
      count_eq := rfl }
  · intro c hc
    obtain rfl := mem_singleton.mp hc
    exact Nat.one_pos
  · intro k v
    refine iff_of_false (by simp [FiniteMap.empty]) ?_
    rintro ⟨j, hj, -⟩
    exact hnone j hj.1

/-- Every permitted run ends, and its last state represents the map that the
commands mean. -/
theorem run_represents {s : SparseContainer G K} {m : FiniteMap G E}
    (hs : Represents E kind s m) {cs : List (Command G K)}
    (hagree : ∀ c ∈ cs, c.Agrees kind)
    (hcs : s.Permitted gen (fun s c =>
      s.LeadsBack c ∧ s.NoHoles gen c ∧ s.ModulusFits gen c) cs) :
    ∃ t, s.run gen cs = some t ∧ Represents E kind t (cs.foldl .next m) := by
  induction cs generalizing s m with
  | nil => exact ⟨s, rfl, hs⟩
  | cons c cs ih =>
      obtain ⟨hpre, ⟨hlead, hholes, hfits⟩, hrest⟩ := hcs
      obtain ⟨t, hrun, ht⟩ := exec_represents hs hpre
        (hagree c mem_cons_self) hlead hholes hfits
      rw [hrun] at hrest
      obtain ⟨u, hrun', hu⟩ := ih ht
        (fun d hd => hagree d (mem_cons_of_mem c hd)) hrest
      exact ⟨u, bind_of_some hrun hrun', hu⟩

theorem Permitted.mono {cond cond' : SparseContainer G K → Command G K → Prop}
    {s : SparseContainer G K} {cs : List (Command G K)}
    (hcs : s.Permitted gen cond cs)
    (himp : ∀ s, ∀ c ∈ cs, cond s c → cond' s c) : s.Permitted gen cond' cs := by
  induction cs generalizing s with
  | nil => trivial
  | cons c cs ih =>
      obtain ⟨hpre, hcond, hrest⟩ := hcs
      refine ⟨hpre, himp s c mem_cons_self hcond, ?_⟩
      cases hrun : s.exec gen c with
      | none => trivial
      | some t =>
          rw [hrun] at hrest
          exact ih hrest fun u d hd => himp u d (mem_cons_of_mem c hd)

theorem noHoles_of_not_mayCompress (s : SparseContainer G K) {c : Command G K}
    (hc : c.mayCompress = false) : s.NoHoles gen c := by
  cases c <;> simp_all [Command.mayCompress, NoHoles]

/-- The container has as many items as the map has keys. -/
theorem Represents.count_eq {s : SparseContainer G K} {m : FiniteMap G E}
    (h : Represents E kind s m) : s.count = m.map.keys.card := by
  have hu := h.wellFormed.stored
  let classes := s.positions.map fun i => E.classOf (s.key i)
  have hnodup : classes.Nodup := by
    refine List.Nodup.map_on ?_ s.positions_nodup
    intro i hi j hj heq
    exact hu.distinct i j ((s.mem_positions i).mp hi) ((s.mem_positions j).mp hj)
      ((E.classOf_eq_iff _ _).mp heq)
  have hkeys : m.map.keys = classes.toFinset := by
    ext c
    rw [Finmap.mem_keys, mem_toFinset, mem_map]
    obtain ⟨k, rfl⟩ : ∃ k, E.classOf k = c := Quotient.exists_rep c
    rw [h.mem_iff]
    constructor
    · rintro ⟨v, i, hi, hsame, -⟩
      exact ⟨i, (s.mem_positions i).mpr hi,
        (E.classOf_eq_iff _ _).mpr (E.symm _ _ hsame)⟩
    · rintro ⟨i, hi, heq⟩
      have hi := (s.mem_positions i).mp hi
      obtain ⟨v, hv, -⟩ := hu.exists_item hi.1
      exact ⟨v, i, hi, E.symm _ _ ((E.classOf_eq_iff _ _).mp heq), hv⟩
  rw [hkeys, toFinset_card_of_nodup hnodup, length_map]
  exact hu.count_eq

/-! ### Keys that are their own hash values -/

def natKeys : SparseGenerics Nat Nat where
  hashCode := id
  itemDefault := some 0
  keyDefault := some (some 0)

def natEquality : KeyEquality natKeys where
  same k l := decide (k = l)
  refl := by simp
  symm := by simp +contextual
  trans := by simp +contextual
  hashCode_eq := by simp
  ne_void := by simp

/-- In every run of a table whose removals rely on no stale position, and whose
modulus never exceeds an `INTEGER`, the table is the finite map that the
commands mean. -/
theorem run_isMap {aTester : Option (KeyTester K)} {n : Nat}
    (hn : n ≤ maximumCapacity)
    (htester : ∀ k l, (makeTable (G := G) aTester n).sameKeys k l = E.same k l)
    {cs : List (Command G K)} (hcs : ∀ c ∈ cs, c.mayCompress = false)
    (hperm : (makeTable aTester n).Permitted gen
      (fun s c => s.LeadsBack c ∧ s.ModulusFits gen c) cs) :
    ∃ s, (makeTable aTester n).run gen cs = some s ∧
      (∀ k, ∃ t, s.has gen k = some
        (decide (E.classOf k ∈ (cs.foldl .next (.empty : FiniteMap G E)).map), t)) ∧
      (∀ k v, (cs.foldl .next (.empty : FiniteMap G E)).map.lookup
          (E.classOf k) = some v → ∃ t, s.item gen k = some (v, t)) ∧
      s.count = (cs.foldl .next (.empty : FiniteMap G E)).map.keys.card := by
  obtain ⟨s, hrun, hs⟩ := run_represents (represents_make hn htester)
    (fun c _ => c.agrees_none) (hperm.mono fun s c hc h =>
      ⟨h.1, s.noHoles_of_not_mayCompress (hcs c hc), h.2⟩)
  refine ⟨s, hrun, ?_, ?_, hs.count_eq⟩
  · intro k
    obtain ⟨b, t, hhas, hb, -⟩ := exists_has hs.wellFormed k
    have hmem : b = true ↔
        E.classOf k ∈ (cs.foldl .next (.empty : FiniteMap G E)).map := by
      rw [hs.mem_iff, ← has_iff_holds hs.wellFormed, has_iff hs.wellFormed]
      exact hb
    refine ⟨t, hhas.trans ?_⟩
    rw [Bool.eq_iff_iff.mpr (hmem.trans decide_eq_true_iff.symm)]
  · intro k v hv
    obtain ⟨t, hitem, -⟩ := exists_itemOf hs.wellFormed k ((hs.lookup k v).mp hv)
    exact ⟨t, hitem⟩

theorem run_isMap_two_keys :
    ∃ s, (makeTable none 3).run natKeys
        [.put 10 (some 1), .has (some 1), .remove (some 1), .force 70 (some 7),
          .putNew 10 (some 1)] = some s ∧ s.count = 2 := by
  obtain ⟨s, hrun, -, -, hcount⟩ := @run_isMap Nat Nat natKeys natEquality _
    none 3 (by decide) (fun _ _ => rfl) [.put 10 (some 1), .has (some 1),
      .remove (some 1), .force 70 (some 7), .putNew 10 (some 1)] (by decide)
    (by decide)
  exact ⟨s, hrun, hcount⟩

/-- `new_modulus (715827882)` is negative, and key 70 has no slot. -/
example : ((makeTable none 3).run natKeys
    [.put 10 (some 70), .resize 715827882]).isNone = true := by
  decide

/-- `put_new` does not refresh the position found last: key 7, which it puts in
front of key 1, is lost when key 1 is removed. -/
theorem remove_loses_other_key :
    (makeTable none 3).Permitted natKeys (fun _ _ => True)
        [.put 10 (some 1), .has (some 1), .putNew 70 (some 7), .remove (some 1)] ∧
      ((makeTable none 3).run natKeys
        [.put 10 (some 1), .has (some 1), .putNew 70 (some 7),
          .remove (some 1)]).bind (fun s => (s.has natKeys (some 7)).map Prod.fst)
        = some false ∧
      natEquality.classOf (some 7) ∈
        ([.put 10 (some 1), .has (some 1), .putNew 70 (some 7),
          .remove (some 1)].foldl .next
          (.empty : FiniteMap Nat natEquality)).map := by
  refine ⟨by decide, by decide, ?_⟩
  decide

/-- `compress` leaves `free_slot` as it is, so it breaks the invariant exactly
when there were holes. -/
theorem exists_compress_stored_iff {s : SparseContainer G K}
    (hs : WellFormed E kind s) :
    ∃ t, s.compress gen = some t ∧ t.pairs = s.pairs ∧
      t.lastPosition = t.count - 1 ∧
      (Stored E kind t.toSparseStorage ↔ s.NoHoles gen .compress) := by
  obtain ⟨t, hrun, -, hcount, hlast, hfree, hpairs, ht, -⟩ := exists_compress hs
  rw [← hcount] at hlast
  refine ⟨t, hrun, hpairs, hlast, ?_⟩
  constructor
  · intro hstored
    have hslot := hstored.freeSlot_eq_iff.mpr (hstored.no_vacant_iff.mpr hlast)
    rw [hfree, hs.stored.freeSlot_eq_iff, hs.stored.no_vacant_iff] at hslot
    exact hslot
  · intro hholes
    have hsame : t = s := Option.some.inj
      (hrun.symm.trans (if_neg (not_not_intro hholes)))
    rw [hsame]
    exact hs.stored

/-- In every run whose removals rely on no stale position, that never compresses holes away and
whose modulus never exceeds an `INTEGER`, the buckets cover the occupied positions and the free
list the free ones; the next item is stored without loss. -/
theorem run_stored {storage : KeyStorage G K} {aTester : Option (KeyTester K)}
    {n : Nat} (hn : n ≤ maximumCapacity)
    (htester : ∀ k l, (make storage aTester n).sameKeys k l = E.same k l)
    {cs : List (Command G K)} (hagree : ∀ c ∈ cs, c.Agrees storage.kind)
    (hperm : (make storage aTester n).Permitted gen (fun s c =>
      s.LeadsBack c ∧ s.NoHoles gen c ∧ s.ModulusFits gen c) cs) :
    ∃ s, (make storage aTester n).run gen cs = some s ∧
      Stored E storage.kind s.toSparseStorage ∧
      (∃ t, s.compress gen = some t ∧ t.pairs = s.pairs ∧
        t.lastPosition = t.count - 1 ∧
        (Stored E storage.kind t.toSparseStorage ↔ s.NoHoles gen .compress)) ∧
      ∀ c v k, c.stores = some (v, k) → c.Agrees storage.kind → s.Pre gen c →
        s.NoHoles gen c → s.ModulusFits gen c → ∃ t, s.exec gen c = some t ∧
          Stored E storage.kind t.toSparseStorage ∧
          Associates E s.toSparseStorage t.toSparseStorage k v := by
  obtain ⟨s, hrun, hs⟩ := run_represents (represents_make hn htester) hagree hperm
  refine ⟨s, hrun, hs.wellFormed.stored, exists_compress_stored_iff hs.wellFormed, ?_⟩
  intro c v k hc hagree hpre hholes hfits
  obtain ⟨t, hrun, ht⟩ := exec_associated hs.wellFormed hc hpre hagree hholes hfits
  exact ⟨t, hrun, ht.wellFormed.stored, ht.associates⟩

theorem run_stored_three_keys :
    ∃ s, (makeTable none 3).run natKeys
        [.put 10 (some 1), .put 20 (some 2), .remove (some 2), .compress,
          .putLast 30 (some 3)] = some s ∧
      Stored natEquality none s.toSparseStorage := by
  obtain ⟨s, hrun, hs, -⟩ := @run_stored Nat Nat natKeys natEquality _
    (.separate (.makeEmpty 3)) none 3 (by decide) (fun _ _ => rfl)
    [.put 10 (some 1), .put 20 (some 2), .remove (some 2), .compress,
      .putLast 30 (some 3)] (fun c _ => c.agrees_none) (by decide)
  exact ⟨s, hrun, hs⟩

/-- After `compress` the first free position is still position 0, although
there is none: the item that is put next overwrites the one of key 2. -/
theorem put_overwrites_after_compress : (makeTable none 3).Permitted natKeys LeadsBack
        [.put 10 (some 1), .put 20 (some 2), .put 30 (some 3),
          .remove (some 1), .compress, .put 40 (some 4)] ∧
      ((makeTable none 3).run natKeys
        [.put 10 (some 1), .put 20 (some 2), .put 30 (some 3),
          .remove (some 1), .compress]).map
          (fun s => (s.lastPosition, s.count, s.freeSlot)) = some (1, 2, 0) ∧
      ((makeTable none 3).run natKeys
        [.put 10 (some 1), .put 20 (some 2), .put 30 (some 3),
          .remove (some 1), .compress, .put 40 (some 4)]).bind
          (fun s => (s.has natKeys (some 2)).map Prod.fst) = some false ∧
      natEquality.classOf (some 2) ∈
        ([.put 10 (some 1), .put 20 (some 2), .put 30 (some 3),
          .remove (some 1), .compress, .put 40 (some 4)].foldl .next
          (.empty : FiniteMap Nat natEquality)).map := by
  refine ⟨by decide, by decide, by decide, ?_⟩
  decide

end SparseContainer

end Gobo
