/-
What the operations of sparse tables do to the association of items with keys.
-/
import Gobo.SparseCompress

namespace Gobo

variable {G K : Type} {gen : SparseGenerics G K} {E : KeyEquality gen}
  {kind : Option (G → Key K)}

namespace SparseStorage

/-- In `t` item `v` is associated with key `k`, everything else is as in `s`. -/
def Associates (E : KeyEquality gen) (s t : SparseStorage G K) (k : Key K)
    (v : G) : Prop :=
  ∀ l w, t.Holds E l w ↔ if E.same k l = true then w = v else s.Holds E l w

/-- In `t` nothing is associated with key `k`, everything else is as in `s`. -/
def Dissociates (E : KeyEquality gen) (s t : SparseStorage G K) (k : Key K) : Prop :=
  ∀ l w, t.Holds E l w ↔ E.same k l = false ∧ s.Holds E l w

theorem Inserted.associates {s t : SparseStorage G K} {i : Nat} {k : Key K}
    {v : G} (h : Inserted s t i k v)
    (habsent : ∀ j, s.Occupied j → E.same k (s.key j) = false) :
    Associates E s t k v := by
  intro l w
  have hold : ∀ j, s.Occupied j → E.same k l = true →
      E.same l (s.key j) = false := by
    intro j hj hkl
    by_contra hlj
    have := habsent j hj
    rw [E.trans k l _ hkl (by simpa using hlj)] at this
    exact absurd this (by simp)
  constructor
  · rintro ⟨j, hj, hkey, hitem⟩
    rcases (h.occupied j).mp hj with hj | rfl
    · rw [(h.keep j hj).1] at hkey
      rw [(h.keep j hj).2] at hitem
      by_cases hkl : E.same k l = true
      · exact absurd hkey (by simp [hold j hj hkl])
      · rw [if_neg hkl]
        exact ⟨j, hj, hkey, hitem⟩
    · rw [h.key_eq] at hkey
      rw [if_pos (E.symm _ _ hkey)]
      exact Option.some.inj (hitem.symm.trans h.item_eq)
  · intro hw
    by_cases hkl : E.same k l = true
    · rw [if_pos hkl] at hw
      subst hw
      exact ⟨i, (h.occupied i).mpr (Or.inr rfl),
        by rw [h.key_eq]; exact E.symm _ _ hkl, h.item_eq⟩
    · rw [if_neg hkl] at hw
      obtain ⟨j, hj, hkey, hitem⟩ := hw
      refine ⟨j, (h.occupied j).mpr (Or.inl hj), ?_, ?_⟩
      · rw [(h.keep j hj).1]
        exact hkey
      · rw [(h.keep j hj).2]
        exact hitem

theorem Removed.dissociates {s t : SparseStorage G K} {p : Nat}
    (h : Removed s t p) (hs : Stored E kind s) (hp : s.Occupied p) {k : Key K}
    (hk : E.same k (s.key p) = true) : Dissociates E s t k := by
  intro l w
  constructor
  · rintro ⟨j, hj, hkey, hitem⟩
    obtain ⟨hsj, hne⟩ := (h.occupied j).mp hj
    rw [(h.keep j hj).1] at hkey
    rw [(h.keep j hj).2] at hitem
    refine ⟨?_, j, hsj, hkey, hitem⟩
    by_contra hkl
    apply hne
    refine hs.distinct j p hsj hp ?_
    exact E.trans _ _ _ (E.symm _ _ hkey)
      (E.trans _ _ _ (E.symm _ _ (by simpa using hkl)) hk)
  · rintro ⟨hkl, j, hj, hkey, hitem⟩
    have hne : j ≠ p := by
      rintro rfl
      rw [E.trans k _ l hk (E.symm _ _ hkey)] at hkl
      exact absurd hkl (by simp)
    have htj := (h.occupied j).mpr ⟨hj, hne⟩
    refine ⟨j, htj, ?_, ?_⟩
    · rw [(h.keep j htj).1]
      exact hkey
    · rw [(h.keep j htj).2]
      exact hitem

end SparseStorage

namespace SparseContainer

open SparseStorage

theorem Replaced.associates {s t : SparseStorage G K} {p : Nat} {k : Key K}
    {v : G} (h : Replaced s t p k v) (hs : Stored E kind s) (hp : s.Occupied p)
    (hk : E.same k (s.key p) = true) : Associates E s t k v := by
  have hpkey : E.same k (t.key p) = true := by
    rcases h.key_eq with heq | heq
    · rw [heq]
      exact hk
    · rw [heq]
      exact E.refl k
  intro l w
  constructor
  · rintro ⟨j, hj, hkey, hitem⟩
    by_cases hjp : j = p
    · subst hjp
      rw [if_pos (E.trans _ _ _ hpkey (E.symm _ _ hkey))]
      exact Option.some.inj (hitem.symm.trans h.item_eq)
    · have hsj := (h.occupied j).mp hj
      rw [(h.keep j hsj hjp).1] at hkey
      rw [(h.keep j hsj hjp).2] at hitem
      rw [if_neg]
      · exact ⟨j, hsj, hkey, hitem⟩
      · intro hkl
        apply hjp
        refine hs.distinct j p hsj hp ?_
        exact E.trans _ _ _ (E.symm _ _ hkey) (E.trans _ _ _ (E.symm _ _ hkl) hk)
  · intro hw
    by_cases hkl : E.same k l = true
    · rw [if_pos hkl] at hw
      subst hw
      exact ⟨p, (h.occupied p).mpr hp, E.trans _ _ _ (E.symm _ _ hkl) hpkey,
        h.item_eq⟩
    · rw [if_neg hkl] at hw
      obtain ⟨j, hj, hkey, hitem⟩ := hw
      have hjp : j ≠ p := by
        rintro rfl
        exact hkl (E.trans _ _ _ hk (E.symm _ _ hkey))
      refine ⟨j, (h.occupied j).mpr hj, ?_, ?_⟩
      · rw [(h.keep j hj hjp).1]
        exact hkey
      · rw [(h.keep j hj hjp).2]
        exact hitem

theorem SameItems.holds_iff {s t : SparseStorage G K} (h : SameItems s t)
    (k : Key K) (v : G) : t.Holds E k v ↔ s.Holds E k v := by
  constructor
  · rintro ⟨j, hj, hkey, hitem⟩
    have hsj := (h.occupied j).mp hj
    rw [(h.keep j hsj).1] at hkey
    rw [(h.keep j hsj).2] at hitem
    exact ⟨j, hsj, hkey, hitem⟩
  · rintro ⟨j, hj, hkey, hitem⟩
    refine ⟨j, (h.occupied j).mpr hj, ?_, ?_⟩
    · rw [(h.keep j hj).1]
      exact hkey
    · rw [(h.keep j hj).2]
      exact hitem

/-- `t` is well-formed, and it is `s` with `v` associated with `k`. -/
structure Associated (E : KeyEquality gen) (kind : Option (G → Key K))
    [DecidableEq K] (s : SparseStorage G K) (k : Key K) (v : G)
    (t : SparseContainer G K) : Prop where
  wellFormed : WellFormed E kind t
  found : t.foundPosition = noPosition
  associates : Associates E s t.toSparseStorage k v

variable [DecidableEq K]

theorem WellFormed.unsetFoundItem {s : SparseContainer G K}
    (hs : WellFormed E kind s) : WellFormed E kind s.unsetFoundItem :=
  ⟨hs.stored, hs.tester, hs.position, hs.cursors⟩

/-- A container with other contents stays well-formed if `last_position` does
not decrease. -/
theorem WellFormed.of_stored {s : SparseContainer G K} {t : SparseStorage G K}
    (hs : WellFormed E kind s) (ht : Stored E kind t)
    (hlast : s.lastPosition ≤ t.lastPosition) :
    WellFormed E kind { s with toSparseStorage := t } := by
  refine ⟨ht, hs.tester, ?_, hs.cursors⟩
  rcases hs.position with hnone | ⟨p, hp, hle⟩
  · exact Or.inl hnone
  · exact Or.inr ⟨p, hp, Int.le_trans hle hlast⟩

theorem associated_itemStoragePut {s : SparseContainer G K}
    (hs : WellFormed E kind s) (hfound : s.foundPosition = noPosition) {p : Nat}
    (hp : s.Occupied p) {k : Key K} {v : G}
    (hsame : E.same k (s.key p) = true)
    (hagree : KeyStorage.Agrees kind v k) :
    ∃ t, s.itemStoragePut v p = some t ∧
      Associated E kind s.toSparseStorage k v t := by
  obtain ⟨t, hrun, ht, hreplaced, -, -, hlast⟩ :=
    exists_itemStoragePut hs.stored hp hsame hagree
  exact ⟨_, hrun, hs.of_stored ht (Int.le_of_eq hlast.symm), hfound,
    hreplaced.associates hs.stored hp hsame⟩

/-- Storing at the position that is taken, in front of the bucket of `k`. -/
theorem associated_insertFree {s : SparseContainer G K}
    (hs : WellFormed E kind s) (hfound : s.foundPosition = noPosition)
    (hroom : s.count < s.capacity) {k : Key K} {v : G}
    (habsent : ∀ j, s.Occupied j → E.same k (s.key j) = false)
    (hagree : KeyStorage.Agrees kind v k)
    {f : Int → SparseContainer G K → Option (SparseContainer G K)}
    (hf : ∀ i l m, f i { s with lastPosition := l, freeSlot := m } =
      insertAt { s with lastPosition := l, freeSlot := m } v k i
        (s.bucketOf gen k : Nat)) :
    ∃ t, (do
        let (i, s) ← s.takeFreePosition
        f i s) = some t ∧
      Associated E kind s.toSparseStorage k v t := by
  obtain ⟨i, l, m, t, htake, hrun, ht, ⟨j, hinserted⟩, -, -, hlast⟩ :=
    @exists_insertFree _ _ gen _ _ _ hs.stored hroom k v habsent hagree
  rw [← hf i l m] at hrun
  exact ⟨_, bind_of_some htake hrun, hs.of_stored ht hlast,
    hfound, hinserted.associates habsent⟩

omit [DecidableEq K] in
/-- Storing in front of the bucket that `hash_position` gives. -/
def insertHashed (gen : SparseGenerics G K) (s : SparseContainer G K) (v : G)
    (k : Key K) (i : Int) : Option (SparseContainer G K) := do
  s.insertAt v k i (← s.hashPosition gen k)

omit [DecidableEq K] in
theorem insertHashed_eq {s : SparseContainer G K}
    (hs : Stored E kind s.toSparseStorage) (v : G) (k : Key K) (i l m : Int) :
    insertHashed gen { s with lastPosition := l, freeSlot := m } v k i =
      insertAt { s with lastPosition := l, freeSlot := m } v k i
        (s.bucketOf gen k : Nat) := by
  have hhash : SparseStorage.hashPosition gen
      { s.toSparseStorage with lastPosition := l, freeSlot := m } k =
      some ((s.bucketOf gen k : Nat) : Int) := by
    rw [← hs.hashPosition_eq k]
    cases k <;> rfl
  simp only [insertHashed, hhash, some_bind]

section

variable {s : SparseContainer G K} (hs : WellFormed E kind s)

include hs

/-- Storing behind the last position. -/
theorem associated_insertLast (hfound : s.foundPosition = noPosition)
    (hroom : s.lastPosition + 1 < s.capacity) {k : Key K} {v : G}
    (habsent : ∀ j, s.Occupied j → E.same k (s.key j) = false)
    (hagree : KeyStorage.Agrees kind v k) :
    ∃ t, insertAt { s with lastPosition := s.lastPosition + 1 } v k
          (s.lastPosition + 1) (s.bucketOf gen k : Nat) = some t ∧
      Associated E kind s.toSparseStorage k v t := by
  obtain ⟨t, hrun, ht, ⟨j, hinserted⟩, -, -, hlast⟩ :=
    @exists_insertLast _ _ gen _ _ _ hs.stored hroom k v habsent hagree
  exact ⟨_, hrun, hs.of_stored ht hlast, hfound, hinserted.associates habsent⟩

/-- The operations that replace the item of a key that is there, and do
something else for a new key. -/
theorem exists_searchThen {k : Key K} {v : G} (hagree : KeyStorage.Agrees kind v k)
    {insert : SparseContainer G K → Option (SparseContainer G K)}
    (hinsert : ∀ prev, (∀ j, s.Occupied j → E.same k (s.key j) = false) →
      ∃ t, insert { s.unsetFoundItem with
          position := noPosition
          slotsPosition := (s.bucketOf gen k : Nat)
          clashesPreviousPosition := prev } = some t ∧
        Associated E kind s.toSparseStorage k v t) :
    ∃ t, (do
        let s ← s.unsetFoundItem.searchPosition gen k
        if s.position ≠ noPosition then
          s.itemStoragePut v s.position
        else
          insert s) = some t ∧
      Associated E kind s.toSparseStorage k v t := by
  obtain ⟨q, sp, prev, hrun, hcases⟩ := exists_searchPosition hs.unsetFoundItem k
  rcases hcases with ⟨rfl, rfl, habsent⟩ | ⟨p, rfl, hp, hsame, -⟩
  · obtain ⟨t, ht, hassoc⟩ := hinsert prev habsent
    refine ⟨t, bind_of_some hrun ?_, hassoc⟩
    refine (if_neg (fun h => h rfl)).trans ?_
    exact ht
  · have hne : (p : Int) ≠ noPosition := by
      rw [noPosition]
      omega
    obtain ⟨t, ht, hassoc⟩ := @associated_itemStoragePut _ _ _ _ _ _
      { s.unsetFoundItem with
        position := p, slotsPosition := sp, clashesPreviousPosition := prev }
      ⟨hs.stored, hs.tester, Or.inr ⟨p, rfl, hp.1⟩, hs.cursors⟩ rfl p hp k v
      hsame hagree
    refine ⟨t, bind_of_some hrun ?_, hassoc⟩
    refine (if_pos hne).trans ?_
    exact ht

/-- The container as a search that failed leaves it. -/
theorem WellFormed.searched (sp prev : Int) :
    WellFormed E kind { s.unsetFoundItem with
      position := noPosition
      slotsPosition := sp
      clashesPreviousPosition := prev } :=
  ⟨hs.stored, hs.tester, Or.inl rfl, hs.cursors⟩

end

theorem Associated.of_same {s t : SparseStorage G K} {k : Key K} {v : G}
    {u : SparseContainer G K} (hu : Associated E kind t k v u)
    (hsame : SameItems s t) : Associated E kind s k v u := by
  refine ⟨hu.wellFormed, hu.found, ?_⟩
  intro l w
  rw [hu.associates l w, hsame.holds_iff]

omit [DecidableEq K] in
theorem SameItems.absent {s t : SparseStorage G K} (h : SameItems s t) {k : Key K}
    (habsent : ∀ j, s.Occupied j → E.same k (s.key j) = false) :
    ∀ j, t.Occupied j → E.same k (t.key j) = false := by
  intro j hj
  have hsj := (h.occupied j).mp hj
  rw [(h.keep j hsj).1]
  exact habsent j hsj

/-- The `resize` of the operations that force an item makes room. -/
theorem exists_resizeRoom {s : SparseContainer G K} (hs : WellFormed E kind s)
    {i : Int} (hi : i = s.capacity) (hmax : 2 * (i + 1) ≤ maximumCapacity) :
    ∃ t, s.resize gen (newCapacity (i + 1)) = some t ∧
      WellFormed E kind t ∧ t.foundPosition = noPosition ∧
      t.count < t.capacity ∧ t.lastPosition + 1 < t.capacity ∧
      SameItems s.toSparseStorage t.toSparseStorage := by
  have hcount := hs.stored.count_le_capacity
  have hlast := hs.stored.last_lt
  have hclashes := hs.stored.clashes_count
  have hn : newCapacity (i + 1) = 2 * (s.capacity + 1) := by
    rw [maximumCapacity] at hmax
    rw [newCapacity_eq (by omega) (by omega), hi]
  obtain ⟨t, hrun, ht, hcapacity, hfound, -, -, hsame⟩ :=
    exists_resize hs (by omega : s.capacity ≤ newCapacity (i + 1)) (by omega)
  refine ⟨t, hrun, ht, hfound, ?_, ?_, hsame⟩
  · rw [hsame.count, hcapacity, hn]
    omega
  · rw [hsame.last, hcapacity, hn]
    omega

section Operations

variable {s : SparseContainer G K} (hs : WellFormed E kind s) {k : Key K} {v : G}
  (hagree : KeyStorage.Agrees kind v k)

include hs hagree

theorem exists_put (hroom : s.count < s.capacity ∨
      ∃ j, s.Occupied j ∧ E.same k (s.key j) = true) :
    ∃ t, s.put gen v k = some t ∧
      Associated E kind s.toSparseStorage k v t := by
  unfold put
  apply exists_searchThen hs hagree
  intro prev habsent
  have hroom : s.count < s.capacity := hroom.resolve_right fun ⟨j, hj, hsame⟩ =>
    absurd hsame (by simp [habsent j hj])
  exact associated_insertFree (hs.searched _ prev) rfl hroom habsent hagree
    (f := fun i s => s.insertAt v k i s.slotsPosition) fun _ _ _ => rfl

theorem exists_putNew (hroom : s.count < s.capacity)
    (habsent : ∀ j, s.Occupied j → E.same k (s.key j) = false) :
    ∃ t, s.putNew gen v k = some t ∧
      Associated E kind s.toSparseStorage k v t := by
  unfold putNew
  exact associated_insertFree hs.unsetFoundItem rfl hroom habsent hagree
    (f := fun i s => s.insertHashed gen v k i)
    (insertHashed_eq hs.unsetFoundItem.stored v k)

theorem exists_replace (hhas : ∃ j, s.Occupied j ∧ E.same k (s.key j) = true) :
    ∃ t, s.replace gen v k = some t ∧
      Associated E kind s.toSparseStorage k v t := by
  obtain ⟨j, hj, hsame⟩ := hhas
  obtain ⟨q, sp, prev, hrun, hcases⟩ := exists_searchPosition hs.unsetFoundItem k
  rcases hcases with ⟨-, -, habsent⟩ | ⟨p, rfl, hp, hsame', -⟩
  · exact absurd ((habsent j hj).symm.trans hsame) (by decide)
  · obtain ⟨t, ht, hassoc⟩ := @associated_itemStoragePut _ _ _ _ _ _
      { s.unsetFoundItem with
        position := p, slotsPosition := sp, clashesPreviousPosition := prev }
      ⟨hs.stored, hs.tester, Or.inr ⟨p, rfl, hp.1⟩, hs.cursors⟩ rfl p hp k v
      hsame' hagree
    exact ⟨t, bind_of_some hrun ht, hassoc⟩

theorem exists_force (hmax : s.count < s.capacity ∨
      (∃ j, s.Occupied j ∧ E.same k (s.key j) = true) ∨
      2 * (s.count + 1) ≤ maximumCapacity) :
    ∃ t, s.force gen v k = some t ∧
      Associated E kind s.toSparseStorage k v t := by
  unfold force
  apply exists_searchThen hs hagree
  intro prev habsent
  have hs' := hs.searched (s.bucketOf gen k : Nat) prev
  by_cases hfull : s.count = s.capacity
  · have hmax : 2 * (s.count + 1) ≤ maximumCapacity :=
      (hmax.resolve_left (by omega)).resolve_left fun ⟨j, hj, hsame⟩ =>
        absurd hsame (by simp [habsent j hj])
    obtain ⟨t, hresize, ht, hfound, hroom, -, hsame⟩ :=
      exists_resizeRoom hs' hfull hmax
    obtain ⟨u, hrun, hassoc⟩ := associated_insertFree ht hfound hroom
      (hsame.absent habsent) hagree
      (f := fun i s => s.insertAt v k i (t.bucketOf gen k : Nat))
      fun _ _ _ => rfl
    refine ⟨u, bind_of_some ((if_pos hfull).trans
      (bind_of_some hresize (bind_of_some (ht.stored.hashPosition_eq k) rfl))) hrun,
        hassoc.of_same hsame⟩
  · have hroom := hs.stored.count_le_capacity
    obtain ⟨u, hrun, hassoc⟩ := associated_insertFree hs' rfl
      (by show s.count < s.capacity; omega) habsent hagree
      (f := fun i t => t.insertAt v k i (s.bucketOf gen k : Nat))
      fun _ _ _ => rfl
    exact ⟨u, bind_of_some (if_neg hfull) hrun, hassoc⟩

theorem exists_forceNew (hmax : s.count < s.capacity ∨
      2 * (s.count + 1) ≤ maximumCapacity)
    (habsent : ∀ j, s.Occupied j → E.same k (s.key j) = false) :
    ∃ t, s.forceNew gen v k = some t ∧
      Associated E kind s.toSparseStorage k v t := by
  unfold forceNew
  by_cases hfull : s.count = s.capacity
  · obtain ⟨t, hresize, ht, hfound, hroom, -, hsame⟩ :=
      exists_resizeRoom hs.unsetFoundItem hfull (hmax.resolve_left (by omega))
    obtain ⟨u, hrun, hassoc⟩ := associated_insertFree ht hfound hroom
      (hsame.absent habsent) hagree (f := fun i s => s.insertHashed gen v k i)
      (insertHashed_eq ht.stored v k)
    exact ⟨u, bind_of_some ((if_pos hfull).trans hresize) hrun, hassoc.of_same hsame⟩
  · have hroom := hs.stored.count_le_capacity
    obtain ⟨u, hrun, hassoc⟩ := associated_insertFree hs.unsetFoundItem rfl
      (by show s.count < s.capacity; omega) habsent hagree
      (f := fun i s => s.insertHashed gen v k i)
      (insertHashed_eq hs.unsetFoundItem.stored v k)
    exact ⟨u, bind_of_some (if_neg hfull) hrun, hassoc⟩

theorem exists_forceLast (hmax : s.lastPosition + 1 < s.capacity ∨
      (∃ j, s.Occupied j ∧ E.same k (s.key j) = true) ∨
      2 * (s.lastPosition + 2) ≤ maximumCapacity) :
    ∃ t, s.forceLast gen v k = some t ∧
      Associated E kind s.toSparseStorage k v t := by
  have hlast := hs.stored.last_lt
  unfold forceLast
  apply exists_searchThen hs hagree
  intro prev habsent
  have hs' := hs.searched (s.bucketOf gen k : Nat) prev
  by_cases hfull : s.lastPosition + 1 ≥ s.capacity
  · have hmax : 2 * (s.lastPosition + 2) ≤ maximumCapacity :=
      (hmax.resolve_left (by omega)).resolve_left fun ⟨j, hj, hsame⟩ =>
        absurd hsame (by simp [habsent j hj])
    obtain ⟨t, hresize, ht, hfound, -, hroom, hsame⟩ :=
      exists_resizeRoom hs' (i := s.lastPosition + 1)
        (by show s.lastPosition + 1 = s.capacity; omega) (by omega)
    obtain ⟨u, hrun, hassoc⟩ := associated_insertLast ht hfound hroom
      (hsame.absent habsent) hagree
    rw [hsame.last] at hrun
    exact ⟨u, bind_of_some ((if_pos hfull).trans
      (bind_of_some hresize (bind_of_some (ht.stored.hashPosition_eq k) rfl))) hrun,
        hassoc.of_same hsame⟩
  · obtain ⟨u, hrun, hassoc⟩ := associated_insertLast hs' rfl
      (by show s.lastPosition + 1 < s.capacity; omega) habsent hagree
    exact ⟨u, bind_of_some (if_neg hfull) hrun, hassoc⟩

theorem exists_forceLastNew (hmax : s.lastPosition + 1 < s.capacity ∨
      2 * (s.lastPosition + 2) ≤ maximumCapacity)
    (habsent : ∀ j, s.Occupied j → E.same k (s.key j) = false) :
    ∃ t, s.forceLastNew gen v k = some t ∧
      Associated E kind s.toSparseStorage k v t := by
  have hlast := hs.stored.last_lt
  unfold forceLastNew
  by_cases hfull : s.lastPosition + 1 ≥ s.capacity
  · have hmax := hmax.resolve_left (by omega)
    obtain ⟨t, hresize, ht, hfound, -, hroom, hsame⟩ :=
      exists_resizeRoom hs.unsetFoundItem (i := s.lastPosition + 1)
        (by show s.lastPosition + 1 = s.capacity; omega) (by omega)
    obtain ⟨u, hrun, hassoc⟩ := associated_insertLast ht hfound hroom
      (hsame.absent habsent) hagree
    rw [hsame.last] at hrun
    exact ⟨u, bind_of_some ((if_pos hfull).trans hresize)
      (bind_of_some (ht.stored.hashPosition_eq k) hrun),
      hassoc.of_same hsame⟩
  · obtain ⟨u, hrun, hassoc⟩ := associated_insertLast hs.unsetFoundItem rfl
      (by show s.lastPosition + 1 < s.capacity; omega) habsent hagree
    exact ⟨u, bind_of_some (if_neg hfull)
      (bind_of_some (hs.stored.hashPosition_eq k) hrun), hassoc⟩

theorem exists_putLast (hroom : s.lastPosition + 1 < s.capacity ∨
      ∃ j, s.Occupied j ∧ E.same k (s.key j) = true) :
    ∃ t, s.putLast gen v k = some t ∧
      Associated E kind s.toSparseStorage k v t := by
  unfold putLast
  apply exists_searchThen hs hagree
  intro prev habsent
  have hroom : s.lastPosition + 1 < s.capacity :=
    hroom.resolve_right fun ⟨j, hj, hsame⟩ =>
      absurd ((habsent j hj).symm.trans hsame) (by decide)
  obtain ⟨u, hrun, hassoc⟩ := associated_insertLast
    (hs.searched (s.bucketOf gen k : Nat) prev) rfl hroom habsent hagree
  exact ⟨u, bind_of_some (if_neg (Int.not_le.mpr hroom)) hrun, hassoc⟩

theorem exists_putLastNew (hroom : s.lastPosition + 1 < s.capacity)
    (habsent : ∀ j, s.Occupied j → E.same k (s.key j) = false) :
    ∃ t, s.putLastNew gen v k = some t ∧
      Associated E kind s.toSparseStorage k v t := by
  unfold putLastNew
  obtain ⟨u, hrun, hassoc⟩ :=
    associated_insertLast hs.unsetFoundItem rfl hroom habsent hagree
  exact ⟨u, bind_of_some (if_neg (Int.not_le.mpr hroom))
    (bind_of_some (hs.stored.hashPosition_eq k) hrun), hassoc⟩

end Operations

end SparseContainer

end Gobo
