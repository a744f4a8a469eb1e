/-
Union, intersection, difference and symmetric difference of a sparse set with another set
(`DS_SPARSE_SET`).
-/
import Gobo.SparseRuns

namespace Gobo

open List

/-- What is asked of another set: how many items it has, the items that a new cursor meets
one after the other, and whether it has an item. -/
structure OtherSet (K O : Type) where
  count : O → Int
  traverse : O → Option (List (Key K) × O)
  has : O → Key K → Option (Bool × O)

namespace SparseSet

open SparseContainer SparseStorage

variable {K O : Type} [DecidableEq K] (gen : SparseGenerics (Key K) K) (ops : OtherSet K O)

/-- Room for `n` items more. -/
def resizeFor (s : SparseSet K) (n : Int) : Option (SparseSet K) :=
  let nb := int32 (s.count + n)
  if s.capacity < nb then SparseContainer.resize gen s (newCapacity nb) else some s

/-- Add the items that are not in the set. -/
def putMissing (s : SparseSet K) : List (Key K) → Option (SparseSet K)
  | [] => some s
  | v :: vs => do
      let (isIncluded, s) ← s.has gen v
      let s ← if isIncluded then some s else s.putNew gen v
      putMissing s vs

/-- `merge (other)`; no operand means the set itself, here and below. -/
def merge (s : SparseSet K) (other : Option O) : Option (SparseSet K × Option O) :=
  let s := s.unsetFoundItem
  match other with
  | none => some (s, none)
  | some o => do
      let s ← resizeFor gen s (ops.count o)
      let (items, o) ← ops.traverse o
      let s ← putMissing gen s items
      some (s, some o)

/-- Remove the items at the positions below `n` which the other set has, or those which it
does not have. -/
def removeDown (removed : Bool) : Nat → SparseSet K → O → Option (SparseSet K × O)
  | 0, s, o => some (s, o)
  | n + 1, s, o => do
      if (← s.clashesItem n) > freeWatermark then do
        let (isIncluded, o) ← ops.has o (← s.itemStorageItem n)
        let s ← if isIncluded = removed then s.removePosition gen n else some s
        removeDown removed n s o
      else removeDown removed n s o

/-- The loop of `intersect` and of `subtract`. -/
def removeItems (removed : Bool) (s : SparseSet K) (o : O) :
    Option (SparseSet K × Option O) := do
  let s ← s.moveAllCursorsAfter
  let s := s.unsetFoundItem
  let (s, o) ← removeDown gen ops removed (s.lastPosition + 1).toNat s o
  some (s, some o)

/-- `intersect (other)`. -/
def intersect (s : SparseSet K) (other : Option O) : Option (SparseSet K × Option O) :=
  match other with
  | none => do
      let s ← s.moveAllCursorsAfter
      some (s.unsetFoundItem, none)
  | some o =>
      if ops.count o = 0 then do
        let s ← s.wipeOut
        some (s, some o)
      else removeItems gen ops false s o

/-- `subtract (other)`. -/
def subtract (s : SparseSet K) (other : Option O) : Option (SparseSet K × Option O) :=
  if other.elim s.count ops.count = 0 then do
    let s ← s.moveAllCursorsAfter
    some (s.unsetFoundItem, other)
  else
    match other with
    | none => do
        let s ← s.wipeOut
        some (s, none)
    | some o => removeItems gen ops true s o

/-- Remove the items that are in the set, and add the others. -/
def toggle (s : SparseSet K) : List (Key K) → Option (SparseSet K)
  | [] => some s
  | v :: vs => do
      let s ← s.search gen v
      let s ← if s.found then s.removeFoundItem gen else s.putNew gen v
      toggle s vs

/-- `symdif (other)`. -/
def symdif (s : SparseSet K) (other : Option O) : Option (SparseSet K × Option O) :=
  if other.elim s.count ops.count = 0 then do
    let s ← s.moveAllCursorsAfter
    some (s.unsetFoundItem, other)
  else
    match other with
    | none => do
        let s ← s.wipeOut
        some (s, none)
    | some o =>
        if s.count = 0 then merge gen ops s (some o)
        else do
          let s ← s.moveAllCursorsAfter
          let s ← resizeFor gen s.unsetFoundItem (ops.count o)
          let (items, o) ← ops.traverse o
          let s ← toggle gen s items
          some (s, some o)

end SparseSet

/-- What is relied on of another set: as long as its objects are valid, it tells and
traverses its items, no two of which are equal, and no query changes them. -/
structure OtherSet.Lawful {K O : Type} {gen : SparseGenerics (Key K) K} (ops : OtherSet K O)
    (E : KeyEquality gen) (valid : O → Prop) (items : O → List (Key K)) : Prop where
  distinct : ∀ o, valid o → (items o).Pairwise fun v w => E.same v w = false
  count : ∀ o, valid o → ops.count o = (items o).length
  traverse : ∀ o, valid o → ∃ o', ops.traverse o = some (items o, o') ∧ valid o' ∧
    items o' = items o
  has : ∀ o v, valid o → ∃ o', ops.has o v = some ((items o).any (E.same v), o') ∧
    valid o' ∧ items o' = items o

namespace SparseSet

open SparseContainer SparseStorage

variable {K O : Type} {gen : SparseGenerics (Key K) K} {E : KeyEquality gen}
  {ops : OtherSet K O} {valid : O → Prop} {items : O → List (Key K)}

/-! ### Removing many items -/

/-- `t` has those items of `s` which are at a position where `P` is true. -/
structure Kept (s t : SparseStorage (Key K) K) (P : Nat → Prop) : Prop where
  occupied : ∀ j, t.Occupied j ↔ s.Occupied j ∧ P j
  keep : ∀ j, t.Occupied j →
    t.key j = s.key j ∧ t.itemStorageItem j = s.itemStorageItem j

theorem Kept.of_all {s : SparseStorage (Key K) K} {P : Nat → Prop}
    (hP : ∀ j, s.Occupied j → P j) : Kept s s P :=
  ⟨fun j => ⟨fun hj => ⟨hj, hP j hj⟩, And.left⟩, fun _ _ => ⟨rfl, rfl⟩⟩

theorem Kept.trans {s t u : SparseStorage (Key K) K} {P Q R : Nat → Prop}
    (hst : Kept s t P) (htu : Kept t u Q)
    (hR : ∀ j, s.Occupied j → (R j ↔ P j ∧ Q j)) : Kept s u R := by
  refine ⟨?_, ?_⟩
  · intro j
    rw [htu.occupied, hst.occupied, and_assoc]
    exact and_congr_right fun hj => (hR j hj).symm
  · intro j hj
    have htj := ((htu.occupied j).mp hj).1
    obtain ⟨hkey, hitem⟩ := htu.keep j hj
    obtain ⟨hkey', hitem'⟩ := hst.keep j htj
    exact ⟨hkey.trans hkey', hitem.trans hitem'⟩

/-- The items of a set are their own keys. -/
theorem itemStorageItem_eq {s : SparseStorage (Key K) K} (hs : Stored E (some id) s) {j : Nat}
    (hj : s.Occupied j) : s.itemStorageItem j = some (s.key j) := by
  have hkey := hs.keyStorageItem hj.1
  have hkind := hs.kind_eq
  rw [SparseStorage.keyStorageItem] at hkey
  cases hkeys : s.keyStorage with
  | separate area =>
      rw [hkeys] at hkind
      exact absurd hkind (by simp [KeyStorage.kind])
  | items key =>
      rw [hkeys] at hkind hkey
      obtain rfl : key = id := Option.some.inj hkind
      simpa [KeyStorage.item, SparseStorage.itemStorageItem] using hkey

variable [DecidableEq K]

/-- When the first position that the loop from `n` downwards removes is the one remembered,
what is remembered with it leads to it. -/
def LeadsDown (s : SparseSet K) (n : Nat) (P : Nat → Prop) : Prop :=
  ∀ p < n, s.position = p → s.Occupied p → P p →
    (∀ j < n, p < j → s.Occupied j → ¬ P j) →
    SparseContainer.Linked s.toSparseStorage p s.slotsPosition s.clashesPreviousPosition

/-- The loop of `intersect` and of `subtract` removes what the other set has, or has not, and
nothing else. -/
theorem exists_removeDown (hops : ops.Lawful E valid items) (removed : Bool) {n : Nat}
    {s : SparseSet K} {o : O} {vs : List (Key K)} (hs : WellFormed E (some id) s)
    (ho : valid o) (hvs : items o = vs) (hn : (n : Int) ≤ s.lastPosition + 1)
    (hlead : LeadsDown s n fun j => vs.any (E.same (s.key j)) = removed) :
    ∃ t o', removeDown gen ops removed n s o = some (t, o') ∧ WellFormed E (some id) t ∧
      t.foundPosition = s.foundPosition ∧ valid o' ∧ items o' = vs ∧
      Kept s.toSparseStorage t.toSparseStorage
        fun j => j < n → vs.any (E.same (s.key j)) ≠ removed := by
  induction n generalizing s o with
  | zero =>
      exact ⟨s, o, rfl, hs, rfl, ho, hvs, Kept.of_all fun _ _ h => absurd h (Nat.not_lt_zero _)⟩
  | succ n ih =>
      have hlast : (n : Int) ≤ s.lastPosition := by omega
      have hclash := hs.stored.clashesItem (hs.stored.lt_capacity hlast)
      by_cases hoccupied : s.Occupied n
      · have hmark : s.clash n > freeWatermark := hoccupied.2
        obtain ⟨o', hhas, ho', hitems⟩ := hops.has o (s.key n) ho
        rw [hvs] at hhas hitems
        by_cases hremoved : vs.any (E.same (s.key n)) = removed
        · obtain ⟨t, hremove, ht, hr, -, -, hfound, hposition, hle, -⟩ :=
            exists_removePosition hs hoccupied fun hcached =>
              hlead n (Nat.lt_succ_self n) hcached hoccupied hremoved
                fun j hj hlt => by omega
          have hkept : Kept s.toSparseStorage t.toSparseStorage fun j => j ≠ n :=
            ⟨hr.occupied, hr.keep⟩
          -- the position remembered now is none, or the one that was removed
          obtain ⟨u, o'', hrun, hu, hfound', ho'', hitems', hkept'⟩ := ih ht ho' hitems
            (by omega) (by
              intro p hp hcached
              rw [hcached, noPosition] at hposition
              omega)
          refine ⟨u, o'', ?_, hu, hfound'.trans hfound, ho'', hitems', ?_⟩
          · simp [removeDown, hclash, hmark, itemStorageItem_eq hs.stored hoccupied, hhas,
              hremoved, hremove, hrun]
          · refine hkept.trans hkept' ?_
            intro j hj
            by_cases hjn : j = n
            · subst hjn
              simp [hremoved]
            · have htj := (hr.occupied j).mpr ⟨hj, hjn⟩
              rw [(hr.keep j htj).1]
              simp only [ne_eq, hjn, not_false_eq_true, true_and]
              exact imp_congr_left (by omega)
        · obtain ⟨u, o'', hrun, hu, hfound', ho'', hitems', hkept⟩ := ih hs ho' hitems
            (by omega) (by
              intro p hp hcached hoccupied' hp' hfirst
              refine hlead p (by omega) hcached hoccupied' hp' ?_
              intro j hj hlt hj'
              by_cases hjn : j = n
              · rw [hjn]
                exact hremoved
              · exact hfirst j (by omega) hlt hj')
          refine ⟨u, o'', ?_, hu, hfound', ho'', hitems', ?_⟩
          · simp [removeDown, hclash, hmark, itemStorageItem_eq hs.stored hoccupied, hhas,
              hremoved, hrun]
          · refine (Kept.of_all fun _ _ => trivial).trans hkept ?_
            intro j hj
            by_cases hjn : j = n
            · subst hjn
              simp [hremoved]
            · simp only [true_and]
              exact imp_congr_left (by omega)
      · have hmark : ¬ s.clash n > freeWatermark := fun h => hoccupied ⟨hlast, h⟩
        obtain ⟨u, o'', hrun, hu, hfound', ho'', hitems', hkept⟩ := ih hs ho hvs
          (by omega) (by
            intro p hp hcached hoccupied' hp' hfirst
            refine hlead p (by omega) hcached hoccupied' hp' ?_
            intro j hj hlt hj'
            by_cases hjn : j = n
            · rw [hjn] at hj'
              exact absurd hj' hoccupied
            · exact hfirst j (by omega) hlt hj')
        refine ⟨u, o'', ?_, hu, hfound', ho'', hitems', ?_⟩
        · simp [removeDown, hclash, hmark, hrun]
        · refine (Kept.of_all fun _ _ => trivial).trans hkept ?_
          intro j hj
          have hjn : j ≠ n := by
            rintro rfl
            exact hoccupied hj
          simp only [true_and]
          exact imp_congr_left (by omega)

/-! ### Adding many items -/

/-- `put_new` stores the item and leaves alone what is remembered of the last search. -/
theorem exists_putNew {s : SparseSet K} (hs : WellFormed E (some id) s)
    (hroom : s.count < s.capacity) {v : Key K}
    (habsent : ∀ j, s.Occupied j → E.same v (s.key j) = false) :
    ∃ t, s.putNew gen v = some { s.unsetFoundItem with toSparseStorage := t } ∧
      WellFormed E (some id) { s.unsetFoundItem with toSparseStorage := t } ∧
      Associates E s.toSparseStorage t v v ∧ t.count = s.count + 1 ∧
      t.capacity = s.capacity := by
  obtain ⟨i, l, f, t, htake, hinsert, ht, ⟨j, hinserted⟩, hcount, hcapacity, hlast⟩ :=
    @exists_insertFree _ _ gen E _ s.unsetFoundItem hs.stored hroom v v habsent
      fun key hkey => by
        obtain rfl : id = key := Option.some.inj hkey
        rfl
  exact ⟨t, bind_of_some htake
    ((insertHashed_eq hs.unsetFoundItem.stored v v i l f).trans hinsert),
    hs.unsetFoundItem.of_stored ht hlast, hinserted.associates habsent, hcount, hcapacity⟩

/-- In `t` there are the items of `s`, and those of `vs` to which no item of `s` is equal. -/
def Joins (E : KeyEquality gen) (s t : SparseStorage (Key K) K) (vs : List (Key K)) : Prop :=
  ∀ k w, t.Holds E k w ↔
    s.Holds E k w ∨ (¬ ∃ u, s.Holds E k u) ∧ w ∈ vs ∧ E.same k w = true

/-- The loop of `merge`. -/
theorem exists_putMissing {s : SparseSet K} {vs : List (Key K)}
    (hs : WellFormed E (some id) s) (hfound : s.foundPosition = noPosition)
    (hroom : s.count + vs.length ≤ s.capacity)
    (hdistinct : vs.Pairwise fun v w => E.same v w = false) :
    ∃ t, putMissing gen s vs = some t ∧ WellFormed E (some id) t ∧
      t.foundPosition = noPosition ∧ Joins E s.toSparseStorage t.toSparseStorage vs := by
  induction vs generalizing s with
  | nil => exact ⟨s, rfl, hs, hfound, fun k w => by simp⟩
  | cons v vs ih =>
      rw [pairwise_cons] at hdistinct
      rw [length_cons] at hroom
      obtain ⟨b, s', hhas, hb, hs', hstorage, hfound'⟩ := exists_has hs v
      have hother : ∀ k w, w ∈ vs → E.same k w = true → E.same v k = false := by
        intro k w hw hkw
        by_contra hvk
        have := E.trans v k w (by simpa using hvk) hkw
        exact absurd ((hdistinct.1 w hw).symm.trans this) (by decide)
      cases b with
      | true =>
          obtain ⟨t, hrun, ht, hnone, hjoins⟩ := ih hs' (hfound'.trans hfound)
            (by rw [hstorage]; omega) hdistinct.2
          refine ⟨t, ?_, ht, hnone, ?_⟩
          · simp [putMissing, SparseSet.has, hhas, hrun]
          · obtain ⟨j, hj, hsame⟩ := hb.mp rfl
            have hheld : ∀ k, E.same k v = true → ∃ u, s.Holds E k u := fun k hk =>
              ⟨_, j, hj, E.trans _ _ _ hk hsame, itemStorageItem_eq hs.stored hj⟩
            intro k w
            rw [hjoins k w, hstorage, mem_cons]
            refine or_congr_right (and_congr_right fun hnot => ?_)
            refine ⟨fun h => ⟨Or.inr h.1, h.2⟩, ?_⟩
            rintro ⟨rfl | hw, hkw⟩
            · exact absurd (hheld k hkw) hnot
            · exact ⟨hw, hkw⟩
      | false =>
          have habsent : ∀ j, s'.Occupied j → E.same v (s'.key j) = false := by
            rw [hstorage]
            intro j hj
            by_contra hsame
            exact absurd (hb.mpr ⟨j, hj, by simpa using hsame⟩) (by decide)
          obtain ⟨u, hput, hu, hassoc, hcount, hcapacity⟩ := exists_putNew hs'
            (by rw [hstorage]; omega) habsent
          obtain ⟨t, hrun, ht, hnone, hjoins⟩ := ih hu rfl
            (by simp only [hcount, hcapacity, hstorage]; omega) hdistinct.2
          refine ⟨t, ?_, ht, hnone, ?_⟩
          · simp [putMissing, SparseSet.has, hhas, hput, hrun]
          · have hnone : ∀ k, E.same v k = true → ¬ ∃ u, s.Holds E k u := by
              rintro k hvk ⟨u, j, hj, hsame, -⟩
              have := habsent j (by rw [hstorage]; exact hj)
              rw [hstorage, E.trans _ _ _ hvk hsame] at this
              exact absurd this (by decide)
            intro k w
            rw [hjoins k w]
            simp only [hassoc k, hstorage]
            by_cases hvk : E.same v k = true
            · simp only [if_pos hvk, exists_eq, not_true, false_and, or_false, hnone k hvk,
                not_false_eq_true, true_and, mem_cons]
              constructor
              · rintro rfl
                exact Or.inr ⟨Or.inl rfl, E.symm _ _ hvk⟩
              · rintro (hw | ⟨rfl | hw, hkw⟩)
                · exact absurd ⟨w, hw⟩ (hnone k hvk)
                · rfl
                · exact absurd ((hother k w hw hkw).symm.trans hvk) (by decide)
            · simp only [if_neg hvk, mem_cons]
              refine or_congr_right (and_congr_right fun hnot => ?_)
              refine ⟨fun h => ⟨Or.inr h.1, h.2⟩, ?_⟩
              rintro ⟨rfl | hw, hkw⟩
              · exact absurd (E.symm _ _ hkw) hvk
              · exact ⟨hw, hkw⟩

/-! ### Adding or removing many items -/

/-- No search is answered from the position remembered. -/
def Fresh (s : SparseSet K) : Prop :=
  ∀ p : Nat, s.position = p → ¬ s.Occupied p

theorem Fresh.not_isCached {s : SparseSet K} (hs : WellFormed E (some id) s) (h : s.Fresh)
    (k : Key K) : s.isCached k ≠ some true := by
  obtain ⟨b, hb, hiff⟩ := isCached_eq hs.stored hs.position k
  rw [hb]
  rintro heq
  obtain ⟨p, hp, hoccupied, -⟩ := hiff.mp (Option.some.inj heq)
  exact h p hp hoccupied

/-- What the turn of `toggle` for an item `v` does. -/
structure Toggled (E : KeyEquality gen) (s : SparseSet K) (v : Key K) (t : SparseSet K) :
    Prop where
  wellFormed : WellFormed E (some id) t
  found : t.foundPosition = noPosition
  fresh : t.Fresh
  count : t.count ≤ s.count + 1
  capacity : t.capacity = s.capacity
  holds : ∀ k w, t.Holds E k w ↔
    if E.same v k = true then (¬ ∃ u, s.Holds E k u) ∧ w = v else s.Holds E k w

theorem exists_toggleTurn {s : SparseSet K} (hs : WellFormed E (some id) s)
    (hroom : s.count < s.capacity) (v : Key K)
    (hlead : v ≠ none → s.isCached v = some true → s.PositionLinked) :
    ∃ t, (do
        let s ← s.search gen v
        if s.found then s.removeFoundItem gen else s.putNew gen v) = some t ∧
      Toggled E s v t := by
  obtain ⟨q, sp, prev, hrun, hcases⟩ := exists_searchPosition hs v
  rcases hcases with ⟨rfl, -, habsent⟩ | ⟨p, rfl, hp, hsame, hlinked⟩
  · -- the item is not in the set
    obtain ⟨t, hput, ht, hassoc, hcount, hcapacity⟩ := @exists_putNew _ gen E _
      { s with
        position := noPosition, slotsPosition := sp, clashesPreviousPosition := prev
        foundPosition := noPosition }
      ⟨hs.stored, hs.tester, Or.inl rfl, hs.cursors⟩ hroom v habsent
    refine ⟨_, bind_of_some (bind_of_some hrun rfl)
      ((if_neg fun h => h rfl).trans hput), ht, rfl, ?_, Int.le_of_eq hcount, hcapacity, ?_⟩
    · intro p hp
      change noPosition = (p : Int) at hp
      rw [noPosition] at hp
      omega
    · intro k w
      have hnone : E.same v k = true → ¬ ∃ u, s.Holds E k u := by
        rintro hvk ⟨u, j, hj, hkey, -⟩
        have := habsent j hj
        rw [E.trans _ _ _ hvk hkey] at this
        exact absurd this (by decide)
      refine (hassoc k w).trans ?_
      by_cases hvk : E.same v k = true
      · rw [if_pos hvk, if_pos hvk]
        exact (and_iff_right (hnone hvk)).symm
      · rw [if_neg hvk, if_neg hvk]
  · -- the item is in the set, at position `p`
    have hlinked : SparseContainer.Linked s.toSparseStorage p sp prev := by
      rcases hlinked with hlinked | ⟨hcached, hv, hposition, rfl, rfl⟩
      · exact hlinked
      · exact linked_of_positionLinked hs.stored hposition (hlead hv hcached)
    have hne : (p : Int) ≠ noPosition := by
      rw [noPosition]
      omega
    obtain ⟨t, hremove, ht, hr, hcount, hcapacity, -, hposition, -⟩ :=
      @exists_removePosition _ _ gen E _ _
        { s with
          position := p, slotsPosition := sp, clashesPreviousPosition := prev
          foundPosition := p }
        ⟨hs.stored, hs.tester, Or.inr ⟨p, rfl, hp.1⟩, hs.cursors⟩ p hp fun _ => hlinked
    have hdissociates : Dissociates E s.toSparseStorage t.toSparseStorage v :=
      Removed.dissociates ⟨hr.occupied, hr.keep⟩ hs.stored hp hsame
    refine ⟨t.unsetFoundItem, bind_of_some (bind_of_some hrun rfl) ((if_pos hne).trans
        (bind_of_some hremove rfl)), ht.unsetFoundItem, rfl, ?_, ?_,
      hcapacity, ?_⟩
    · intro q hq hoccupied
      change t.position = q at hq
      rw [hq, noPosition] at hposition
      obtain rfl : q = p := by omega
      exact ((hr.occupied q).mp hoccupied).2 rfl
    · change t.count ≤ s.count + 1
      change t.count = s.count - 1 at hcount
      omega
    · intro k w
      refine (hdissociates k w).trans ?_
      by_cases hvk : E.same v k = true
      · rw [if_pos hvk]
        refine iff_of_false (fun h => absurd (hvk.symm.trans h.1) (by decide)) ?_
        rintro ⟨hnone, -⟩
        exact hnone ⟨_, p, hp, E.trans _ _ _ (E.symm _ _ hvk) hsame,
          itemStorageItem_eq hs.stored hp⟩
      · rw [if_neg hvk]
        exact and_iff_right (by simpa using hvk)

/-- The loop of `symdif`.  Only its first turn can rely on what is remembered of an earlier
search. -/
theorem exists_toggle {s : SparseSet K} {vs : List (Key K)}
    (hs : WellFormed E (some id) s) (hfound : s.foundPosition = noPosition)
    (hroom : s.count + vs.length ≤ s.capacity)
    (hdistinct : vs.Pairwise fun v w => E.same v w = false)
    (hlead : ∀ v ∈ vs.head?, v ≠ none → s.isCached v = some true → s.PositionLinked) :
    ∃ t, toggle gen s vs = some t ∧ WellFormed E (some id) t ∧
      t.foundPosition = noPosition ∧
      ∀ k w, t.Holds E k w ↔ s.Holds E k w ∧ vs.any (E.same k) = false ∨
        (¬ ∃ u, s.Holds E k u) ∧ w ∈ vs ∧ E.same k w = true := by
  induction vs generalizing s with
  | nil => exact ⟨s, rfl, hs, hfound, fun k w => by simp⟩
  | cons v vs ih =>
      rw [pairwise_cons] at hdistinct
      rw [length_cons] at hroom
      obtain ⟨s', hturn, hs'⟩ := exists_toggleTurn hs (by omega) v (hlead v rfl)
      obtain ⟨t, hrun, ht, hnone, hholds⟩ := ih hs'.wellFormed hs'.found
        (by have := hs'.count; rw [hs'.capacity]; omega) hdistinct.2
        fun w _ _ hcached => absurd hcached (hs'.fresh.not_isCached hs'.wellFormed w)
      refine ⟨t, ?_, ht, hnone, ?_⟩
      · obtain ⟨s₁, hsearch, hturn⟩ := Option.bind_eq_some_iff.mp hturn
        by_cases hs₁ : s₁.found
        · rw [if_pos hs₁] at hturn
          simp [toggle, hsearch, hs₁, hturn, hrun]
        · rw [if_neg hs₁] at hturn
          simp [toggle, hsearch, hs₁, hturn, hrun]
      · intro k w
        rw [hholds k w]
        simp only [hs'.holds k, any_cons, mem_cons, Bool.or_eq_false_iff]
        by_cases hvk : E.same v k = true
        · have hkv := E.symm _ _ hvk
          have hother : ∀ w ∈ vs, E.same k w = false := by
            intro w hw
            by_contra hkw
            have := E.trans v k w hvk (by simpa using hkw)
            exact absurd ((hdistinct.1 w hw).symm.trans this) (by decide)
          have hany : vs.any (E.same k) = false := by
            simpa using hother
          simp only [if_pos hvk, hkv, hany, Bool.true_eq_false, and_false, false_or, and_true]
          constructor
          · rintro (⟨hno, rfl⟩ | ⟨-, hw, hkw⟩)
            · exact ⟨hno, Or.inl rfl, hkv⟩
            · exact absurd ((hother w hw).symm.trans hkw) (by decide)
          · rintro ⟨hno, rfl | hw, hkw⟩
            · exact Or.inl ⟨hno, rfl⟩
            · exact absurd ((hother w hw).symm.trans hkw) (by decide)
        · have hkv : E.same k v = false := by
            rw [E.comm]
            simpa using hvk
          simp only [if_neg hvk, hkv, true_and]
          refine or_congr_right (and_congr_right fun hno => ?_)
          refine ⟨fun h => ⟨Or.inr h.1, h.2⟩, ?_⟩
          rintro ⟨rfl | hw, hkw⟩
          · exact absurd (hkv.symm.trans hkw) (by decide)
          · exact ⟨hw, hkw⟩

/-! ### Room and cursors -/

/-- After `resizeFor` the items are the same and there is room for `n` more.  Either nothing
has changed, or no position is remembered. -/
theorem exists_resizeFor {s : SparseSet K} (hs : WellFormed E (some id) s)
    (hfound : s.foundPosition = noPosition) {n : Nat}
    (hfits : s.count + n ≤ s.capacity ∨ 2 * (s.count + n) ≤ maximumCapacity) :
    ∃ t, resizeFor gen s n = some t ∧ WellFormed E (some id) t ∧
      t.foundPosition = noPosition ∧ t.count + n ≤ t.capacity ∧
      SameItems s.toSparseStorage t.toSparseStorage ∧
      (s.count + n ≤ s.capacity ∧ t = s ∨ t.position = noPosition) := by
  have hcount := hs.stored.count_eq
  have hmax := hs.stored.capacity_le
  rw [maximumCapacity] at hmax hfits
  have hnb : int32 (s.count + n) = s.count + n := int32_of_mem (by omega) (by omega)
  by_cases hroom : s.capacity < s.count + n
  · have hfits := hfits.resolve_left (Int.not_le.mpr hroom)
    have hcap : newCapacity (s.count + n) = 2 * (s.count + n) :=
      newCapacity_eq (by omega) (by omega)
    obtain ⟨t, hrun, ht, htcap, hunset, hposition, -, hsame⟩ :=
      exists_resize hs (by omega : s.capacity ≤ newCapacity (s.count + n))
        (by rw [hcap]; exact hfits)
    refine ⟨t, ?_, ht, hunset, ?_, hsame, Or.inr hposition⟩
    · rw [resizeFor, hnb, if_pos hroom]
      exact hrun
    · rw [hsame.count, htcap, hcap]
      omega
  · have hroom := Int.not_lt.mp hroom
    refine ⟨s, ?_, hs, hfound, hroom, ⟨fun _ => Iff.rfl, fun _ _ => ⟨rfl, rfl⟩, rfl, rfl⟩,
      Or.inl ⟨hroom, rfl⟩⟩
    rw [resizeFor, hnb, if_neg (Int.not_lt.mpr hroom)]

theorem exists_moveAfter {s : SparseSet K} (hs : WellFormed E (some id) s) :
    ∃ c, s.moveAllCursorsAfter = some { s with cursors := c } ∧
      WellFormed E (some id) { s.unsetFoundItem with cursors := c } := by
  obtain ⟨cs, hcs⟩ := hs.cursors
  obtain ⟨c, hrun, -, -, hlisted, -⟩ := exists_moveAllCursorsAfter s hcs
  exact ⟨c, hrun, hs.stored, hs.tester, hs.position, ⟨_, hlisted⟩⟩

end SparseSet

end Gobo
