/-
What the removal routines of sparse containers do to a state that satisfies the
representation invariant.
-/
import Gobo.SparseSearch

namespace Gobo

open List Function

variable {G K : Type} {gen : SparseGenerics G K} {E : KeyEquality gen}
  {kind : Option (G → Key K)}

namespace SparseStorage

namespace Removed

variable {s t : SparseStorage G K} {p : Nat}

theorem distinct (hr : Removed s t p) (hs : Stored E kind s) (i j : Nat)
    (hi : t.Occupied i) (hj : t.Occupied j)
    (hsame : E.same (t.key i) (t.key j) = true) : i = j := by
  rw [(hr.keep i hi).1, (hr.keep j hj).1] at hsame
  exact hs.distinct i j ((hr.occupied i).mp hi).1 ((hr.occupied j).mp hj).1 hsame

theorem length_positions (hr : Removed s t p) (hp : s.Occupied p) :
    s.positions.length = t.positions.length + 1 := by
  apply length_eq_succ_of_mem t.positions_nodup s.positions_nodup (i := p)
  · rw [t.mem_positions, hr.occupied]
    exact fun h => h.2 rfl
  · intro j
    rw [s.mem_positions, t.mem_positions, hr.occupied]
    constructor
    · intro hj
      by_cases hjp : j = p
      · exact Or.inr hjp
      · exact Or.inl ⟨hj, hjp⟩
    · rintro (hj | rfl)
      · exact hj.1
      · exact hp

end Removed

end SparseStorage

namespace SparseContainer

open SparseStorage

/-! ### Unlinking -/

/-- The links `c` and the slots `d` are those of `s` once position `p` is out of
its bucket. -/
structure Unlinked (gen : SparseGenerics G K) (s : SparseStorage G K) (p : Nat)
    (c d : Special Int) : Prop where
  clashes_count : c.count = s.clashes.count
  clashes_capacity : c.capacity = s.clashes.capacity
  slots_count : d.count = s.slots.count
  slots_capacity : d.capacity = s.slots.capacity
  free : ∀ j, ¬ s.Occupied j → c.get noPosition j = s.clash j
  buckets : Buckets (s.bucketOf gen) (s.modulus.toNat + 1) s.key
    (c.get noPosition) (d.get noPosition) (fun j => s.Occupied j ∧ j ≠ p)

theorem exists_unlinkBucket {s : SparseContainer G K}
    (hs : Stored E kind s.toSparseStorage) {p : Nat} (hp : s.position = p)
    (hoccupied : s.Occupied p)
    (hlinked : Linked s.toSparseStorage p s.slotsPosition s.clashesPreviousPosition) :
    ∃ c d, s.unlinkBucket = some { s with clashes := c, slots := d } ∧
      Unlinked gen s.toSparseStorage p c d := by
  have hnext := hs.clashesItem (hs.lt_capacity hoccupied.1)
  rw [← hp] at hnext
  rcases hlinked with ⟨hprev, h, hle, hh, hslot⟩ | ⟨q, hprev, hq, hclash⟩
  · obtain ⟨d, hput, hcount, hcapacity, hget⟩ :=
      s.exists_slotsPut (s.clash p) (i := h) (by rw [hs.slots_count_eq]; omega)
    rw [← hh] at hput
    refine ⟨s.clashes, d, ?_, rfl, rfl, hcount, hcapacity, fun _ _ => rfl, ?_⟩
    · simp [unlinkBucket, hnext, hprev, hput]
    · rw [hget]
      exact hs.buckets.removeHead (by omega) hslot fun _ => Iff.rfl
  · obtain ⟨c, hput, hcount, hcapacity, hget⟩ :=
      s.exists_clashesPut (s.clash p) (i := q) (hs.lt_clashes_count hq.1)
    rw [← hprev] at hput
    have hne : s.clashesPreviousPosition ≠ noPosition := by
      rw [hprev, noPosition]
      omega
    refine ⟨c, s.slots, ?_, hcount, hcapacity, rfl, rfl, ?_, ?_⟩
    · simp [unlinkBucket, hnext, hne, hput]
    · intro j hj
      rw [hget, update_of_ne]
      rintro rfl
      exact hj hq
    · rw [hget]
      exact hs.buckets.removeAfter hq (hs.bucketOf_le _) hclash
        fun _ => Iff.rfl

/-- Removing a position from its bucket leaves the other positions on their
side of the watermark. -/
theorem Unlinked.watermark_iff {s : SparseStorage G K} {p : Nat}
    {c d : Special Int} (h : Unlinked gen s p c d) {j : Nat} (hj : j ≠ p) :
    freeWatermark < c.get noPosition j ↔ freeWatermark < s.clash j := by
  by_cases hoccupied : s.Occupied j
  · have hclash := h.buckets.clash_ge j ⟨hoccupied, hj⟩
    have := hoccupied.2
    rw [freeWatermark] at *
    omega
  · rw [h.free j hoccupied]

theorem exists_putDefaults (s : SparseContainer G K) {p : Nat}
    (hfit : s.keyStorage.Fits s.itemStorage.count s.itemStorage.capacity)
    (hlt : p < s.itemStorage.count) (hcap : p < s.itemStorage.capacity) :
    ∃ items keys, s.putDefaults gen p =
        some { s with itemStorage := items, keyStorage := keys } ∧
      items.count = s.itemStorage.count ∧
      items.capacity = s.itemStorage.capacity ∧
      keys.Fits items.count items.capacity ∧ keys.kind = s.keyStorage.kind ∧
      ∀ j : Nat, j < s.itemStorage.count → j ≠ p →
        items.item j = s.itemStorage.item j ∧
        keys.item items j = s.keyStorage.item s.itemStorage j := by
  have hitem : ∃ items, gen.itemDefault.elim (some s)
        (fun v => s.itemStoragePut v p) = some { s with itemStorage := items } ∧
      items.count = s.itemStorage.count ∧
      items.capacity = s.itemStorage.capacity ∧
      ∀ j : Nat, j < s.itemStorage.count → j ≠ p →
        items.item j = s.itemStorage.item j ∧
        s.keyStorage.item items j = s.keyStorage.item s.itemStorage j := by
    cases gen.itemDefault with
    | none => exact ⟨s.itemStorage, rfl, rfl, rfl, fun _ _ _ => ⟨rfl, rfl⟩⟩
    | some v =>
        obtain ⟨items, hforce, hcount', hcapacity', _, _, _, hold⟩ :=
          @KeyStorage.exists_putItem _ _ _ s.keyStorage v p hlt hcap
        exact ⟨items, by simp [itemStoragePut, hforce], hcount', hcapacity', hold⟩
  obtain ⟨items, hitems, hcount', hcapacity', hold⟩ := hitem
  rw [← hcount', ← hcapacity'] at hfit
  cases hdefault : gen.keyDefault with
  | none =>
      refine ⟨items, s.keyStorage, ?_, hcount', hcapacity', hfit, rfl, hold⟩
      rw [putDefaults, hitems, hdefault]
      rfl
  | some k =>
      obtain ⟨keys, hput, hfit', hkind', hold'⟩ :=
        KeyStorage.exists_putKey k hfit (hcount' ▸ hlt) (hcapacity' ▸ hcap)
      refine ⟨items, keys, ?_, hcount', hcapacity', hfit', hkind', ?_⟩
      · rw [putDefaults, hitems, hdefault]
        simp [keyStoragePut, hput]
      · intro j hj hne
        exact ⟨(hold j hj hne).1, (hold' j (hcount' ▸ hj) hne).trans
          (hold j hj hne).2⟩

/-- What giving back position `p` yields. -/
def Released (gen : SparseGenerics G K) (E : KeyEquality gen)
    (kind : Option (G → Key K)) (s : SparseContainer G K) (p : Nat)
    (c d : Special Int) : Prop :=
  ∃ t q, releasePosition gen { s with clashes := c, slots := d } =
      some { s with toSparseStorage := t, position := q } ∧
    Stored E kind { t with count := t.count - 1 } ∧
    Removed s.toSparseStorage t p ∧
    t.count = s.count ∧ t.capacity = s.capacity ∧
    s.lastPosition ≤ t.lastPosition + 1 ∧
    (q = noPosition ∨ q = p ∧ (p : Int) ≤ t.lastPosition)

section

variable {s : SparseContainer G K} (hs : Stored E kind s.toSparseStorage)
  {p : Nat} (hp : s.position = p) (hoccupied : s.Occupied p)
  {c d : Special Int} (hu : Unlinked gen s.toSparseStorage p c d)

include hs hp hoccupied hu

/-- The last position goes back behind `last_position`. -/
theorem released_of_last
    (hlast : s.freeSlot = noPosition ∧ s.position = s.lastPosition) :
    Released gen E kind s p c d := by
  have hcount := hs.items_count
  have hplast := hoccupied.1
  have hcp : p < c.count := hu.clashes_count ▸ hs.lt_clashes_count hplast
  obtain ⟨items, keys, hitems, hkeys, hcount', hcapacity', hfit', hkind',
    hold⟩ := KeyStorage.exists_keepHead (n := p) hs.keys_fit (by omega)
  obtain ⟨c', hput, hccount', hccap', hget⟩ := c.exists_put noPosition hcp
  let t : SparseStorage G K := { s.toSparseStorage with
    itemStorage := items, keyStorage := keys, clashes := c', slots := d
    lastPosition := s.lastPosition - 1 }
  have hclash : t.clash = update (c.get noPosition) p noPosition :=
    hget noPosition
  have hoccupied' : ∀ j, t.Occupied j ↔ s.Occupied j ∧ j ≠ p := by
    intro j
    by_cases hj : j = p
    · subst hj
      simp only [Occupied, ne_eq, not_true, and_false, iff_false, t]
      omega
    · have := hu.watermark_iff hj
      simp only [Occupied, hclash, update_of_ne hj, this, t]
      omega
  have hr : Removed s.toSparseStorage t p := by
    refine ⟨hoccupied', ?_⟩
    intro j hj
    have hj' := ((hoccupied' j).mp hj).1.1
    have hjp := ((hoccupied' j).mp hj).2
    have := hold j (by omega)
    exact ⟨congrArg (·.getD none) this.2, this.1⟩
  have hvacant : ∀ j, ¬ t.Vacant j := by
    intro j hj
    simp only [Vacant, hclash, t] at hj
    rw [update_of_ne (by omega)] at hj
    have hj' := hu.watermark_iff (j := j) (by omega)
    exact hs.freeSlot_eq_iff.mp hlast.1 j ⟨by omega, by omega⟩
  refine ⟨t, noPosition, ?_, ?_, hr, rfl, rfl, by simp only [t]; omega, Or.inl rfl⟩
  · rw [← hp] at hitems hkeys hput
    rw [releasePosition, if_pos hlast]
    simp [itemStorageKeepHead, hitems, keyStorageKeepHead, hkeys, clashesPut,
      hput, t]
  · have hlast' := hlast.2
    exact {
      capacity_le := hs.capacity_le
      modulus_eq := hs.modulus_eq
      slots_count := hu.slots_count ▸ hs.slots_count
      slots_capacity := hu.slots_capacity ▸ hs.slots_capacity
      clashes_count := hccount' ▸ hu.clashes_count ▸ hs.clashes_count
      clashes_capacity := hccap' ▸ hu.clashes_capacity ▸ hs.clashes_capacity
      items_count := by simp only [t, hcount']; omega
      items_capacity := hcapacity' ▸ hs.items_capacity
      keys_fit := hfit'
      kind_eq := hkind'.trans hs.kind_eq
      last_lt := by have := hs.last_lt; simp only [t]; omega
      beyond := by
        intro j hj
        simp only [t] at hj
        by_cases hjp : j = p
        · exact (congrFun hclash j).trans (by rw [hjp, update_self])
        · have hj' : s.lastPosition < j := by omega
          refine (congrFun hclash j).trans ?_
          rw [update_of_ne hjp, hu.free j fun h => by
            have := h.1; omega]
          exact hs.beyond j hj'
      buckets := by
        refine hu.buckets.congr hoccupied' ?_ ?_
        · intro j hj
          exact (congrFun hclash j).trans (update_of_ne hj.2 _ _)
        · intro j hj
          exact congrArg _ (hr.keep j ((hoccupied' j).mpr hj)).1
      free := by
        have hslot : t.freeSlot = -1 := hlast.1
        rw [hslot]
        exact FreeList.empty hvacant
      distinct := hr.distinct hs
      count_eq := by
        show s.count - 1 = (t.positions.length : Int)
        rw [hs.count_eq, hr.length_positions hoccupied]
        omega }

/-- Any other position becomes the first one of the free list. -/
theorem released_of_not_last
    (hlast : ¬ (s.freeSlot = noPosition ∧ s.position = s.lastPosition)) :
    Released gen E kind s p c d := by
  have hcount := hs.items_count
  have hcapacity := hs.items_capacity
  have hplast := hoccupied.1
  have hlt := hs.lt_capacity hplast
  have hcp : p < c.count := hu.clashes_count ▸ hs.lt_clashes_count hplast
  obtain ⟨items, keys, hput, hcount', hcapacity', hfit', hkind', hold⟩ :=
    @exists_putDefaults _ _ gen { s with clashes := c, slots := d } p
      hs.keys_fit (by simp only; omega) (by simp only; omega)
  obtain ⟨c', hcput, hccount', hccap', hget⟩ :=
    c.exists_put (freeOffset - s.freeSlot) hcp
  let t : SparseStorage G K := { s.toSparseStorage with
    itemStorage := items, keyStorage := keys, clashes := c', slots := d
    freeSlot := p }
  have hclash : t.clash = update (c.get noPosition) p
      (freeOffset - s.freeSlot) := hget noPosition
  have hfree_ge := hs.free.free_ge
  have hoccupied' : ∀ j, t.Occupied j ↔ s.Occupied j ∧ j ≠ p := by
    intro j
    by_cases hj : j = p
    · subst hj
      simp only [Occupied, hclash, update_self, ne_eq, not_true,
        and_false, iff_false, freeWatermark, freeOffset]
      omega
    · have := hu.watermark_iff hj
      simp only [Occupied, hclash, update_of_ne hj, this, t]
      tauto
  have hvacant : ∀ j, t.Vacant j ↔ s.Vacant j ∨ j = p := by
    intro j
    by_cases hj : j = p
    · subst hj
      simp only [Vacant, hclash, update_self, or_true, iff_true,
        freeWatermark, freeOffset, t]
      omega
    · have := hu.watermark_iff hj
      simp only [Vacant, hclash, update_of_ne hj, hj, or_false,
        ← Int.not_lt, this, t]
  have hr : Removed s.toSparseStorage t p := by
    refine ⟨hoccupied', ?_⟩
    intro j hj
    have hj' := (hoccupied' j).mp hj
    have hjlast := hj'.1.1
    have := hold j (by simp only; omega) hj'.2
    exact ⟨congrArg (·.getD none) this.2, this.1⟩
  refine ⟨t, p, ?_, ?_, hr, rfl, rfl, by simp only [t]; omega,
    Or.inr ⟨rfl, hplast⟩⟩
  · rw [← hp] at hput hcput
    rw [releasePosition, if_neg hlast]
    simp [hput, clashesPut, hcput, hp.symm, t]
  · exact {
      capacity_le := hs.capacity_le
      modulus_eq := hs.modulus_eq
      slots_count := hu.slots_count ▸ hs.slots_count
      slots_capacity := hu.slots_capacity ▸ hs.slots_capacity
      clashes_count := hccount' ▸ hu.clashes_count ▸ hs.clashes_count
      clashes_capacity := hccap' ▸ hu.clashes_capacity ▸ hs.clashes_capacity
      items_count := by simp only [t, hcount']; omega
      items_capacity := hcapacity' ▸ hs.items_capacity
      keys_fit := hfit'
      kind_eq := hkind'.trans hs.kind_eq
      last_lt := hs.last_lt
      beyond := by
        intro j hj
        simp only [t] at hj
        refine (congrFun hclash j).trans ?_
        rw [update_of_ne (by omega), hu.free j fun h => by
          have := h.1; omega]
        exact hs.beyond j hj
      buckets := by
        refine hu.buckets.congr hoccupied' ?_ ?_
        · intro j hj
          exact (congrFun hclash j).trans (update_of_ne hj.2 _ _)
        · intro j hj
          exact congrArg _ (hr.keep j ((hoccupied' j).mpr hj)).1
      free := by
        have hnot : ¬ s.Vacant p := by
          have := hoccupied.2
          simp only [Vacant]
          omega
        have hpush := hs.free.push hnot hvacant
        refine hpush.congr (fun _ => Iff.rfl) ?_
        intro j hj
        by_cases hjp : j = p
        · rw [hjp]
          exact (congrFun hclash p).trans (by simp)
        · refine (congrFun hclash j).trans ?_
          rw [update_of_ne hjp, update_of_ne hjp]
          refine hu.free j ?_
          rintro ⟨_, hmark⟩
          have hv := ((hvacant j).mp hj).resolve_right hjp
          exact absurd hv.2 (Int.not_le.mpr hmark)
      distinct := hr.distinct hs
      count_eq := by
        show s.count - 1 = (t.positions.length : Int)
        rw [hs.count_eq, hr.length_positions hoccupied]
        omega }

/-- Position `p`, once it is out of its bucket, is given back; no other one is
touched. -/
theorem exists_releasePosition : Released gen E kind s p c d := by
  by_cases hlast : s.freeSlot = noPosition ∧ s.position = s.lastPosition
  · exact released_of_last hs hp hoccupied hu hlast
  · exact released_of_not_last hs hp hoccupied hu hlast

end

/-! ### Cursors -/

/-- The search for the next occupied position never leaves the arrays. -/
theorem exists_nextPosition {s : SparseContainer G K}
    (hs : Stored E kind s.toSparseStorage) {i : Nat}
    (hi : (i : Int) ≤ s.lastPosition + 1) :
    ∃ r : Nat, s.nextPosition i = some (r : Int) ∧ i ≤ r ∧
      (r : Int) ≤ s.lastPosition + 1 ∧
      ((r : Int) ≤ s.lastPosition → s.Occupied r) ∧
      ∀ j, i ≤ j → j < r → ¬ s.Occupied j := by
  have hlast := hs.last_lt
  have hcount := hs.clashes_count
  let I : Nat → Int → Prop := fun n r => ∃ q : Nat, r = q ∧ i ≤ q ∧
    (q : Int) + n = s.lastPosition + 1 ∧
    ∀ j, i ≤ j → j < q → ¬ s.Occupied j
  have hturn : ∀ n r, I n r → (do
        if r > s.lastPosition then
          return true
        else
          return decide ((← s.clashesItem r) > freeWatermark)) = some true ∨
      (do
        if r > s.lastPosition then
          return true
        else
          return decide ((← s.clashesItem r) > freeWatermark)) = some false ∧
        ∃ r' m, some (r + 1) = some r' ∧ m < n ∧ I m r' := by
    rintro n r ⟨q, rfl, hiq, hqn, hbefore⟩
    by_cases hend : (q : Int) > s.lastPosition
    · exact Or.inl (by simp [hend])
    · have hclash := hs.clashesItem (hs.lt_capacity (Int.not_lt.mp hend))
      by_cases hmark : s.clash q > freeWatermark
      · exact Or.inl (by simp [hclash, hmark])
      · refine Or.inr ⟨by simp [hend, hclash, hmark], _, n - 1, rfl,
          by omega, q + 1, rfl, by omega, by omega, ?_⟩
        intro j hij hj hoccupied
        by_cases hjq : j = q
        · subst hjq
          exact hmark hoccupied.2
        · exact hbefore j hij (by omega) hoccupied
  obtain ⟨r, n, hrun, ⟨q, hq, hiq, hqn, hbefore⟩, hstop⟩ :=
    loopUntil_spec I hturn (by omega : (s.lastPosition + 1 - i).toNat <
      s.clashes.count + 2) ⟨i, rfl, Nat.le_refl i, by omega,
        fun j hij hj => by omega⟩
  subst hq
  refine ⟨q, hrun, hiq, by omega, ?_, hbefore⟩
  intro hle
  have hclash := hs.clashesItem (hs.lt_capacity hle)
  have hend : ¬ (q : Int) > s.lastPosition := Int.not_lt.mpr hle
  simp only [hend, if_false, hclash, some_bind,
    Option.pure_def, Option.some.injEq, decide_eq_true_eq] at hstop
  exact ⟨hle, hstop⟩

/-- Where a cursor at position `p` is after `oldPosition` was removed, `r` being
the next occupied position. -/
def movedForth (s : SparseContainer G K) (oldPosition r p : Int) : Int :=
  if p = oldPosition then
    if r > s.lastPosition then afterPosition else r
  else p

/-- The cursors that stay listed: all but the external ones that move after. -/
def keptForth (s : SparseContainer G K) (oldPosition r : Int) : List Nat → List Nat
  | [] => []
  | c :: cs => c :: cs.filter fun c =>
      decide (¬ (s.cursors.position c = oldPosition ∧ r > s.lastPosition))

/-- The state of the loop of `move_cursors_forth` between the listed cursors
`front` and `todo`. -/
structure MovingForth (s : SparseContainer G K) (oldPosition r : Int)
    (front todo : List Nat) (m : CursorMove) : Prop where
  listed : Chain m.cursors.nextCursor (some s.cursors.internalCursor)
    (s.keptForth oldPosition r front ++ todo)
  cursor : m.cursor = todo.head?
  previous : r > s.lastPosition →
    m.previousCursor = (s.keptForth oldPosition r front).getLast?
  internal : m.cursors.internalCursor = s.cursors.internalCursor
  total : m.cursors.cursorCount = s.cursors.cursorCount
  next : m.i = 0 ∨ m.i = r
  moved : ∀ c ∈ front, m.cursors.position c =
    s.movedForth oldPosition r (s.cursors.position c)
  rest : ∀ c, c ∉ front → m.cursors.position c = s.cursors.position c

theorem keptForth_append (s : SparseContainer G K) (oldPosition r : Int)
    {front : List Nat} (hfront : front ≠ []) (c : Nat) :
    s.keptForth oldPosition r (front ++ [c]) = s.keptForth oldPosition r front ++
        if s.cursors.position c = oldPosition ∧ r > s.lastPosition then []
        else [c] := by
  cases front with
  | nil => exact absurd rfl hfront
  | cons d front =>
      by_cases hout : s.cursors.position c = oldPosition ∧ r > s.lastPosition
      · simp [keptForth, hout]
      · simp [keptForth, hout, filter_cons]

theorem keptForth_ne_nil (s : SparseContainer G K) (oldPosition r : Int)
    {front : List Nat} (hfront : front ≠ []) :
    s.keptForth oldPosition r front ≠ [] := by
  cases front with
  | nil => exact absurd rfl hfront
  | cons d front => simp [keptForth]

/-- A turn of the loop that leaves the cursor in the list. -/
theorem MovingForth.keep {s : SparseContainer G K} {oldPosition r : Int}
    {front todo : List Nat} {a : Nat} {m : CursorMove}
    (hm : MovingForth s oldPosition r front (a :: todo) m)
    (hnew : a ∉ front) {i : Int} (hi : i = 0 ∨ i = r) {t : Traversal Int}
    (ht : t = m.cursors.setPosition a
      (s.movedForth oldPosition r (s.cursors.position a)))
    {previousCursor : Option Nat}
    (hprevious : r > s.lastPosition → previousCursor = some a)
    (hkeep : s.keptForth oldPosition r (front ++ [a]) =
      s.keptForth oldPosition r front ++ [a]) :
    MovingForth s oldPosition r (front ++ [a]) todo
      ⟨t, todo.head?, previousCursor, i⟩ := by
  subst ht
  exact {
    listed := by
      rw [hkeep, append_assoc]
      exact hm.listed
    cursor := rfl
    previous := by
      intro hr
      rw [hkeep, getLast?_concat]
      exact hprevious hr
    internal := hm.internal
    total := hm.total
    next := hi
    moved := by
      intro c hc
      by_cases heq : c = a
      · subst heq
        simp [Traversal.setPosition]
      · simp only [Traversal.setPosition, update_of_ne heq]
        refine hm.moved c ?_
        simpa [heq] using hc
    rest := by
      intro c hc
      simp only [mem_append, mem_singleton, not_or] at hc
      simp only [Traversal.setPosition, update_of_ne hc.2]
      exact hm.rest c hc.1 }

theorem MovingForth.turn {s : SparseContainer G K} {oldPosition r : Int}
    (hr : s.nextPosition (oldPosition + 1) = some r)
    {front todo : List Nat} {a : Nat} {m : CursorMove}
    (hnodup : (front ++ a :: todo).Nodup)
    (hm : MovingForth s oldPosition r front (a :: todo) m) :
    ∃ m', s.moveCursorForth oldPosition m = some m' ∧
      MovingForth s oldPosition r (front ++ [a]) todo m' := by
  have hnew : a ∉ front := by
    intro hin
    exact (nodup_append.mp hnodup).2.2 a hin a mem_cons_self rfl
  have hposition := hm.rest a hnew
  have hnext : m.cursors.nextCursor a = todo.head? :=
    hm.listed.suffix.head?_eq.symm
  have hcursor : m.cursor = some a := hm.cursor
  have hkept : ¬ (s.cursors.position a = oldPosition ∧ r > s.lastPosition) →
      s.keptForth oldPosition r (front ++ [a]) =
        s.keptForth oldPosition r front ++ [a] := by
    intro hstay
    by_cases hfront : front = []
    · subst hfront
      rfl
    · rw [s.keptForth_append oldPosition r hfront, if_neg hstay]
  by_cases hold : s.cursors.position a = oldPosition
  · have hi : (if m.i = 0 then s.nextPosition (oldPosition + 1)
        else some m.i) = some r := by
      split
      · exact hr
      · rename_i hne
        rw [hm.next.resolve_left hne]
    by_cases hlast : r > s.lastPosition
    · have hprevious := hm.previous hlast
      by_cases hfront : front = []
      · subst hfront
        refine ⟨⟨m.cursors.setPosition a afterPosition, todo.head?, some a, r⟩,
          ?_, hm.keep hnew (Or.inr rfl) ?_ (fun _ => rfl) rfl⟩
        · simp [moveCursorForth, hcursor, hposition, hold, hi, hlast, hnext,
            hprevious, keptForth]
        · simp [movedForth, hold, hlast]
      · obtain ⟨f, p, hf⟩ := (eq_nil_or_concat'
          (s.keptForth oldPosition r front)).resolve_left
          (s.keptForth_ne_nil oldPosition r hfront)
        rw [hf, getLast?_concat] at hprevious
        have hlisted := hm.listed
        rw [hf, append_assoc, singleton_append] at hlisted
        have hnot : a ∉ f ++ p :: todo := by
          have := hlisted.nodup
          rw [append_cons, nodup_middle, nodup_cons] at this
          simpa using this.1
        have hunlinked := hlisted.unlink.update_of_notMem (v := none) hnot
        rw [hnext] at hunlinked
        refine ⟨⟨((m.cursors.setPosition a afterPosition).setNextCursor p
          todo.head?).setNextCursor a none, todo.head?, some p, r⟩, ?_, ?_⟩
        · simp [moveCursorForth, hcursor, hposition, hold, hi, hlast, hnext,
            hprevious]
        · exact {
            listed := by
              rw [s.keptForth_append oldPosition r hfront,
                if_pos ⟨hold, hlast⟩, hf, append_nil, append_assoc]
              exact hunlinked
            cursor := rfl
            previous := by
              intro _
              rw [s.keptForth_append oldPosition r hfront,
                if_pos ⟨hold, hlast⟩, hf, append_nil, getLast?_concat]
            internal := hm.internal
            total := hm.total
            next := Or.inr rfl
            moved := by
              intro c hc
              by_cases heq : c = a
              · subst heq
                simp [Traversal.setPosition, Traversal.setNextCursor,
                  movedForth, hold, hlast]
              · simp only [Traversal.setPosition, Traversal.setNextCursor,
                  update_of_ne heq]
                refine hm.moved c ?_
                simpa [heq] using hc
            rest := by
              intro c hc
              simp only [mem_append, mem_singleton, not_or] at hc
              simp only [Traversal.setPosition, Traversal.setNextCursor,
                update_of_ne hc.2]
              exact hm.rest c hc.1 }
    · refine ⟨⟨m.cursors.setPosition a r, todo.head?, m.previousCursor, r⟩, ?_,
        hm.keep hnew (Or.inr rfl) ?_ (fun h => absurd h hlast)
          (hkept fun h => hlast h.2)⟩
      · simp only [moveCursorForth, hcursor, hposition, hold, hi, hlast, hnext,
          some_bind, if_true, if_false,
          Option.pure_def]
      · simp [movedForth, hold, hlast]
  · refine ⟨⟨m.cursors, todo.head?, some a, m.i⟩, ?_,
      hm.keep hnew hm.next ?_ (fun _ => rfl) (hkept fun h => hold h.1)⟩
    · simp [moveCursorForth, hcursor, hposition, hold, hnext]
    · rw [movedForth, if_neg hold, ← hposition]
      simp [Traversal.setPosition]

/-- `t` are the cursors of `s`, of which `cs` are listed, once those at
`oldPosition` have moved to `r`, or after and out of the list. -/
structure MovedForth (s : SparseContainer G K) (oldPosition r : Int)
    (cs : List Nat) (t : Traversal Int) : Prop where
  internal : t.internalCursor = s.cursors.internalCursor
  total : t.cursorCount = s.cursors.cursorCount
  listed : t.Listed (s.keptForth oldPosition r cs)
  moved : ∀ c ∈ cs, t.position c = s.movedForth oldPosition r (s.cursors.position c)
  rest : ∀ c, c ∉ cs → t.position c = s.cursors.position c

theorem exists_moveCursorsForth {s : SparseContainer G K}
    (hs : Stored E kind s.toSparseStorage) {p : Nat}
    (hp : (p : Int) ≤ s.lastPosition) {cs : List Nat}
    (hcs : s.cursors.Listed cs) :
    ∃ (r : Nat) (t : Traversal Int), s.nextPosition ((p : Int) + 1) = some (r : Int) ∧
      s.moveCursorsForth p = some { s with cursors := t } ∧
      MovedForth s p r cs t := by
  obtain ⟨r, hr, -, -, -, -⟩ :=
    @exists_nextPosition _ _ _ _ _ s hs (p + 1) (by omega)
  rw [Int.natCast_succ] at hr
  have hlength := hcs.1.length_le hcs.2
  let I : Nat → CursorMove → Prop := fun n m => ∃ front todo,
    cs = front ++ todo ∧ n = todo.length ∧ MovingForth s p r front todo m
  have hturn : ∀ n m, I n m → (some m.cursor.isNone = some true) ∨
      (some m.cursor.isNone = some false) ∧ ∃ m' k,
        s.moveCursorForth p m = some m' ∧ k < n ∧ I k m' := by
    rintro n m ⟨front, todo, hsplit, rfl, hm⟩
    cases todo with
    | nil => exact Or.inl (by rw [hm.cursor]; rfl)
    | cons a todo =>
        obtain ⟨m', hrun, hm'⟩ := hm.turn hr (hsplit ▸ hcs.1.nodup)
        refine Or.inr ⟨by rw [hm.cursor]; rfl, m', todo.length, hrun, by simp,
          front ++ [a], todo, ?_, rfl, hm'⟩
        rw [hsplit, append_assoc, singleton_append]
  have hstart : I cs.length
      ⟨s.cursors, some s.cursors.internalCursor, none, 0⟩ :=
    ⟨[], cs, rfl, rfl, {
      listed := hcs.1
      cursor := hcs.1.head?_eq.symm
      previous := fun _ => rfl
      internal := rfl
      total := rfl
      next := Or.inl rfl
      moved := by simp
      rest := fun _ _ => rfl }⟩
  obtain ⟨m, n, hrun, ⟨front, todo, hsplit, -, hm⟩, hstop⟩ :=
    loopUntil_spec I hturn (by omega : cs.length < s.cursors.cursorCount + 1)
      hstart
  obtain rfl : todo = [] := by
    rw [hm.cursor, Option.some.injEq, Option.isNone_iff_eq_none,
      head?_eq_none_iff] at hstop
    exact hstop
  rw [append_nil] at hsplit
  subst hsplit
  refine ⟨r, m.cursors, hr, by simp [moveCursorsForth, hrun], hm.internal,
    hm.total, ⟨?_, ?_⟩, hm.moved, hm.rest⟩
  · have hlisted := hm.listed
    rw [append_nil, ← hm.internal] at hlisted
    exact hlisted
  · intro c hc
    rw [hm.total]
    refine hcs.2 c ?_
    cases cs with
    | nil => exact hc
    | cons d cs =>
        rcases mem_cons.mp hc with rfl | hc
        · exact mem_cons_self
        · exact mem_cons_of_mem d (mem_filter.mp hc).1

/-! ### Removing an item -/

variable [DecidableEq K]

section

variable {s : SparseContainer G K} (hs : WellFormed E kind s)

include hs

/-- The search for a key by `=` finds the position that holds it, even if the
first one of the bucket does not. -/
theorem exists_searchSame {p : Nat} (hp : s.Occupied p) (hcached : s.position ≠ p)
    (hhead : s.slot (s.bucketOf gen (s.key p)) ≠ p) :
    ∃ sp prev, { s with keyEqualityTester := none }.searchPosition gen
        (s.key p) = some { s with
          keyEqualityTester := none
          position := p
          slotsPosition := sp
          clashesPreviousPosition := prev } ∧
      Linked s.toSparseStorage p sp prev := by
  have hstored := hs.stored
  have hsame : ∀ j, s.Occupied j → s.key p = s.key j → j = p := by
    intro j hj hkey
    refine hstored.distinct j p hj hp ?_
    rw [hkey]
    exact E.refl _
  cases hkey : s.key p with
  | none =>
      exfalso
      have hh := hstored.bucketOf_le (s.key p)
      obtain ⟨cells, hchain, hmem⟩ := hstored.buckets.chain _ hh
      cases cells with
      | nil => exact absurd ((hmem p).mpr ⟨hp, rfl⟩) (by simp)
      | cons j cells =>
          have hj := (hmem j).mp mem_cons_self
          apply hhead
          rw [eq_of_ref_eq_some hchain.1, hsame j hj.1]
          have hpos := hstored.modulus_pos
          cases hkeyj : s.key j with
          | none => exact hkey
          | some l =>
              have hlt := Nat.mod_lt (gen.hashCode l) (by omega : 0 < s.modulus.toNat)
              have := hj.2
              simp only [hkeyj, hkey, bucketOf] at this
              omega
  | some k =>
      obtain ⟨b, hb, hiff⟩ := @isCached_eq _ _ _ _ _ _
        { s with keyEqualityTester := none } hstored hs.position (some k)
      obtain rfl : b = false := by
        cases b with
        | false => rfl
        | true =>
            obtain ⟨j, hj, hoccupied, heq⟩ := hiff.mp rfl
            simp only [sameKeys, decide_eq_true_eq] at heq
            rw [hsame j hoccupied (hkey.trans heq)] at hj
            exact absurd hj hcached
      obtain ⟨q, prev, hrun, hcases⟩ := exists_searchBucket hstored
        (rfl : { s with keyEqualityTester := none }.toSparseStorage = _)
        (some k)
      simp only [sameKeys, decide_eq_false_iff_not, decide_eq_true_eq] at hcases
      rcases hcases with ⟨_, hnone⟩ | ⟨j, rfl, hoccupied, heq, hlinked⟩
      · exact absurd hkey.symm (hnone p hp (by rw [hkey]))
      · obtain rfl := hsame j hoccupied (hkey.trans heq)
        exact ⟨_, prev, by simp [searchPosition, hb, hrun], hlinked⟩

/-- `locatePosition` finds the position itself, not another one with an equal
key, and its predecessor. -/
theorem exists_locatePosition {p : Nat} (hp : s.Occupied p) :
    ∃ sp prev, s.locatePosition gen p = some { s with
        position := p
        slotsPosition := sp
        clashesPreviousPosition := prev } ∧
      (Linked s.toSparseStorage p sp prev ∨
        s.position = p ∧ sp = s.slotsPosition ∧
          prev = s.clashesPreviousPosition) := by
  have hstored := hs.stored
  by_cases hcached : s.position = p
  · refine ⟨s.slotsPosition, s.clashesPreviousPosition, ?_,
      Or.inr ⟨hcached, rfl, rfl⟩⟩
    rw [← hcached, locatePosition, if_neg (fun h => h rfl)]
  · have hne : (p : Int) ≠ s.position := Ne.symm hcached
    have hkey := hstored.keyStorageItem hp.1
    have hh := hstored.bucketOf_le (s.key p)
    have hslot := hstored.slotsItem (Nat.le_of_lt_succ hh)
    by_cases hhead : s.slot (s.bucketOf gen (s.key p)) = p
    · refine ⟨(s.bucketOf gen (s.key p) : Nat), noPosition, ?_,
        Or.inl (Or.inl ⟨rfl, _, Nat.le_of_lt_succ hh, rfl, hhead⟩)⟩
      simp [locatePosition, hne, hkey, hstored.hashPosition_eq, hslot, hhead]
    · obtain ⟨sp, prev, hrun, hlinked⟩ := exists_searchSame hs hp hcached hhead
      refine ⟨sp, prev, ?_, Or.inl hlinked⟩
      simp [locatePosition, hne, hkey, hstored.hashPosition_eq, hslot, hhead, hrun]

/-- What removing the item at an occupied position does.  The remembered
predecessor matters only if the position is the one remembered with it. -/
theorem exists_removePosition {p : Nat} (hp : s.Occupied p)
    (hlead : s.position = p → Linked s.toSparseStorage p s.slotsPosition
      s.clashesPreviousPosition) :
    ∃ t, s.removePosition gen p = some t ∧ WellFormed E kind t ∧
      Removed s.toSparseStorage t.toSparseStorage p ∧
      t.count = s.count - 1 ∧ t.capacity = s.capacity ∧
      t.foundPosition = s.foundPosition ∧
      (t.position = noPosition ∨ t.position = p) ∧
      s.lastPosition ≤ t.lastPosition + 1 ∧
      ∃ r : Nat, s.nextPosition ((p : Int) + 1) = some (r : Int) ∧
        ∀ cs, s.cursors.Listed cs → MovedForth s p r cs t.cursors := by
  have hstored := hs.stored
  obtain ⟨sp, prev, hlocate, hlinked⟩ := exists_locatePosition hs hp
  have hlinked : Linked s.toSparseStorage p sp prev := by
    rcases hlinked with hlinked | ⟨hcached, rfl, rfl⟩
    · exact hlinked
    · exact hlead hcached
  obtain ⟨cs, hcs⟩ := hs.cursors
  obtain ⟨r, c, hr, hmove, hmoved⟩ := @exists_moveCursorsForth _ _ _ _ _
    { s with position := p, slotsPosition := sp, clashesPreviousPosition := prev }
    hstored p hp.1 cs hcs
  obtain ⟨l, d, hunlink, hu⟩ :=
    @exists_unlinkBucket _ _ _ _ _
      { s with
        position := p, slotsPosition := sp, clashesPreviousPosition := prev
        cursors := c } hstored p rfl hp hlinked
  obtain ⟨t, q, hrelease, ht, hremoved, hcount, hcapacity, hle, hq⟩ :=
    @exists_releasePosition _ _ _ _ _
      { s with
        position := p, slotsPosition := sp, clashesPreviousPosition := prev
        cursors := c } hstored p rfl hp l d hu
  have hcounts : s.count - 1 = t.count - 1 := by rw [hcount]
  refine ⟨{ s with
    toSparseStorage := { t with count := t.count - 1 }, position := q
    slotsPosition := sp, clashesPreviousPosition := prev, cursors := c },
    ?_, ?_, ⟨hremoved.occupied, hremoved.keep⟩, hcounts.symm, hcapacity, rfl,
    hq.imp_right And.left, hle, r, hr, ?_⟩
  · simp [removePosition, hlocate, hmove, hunlink, hrelease]
  · exact {
      stored := ht
      tester := hs.tester
      position := hq.imp_right fun h => ⟨p, h⟩
      cursors := ⟨_, hmoved.listed⟩ }
  · intro cs' hcs'
    obtain rfl := hcs'.1.unique hcs.1
    exact ⟨hmoved.internal, hmoved.total, hmoved.listed, hmoved.moved,
      hmoved.rest⟩

/-- `remove` takes away the item of an equal key, if there is one.  The
remembered predecessor matters only if the search is answered from it. -/
theorem exists_remove (k : Key K) (hlead : k ≠ none → s.isCached k = some true →
      s.PositionLinked) :
    ∃ t, s.remove gen k = some t ∧ WellFormed E kind t ∧
      t.foundPosition = noPosition ∧ t.capacity = s.capacity ∧
      ((∃ p, s.Occupied p ∧ E.same k (s.key p) = true ∧
          Removed s.toSparseStorage t.toSparseStorage p ∧
          t.count = s.count - 1) ∨
        (∀ j, s.Occupied j → E.same k (s.key j) = false) ∧
          t.toSparseStorage = s.toSparseStorage) := by
  have hs' : WellFormed E kind s.unsetFoundItem :=
    ⟨hs.stored, hs.tester, hs.position, hs.cursors⟩
  obtain ⟨q, sp, prev, hrun, hcases⟩ := exists_searchPosition hs' k
  rcases hcases with ⟨rfl, -, habsent⟩ | ⟨p, rfl, hp, hsame, hlinked⟩
  · refine ⟨{ s with
      foundPosition := noPosition, position := noPosition, slotsPosition := sp
      clashesPreviousPosition := prev }, by rw [remove, hrun]; rfl, ?_, rfl, rfl,
      Or.inr ⟨habsent, rfl⟩⟩
    exact ⟨hs.stored, hs.tester, Or.inl rfl, hs.cursors⟩
  · have hs'' : WellFormed E kind { s.unsetFoundItem with
        position := p, slotsPosition := sp, clashesPreviousPosition := prev } :=
      ⟨hs.stored, hs.tester, Or.inr ⟨p, rfl, hp.1⟩, hs.cursors⟩
    have hlinked' : Linked s.toSparseStorage p sp prev := by
      rcases hlinked with hlinked | ⟨hcached, hk, hposition, rfl, rfl⟩
      · exact hlinked
      · exact linked_of_positionLinked hs.stored hposition (hlead hk hcached)
    obtain ⟨t, ht, hwf, hremoved, hcount, hcapacity, hfound, -⟩ :=
      exists_removePosition hs'' hp fun _ => hlinked'
    have hne : (p : Int) ≠ noPosition := by
      rw [noPosition]
      omega
    refine ⟨t, by simp [remove, hrun, hne, ht], hwf, hfound, hcapacity,
      Or.inl ⟨p, hp, hsame, ⟨hremoved.occupied, hremoved.keep⟩, hcount⟩⟩

/-- `remove_found_item` takes away the item found last. -/
theorem exists_removeFoundItem {p : Nat} (hp : s.Occupied p)
    (hfound : s.foundPosition = p)
    (hlead : s.position = p → s.PositionLinked) :
    ∃ t, s.removeFoundItem gen = some t ∧ WellFormed E kind t ∧
      t.foundPosition = noPosition ∧ t.capacity = s.capacity ∧
      Removed s.toSparseStorage t.toSparseStorage p ∧
      t.count = s.count - 1 := by
  obtain ⟨t, ht, hwf, hremoved, hcount, hcapacity, -, -⟩ :=
    exists_removePosition hs hp fun hcached =>
      linked_of_positionLinked hs.stored hcached (hlead hcached)
  refine ⟨t.unsetFoundItem, by simp [removeFoundItem, hfound, ht], ?_, rfl,
    hcapacity, ⟨hremoved.occupied, hremoved.keep⟩, hcount⟩
  exact ⟨hwf.stored, hwf.tester, hwf.position, hwf.cursors⟩

end

end SparseContainer

end Gobo
