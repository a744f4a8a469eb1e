/-
Clearing and rebuilding the buckets of a sparse container, as `resize`,
`compress` and `wipe_out` do.
-/
import Gobo.SparseRemoval

namespace Gobo

open Function

variable {G K : Type} {gen : SparseGenerics G K} {E : KeyEquality gen}
  {kind : Option (G → Key K)}

namespace SparseContainer

open SparseStorage

/-! ### Clearing -/

theorem exists_slotsClear (s : SparseContainer G K) {n : Nat}
    (hn : n ≤ s.slots.count) :
    ∃ d, s.slotsClear n = some { s with slots := d } ∧
      d.count = s.slots.count ∧ d.capacity = s.slots.capacity ∧
      ∀ j, d.get noPosition j = if j < n then noPosition else s.slot j := by
  induction n generalizing s with
  | zero => exact ⟨s.slots, rfl, rfl, rfl, fun j => rfl⟩
  | succ n ih =>
      obtain ⟨d, hput, hcount, hcapacity, hget⟩ :=
        s.exists_slotsPut noPosition (i := n) hn
      obtain ⟨d', hrun, hcount', hcapacity', hget'⟩ :=
        ih { s with slots := d } (by simp only [hcount]; omega)
      refine ⟨d', by simp [slotsClear, hput, hrun], hcount'.trans hcount,
        hcapacity'.trans hcapacity, ?_⟩
      intro j
      rw [hget' j]
      simp only [slot, hget]
      by_cases hj : j = n
      · subst hj
        simp
      · rw [update_of_ne hj]
        have hlt : j < n ↔ j < n + 1 := by omega
        simp only [hlt]
        rfl

theorem exists_clashesClear (s : SparseContainer G K) {n : Nat}
    (hn : n ≤ s.clashes.count) :
    ∃ c, s.clashesClear n = some { s with clashes := c } ∧
      c.count = s.clashes.count ∧ c.capacity = s.clashes.capacity ∧
      ∀ j, c.get noPosition j = if j < n then noPosition else s.clash j := by
  induction n generalizing s with
  | zero => exact ⟨s.clashes, rfl, rfl, rfl, fun j => rfl⟩
  | succ n ih =>
      obtain ⟨c, hput, hcount, hcapacity, hget⟩ :=
        s.exists_clashesPut noPosition (i := n) hn
      obtain ⟨c', hrun, hcount', hcapacity', hget'⟩ :=
        ih { s with clashes := c } (by simp only [hcount]; omega)
      refine ⟨c', by simp [clashesClear, hput, hrun], hcount'.trans hcount,
        hcapacity'.trans hcapacity, ?_⟩
      intro j
      rw [hget' j]
      simp only [clash, hget]
      by_cases hj : j = n
      · subst hj
        simp
      · rw [update_of_ne hj]
        have hlt : j < n ↔ j < n + 1 := by omega
        simp only [hlt]
        rfl

/-- Above `last_position` the links are `No_position` already. -/
theorem exists_clashesWipeOut (s : SparseContainer G K)
    (hlast : s.lastPosition < s.clashes.count)
    (hbeyond : ∀ i : Nat, s.lastPosition < i → s.clash i = noPosition) :
    ∃ c, s.clashesWipeOut = some { s with clashes := c } ∧
      c.count = s.clashes.count ∧ c.capacity = s.clashes.capacity ∧
      ∀ j, c.get noPosition j = noPosition := by
  obtain ⟨c, hrun, hcount, hcapacity, hget⟩ :=
    @exists_clashesClear _ _ s (s.lastPosition + 1).toNat (by omega)
  refine ⟨c, hrun, hcount, hcapacity, ?_⟩
  intro j
  rw [hget]
  split
  · rfl
  · exact hbeyond j (by omega)

theorem exists_slotsWipeOut (s : SparseContainer G K)
    (hslots : (s.slots.count : Int) = s.modulus + 1) :
    ∃ d, s.slotsWipeOut = some { s with slots := d } ∧
      d.count = s.slots.count ∧ d.capacity = s.slots.capacity ∧
      ∀ j, d.get noPosition j = noPosition := by
  obtain ⟨d, hrun, hcount, hcapacity, hget⟩ :=
    @exists_slotsClear _ _ s (s.modulus + 1).toNat (by omega)
  refine ⟨d, hrun, hcount, hcapacity, ?_⟩
  intro j
  rw [hget]
  split
  · rfl
  · exact s.slots.get_of_ge noPosition (by omega)

/-! ### Relinking -/

theorem exists_linkPosition (s : SparseContainer G K) {i : Nat} (hpos : 0 < s.modulus)
    (hkey : s.keyStorageItem i = some (s.key i))
    (hh : s.bucketOf gen (s.key i) < s.slots.count)
    (hi : i < s.clashes.count) :
    ∃ c d, s.linkPosition gen i = some { s with clashes := c, slots := d } ∧
      c.count = s.clashes.count ∧ c.capacity = s.clashes.capacity ∧
      d.count = s.slots.count ∧ d.capacity = s.slots.capacity ∧
      c.get noPosition = update s.clash i (s.slot (s.bucketOf gen (s.key i))) ∧
      d.get noPosition = update s.slot (s.bucketOf gen (s.key i)) i := by
  have hslot : s.slotsItem (s.bucketOf gen (s.key i) : Nat) =
      some (s.slot (s.bucketOf gen (s.key i))) :=
    s.slots.item_of_lt noPosition hh
  obtain ⟨c, hc, hccount, hccap, hcget⟩ :=
    s.exists_clashesPut (s.slot (s.bucketOf gen (s.key i))) hi
  obtain ⟨d, hd, hdcount, hdcap, hdget⟩ :=
    exists_slotsPut { s with clashes := c } (i : Int) hh
  exact ⟨c, d, by
    simp [linkPosition, hkey, Stored.hashPosition_eq_of_pos hpos, hslot, hc, hd],
    hccount, hccap, hdcount, hdcap, hcget, hdget⟩

/-- Relinking downwards adds the occupied positions below `n` to the buckets of
those from `n` on. -/
theorem exists_relinkDown {s : SparseContainer G K} {n : Nat} {occ : Nat → Prop}
    (hkey : ∀ j < n, s.keyStorageItem j = some (s.key j))
    (hpos : 0 < s.modulus) (hslots : s.slots.count = s.modulus.toNat + 1)
    (hh : ∀ k, s.bucketOf gen k < s.modulus.toNat + 1)
    (hn : n ≤ s.clashes.count)
    (hocc : ∀ j < n, occ j ↔ freeWatermark < s.clash j)
    (hb : Buckets (s.bucketOf gen) (s.modulus.toNat + 1) s.key s.clash s.slot
      fun j => occ j ∧ n ≤ j) :
    ∃ c d, s.relinkDown gen n = some { s with clashes := c, slots := d } ∧
      c.count = s.clashes.count ∧ c.capacity = s.clashes.capacity ∧
      d.count = s.slots.count ∧ d.capacity = s.slots.capacity ∧
      (∀ j, ¬ occ j → c.get noPosition j = s.clash j) ∧
      Buckets (s.bucketOf gen) (s.modulus.toNat + 1) s.key (c.get noPosition)
        (d.get noPosition) occ := by
  induction n generalizing s with
  | zero =>
      refine ⟨s.clashes, s.slots, rfl, rfl, rfl, rfl, rfl, fun _ _ => rfl, ?_⟩
      exact hb.congr (by simp) (fun _ _ => rfl) fun _ _ => rfl
  | succ n ih =>
      have hclash : s.clashesItem n = some (s.clash n) :=
        s.clashes.item_of_lt noPosition hn
      by_cases hmark : s.clash n > freeWatermark
      · have hoccn : occ n := (hocc n (by omega)).mpr hmark
        obtain ⟨c, d, hlink, hccount, hccap, hdcount, hdcap, hcget, hdget⟩ :=
          s.exists_linkPosition hpos (hkey n (by omega)) (hslots ▸ hh _) hn
        have hb' : Buckets (s.bucketOf gen) (s.modulus.toNat + 1) s.key
            (c.get noPosition) (d.get noPosition) fun j => occ j ∧ n ≤ j := by
          rw [hcget, hdget]
          refine hb.insert (by simp) (fun _ _ => rfl) (hh _) ?_
          intro j
          constructor
          · rintro ⟨hj, hnj⟩
            by_cases hjn : j = n
            · exact Or.inr hjn
            · exact Or.inl ⟨hj, by omega⟩
          · rintro (hj | rfl)
            · exact ⟨hj.1, by omega⟩
            · exact ⟨hoccn, Nat.le_refl j⟩
        obtain ⟨c', d', hrun, hccount', hccap', hdcount', hdcap', hkept, hb''⟩ :=
          @ih { s with clashes := c, slots := d } (fun j hj => hkey j (by omega))
            hpos (hdcount.trans hslots) hh (by simp only [hccount]; omega)
            (fun j hj => by
              rw [hocc j (by omega)]
              simp only [clash, hcget]
              rw [update_of_ne (by omega)]
              rfl) hb'
        refine ⟨c', d', by simp [relinkDown, hclash, hmark, hlink, hrun],
          hccount'.trans hccount, hccap'.trans hccap, hdcount'.trans hdcount,
          hdcap'.trans hdcap, ?_, hb''⟩
        intro j hj
        rw [hkept j hj]
        simp only [clash, hcget]
        rw [update_of_ne]
        · rfl
        · rintro rfl
          exact hj hoccn
      · have hoccn : ¬ occ n := fun h => hmark ((hocc n (by omega)).mp h)
        obtain ⟨c', d', hrun, hrest⟩ := @ih s (fun j hj => hkey j (by omega))
          hpos hslots hh (by omega) (fun j hj => hocc j (by omega))
          (hb.congr (fun j => by
            refine and_congr_right fun hj => ?_
            have : j ≠ n := by
              rintro rfl
              exact hoccn hj
            omega) (fun _ _ => rfl) fun _ _ => rfl)
        exact ⟨c', d', by simp [relinkDown, hclash, hmark, hrun], hrest⟩

/-- Relinking upwards adds `n` positions to the buckets of those before. -/
theorem exists_relinkUp {s : SparseContainer G K} {n i : Nat}
    (hkey : ∀ j < i + n, s.keyStorageItem j = some (s.key j))
    (hpos : 0 < s.modulus) (hslots : s.slots.count = s.modulus.toNat + 1)
    (hh : ∀ k, s.bucketOf gen k < s.modulus.toNat + 1)
    (hn : i + n ≤ s.clashes.count)
    (hb : Buckets (s.bucketOf gen) (s.modulus.toNat + 1) s.key s.clash s.slot
      fun j => j < i) :
    ∃ c d, s.relinkUp gen n i = some { s with clashes := c, slots := d } ∧
      c.count = s.clashes.count ∧ c.capacity = s.clashes.capacity ∧
      d.count = s.slots.count ∧ d.capacity = s.slots.capacity ∧
      (∀ j, i + n ≤ j → c.get noPosition j = s.clash j) ∧
      Buckets (s.bucketOf gen) (s.modulus.toNat + 1) s.key (c.get noPosition)
        (d.get noPosition) fun j => j < i + n := by
  induction n generalizing s i with
  | zero => exact ⟨s.clashes, s.slots, rfl, rfl, rfl, rfl, rfl, fun _ _ => rfl, hb⟩
  | succ n ih =>
      obtain ⟨c, d, hlink, hccount, hccap, hdcount, hdcap, hcget, hdget⟩ :=
        s.exists_linkPosition hpos (hkey i (by omega)) (hslots ▸ hh _) (by omega)
      have hb' : Buckets (s.bucketOf gen) (s.modulus.toNat + 1) s.key
          (c.get noPosition) (d.get noPosition) fun j => j < i + 1 := by
        rw [hcget, hdget]
        exact hb.insert (by simp) (fun _ _ => rfl) (hh _) fun j =>
          Nat.lt_succ_iff_lt_or_eq
      obtain ⟨c', d', hrun, hccount', hccap', hdcount', hdcap', hkept, hb''⟩ :=
        @ih { s with clashes := c, slots := d } (i + 1)
          (fun j hj => hkey j (by omega)) hpos (hdcount.trans hslots) hh
          (by simp only [hccount]; omega) hb'
      refine ⟨c', d', by simp [relinkUp, hlink, hrun], hccount'.trans hccount,
        hccap'.trans hccap, hdcount'.trans hdcount, hdcap'.trans hdcap, ?_, ?_⟩
      · intro j hj
        rw [hkept j (by omega)]
        simp only [clash, hcget]
        rw [update_of_ne (by omega)]
        rfl
      · refine hb''.congr (fun j => ?_) (fun _ _ => rfl) fun _ _ => rfl
        show j < i + (n + 1) ↔ j < i + 1 + n
        omega

/-! ### Moving all cursors -/

/-- Only the listed cursors at `oldPosition` move. -/
theorem exists_moveAllCursors (s : SparseContainer G K) {cs : List Nat}
    (hcs : s.cursors.Listed cs) (oldPosition newPosition : Int) :
    ∃ t, s.moveAllCursors oldPosition newPosition = some { s with cursors := t } ∧
      t.internalCursor = s.cursors.internalCursor ∧
      t.cursorCount = s.cursors.cursorCount ∧ t.Listed cs ∧
      ∀ c, t.position c =
        if c ∈ cs ∧ s.cursors.position c = oldPosition then newPosition
        else s.cursors.position c := by
  obtain ⟨t, hrun, hmoved⟩ := hcs.exists_moveAll (· = oldPosition) newPosition
  exact ⟨t, bind_of_some hrun rfl, hmoved⟩

/-- The listed cursors move after, and only the internal one stays listed. -/
theorem exists_moveAllCursorsAfter (s : SparseContainer G K) {cs : List Nat}
    (hcs : s.cursors.Listed cs) :
    ∃ t, s.moveAllCursorsAfter = some { s with cursors := t } ∧
      t.internalCursor = s.cursors.internalCursor ∧
      t.cursorCount = s.cursors.cursorCount ∧
      t.Listed [s.cursors.internalCursor] ∧
      ∀ c, t.position c =
        if c ∈ cs then afterPosition else s.cursors.position c := by
  let f : Traversal Int → Nat → Traversal Int := fun t a =>
    (t.setPosition a afterPosition).setNextCursor a none
  have hfold : ∀ (cs : List Nat) (t : Traversal Int),
      (cs.foldl f t).internalCursor = t.internalCursor ∧
      (cs.foldl f t).cursorCount = t.cursorCount ∧
      ∀ c, (cs.foldl f t).nextCursor c = (if c ∈ cs then none else t.nextCursor c) ∧
        (cs.foldl f t).position c =
          if c ∈ cs then afterPosition else t.position c := by
    intro cs
    induction cs with
    | nil => exact fun t => ⟨rfl, rfl, fun c => by simp⟩
    | cons a cs ih =>
        intro t
        obtain ⟨h₂, h₃, h₄⟩ := ih (f t a)
        refine ⟨h₂, h₃, fun c => ?_⟩
        rw [List.foldl_cons, (h₄ c).1, (h₄ c).2]
        by_cases hc : c = a
        · subst hc
          simp [f, Traversal.setPosition, Traversal.setNextCursor]
        · simp [f, Traversal.setPosition, Traversal.setNextCursor, hc]
  have hlength := hcs.1.length_le hcs.2
  have hrun := Traversal.loopUntil_walk f (fun t a c hc => update_of_ne hc _ _) hcs.1
    (by omega : cs.length < s.cursors.cursorCount + 1)
  obtain ⟨h₂, h₃, h₄⟩ := hfold cs s.cursors
  have hinternal : s.cursors.internalCursor ∈ cs := by
    cases cs with
    | nil => exact absurd hcs.1 (by simp [Chain])
    | cons a cs => simp [Option.some.inj hcs.1.1]
  refine ⟨cs.foldl f s.cursors, ?_, h₂, h₃, ⟨⟨by rw [h₂], ?_⟩, ?_⟩,
    fun c => (h₄ c).2⟩
  · rw [moveAllCursorsAfter]
    exact bind_of_some hrun rfl
  · show (cs.foldl f s.cursors).nextCursor _ = none
    rw [(h₄ _).1, if_pos hinternal]
  · intro c hc
    rw [h₃]
    obtain rfl := List.mem_singleton.mp hc
    exact hcs.2 _ hinternal

/-! ### Resizing -/

/-- `t` has the items of `s`, at the same positions. -/
structure SameItems (s t : SparseStorage G K) : Prop where
  occupied : ∀ j, t.Occupied j ↔ s.Occupied j
  keep : ∀ j, s.Occupied j →
    t.key j = s.key j ∧ t.itemStorageItem j = s.itemStorageItem j
  last : t.lastPosition = s.lastPosition
  count : t.count = s.count

theorem newModulus_mono {m n : Int} (hpos : 0 ≤ m) (h : m ≤ n)
    (hn : n ≤ maximumCapacity) : newModulus m ≤ newModulus n := by
  rw [newModulus_eq hpos (Int.le_trans h hn), newModulus_eq (Int.le_trans hpos h) hn]
  omega

/-- The larger array of the heads of the buckets, once it is wiped out. -/
theorem exists_slotsResized (s : SparseContainer G K) {m : Nat}
    (hcount : (s.slots.count : Int) = s.modulus + 1)
    (hcapacity : (s.slots.capacity : Int) = s.modulus + 1) (hm : s.modulus + 1 ≤ m) :
    ∃ d, { s with slots := s.slots.aliasedResizedAreaWithDefault noPosition m }.slotsWipeOut =
        some { s with slots := d } ∧
      d.count = m ∧ d.capacity = m ∧ ∀ h, d.get noPosition h = noPosition := by
  have hcount' := s.slots.count_aliasedResizedAreaWithDefault noPosition (n := m) (by omega)
    (by omega)
  have hcapacity' := s.slots.capacity_aliasedResizedAreaWithDefault noPosition (n := m) (by omega)
  obtain ⟨d, hclear, hd, hd', hget⟩ := exists_slotsClear
    { s with slots := s.slots.aliasedResizedAreaWithDefault noPosition m }
    (n := (s.modulus + 1).toNat) (by simp only [hcount']; omega)
  refine ⟨d, hclear, hd.trans hcount', hd'.trans hcapacity', fun h => ?_⟩
  rw [hget]
  split
  case isTrue => rfl
  case isFalse hh =>
      refine (Special.get_aliasedResizedAreaWithDefault _ _ _ _).trans ?_
      exact s.slots.get_of_ge noPosition (by omega)

variable [DecidableEq K]

/-- `resize` keeps every item at its position, and it never fails unless the
new modulus is too large for an `INTEGER`. -/
theorem exists_resize {s : SparseContainer G K} (hs : WellFormed E kind s)
    {n : Int} (hn : s.capacity ≤ n) (hmax : n ≤ maximumCapacity) :
    ∃ t, s.resize gen n = some t ∧ WellFormed E kind t ∧ t.capacity = n ∧
      t.foundPosition = noPosition ∧ t.position = noPosition ∧
      t.cursors = s.cursors ∧
      SameItems s.toSparseStorage t.toSparseStorage := by
  have hu := hs.stored
  have hcapacity := hu.clashes_count
  have hmono := newModulus_mono (by omega) hn hmax
  have hmod := hu.modulus_eq
  have hpos := hu.modulus_pos
  have hslots := hu.slots_count
  have hslotsCap := hu.slots_capacity
  obtain ⟨d₁, hclear, hd₁, hd₁cap, hslot⟩ :=
    s.unsetFoundItem.exists_slotsResized (m := (newModulus n + 1).toNat) hslots hslotsCap
      (by simp only [unsetFoundItem]; omega)
  let s₁ : SparseContainer G K :=
    { s.unsetFoundItem with slots := d₁, modulus := newModulus n }
  have hh : ∀ k, s₁.bucketOf gen k < (newModulus n).toNat + 1 := by
    intro k
    cases k with
    | none => exact Nat.lt_succ_self _
    | some k => exact Nat.lt_succ_of_lt (Nat.mod_lt _ (by simp only [s₁]; omega))
  have hlt := hu.last_lt
  obtain ⟨c, d, hrun, hccount, hccap, hdcount, hdcap, hkept, hb⟩ :=
    @exists_relinkDown _ _ gen s₁ (s.lastPosition + 1).toNat s.Occupied
      (fun j hj => hu.keyStorageItem (by omega))
      (by simp only [s₁]; omega)
      (by simp only [s₁]; rw [hd₁]; omega) hh
      (by simp only [s₁, unsetFoundItem]; omega)
      (fun j hj => by simp only [Occupied]; exact and_iff_right (by omega))
      (Buckets.empty (fun h _ => hslot h) (fun j hj => by
        have := hj.1.1
        omega))
  have hccount : c.count = s.clashes.count := hccount
  have hccap : c.capacity = s.clashes.capacity := hccap
  have hclashesCap := hu.clashes_capacity
  have hitemsCap := hu.items_capacity
  let c' := c.aliasedResizedAreaWithDefault noPosition n.toNat
  have hcget : ∀ j, c'.get noPosition j = c.get noPosition j := fun j =>
    Special.get_aliasedResizedAreaWithDefault _ _ _ _
  let t : SparseStorage G K := { s.toSparseStorage with
    itemStorage := s.itemStorage.aliasedResizedArea n.toNat
    keyStorage := s.keyStorage.resize n.toNat
    clashes := c', slots := d, modulus := newModulus n, capacity := n }
  have hclash : ∀ j, t.clash j = c.get noPosition j := hcget
  have hkey : ∀ j, t.key j = s.key j := by
    intro j
    simp [key, keyStorageItem, t]
  have hmark : ∀ j, s.Occupied j → freeWatermark < c.get noPosition j := by
    intro j hj
    have := hb.clash_ge j hj
    rw [freeWatermark]
    omega
  have hoccupied : ∀ j, t.Occupied j ↔ s.Occupied j := by
    intro j
    simp only [Occupied, hclash, t]
    refine and_congr_right fun hj => ?_
    by_cases hocc : s.Occupied j
    · exact iff_of_true (hmark j hocc) hocc.2
    · rw [hkept j hocc]
      rfl
  have hvacant : ∀ j, t.Vacant j ↔ s.Vacant j := by
    intro j
    have := hoccupied j
    simp only [Occupied, Vacant, t] at this ⊢
    omega
  have hpositions : t.positions = s.positions :=
    positions_congr rfl hoccupied
  refine ⟨{ s.unsetFoundItem with
    toSparseStorage := t, position := noPosition }, ?_, ?_, rfl, rfl, rfl, rfl,
    ⟨hoccupied, fun j _ => ⟨hkey j, by simp [itemStorageItem, t]⟩, rfl, rfl⟩⟩
  · rw [resize]
    exact bind_of_some hclear
      (bind_of_some hrun rfl)
  · exact {
      tester := hs.tester
      position := Or.inl rfl
      cursors := hs.cursors
      stored := {
        capacity_le := hmax
        modulus_eq := rfl
        slots_count := by
          simp only [t, hdcount.trans hd₁]
          omega
        slots_capacity := by
          simp only [t, hdcap.trans hd₁cap]
          omega
        clashes_count := by
          have := Special.count_aliasedResizedAreaWithDefault c noPosition
            (n := n.toNat) (by omega) (by omega)
          simp only [t, c', this]
          omega
        clashes_capacity := by
          have := Special.capacity_aliasedResizedAreaWithDefault c noPosition
            (n := n.toNat) (by omega)
          simp only [t, c', this]
          omega
        items_count := by
          simp only [t, Special.count_aliasedResizedArea]
          exact hu.items_count
        items_capacity := by
          simp only [t, Special.capacity_aliasedResizedArea s.itemStorage
            (by omega : s.itemStorage.capacity ≤ n.toNat)]
          omega
        keys_fit := KeyStorage.fits_resize hu.keys_fit (by omega)
        kind_eq := (KeyStorage.kind_resize _ _).trans hu.kind_eq
        last_lt := by simp only [t]; omega
        beyond := by
          intro j hj
          refine (hclash j).trans ((hkept j ?_).trans (hu.beyond j hj))
          intro h
          exact absurd h.1 (Int.not_le.mpr hj)
        buckets := hb.congr hoccupied (fun j _ => hclash j)
          fun j _ => congrArg _ (hkey j)
        free := hu.free.congr hvacant fun j hj => (hclash j).trans
          (hkept j fun h => absurd hj.2 (Int.not_le.mpr h.2))
        distinct := by
          intro i j hi hj hsame
          rw [hkey, hkey] at hsame
          exact hu.distinct i j ((hoccupied i).mp hi) ((hoccupied j).mp hj) hsame
        count_eq := by rw [hpositions]; exact hu.count_eq } }

/-- `wipe_out` empties the container. -/
theorem exists_wipeOut {s : SparseContainer G K} (hs : WellFormed E kind s) :
    ∃ t, s.wipeOut = some t ∧ WellFormed E kind t ∧
      t.foundPosition = noPosition ∧ t.capacity = s.capacity ∧ t.count = 0 ∧
      ∀ j, ¬ t.Occupied j := by
  have hu := hs.stored
  obtain ⟨cs, hcs⟩ := hs.cursors
  obtain ⟨t, hmove, -, -, hlisted, -⟩ := s.exists_moveAllCursorsAfter hcs
  have hcount := hu.count_eq
  have hlast := hu.last_lt
  by_cases hpos : s.count > 0
  · obtain ⟨items, keys, hitems, hkeys, hcount', hcapacity', hfit', hkind', -⟩ :=
      KeyStorage.exists_keepHead hu.keys_fit (Nat.zero_le _)
    let s₁ : SparseContainer G K := { s with
      cursors := t, foundPosition := noPosition
      itemStorage := items, keyStorage := keys }
    obtain ⟨c, hc, hccount, hccap, hcget⟩ := s₁.exists_clashesWipeOut
      (by simp only [s₁]; rw [hu.clashes_count]; exact hlast) hu.beyond
    obtain ⟨d, hd, hdcount, hdcap, hdget⟩ :=
      exists_slotsWipeOut { s₁ with clashes := c } hu.slots_count
    let u : SparseStorage G K := { s.toSparseStorage with
      itemStorage := items, keyStorage := keys, clashes := c, slots := d
      lastPosition := noPosition, freeSlot := noPosition, count := 0 }
    have hnone : ∀ j, ¬ u.Occupied j := by
      intro j hj
      have : (j : Int) ≤ noPosition := hj.1
      rw [noPosition] at this
      omega
    refine ⟨{ s with
      toSparseStorage := u, cursors := t, foundPosition := noPosition
      position := noPosition }, ?_, ⟨?_, hs.tester, Or.inl rfl, ⟨_, hlisted⟩⟩,
      rfl, rfl, rfl, hnone⟩
    · rw [wipeOut]
      refine bind_of_some hmove ((if_pos hpos).trans ?_)
      refine bind_of_some (itemStorageKeepHead_eq hitems) ?_
      refine bind_of_some (keyStorageKeepHead_eq hkeys) ?_
      exact bind_of_some hc
        (bind_of_some hd rfl)
    · exact {
        capacity_le := hu.capacity_le
        modulus_eq := hu.modulus_eq
        slots_count := hdcount ▸ hu.slots_count
        slots_capacity := hdcap ▸ hu.slots_capacity
        clashes_count := hccount ▸ hu.clashes_count
        clashes_capacity := hccap ▸ hu.clashes_capacity
        items_count := by
          simp only [u, hcount', noPosition]
          rfl
        items_capacity := hcapacity' ▸ hu.items_capacity
        keys_fit := hfit'
        kind_eq := hkind'.trans hu.kind_eq
        last_lt := by
          have := hu.clashes_count
          simp only [u, noPosition]
          omega
        beyond := fun j _ => hcget j
        buckets := Buckets.empty (fun h _ => hdget h) hnone
        free := FreeList.empty fun j hj => by
          have : (j : Int) ≤ noPosition := hj.1
          rw [noPosition] at this
          omega
        distinct := fun i j hi => absurd hi (hnone i)
        count_eq := rfl }
  · have hzero : s.count = 0 := by omega
    refine ⟨{ s with
      cursors := t, foundPosition := noPosition, position := noPosition },
      ?_, ⟨hu, hs.tester, Or.inl rfl, ⟨_, hlisted⟩⟩, rfl, rfl, hzero, ?_⟩
    · simp [wipeOut, hmove, unsetFoundItem, hzero]
    · intro j hj
      rw [hzero] at hcount
      have hnil : s.positions = [] := List.length_eq_zero_iff.mp (by omega)
      have := (s.mem_positions j).mpr hj
      simp [hnil] at this

end SparseContainer

end Gobo
