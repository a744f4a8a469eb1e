/-
The codes of a set of characters, and what the union with another set or with its complement does
to them.
-/
import Gobo.CharacterSet
import Mathlib.Order.Interval.Finset.Nat

namespace Gobo

open List

namespace CharacterSet

open SymbolClass (mask and_mask_ne_zero getLsbD_or_mask div_64_cases)

variable {c d : CharacterSet} {a b j k : Nat} {t : SetTable} {w : BitVec 64} {n r : Bool}

/-- The sets of the codes below 256. -/
def low (c : CharacterSet) : Nat → BitVec 64
  | 0 => c.firstSet
  | 1 => c.secondSet
  | 2 => c.thirdSet
  | _ => c.fourthSet

/-- Whether a code which is not below 256 is in one of the other sets. -/
def high (otherSets : Option SetTable) (reverted : Bool) (a : Nat) : Bool :=
  ((otherSets.bind fun t => t.lookup (a / 64)).elim (reverted && validCode a)) fun w =>
    w.getLsbD (a % 64)

/-- Whether a code is in the sets, without the flags. -/
def member (c : CharacterSet) (a : Nat) : Bool :=
  if a < 256 then (c.low (a / 64)).getLsbD (a % 64) else high c.otherSets c.isReverted a

theorem high_none : high none r a = (r && validCode a) := rfl

theorem high_some : high (some t) r a =
    (t.lookup (a / 64)).elim (r && validCode a) fun w => w.getLsbD (a % 64) := rfl

theorem validKey_iff (ha : 256 ≤ a) : SetTable.ValidKey (a / 64) ↔ validCode a = true := by
  rw [SetTable.ValidKey, validCode, Bool.or_eq_true, decide_eq_true_eq, decide_eq_true_eq]
  omega

theorem validCode_of_lt (ha : a < 256) : validCode a = true := by
  rw [validCode, decide_eq_true (by omega), Bool.true_or]

/-- What calls make of a set. -/
structure Good (c : CharacterSet) : Prop where
  sound : ∀ t, c.otherSets = some t → t.Sound
  empty : c.isEmpty = true → ∀ a, c.member a = false

theorem good_makeEmpty : Good makeEmpty := by
  refine ⟨nofun, fun _ a => ?_⟩
  rw [member]
  split_ifs
  · match a / 64 with
    | 0 | 1 | 2 | n + 3 => exact BitVec.getLsbD_zero
  · rfl

/-- Only valid codes are in the sets. -/
theorem Good.validCode_of_member (hc : Good c) (ha : c.member a = true) : validCode a = true := by
  rw [member] at ha
  split_ifs at ha with hlt
  · exact validCode_of_lt hlt
  · rw [high] at ha
    cases hw : c.otherSets.bind fun t => t.lookup (a / 64) with
    | none =>
        rw [hw] at ha
        exact (Bool.and_eq_true_iff.mp ha).2
    | some w =>
        obtain ⟨t, ht, hw⟩ := Option.bind_eq_some_iff.mp hw
        have hmem : a / 64 ∈ t.map Prod.fst := by
          obtain ⟨l₁, l₂, rfl, -⟩ := lookup_eq_some_iff.mp hw
          simp
        exact (validKey_iff (Nat.le_of_not_lt hlt)).mp ((hc.sound t ht).valid _ hmem)

theorem added_eq (c : CharacterSet) (a : Nat) : c.added a = (!c.isEmpty && c.member a) := by
  have hmod : a % 64 < 64 := Nat.mod_lt _ (by decide)
  rw [added, member]
  cases c.isEmpty with
  | true => rfl
  | false =>
      rw [if_neg Bool.false_ne_true, Bool.not_false, Bool.true_and]
      rcases div_64_cases a with ⟨hlt, hj⟩ | ⟨hle, hlt, hj⟩ | ⟨hle, hlt, hj⟩ | ⟨hle, hlt, hj⟩ |
        ⟨hle, hj⟩
      · rw [if_pos hlt, if_pos (by omega), hj, and_mask_ne_zero _ hlt, Nat.mod_eq_of_lt hlt]
        rfl
      · rw [if_neg (by omega), if_pos hlt, if_pos (by omega), hj, and_mask_ne_zero _ hmod]
        rfl
      · rw [if_neg (by omega), if_neg (by omega), if_pos hlt, if_pos (by omega), hj,
          and_mask_ne_zero _ hmod]
        rfl
      · rw [if_neg (by omega), if_neg (by omega), if_neg (by omega), if_pos hlt, if_pos (by omega),
          hj, and_mask_ne_zero _ hmod]
        rfl
      · rw [if_neg (by omega), if_neg (by omega), if_neg (by omega), if_neg (by omega),
          if_neg (by omega), high, otherSet]
        cases c.otherSets.bind fun t => t.lookup (a / 64) with
        | none => rfl
        | some w => exact and_mask_ne_zero w hmod

/-- The query `added` says what is in the sets. -/
theorem Good.added_eq_member (hc : Good c) (a : Nat) : c.added a = c.member a := by
  rw [added_eq]
  cases he : c.isEmpty with
  | true => rw [hc.empty he]; rfl
  | false => rfl

/-- The query `has` for a valid code. -/
theorem Good.has_eq (hc : Good c) (a : Nat) :
    c.has a = (validCode a && (c.added a != c.isNegated)) := by
  cases hv : validCode a with
  | false =>
      have hlt : ¬a < 256 := fun hlt => by
        rw [validCode_of_lt hlt] at hv
        exact absurd hv (by decide)
      have hnone : c.otherSet a = none := by
        cases hw : c.otherSet a with
        | none => rfl
        | some w =>
            obtain ⟨t, ht, hw⟩ := Option.bind_eq_some_iff.mp hw
            have hmem : a / 64 ∈ t.map Prod.fst := by
              obtain ⟨l₁, l₂, rfl, -⟩ := lookup_eq_some_iff.mp hw
              simp
            rw [(validKey_iff (Nat.le_of_not_lt hlt)).mp ((hc.sound t ht).valid _ hmem)] at hv
            exact absurd hv (by decide)
      simp only [has, hnone, hv, hlt, if_neg (show ¬a < 64 by omega),
        if_neg (show ¬a < 128 by omega), if_neg (show ¬a < 192 by omega), if_false, Bool.and_false,
        Bool.false_and, ite_self]
  | true =>
      rw [has, added, hv, Bool.true_and]
      split_ifs
      · cases c.isNegated <;> rfl
      · rfl
      · rfl
      · rfl
      · rfl
      · cases c.otherSet a with
        | none => cases c.isReverted <;> cases c.isNegated <;> rfl
        | some w => rfl

theorem getLsbD_complementIf (hj : j < 64) :
    (complementIf n w).getLsbD j = (w.getLsbD j != n) := by
  rw [complementIf]
  cases n with
  | false => simp
  | true => simp [hj]

/-- The codes of the sets of a table are valid. -/
theorem validCode_of_lookup (ht : t.Sound) (ha : 256 ≤ a) (hw : t.lookup (a / 64) = some w) :
    validCode a = true := by
  obtain ⟨l₁, l₂, rfl, -⟩ := lookup_eq_some_iff.mp hw
  exact (validKey_iff ha).mp (ht.valid _ (by simp))

/-- The table of the sets that may be negated. -/
def complements (n : Bool) (others : SetTable) : SetTable :=
  others.map fun p => (p.1, complementIf n p.2)

theorem keys_complements (others : SetTable) :
    (complements n others).map Prod.fst = others.map Prod.fst := by
  rw [complements, map_map]
  rfl

theorem sound_complements {others : SetTable} (ho : others.Sound) : (complements n others).Sound :=
  ⟨(keys_complements others).symm ▸ ho.nodup, fun k hk => ho.valid k (keys_complements others ▸ hk)⟩

theorem lookup_complements (others : SetTable) :
    (complements n others).lookup k = (others.lookup k).map (complementIf n) := by
  rw [complements]
  induction others with
  | nil => rfl
  | cons p others ih =>
      rw [map_cons, SetTable.lookup_cons_eq, SetTable.lookup_cons_eq, ih]
      split_ifs <;> rfl

theorem high_complements {others : SetTable} (ho : others.Sound) (ha : 256 ≤ a) :
    high (some (complements n others)) (r != n) a =
      (validCode a && (high (some others) r a != n)) := by
  rw [high_some, high_some, lookup_complements]
  cases hw : others.lookup (a / 64) with
  | none =>
      show ((r != n) && validCode a) = (validCode a && ((r && validCode a) != n))
      cases r <;> cases n <;> cases validCode a <;> rfl
  | some w =>
      show (complementIf n w).getLsbD (a % 64) = (validCode a && (w.getLsbD (a % 64) != n))
      rw [validCode_of_lookup ho ha hw, Bool.true_and,
        getLsbD_complementIf (Nat.mod_lt _ (by decide))]

/-- The union of two tables, of which the missing sets are full of zeros or full of ones. -/
theorem high_union {reverted reverted' : Bool} {others : SetTable} (ht : t.Sound)
    (ho : others.Sound)
    (ha : 256 ≤ a) :
    high (some (others.foldl (SetTable.uniteTurn reverted)
        (if reverted' = true then t.removeMissing others else t))) (reverted || reverted') a =
      (high (some t) reverted a || high (some others) reverted' a) := by
  rw [high_some, high_some, high_some, SetTable.lookup_foldl_uniteTurn reverted ho.nodup]
  have hkept : (if reverted' = true then t.removeMissing others else t).lookup (a / 64) =
      if reverted' = true ∧ others.lookup (a / 64) = none then none else t.lookup (a / 64) := by
    cases reverted' with
    | false => simp
    | true =>
        rw [if_pos rfl, SetTable.lookup_removeMissing, SetTable.has]
        cases others.lookup (a / 64) <;> simp
  rw [hkept]
  have hbits : ∀ v w : BitVec 64, (v ||| w).getLsbD (a % 64) =
      (v.getLsbD (a % 64) || w.getLsbD (a % 64)) := fun v w => BitVec.getLsbD_or
  cases hv : t.lookup (a / 64) with
  | none =>
      cases hw : others.lookup (a / 64) with
      | none => cases reverted <;> cases reverted' <;> simp
      | some w =>
          have hvalid := validCode_of_lookup ho ha hw
          cases reverted <;> simp [hvalid]
  | some v =>
      have hvalid := validCode_of_lookup ht ha hv
      cases hw : others.lookup (a / 64) with
      | none => cases reverted' <;> simp [hvalid]
      | some w => simp [hbits]

theorem uniteOthers_sets (c : CharacterSet) {others : SetTable} :
    (uniteOthers n r c others).low = c.low := by
  rw [uniteOthers]
  split
  · split_ifs <;> rfl
  · split_ifs <;> rfl
  · rfl

/-- The other set has a table. -/
theorem high_uniteOthers (hc : ∀ t, c.otherSets = some t → t.Sound) {others : SetTable}
    (ho : others.Sound) (ha : 256 ≤ a) :
    high (uniteOthers n (r != n) c others).otherSets
      (uniteOthers n (r != n) c others).isReverted a =
      (high c.otherSets c.isReverted a || (validCode a && (high (some others) r a != n))) := by
  rw [← high_complements ho ha]
  have hempty : (high c.otherSets c.isReverted a = (c.isReverted && validCode a)) →
      high (if c.isReverted = true then c else
          { c with otherSets := some (complements n others), isReverted := r != n }).otherSets
        (if c.isReverted = true then c else
          { c with otherSets := some (complements n others), isReverted := r != n }).isReverted a =
        (high c.otherSets c.isReverted a || high (some (complements n others)) (r != n) a) := by
    intro hhigh
    cases hrev : c.isReverted with
    | false =>
        rw [hrev] at hhigh
        rw [if_neg Bool.false_ne_true, hhigh]
        rfl
    | true =>
        rw [hrev] at hhigh
        rw [if_pos rfl, hrev, hhigh, high_complements ho ha]
        cases validCode a <;> rfl
  cases hsets : c.otherSets with
  | none =>
      rw [uniteOthers, hsets]
      rw [hsets] at hempty
      exact hempty rfl
  | some t =>
      rw [uniteOthers, hsets]
      cases t with
      | nil =>
          rw [hsets] at hempty
          exact hempty rfl
      | cons p t => exact high_union (hc _ hsets) (sound_complements ho) ha

theorem sound_uniteOthers (hc : ∀ t, c.otherSets = some t → t.Sound) {others : SetTable}
    (ho : others.Sound) :
    ∀ t, (uniteOthers n r c others).otherSets = some t → t.Sound := by
  intro t ht
  have hempty : (if c.isReverted = true then c else
      { c with otherSets := some (complements n others), isReverted := r }).otherSets = some t →
        t.Sound := by
    intro ht
    split_ifs at ht
    · exact hc t ht
    · exact Option.some.inj ht ▸ sound_complements ho
  cases hsets : c.otherSets with
  | none =>
      rw [uniteOthers, hsets] at ht
      exact hempty ht
  | some t' =>
      rw [uniteOthers, hsets] at ht
      cases t' with
      | nil => exact hempty ht
      | cons p t' =>
          obtain rfl := Option.some.inj ht
          refine SetTable.Sound.foldl_uniteTurn ?_ (sound_complements ho) _
          split_ifs
          · exact (hc _ hsets).removeMissing
          · exact hc _ hsets

/-- The codes below 256 are united set by set. -/
theorem low_unite (n : Bool) (c d : CharacterSet) (j : Nat) :
    (unite n c d).low j = c.low j ||| complementIf n (d.low j) := by
  have hlow : ∀ c' : CharacterSet, c'.firstSet = c.firstSet ||| complementIf n d.firstSet →
      c'.secondSet = c.secondSet ||| complementIf n d.secondSet →
      c'.thirdSet = c.thirdSet ||| complementIf n d.thirdSet →
      c'.fourthSet = c.fourthSet ||| complementIf n d.fourthSet →
      c'.low j = c.low j ||| complementIf n (d.low j) := by
    intro c' hfirst hsecond hthird hfourth
    match j with
    | 0 => exact hfirst
    | 1 => exact hsecond
    | 2 => exact hthird
    | j + 3 => exact hfourth
  rw [unite]
  split
  · split_ifs <;> exact hlow _ rfl rfl rfl rfl
  · split_ifs <;> exact hlow _ rfl rfl rfl rfl
  · rw [uniteOthers_sets]
    exact hlow _ rfl rfl rfl rfl

theorem isEmpty_unite (n : Bool) (c d : CharacterSet) : (unite n c d).isEmpty = c.isEmpty := by
  have hothers : ∀ (r : Bool) (c : CharacterSet) others, (uniteOthers n r c others).isEmpty =
      c.isEmpty := by
    intro r c others
    rw [uniteOthers]
    split
    · split_ifs <;> rfl
    · split_ifs <;> rfl
    · rfl
  rw [unite]
  split
  · split_ifs <;> rfl
  · split_ifs <;> rfl
  · rw [hothers]

theorem high_eq_false (hc : Good c) (ha : 256 ≤ a) (hv : validCode a = false) :
    high c.otherSets c.isReverted a = false := by
  refine Bool.eq_false_iff.mpr fun hhigh => ?_
  have hmember : c.member a = true := (if_neg (Nat.not_lt_of_le ha)).trans hhigh
  exact Bool.false_ne_true (hv.symm.trans (hc.validCode_of_member hmember))

/-- The other codes. -/
theorem Good.high_unite (hc : Good c) (hd : Good d) (ha : 256 ≤ a) :
    high (unite n c d).otherSets (unite n c d).isReverted a =
      (high c.otherSets c.isReverted a ||
        (validCode a && (high d.otherSets d.isReverted a != n))) := by
  have hempty : high d.otherSets d.isReverted a = (d.isReverted && validCode a) →
      high (if (d.isReverted != n) = true then c.otherSets.map fun _ => [] else c.otherSets)
        (if (d.isReverted != n) = true then true else c.isReverted) a =
      (high c.otherSets c.isReverted a ||
        (validCode a && (high d.otherSets d.isReverted a != n))) := by
    intro hhigh
    rw [hhigh]
    split_ifs with hones
    · have hfull : high (c.otherSets.map fun _ => []) true a = validCode a := by
        cases c.otherSets <;> rfl
      rw [hfull]
      cases hv : validCode a with
      | false => rw [high_eq_false hc ha hv]; rfl
      | true => rw [Bool.and_true, hones, Bool.and_self, Bool.or_true]
    · have heq : d.isReverted = n := by simpa using hones
      rw [heq]
      cases n <;> cases validCode a <;> simp
  rw [unite]
  cases hsets : d.otherSets with
  | none =>
      rw [hsets] at hempty
      rw [← hempty rfl]
      split_ifs <;> rfl
  | some others =>
      cases others with
      | nil =>
          rw [hsets] at hempty
          rw [← hempty rfl]
          split_ifs <;> rfl
      | cons p others =>
          exact high_uniteOthers (c := { c with
            firstSet := c.firstSet ||| complementIf n d.firstSet
            secondSet := c.secondSet ||| complementIf n d.secondSet
            thirdSet := c.thirdSet ||| complementIf n d.thirdSet
            fourthSet := c.fourthSet ||| complementIf n d.fourthSet })
              hc.sound (hd.sound _ hsets) ha

/-- The union with a set or with its complement. -/
theorem Good.member_unite (hc : Good c) (hd : Good d) (a : Nat) :
    (unite n c d).member a = (c.member a || (validCode a && (d.member a != n))) := by
  rw [member, member, member]
  by_cases ha : a < 256
  · rw [if_pos ha, if_pos ha, if_pos ha, low_unite, BitVec.getLsbD_or,
      getLsbD_complementIf (Nat.mod_lt _ (by decide)), validCode_of_lt ha, Bool.true_and]
  · rw [if_neg ha, if_neg ha, if_neg ha, hc.high_unite hd (Nat.le_of_not_lt ha)]

theorem Good.sound_unite (hc : Good c) (hd : Good d) :
    ∀ t, (unite n c d).otherSets = some t → t.Sound := by
  intro t ht
  have hempty : (if (d.isReverted != n) = true then c.otherSets.map fun _ => [] else c.otherSets) =
      some t → t.Sound := by
    intro ht
    split_ifs at ht
    · obtain ⟨t', -, rfl⟩ := Option.map_eq_some_iff.mp ht
      exact SetTable.sound_nil
    · exact hc.sound t ht
  rw [unite] at ht
  cases hsets : d.otherSets with
  | none =>
      rw [hsets] at ht
      refine hempty ?_
      rw [← ht]
      split_ifs <;> rfl
  | some others =>
      rw [hsets] at ht
      cases others with
      | nil =>
          refine hempty ?_
          rw [← ht]
          split_ifs <;> rfl
      | cons p others =>
          exact sound_uniteOthers (c := { c with
            firstSet := c.firstSet ||| complementIf n d.firstSet
            secondSet := c.secondSet ||| complementIf n d.secondSet
            thirdSet := c.thirdSet ||| complementIf n d.thirdSet
            fourthSet := c.fourthSet ||| complementIf n d.fourthSet })
              hc.sound (hd.sound _ hsets) t ht

/-- The keys of all valid codes that are not below 256. -/
def validKeys : Finset Nat := Finset.Icc 4 863 ∪ Finset.Icc 896 17407

theorem mem_validKeys : k ∈ validKeys ↔ SetTable.ValidKey k := by
  rw [validKeys, Finset.mem_union, Finset.mem_Icc, Finset.mem_Icc, SetTable.ValidKey]

theorem card_validKeys : validKeys.card = 17372 := by
  rw [validKeys, Finset.card_union_of_disjoint, Nat.card_Icc, Nat.card_Icc]
  refine Finset.disjoint_left.mpr fun k hk hk' => ?_
  rw [Finset.mem_Icc] at hk hk'
  omega

/-- A table with that many sets has all of them. -/
theorem mem_keys_of_length (ht : t.Sound) (hlength : t.length = 17372) (hk : SetTable.ValidKey k) :
    k ∈ t.map Prod.fst := by
  have hsub : (t.map Prod.fst).toFinset ⊆ validKeys := fun k hk =>
    mem_validKeys.mpr (ht.valid k (mem_toFinset.mp hk))
  have hcard : (t.map Prod.fst).toFinset.card = 17372 := by
    rw [toFinset_card_of_nodup ht.nodup, length_map, hlength]
  have heq := Finset.eq_of_subset_of_card_le hsub (by rw [card_validKeys, hcard])
  exact mem_toFinset.mp (heq ▸ mem_validKeys.mpr hk)

/-- The set is said to be empty at the end of `add_negated_set` only if it is. -/
theorem member_of_noCharacter (hsound : ∀ t, c.otherSets = some t → t.Sound)
    (hno : c.noCharacter = true) (a : Nat) : c.member a = false := by
  rw [noCharacter] at hno
  split_ifs at hno with hlow
  rw [not_or, not_or, not_or, not_not, not_not, not_not, not_not] at hlow
  obtain ⟨hfirst, hsecond, hthird, hfourth⟩ := hlow
  rw [member]
  split_ifs with ha
  · match a / 64 with
    | 0 => rw [low, hfirst]; exact BitVec.getLsbD_zero
    | 1 => rw [low, hsecond]; exact BitVec.getLsbD_zero
    | 2 => rw [low, hthird]; exact BitVec.getLsbD_zero
    | j + 3 =>
        show c.fourthSet.getLsbD _ = false
        rw [hfourth]
        exact BitVec.getLsbD_zero
  · cases hsets : c.otherSets with
    | none =>
        have hrev : c.isReverted = false := by simpa [hsets] using hno
        rw [high_none, hrev, Bool.false_and]
    | some t =>
        rw [hsets] at hno
        rw [high_some]
        have hzero : (c.isReverted = false ∨ t.length = 17372) → t.all (fun p => p.2 == 0) = true →
            (t.lookup (a / 64)).elim (c.isReverted && validCode a) (fun w => w.getLsbD (a % 64)) =
              false := by
          intro hor hall
          cases hw : t.lookup (a / 64) with
          | some w =>
              obtain ⟨l₁, l₂, rfl, -⟩ := lookup_eq_some_iff.mp hw
              have hw := beq_iff_eq.mp (all_eq_true.mp hall (a / 64, w) (by simp))
              show w.getLsbD _ = false
              rw [show w = 0 from hw]
              exact BitVec.getLsbD_zero
          | none =>
              show (c.isReverted && validCode a) = false
              rcases hor with hrev | hlength
              · rw [hrev, Bool.false_and]
              · cases hv : validCode a with
                | false => rw [Bool.and_false]
                | true =>
                    have hmem := mem_keys_of_length (hsound t hsets) hlength
                      ((validKey_iff (Nat.le_of_not_lt ha)).mpr hv)
                    obtain ⟨p, hp, hpk⟩ := mem_map.mp hmem
                    exact absurd hpk.symm (bne_iff_ne.mp (lookup_eq_none_iff.mp hw p hp))
        cases t with
        | nil =>
            have hrev : c.isReverted = false := by simpa using hno
            rw [hrev]
            rfl
        | cons p t =>
            change (if c.isReverted = false ∨ (p :: t).length = 17372 then _ else false) =
              true at hno
            split_ifs at hno with hor
            exact hzero hor hno

end CharacterSet

end Gobo
