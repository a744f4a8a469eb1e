/-
Sets of characters (`RX_CHARACTER_SET`): four sets of 64 bits for the codes below 256, and a table
of such sets for the other ones, whose missing sets are all full of zeros or all full of ones.
-/
import Gobo.SymbolClassBits
import Mathlib.Data.List.Nodup
import Mathlib.Tactic.SplitIfs

namespace Gobo

open List

/-- A table of sets; its keys are the codes divided by 64. -/
abbrev SetTable : Type := List (Nat × BitVec 64)

namespace SetTable

/-- `has`. -/
def has (t : SetTable) (k : Nat) : Bool := (t.lookup k).isSome

/-- `value`. -/
def value (t : SetTable) (k : Nat) : BitVec 64 := (t.lookup k).getD 0

/-- `replace_found_item`, when the key has been found. -/
def replace (t : SetTable) (v : BitVec 64) (k : Nat) : SetTable :=
  t.map fun p => if p.1 = k then (k, v) else p

/-- `force`. -/
def force (t : SetTable) (v : BitVec 64) (k : Nat) : SetTable :=
  if t.has k then t.replace v k else t ++ [(k, v)]

/-- `remove`. -/
def remove (t : SetTable) (k : Nat) : SetTable := t.filter fun p => p.1 != k

/-- Remove the sets that the other table does not have. -/
def removeMissing (t others : SetTable) : SetTable :=
  (t.map Prod.fst).foldl (fun t k => if others.has k then t else t.remove k) t

/-- Unite a set of the other table with the one of this table. -/
def uniteTurn (reverted : Bool) (t : SetTable) (p : Nat × BitVec 64) : SetTable :=
  match t.lookup p.1 with
  | some v => t.replace (v ||| p.2) p.1
  | none => if reverted then t else t ++ [p]

end SetTable

structure CharacterSet where
  isEmpty : Bool
  isNegated : Bool
  firstSet : BitVec 64
  secondSet : BitVec 64
  thirdSet : BitVec 64
  fourthSet : BitVec 64
  otherSets : Option SetTable
  isReverted : Bool
deriving DecidableEq

namespace SetTable

variable {t others : SetTable} {v : BitVec 64} {j k : Nat}

theorem has_iff : t.has k = true ↔ ∃ w, t.lookup k = some w := Option.isSome_iff_exists

theorem lookup_cons_eq (p : Nat × BitVec 64) :
    lookup j (p :: t) = if j = p.1 then some p.2 else t.lookup j := by
  rw [lookup_cons]
  by_cases hj : j = p.1
  · rw [if_pos hj, beq_iff_eq.mpr hj]
  · rw [if_neg hj, beq_eq_false_iff_ne.mpr hj]

theorem lookup_replace :
    (t.replace v k).lookup j = if j = k then (t.lookup k).map fun _ => v else t.lookup j := by
  induction t with
  | nil => split_ifs <;> rfl
  | cons p t ih =>
      rw [replace] at ih
      rw [replace, map_cons, lookup_cons_eq, lookup_cons_eq, lookup_cons_eq, ih]
      grind

theorem lookup_remove : (t.remove k).lookup j = if j = k then none else t.lookup j := by
  induction t with
  | nil => split_ifs <;> rfl
  | cons p t ih =>
      rw [remove] at ih
      rw [remove, filter_cons, lookup_cons_eq]
      by_cases hp : p.1 = k
      · rw [if_neg (by simp [hp]), ih]
        grind
      · rw [if_pos (by simp [hp]), lookup_cons_eq, ih]
        grind

/-- The key that is looked for is not changed by the removal of other keys. -/
theorem lookup_removeMissing :
    (t.removeMissing others).lookup j = if others.has j then t.lookup j else none := by
  have hfold : ∀ (keys : List Nat) (t : SetTable),
      (keys.foldl (fun t k => if others.has k then t else t.remove k) t).lookup j =
        if j ∈ keys ∧ others.has j = false then none else t.lookup j := by
    intro keys
    induction keys with
    | nil => intro t; simp
    | cons k keys ih =>
        intro t
        rw [foldl_cons, ih]
        by_cases hk : others.has k = true
        · rw [if_pos hk]
          grind
        · rw [if_neg hk, lookup_remove]
          grind
  rw [removeMissing, hfold]
  cases hj : others.has j with
  | true => rw [if_neg (by simp), if_pos rfl]
  | false =>
      rw [if_neg Bool.false_ne_true]
      by_cases hmem : j ∈ t.map Prod.fst
      · rw [if_pos ⟨hmem, rfl⟩]
      · rw [if_neg fun hand => hmem hand.1]
        refine lookup_eq_none_iff.mpr fun p hp => ?_
        have hne : j ≠ p.1 := fun heq => hmem (mem_map.mpr ⟨p, hp, heq.symm⟩)
        exact bne_iff_ne.mpr hne

theorem lookup_uniteTurn (reverted : Bool) (p : Nat × BitVec 64) :
    (t.uniteTurn reverted p).lookup j =
      if j = p.1 then
        match t.lookup j with
        | some v => some (v ||| p.2)
        | none => if reverted then none else some p.2
      else t.lookup j := by
  rw [uniteTurn]
  cases hp : t.lookup p.1 with
  | some v =>
      show (t.replace (v ||| p.2) p.1).lookup j = _
      rw [lookup_replace, hp]
      by_cases hj : j = p.1
      · rw [if_pos hj, if_pos hj, hj, hp]
        rfl
      · rw [if_neg hj, if_neg hj]
  | none =>
      show (if reverted = true then t else t ++ [p]).lookup j = _
      by_cases hj : j = p.1
      · rw [if_pos hj, hj, hp]
        cases reverted with
        | true => exact hp
        | false =>
            show lookup p.1 (t ++ [p]) = some p.2
            rw [lookup_append, hp, lookup_cons_eq, if_pos rfl]
            rfl
      · rw [if_neg hj]
        cases reverted with
        | true => rfl
        | false =>
            show lookup j (t ++ [p]) = t.lookup j
            rw [lookup_append, lookup_cons_eq, if_neg hj]
            exact Option.or_none

/-- The sets of two tables. -/
theorem lookup_foldl_uniteTurn (reverted : Bool) (hothers : (others.map Prod.fst).Nodup) :
    (others.foldl (uniteTurn reverted) t).lookup j =
      match t.lookup j, others.lookup j with
      | some v, some w => some (v ||| w)
      | some v, none => some v
      | none, some w => if reverted then none else some w
      | none, none => none := by
  induction others generalizing t with
  | nil =>
      rw [foldl_nil, lookup_nil]
      cases t.lookup j <;> rfl
  | cons p others ih =>
      obtain ⟨hp, hnodup⟩ := nodup_cons.mp hothers
      rw [foldl_cons, ih hnodup, lookup_uniteTurn, lookup_cons_eq]
      by_cases hj : j = p.1
      · have hnone : others.lookup j = none := by
          refine lookup_eq_none_iff.mpr fun q hq => bne_iff_ne.mpr fun heq => hp ?_
          exact mem_map.mpr ⟨q, hq, heq.symm.trans hj⟩
        rw [if_pos hj, if_pos hj, hnone]
        cases t.lookup j with
        | none => cases reverted <;> rfl
        | some v => rfl
      · rw [if_neg hj, if_neg hj]

/-- The keys are the ones of valid codes that are not below 256. -/
def ValidKey (k : Nat) : Prop := 4 ≤ k ∧ k ≤ 863 ∨ 896 ≤ k ∧ k ≤ 17407

/-- The keys of a table. -/
structure Sound (t : SetTable) : Prop where
  nodup : (t.map Prod.fst).Nodup
  valid : ∀ k ∈ t.map Prod.fst, ValidKey k

theorem sound_nil : Sound [] := ⟨nodup_nil, nofun⟩

theorem keys_replace : (t.replace v k).map Prod.fst = t.map Prod.fst := by
  rw [replace, map_map]
  refine map_congr_left fun p _ => ?_
  show (if p.1 = k then (k, v) else p).1 = p.1
  split_ifs with hp
  · exact hp.symm
  · rfl

theorem Sound.concat (ht : t.Sound) (hk : ValidKey k) (hnone : t.lookup k = none) :
    Sound (t ++ [(k, v)]) := by
  have hmem : k ∉ t.map Prod.fst := fun hmem => by
    obtain ⟨p, hp, rfl⟩ := mem_map.mp hmem
    exact bne_iff_ne.mp (lookup_eq_none_iff.mp hnone p hp) rfl
  constructor
  · rw [map_append, map_singleton]
    exact nodup_append.mpr ⟨ht.nodup, nodup_singleton k, fun a ha b hb => by
      obtain rfl := mem_singleton.mp hb
      exact fun heq => hmem (heq ▸ ha)⟩
  · intro l hl
    rw [map_append, mem_append] at hl
    rcases hl with hl | hl
    · exact ht.valid l hl
    · obtain rfl := mem_singleton.mp hl
      exact hk

theorem Sound.replace (ht : t.Sound) : Sound (t.replace v k) :=
  ⟨keys_replace.symm ▸ ht.nodup, fun l hl => ht.valid l (keys_replace ▸ hl)⟩

theorem Sound.force (ht : t.Sound) (hk : ValidKey k) : Sound (t.force v k) := by
  rw [SetTable.force]
  split_ifs with hhas
  · exact ht.replace
  · exact ht.concat hk (Option.not_isSome_iff_eq_none.mp hhas)

theorem Sound.removeMissing (ht : t.Sound) : Sound (t.removeMissing others) := by
  have hsub : ∀ (keys : List Nat) (t : SetTable),
      keys.foldl (fun t k => if others.has k then t else t.remove k) t |>.Sublist t := by
    intro keys
    induction keys with
    | nil => exact fun t => List.Sublist.refl t
    | cons k keys ih =>
        intro t
        refine (ih _).trans ?_
        beta_reduce
        split_ifs
        · exact List.Sublist.refl t
        · exact filter_sublist
  have hkeys := (hsub (t.map Prod.fst) t).map Prod.fst
  exact ⟨ht.nodup.sublist hkeys, fun k hk => ht.valid k (hkeys.subset hk)⟩

theorem Sound.foldl_uniteTurn (ht : t.Sound) (ho : others.Sound) (reverted : Bool) :
    Sound (others.foldl (uniteTurn reverted) t) := by
  have hvalid := ho.valid
  clear ho
  induction others generalizing t with
  | nil => exact ht
  | cons p others ih =>
      rw [map_cons, forall_mem_cons] at hvalid
      refine ih ?_ hvalid.2
      rw [uniteTurn]
      cases hp : t.lookup p.1 with
      | some v => exact ht.replace
      | none =>
          show Sound (if reverted = true then t else t ++ [p])
          split_ifs
          · exact ht
          · exact ht.concat hvalid.1 hp

end SetTable

namespace CharacterSet

open SymbolClass (mask)

/-- `valid_non_surrogate_natural_32_code`. -/
def validCode (a : Nat) : Bool := decide (a < 0xD800) || decide (0xDFFF < a ∧ a ≤ 0x10FFFF)

/-- `make_empty`. -/
def makeEmpty : CharacterSet := ⟨true, false, 0, 0, 0, 0, none, false⟩

section

variable (c : CharacterSet)

/-- The set of a code which is not below 256. -/
def otherSet (a : Nat) : Option (BitVec 64) :=
  c.otherSets.bind fun t => t.lookup (a / 64)

/-- `has`. -/
def has (a : Nat) : Bool :=
  if c.isEmpty then c.isNegated && validCode a
  else if a < 64 then (c.firstSet &&& mask a != 0) != c.isNegated
  else if a < 128 then (c.secondSet &&& mask (a % 64) != 0) != c.isNegated
  else if a < 192 then (c.thirdSet &&& mask (a % 64) != 0) != c.isNegated
  else if a < 256 then (c.fourthSet &&& mask (a % 64) != 0) != c.isNegated
  else
    match c.otherSet a with
    | some w => (w &&& mask (a % 64) != 0) != c.isNegated
    | none => (c.isReverted != c.isNegated) && validCode a

/-- `added`. -/
def added (a : Nat) : Bool :=
  if c.isEmpty then false
  else if a < 64 then c.firstSet &&& mask a != 0
  else if a < 128 then c.secondSet &&& mask (a % 64) != 0
  else if a < 192 then c.thirdSet &&& mask (a % 64) != 0
  else if a < 256 then c.fourthSet &&& mask (a % 64) != 0
  else
    match c.otherSet a with
    | some w => w &&& mask (a % 64) != 0
    | none => c.isReverted && validCode a

/-- `set_negated`. -/
def setNegated (b : Bool) : CharacterSet := { c with isNegated := b }

/-- The part of `add_character` for the codes that are not below 256. -/
def addOther (a : Nat) : CharacterSet :=
  match c.otherSets with
  | none =>
      if c.isReverted then c
      else { c with otherSets := some (SetTable.force [] (0 ||| mask (a % 64)) (a / 64)) }
  | some t =>
      if c.isReverted && !t.has (a / 64) then c
      else { c with otherSets := some (t.force (t.value (a / 64) ||| mask (a % 64)) (a / 64)) }

/-- `add_character`. -/
def addCharacter (a : Nat) : CharacterSet :=
  if a < 64 then { c with firstSet := c.firstSet ||| mask a, isEmpty := false }
  else if a < 128 then { c with secondSet := c.secondSet ||| mask (a % 64), isEmpty := false }
  else if a < 192 then { c with thirdSet := c.thirdSet ||| mask (a % 64), isEmpty := false }
  else if a < 256 then { c with fourthSet := c.fourthSet ||| mask (a % 64), isEmpty := false }
  else { c.addOther a with isEmpty := false }

/-- `add_string`. -/
def addString (s : List Nat) : CharacterSet := s.foldl addCharacter c

end

/-- A set of another class, or its complement. -/
def complementIf (negated : Bool) (w : BitVec 64) : BitVec 64 := if negated then ~~~w else w

/-- Unite with the other sets, which are negated if `negated` says so, and of which the missing
ones are then full of ones if `reverted` says so. -/
def uniteOthers (negated reverted : Bool) (c : CharacterSet) (others : SetTable) : CharacterSet :=
  let others := others.map fun p => (p.1, complementIf negated p.2)
  match c.otherSets with
  | none | some [] =>
      if c.isReverted then c else { c with otherSets := some others, isReverted := reverted }
  | some t =>
      let t := if reverted then t.removeMissing others else t
      { c with
        otherSets := some (others.foldl (SetTable.uniteTurn c.isReverted) t)
        isReverted := c.isReverted || reverted }

/-- The sets of `add_set` and of `add_negated_set`. -/
def unite (negated : Bool) (c other : CharacterSet) : CharacterSet :=
  let c :=
    { c with
      firstSet := c.firstSet ||| complementIf negated other.firstSet
      secondSet := c.secondSet ||| complementIf negated other.secondSet
      thirdSet := c.thirdSet ||| complementIf negated other.thirdSet
      fourthSet := c.fourthSet ||| complementIf negated other.fourthSet }
  match other.otherSets with
  | none | some [] =>
      if other.isReverted != negated then
        { c with isReverted := true, otherSets := c.otherSets.map fun _ => [] }
      else c
  | some others => uniteOthers negated (other.isReverted != negated) c others

/-- `add_set`. -/
def addSet (c other : CharacterSet) : CharacterSet :=
  { unite false c other with isEmpty := c.isEmpty && other.isEmpty }

/-- Whether there is no character, at the end of `add_negated_set`. -/
def noCharacter (c : CharacterSet) : Bool :=
  if c.firstSet ≠ 0 ∨ c.secondSet ≠ 0 ∨ c.thirdSet ≠ 0 ∨ c.fourthSet ≠ 0 then false
  else
    match c.otherSets with
    | none | some [] => !c.isReverted
    | some t =>
        if c.isReverted = false ∨ t.length = 17372 then t.all fun p => p.2 == 0 else false

/-- `add_negated_set`. -/
def addNegatedSet (c other : CharacterSet) : CharacterSet :=
  let r := unite true c other
  if c.isEmpty then { r with isEmpty := r.noCharacter } else r

/-- `wipe_out`. -/
def wipeOut (c : CharacterSet) : CharacterSet :=
  ⟨true, false, 0, 0, 0, 0, c.otherSets.map fun _ => [], false⟩

end CharacterSet

end Gobo
