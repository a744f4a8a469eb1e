/-
Runs that make sets of characters: the sets are what the corresponding operations on sets of codes
make.
-/
import Gobo.CharacterSetUnion
import Gobo.Runs

namespace Gobo

open Option List

namespace CharacterSet

open SymbolClass (mask getLsbD_or_mask div_64_cases)

variable {c d : CharacterSet} {a b : Nat} {A B : Set Nat} {s : List Nat}

/-- The set of characters has the codes of `A`. -/
structure Represents (c : CharacterSet) (A : Set Nat) : Prop where
  good : Good c
  member : ∀ a, c.member a = true ↔ a ∈ A

theorem Represents.added_iff (hc : Represents c A) (a : Nat) : c.added a = true ↔ a ∈ A := by
  rw [hc.good.added_eq_member, hc.member]

theorem represents_makeEmpty : Represents makeEmpty ∅ := by
  refine ⟨good_makeEmpty, fun a => iff_of_false ?_ (Set.notMem_empty a)⟩
  rw [good_makeEmpty.empty rfl]
  exact Bool.false_ne_true

theorem Represents.setNegated (hc : Represents c A) (n : Bool) :
    Represents (c.setNegated n) A :=
  ⟨⟨hc.good.sound, hc.good.empty⟩, hc.member⟩

theorem represents_wipeOut (c : CharacterSet) : Represents c.wipeOut ∅ := by
  have hempty : ∀ a, c.wipeOut.member a = false := by
    intro a
    rw [CharacterSet.member]
    split_ifs
    · rcases a / 64 with _ | _ | _ | n <;> exact BitVec.getLsbD_zero
    · rw [wipeOut]
      cases c.otherSets <;> rfl
  refine ⟨⟨fun t ht => ?_, fun _ => hempty⟩, fun a => iff_of_false ?_ (Set.notMem_empty a)⟩
  · obtain ⟨t', -, rfl⟩ := map_eq_some_iff.mp ht
    exact SetTable.sound_nil
  · rw [hempty]
    exact Bool.false_ne_true

theorem lookup_force {t : SetTable} {w : BitVec 64} {j k : Nat} :
    (t.force w k).lookup j = if j = k then some w else t.lookup j := by
  rw [SetTable.force]
  split_ifs with hhas hj hj
  · obtain ⟨v, hv⟩ := SetTable.has_iff.mp hhas
    rw [SetTable.lookup_replace, if_pos hj, hv]
    rfl
  · rw [SetTable.lookup_replace, if_neg hj]
  · have hnone : t.lookup k = none := not_isSome_iff_eq_none.mp hhas
    rw [lookup_append, hj, hnone, SetTable.lookup_cons_eq, if_pos rfl]
    rfl
  · rw [lookup_append, SetTable.lookup_cons_eq, if_neg hj]
    exact or_none

/-- A code is put into a table. -/
theorem high_force {t : SetTable} {r : Bool} (hkept : (r && !t.has (a / 64)) = false) (b : Nat) :
    high (some (t.force (t.value (a / 64) ||| mask (a % 64)) (a / 64))) r b =
      (high (some t) r b || decide (b = a)) := by
  rw [high_some, high_some, lookup_force]
  by_cases hdiv : b / 64 = a / 64
  · rw [if_pos hdiv, elim_some, getLsbD_or_mask _ (Nat.mod_lt _ (by decide)), hdiv,
      SetTable.value]
    have hmod : decide (b % 64 = a % 64) = decide (b = a) :=
      decide_eq_decide.mpr ⟨fun hmod => by omega, fun heq => by rw [heq]⟩
    rw [hmod]
    cases hw : t.lookup (a / 64) with
    | some w => rfl
    | none =>
        have hr : r = false := by simpa [SetTable.has, hw] using hkept
        rw [hr]
        exact congrArg (· || _) BitVec.getLsbD_zero
  · have hne : b ≠ a := fun heq => hdiv (by rw [heq])
    rw [if_neg hdiv, decide_eq_false hne, Bool.or_false]

/-- The other sets get the code. -/
theorem high_addOther (ha : 256 ≤ a) (hvalid : validCode a = true)
    (hc : ∀ t, c.otherSets = some t → t.Sound) (b : Nat) :
    high (c.addOther a).otherSets (c.addOther a).isReverted b =
        (high c.otherSets c.isReverted b || decide (b = a)) ∧
      ∀ t, (c.addOther a).otherSets = some t → t.Sound := by
  have hkey := (validKey_iff ha).mpr hvalid
  have hsame : high c.otherSets c.isReverted a = true →
      high c.otherSets c.isReverted b = (high c.otherSets c.isReverted b || decide (b = a)) := by
    intro htrue
    by_cases hba : b = a
    · rw [hba, htrue]
      rfl
    · rw [decide_eq_false hba, Bool.or_false]
  rw [addOther]
  cases hsets : c.otherSets with
  | none =>
      rw [hsets] at hsame
      cases hr : c.isReverted with
      | true =>
          rw [hr] at hsame
          rw [if_pos rfl, hsets, hr]
          exact ⟨hsame hvalid, nofun⟩
      | false =>
          rw [if_neg Bool.false_ne_true]
          exact ⟨high_force rfl b, fun t ht =>
            some.inj ht ▸ SetTable.sound_nil.force hkey⟩
  | some t =>
      rw [hsets] at hsame
      show high (if (c.isReverted && !t.has (a / 64)) = true then c else
          { c with otherSets := some (t.force (t.value (a / 64) ||| mask (a % 64)) (a / 64)) }).otherSets
        (if (c.isReverted && !t.has (a / 64)) = true then c else
          { c with otherSets := some (t.force (t.value (a / 64) ||| mask (a % 64)) (a / 64)) }).isReverted
          b = _ ∧ ∀ t', (if (c.isReverted && !t.has (a / 64)) = true then c else
          { c with otherSets := some (t.force (t.value (a / 64) ||| mask (a % 64)) (a / 64)) }).otherSets =
            some t' → t'.Sound
      split_ifs with hmissing
      · refine ⟨?_, hc⟩
        rw [hsets]
        refine hsame ?_
        obtain ⟨hr, hhas⟩ := Bool.and_eq_true_iff.mp hmissing
        have hnone : t.lookup (a / 64) = none := by simpa [SetTable.has] using hhas
        rw [high_some, hnone, hr, hvalid]
        rfl
      · exact ⟨high_force (Bool.eq_false_iff.mpr hmissing) b, fun t' ht' =>
          some.inj ht' ▸ (hc t hsets).force hkey⟩

/-- One of the first four sets gets the code. -/
theorem member_of_low (ha : a < 256) (hsets : d.otherSets = c.otherSets)
    (hreverted : d.isReverted = c.isReverted)
    (hlow : ∀ j, d.low j = if min j 3 = a / 64 then c.low j ||| mask (a % 64) else c.low j)
    (b : Nat) :
    d.member b = (c.member b || decide (b = a)) := by
  rw [CharacterSet.member, CharacterSet.member, hsets, hreverted]
  by_cases hb : b < 256
  · rw [if_pos hb, if_pos hb, hlow, Nat.min_eq_left (by omega)]
    by_cases hdiv : b / 64 = a / 64
    · rw [if_pos hdiv, getLsbD_or_mask _ (Nat.mod_lt _ (by decide))]
      exact congrArg _ (decide_eq_decide.mpr ⟨fun hmod => by omega, fun heq => by rw [heq]⟩)
    · have hne : b ≠ a := fun heq => hdiv (by rw [heq])
      rw [if_neg hdiv, decide_eq_false hne, Bool.or_false]
  · rw [if_neg hb, if_neg hb, decide_eq_false (by omega), Bool.or_false]

theorem member_addCharacter (hvalid : validCode a = true)
    (hc : ∀ t, c.otherSets = some t → t.Sound) :
    (∀ b, (c.addCharacter a).member b = (c.member b || decide (b = a))) ∧
      (c.addCharacter a).isEmpty = false ∧
        ∀ t, (c.addCharacter a).otherSets = some t → t.Sound := by
  rw [CharacterSet.addCharacter]
  rcases div_64_cases a with ⟨hlt, hj⟩ | ⟨hle, hlt, hj⟩ | ⟨hle, hlt, hj⟩ | ⟨hle, hlt, hj⟩ |
    ⟨hle, hj⟩
  · rw [if_pos hlt]
    refine ⟨member_of_low (by omega) rfl rfl fun j => ?_, rfl, hc⟩
    rw [hj, Nat.mod_eq_of_lt hlt]
    match j with
    | 0 | 1 | 2 | j + 3 => first | rfl | exact (if_neg (by omega)).symm
  · rw [if_neg (by omega), if_pos hlt]
    refine ⟨member_of_low (by omega) rfl rfl fun j => ?_, rfl, hc⟩
    rw [hj]
    match j with
    | 0 | 1 | 2 | j + 3 => first | rfl | exact (if_neg (by omega)).symm
  · rw [if_neg (by omega), if_neg (by omega), if_pos hlt]
    refine ⟨member_of_low (by omega) rfl rfl fun j => ?_, rfl, hc⟩
    rw [hj]
    match j with
    | 0 | 1 | 2 | j + 3 => first | rfl | exact (if_neg (by omega)).symm
  · rw [if_neg (by omega), if_neg (by omega), if_neg (by omega), if_pos hlt]
    refine ⟨member_of_low (by omega) rfl rfl fun j => ?_, rfl, hc⟩
    rw [hj]
    match j with
    | 0 | 1 | 2 => rfl
    | j + 3 => exact (if_pos (by omega)).symm
  · rw [if_neg (by omega), if_neg (by omega), if_neg (by omega), if_neg (by omega)]
    refine ⟨fun b => ?_, rfl, (high_addOther hle hvalid hc a).2⟩
    have hlow : (c.addOther a).low = c.low := by
      rw [addOther]
      cases c.otherSets with
      | none =>
          show (if c.isReverted = true then c else _).low = c.low
          split_ifs <;> rfl
      | some t =>
          show (if (c.isReverted && !t.has (a / 64)) = true then c else _).low = c.low
          split_ifs <;> rfl
    show (if b < 256 then ((c.addOther a).low (b / 64)).getLsbD (b % 64)
      else high (c.addOther a).otherSets (c.addOther a).isReverted b) = _
    rw [CharacterSet.member, hlow]
    split_ifs with hb
    · rw [decide_eq_false (by omega), Bool.or_false]
    · exact (high_addOther hle hvalid hc b).1

theorem Represents.addCharacter (hc : Represents c A) (hvalid : validCode a = true) :
    Represents (c.addCharacter a) (insert a A) := by
  obtain ⟨hmember, hempty, hsound⟩ := member_addCharacter hvalid hc.good.sound
  refine ⟨⟨hsound, fun he => absurd (hempty.symm.trans he) Bool.false_ne_true⟩, fun b => ?_⟩
  rw [hmember, Bool.or_eq_true, hc.member, decide_eq_true_eq, Set.mem_insert_iff, or_comm]

theorem Represents.addString (hc : Represents c A) (hs : ∀ a ∈ s, validCode a = true) :
    Represents (c.addString s) (A ∪ {a | a ∈ s}) := by
  induction s generalizing c A with
  | nil => simpa [CharacterSet.addString] using hc
  | cons a s ih =>
      have hfirst := hc.addCharacter (hs a mem_cons_self)
      have hrest := ih hfirst fun b hb => hs b (mem_cons_of_mem a hb)
      have heq : insert a A ∪ {b | b ∈ s} = A ∪ {b | b ∈ a :: s} := by
        ext b
        simp only [Set.mem_union, Set.mem_insert_iff, Set.mem_ofPred_eq, mem_cons]
        tauto
      exact heq ▸ hrest

theorem Represents.addSet (hc : Represents c A) (hd : Represents d B) :
    Represents (c.addSet d) (A ∪ B) := by
  have hmember : ∀ a, (c.addSet d).member a = (c.member a || d.member a) := by
    intro a
    refine (hc.good.member_unite (n := false) hd.good a).trans ?_
    cases hv : validCode a with
    | true => simp
    | false =>
        have hnot : d.member a = false := Bool.eq_false_iff.mpr fun hmem =>
          Bool.false_ne_true (hv.symm.trans (hd.good.validCode_of_member hmem))
        rw [hnot]
        rfl
  refine ⟨⟨hc.good.sound_unite hd.good, fun he a => ?_⟩, fun a => ?_⟩
  · obtain ⟨hce, hde⟩ := Bool.and_eq_true_iff.mp he
    rw [hmember, hc.good.empty hce, hd.good.empty hde]
    rfl
  · rw [hmember, Bool.or_eq_true, hc.member, hd.member, Set.mem_union]

theorem Represents.addNegatedSet (hc : Represents c A) (hd : Represents d B) :
    Represents (c.addNegatedSet d) (A ∪ {a | validCode a = true ∧ a ∉ B}) := by
  have hunite : ∀ a, (unite true c d).member a = (c.member a || (validCode a && !d.member a)) := by
    intro a
    rw [hc.good.member_unite hd.good, Bool.bne_true]
  have hsound := hc.good.sound_unite (n := true) hd.good
  have hmember : ∀ a, (c.addNegatedSet d).member a =
      (c.member a || (validCode a && !d.member a)) := by
    intro a
    rw [CharacterSet.addNegatedSet]
    split_ifs
    · exact hunite a
    · exact hunite a
  refine ⟨⟨?_, fun he a => ?_⟩, fun a => ?_⟩
  · rw [CharacterSet.addNegatedSet]
    split_ifs
    · exact hsound
    · exact hsound
  · rw [CharacterSet.addNegatedSet] at he ⊢
    split_ifs at he ⊢ with hce
    · exact member_of_noCharacter hsound he a
    · exact absurd ((isEmpty_unite true c d).symm.trans he) hce
  · rw [hmember, Bool.or_eq_true, Bool.and_eq_true, Bool.not_eq_true', ← Bool.not_eq_true,
      hc.member,
      hd.member]
    rfl

theorem isNegated_addCharacter (c : CharacterSet) (a : Nat) :
    (c.addCharacter a).isNegated = c.isNegated := by
  have hother : (c.addOther a).isNegated = c.isNegated := by
    rw [addOther]
    split
    · split_ifs <;> rfl
    · split_ifs <;> rfl
  rw [CharacterSet.addCharacter]
  split_ifs
  · rfl
  · rfl
  · rfl
  · rfl
  · exact hother

theorem isNegated_addString (c : CharacterSet) (s : List Nat) :
    (c.addString s).isNegated = c.isNegated := by
  induction s generalizing c with
  | nil => rfl
  | cons a s ih => exact (ih (c.addCharacter a)).trans (isNegated_addCharacter c a)

theorem isNegated_unite (n : Bool) (c d : CharacterSet) :
    (unite n c d).isNegated = c.isNegated := by
  have hothers : ∀ (r : Bool) (c : CharacterSet) others,
      (uniteOthers n r c others).isNegated = c.isNegated := by
    intro r c others
    rw [uniteOthers]
    split
    · split_ifs <;> rfl
    · split_ifs <;> rfl
    · rfl
  rw [unite]
  split
  · split_ifs <;> rfl
  · split_ifs <;> rfl
  · rw [hothers]

theorem isNegated_addNegatedSet (c d : CharacterSet) :
    (c.addNegatedSet d).isNegated = c.isNegated := by
  rw [CharacterSet.addNegatedSet]
  split_ifs
  · exact isNegated_unite true c d
  · exact isNegated_unite true c d

end CharacterSet

namespace CharacterSets

/-- A call; the sets have numbers. -/
inductive Call
  | make (s : List Nat)
  | addCharacter (i a : Nat)
  | addString (i : Nat) (s : List Nat)
  | addSet (i j : Nat)
  | addNegatedSet (i j : Nat)
  | setNegated (i : Nat) (b : Bool)
  | wipeOut (i : Nat)

/-- The set that a call changes. -/
def Call.target : Call → Option Nat
  | .make _ => none
  | .addCharacter i _ | .addString i _ | .addSet i _ | .addNegatedSet i _ | .setNegated i _
  | .wipeOut i => some i

/-- The set `i` gets another value. -/
def change (cs : List CharacterSet) (i : Nat) (f : CharacterSet → CharacterSet) :
    Option (List CharacterSet) := do
  let c ← cs[i]?
  some (cs.set i (f c))

/-- The tables are copied, so that no two sets share one. -/
def exec (cs : List CharacterSet) : Call → Option (List CharacterSet)
  | .make s => some (cs ++ [CharacterSet.makeEmpty.addString s])
  | .addCharacter i a => change cs i fun c => c.addCharacter a
  | .addString i s => change cs i fun c => c.addString s
  | .addSet i j => do
      let other ← cs[j]?
      change cs i fun c => c.addSet other
  | .addNegatedSet i j => do
      let other ← cs[j]?
      change cs i fun c => c.addNegatedSet other
  | .setNegated i b => change cs i fun c => c.setNegated b
  | .wipeOut i => change cs i CharacterSet.wipeOut

/-- The preconditions. -/
def Pre (cs : List CharacterSet) : Call → Prop
  | .make s => ∀ a ∈ s, CharacterSet.validCode a = true
  | .addCharacter i a => i < cs.length ∧ CharacterSet.validCode a = true
  | .addString i s => i < cs.length ∧ ∀ a ∈ s, CharacterSet.validCode a = true
  | .addSet i j | .addNegatedSet i j => i < cs.length ∧ j < cs.length
  | .setNegated i _ | .wipeOut i => i < cs.length

instance (cs : List CharacterSet) (c : Call) : Decidable (Pre cs c) := by
  cases c <;> unfold Pre <;> infer_instance

/-- Some sets of codes, each with its negated status. -/
abbrev Model : Type := List (Set Nat × Bool)

/-- The set `i` is another set of codes. -/
def Model.change (m : Model) (i : Nat) (f : Set Nat → Set Nat) : Model :=
  m.modify i fun p => (f p.1, p.2)

def Model.codes (m : Model) (j : Nat) : Set Nat := (m[j]?).elim ∅ Prod.fst

/-- What the calls are for. -/
def Model.next (m : Model) : Call → Model
  | .make s => m ++ [({a | a ∈ s}, false)]
  | .addCharacter i a => m.change i fun A => insert a A
  | .addString i s => m.change i fun A => A ∪ {a | a ∈ s}
  | .addSet i j => m.change i fun A => A ∪ m.codes j
  | .addNegatedSet i j =>
      m.change i fun A => A ∪ {a | CharacterSet.validCode a = true ∧ a ∉ m.codes j}
  | .setNegated i b => m.modify i fun p => (p.1, b)
  | .wipeOut i => m.modify i fun _ => (∅, false)

/-- Each set has the codes that the model says. -/
structure Refines (cs : List CharacterSet) (m : Model) : Prop where
  length : cs.length = m.length
  represents : ∀ (i : Nat) c p, cs[i]? = some c → m[i]? = some p →
    c.Represents p.1 ∧ c.isNegated = p.2

variable {cs cs' : List CharacterSet} {m : Model} {i j : Nat} {c : CharacterSet}

/-- One set is changed. -/
theorem Refines.change (hm : Refines cs m) (hi : i < cs.length) {f : CharacterSet → CharacterSet}
    {g : Set Nat × Bool → Set Nat × Bool}
    (hf : ∀ c p, c.Represents p.1 → c.isNegated = p.2 →
      (f c).Represents (g p).1 ∧ (f c).isNegated = (g p).2) :
    ∃ cs', CharacterSets.change cs i f = some cs' ∧ Refines cs' (m.modify i g) := by
  refine ⟨cs.set i (f cs[i]), ?_, ?_, fun j c p hj hp => ?_⟩
  · rw [CharacterSets.change, getElem?_eq_getElem hi]
    rfl
  · rw [length_set, length_modify, hm.length]
  · rw [getElem?_set] at hj
    rw [getElem?_modify] at hp
    obtain ⟨q, hq, rfl⟩ := map_eq_some_iff.mp hp
    split_ifs at hj ⊢ with hij
    · obtain rfl := some.inj hj
      subst hij
      obtain ⟨hrep, hneg⟩ := hm.represents i cs[i] q (getElem?_eq_getElem hi) hq
      exact hf _ q hrep hneg
    · exact hm.represents j c q hj hq

theorem Refines.get (hm : Refines cs m) (hj : j < cs.length) :
    ∃ c, cs[j]? = some c ∧ c.Represents (m.codes j) := by
  have hlt : j < m.length := hm.length ▸ hj
  have hget := getElem?_eq_getElem hlt
  refine ⟨cs[j], getElem?_eq_getElem hj, ?_⟩
  rw [Model.codes, hget]
  exact (hm.represents j cs[j] m[j] (getElem?_eq_getElem hj) hget).1

/-- Each call does what the model says. -/
theorem Refines.step (hm : Refines cs m) (call : Call) (hpre : Pre cs call) :
    ∃ cs', exec cs call = some cs' ∧ Refines cs' (m.next call) := by
  cases call with
  | make s =>
      have hmake : (CharacterSet.makeEmpty.addString s).Represents {a | a ∈ s} := by
        have hs := CharacterSet.represents_makeEmpty.addString hpre
        rwa [Set.empty_union] at hs
      refine ⟨_, rfl, ?_, fun i c p hi hp => ?_⟩
      · rw [Model.next, length_append, length_append, hm.length]
        rfl
      · rcases Nat.lt_or_ge i cs.length with hlt | hge
        · rw [getElem?_append_left hlt] at hi
          rw [Model.next, getElem?_append_left (hm.length ▸ hlt)] at hp
          exact hm.represents i c p hi hp
        · rw [getElem?_append_right hge] at hi
          rw [Model.next, getElem?_append_right (hm.length ▸ hge)] at hp
          obtain rfl := mem_singleton.mp (mem_of_getElem? hi)
          obtain rfl := mem_singleton.mp (mem_of_getElem? hp)
          exact ⟨hmake, CharacterSet.isNegated_addString _ s⟩
  | addCharacter i a =>
      exact hm.change hpre.1 fun c p hrep hneg =>
        ⟨hrep.addCharacter hpre.2, (CharacterSet.isNegated_addCharacter c a).trans hneg⟩
  | addString i s =>
      exact hm.change hpre.1 fun c p hrep hneg =>
        ⟨hrep.addString hpre.2, (CharacterSet.isNegated_addString c s).trans hneg⟩
  | addSet i j =>
      obtain ⟨other, hj, hother⟩ := hm.get hpre.2
      rw [exec, hj]
      exact hm.change hpre.1 fun c p hrep hneg =>
        ⟨hrep.addSet hother, (CharacterSet.isNegated_unite false c other).trans hneg⟩
  | addNegatedSet i j =>
      obtain ⟨other, hj, hother⟩ := hm.get hpre.2
      rw [exec, hj]
      exact hm.change hpre.1 fun c p hrep hneg =>
        ⟨hrep.addNegatedSet hother, (CharacterSet.isNegated_addNegatedSet c other).trans hneg⟩
  | setNegated i b =>
      exact hm.change hpre fun c p hrep _ => ⟨hrep.setNegated b, rfl⟩
  | wipeOut i =>
      exact hm.change hpre fun c p _ _ => ⟨CharacterSet.represents_wipeOut c, rfl⟩

/-- A call changes only its target. -/
theorem exec_frame {call : Call} (hexec : exec cs call = some cs') (hj : j < cs.length)
    (hne : call.target ≠ some j) : cs'[j]? = cs[j]? := by
  have hchange : ∀ {i f}, CharacterSets.change cs i f = some cs' → i ≠ j → cs'[j]? = cs[j]? := by
    intro i f hrun hij
    obtain ⟨c, -, hc⟩ := bind_eq_some_iff.mp hrun
    obtain rfl := some.inj hc
    exact getElem?_set_ne hij
  have htarget : ∀ {i}, some i ≠ some j → i ≠ j := fun hij heq => hij (congrArg some heq)
  cases call with
  | make s =>
      obtain rfl := some.inj hexec
      exact getElem?_append_left hj
  | addCharacter i a => exact hchange hexec (htarget hne)
  | addString i s => exact hchange hexec (htarget hne)
  | addSet i k =>
      obtain ⟨other, -, hrun⟩ := bind_eq_some_iff.mp hexec
      exact hchange hrun (htarget hne)
  | addNegatedSet i k =>
      obtain ⟨other, -, hrun⟩ := bind_eq_some_iff.mp hexec
      exact hchange hrun (htarget hne)
  | setNegated i b => exact hchange hexec (htarget hne)
  | wipeOut i => exact hchange hexec (htarget hne)

/-- Every run makes the sets of codes that the calls are for, and each of its calls leaves the
other sets as they are. -/
theorem runAll_makes_sets {calls : List Call} (hcalls : Permitted exec Pre [] calls) :
    ∃ cs, runAll exec [] calls = some cs ∧ cs.length = (calls.foldl Model.next []).length ∧
      (∀ (i : Nat) c p, cs[i]? = some c → (calls.foldl Model.next [])[i]? = some p →
        (∀ a, c.added a = true ↔ a ∈ p.1) ∧ (∀ a ∈ p.1, CharacterSet.validCode a = true) ∧
        (∀ a, c.has a = (CharacterSet.validCode a && (c.added a != c.isNegated))) ∧
        c.isNegated = p.2 ∧ ∀ a, c.added a = true → c.isEmpty = false) ∧
      ∀ call, Pre cs call → ∃ cs', exec cs call = some cs' ∧
        ∀ j < cs.length, call.target ≠ some j → cs'[j]? = cs[j]? := by
  have hinitial : Refines [] [] := ⟨rfl, fun i c p hi => by simp at hi⟩
  obtain ⟨cs, hrun, hm⟩ := run_simulates Refines Model.next
    (fun cs m call hm hpre => hm.step call hpre) hinitial hcalls
  refine ⟨cs, hrun, hm.length, fun i c p hi hp => ?_, fun call hpre => ?_⟩
  · obtain ⟨hrep, hneg⟩ := hm.represents i c p hi hp
    refine ⟨hrep.added_iff, fun a ha => hrep.good.validCode_of_member ((hrep.member a).mpr ha),
      hrep.good.has_eq, hneg, fun a ha => ?_⟩
    cases he : c.isEmpty with
    | false => rfl
    | true =>
        rw [hrep.good.added_eq_member, hrep.good.empty he] at ha
        exact ha.symm
  · obtain ⟨cs', hexec, -⟩ := hm.step call hpre
    exact ⟨cs', hexec, fun j hj hne => exec_frame hexec hj hne⟩

theorem run_three_sets :
    ∃ cs, runAll exec [] [.make [97], .make [955, 97], .addNegatedSet 0 1, .addSet 0 0,
        .setNegated 1 true] = some cs ∧
      ∀ (i : Nat) c p, cs[i]? = some c → (([.make [97], .make [955, 97], .addNegatedSet 0 1,
        .addSet 0 0, .setNegated 1 true] : List Call).foldl Model.next [])[i]? = some p →
          ∀ a, c.added a = true ↔ a ∈ p.1 := by
  have hcalls : Permitted exec Pre [] [.make [97], .make [955, 97], .addNegatedSet 0 1, .addSet 0 0,
      .setNegated 1 true] := by decide +kernel
  obtain ⟨cs, hrun, -, hsets, -⟩ := runAll_makes_sets hcalls
  exact ⟨cs, hrun, fun i c p hi hp => (hsets i c p hi hp).1⟩

end CharacterSets

end Gobo
