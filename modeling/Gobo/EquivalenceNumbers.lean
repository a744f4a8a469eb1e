/-
The numbers of the classes of symbols, once the classes have been built, and sequences of
calls before that.
-/
import Gobo.EquivalencePartition
import Gobo.SymbolClassRuns
import Mathlib.Data.Nat.Find

namespace Gobo

open Option List

namespace EquivalenceClasses

variable {e e' : EquivalenceClasses} {R : Nat → Nat → Prop} {xs ys : List Nat} {a b i x y : Nat}

/-- How many symbols below `i` have no symbol at their left. -/
def leaders (e : EquivalenceClasses) (i : Nat) : Nat :=
  (range' e.lower (i - e.lower)).countP fun a => (e.left a).isNone

theorem leaders_succ (hi : e.lower ≤ i) :
    e.leaders (i + 1) = e.leaders i + if e.left i = none then 1 else 0 := by
  have hstep : i + 1 - e.lower = i - e.lower + 1 := Nat.succ_sub hi
  rw [leaders, hstep, range'_concat, countP_append, Nat.one_mul, Nat.add_sub_cancel' hi,
    countP_singleton]
  cases e.left i <;> rfl

theorem leaders_mono {j : Nat} (hij : i ≤ j) : e.leaders i ≤ e.leaders j := by
  induction hij with
  | refl => exact Nat.le_refl _
  | @step j _ ih =>
      refine ih.trans ?_
      rcases Nat.lt_or_ge j e.lower with hlt | hge
      · have hzero : ∀ k, k ≤ e.lower → e.leaders k = 0 := fun k hk => by
          rw [leaders, Nat.sub_eq_zero_of_le hk]
          rfl
        rw [hzero j hlt.le, hzero (j + 1) hlt]
      · rw [leaders_succ hge]
        exact Nat.le_add_right _ _

theorem leaders_lt (hx : e.lower ≤ x) (hleft : e.left x = none) (hxy : x < y) :
    e.leaders x < e.leaders y := by
  have hsucc := leaders_succ hx
  rw [if_pos hleft] at hsucc
  exact (Nat.lt_succ_self _).trans_le (hsucc.symm.trans_le (leaders_mono hxy))

/-- Each number is the one of a symbol without a symbol at its left. -/
theorem exists_leader {n k : Nat} (hn : n < e.leaders k) :
    ∃ x, e.lower ≤ x ∧ x < k ∧ e.left x = none ∧ e.leaders x = n := by
  induction k with
  | zero =>
      rw [leaders, Nat.zero_sub] at hn
      exact absurd hn (Nat.not_lt_zero n)
  | succ k ih =>
      rcases Nat.lt_or_ge n (e.leaders k) with hlt | hge
      · obtain ⟨x, hx, hxk, hrest⟩ := ih hlt
        exact ⟨x, hx, Nat.lt_succ_of_lt hxk, hrest⟩
      · have hk : e.lower ≤ k := by
          refine Nat.le_of_not_lt fun hlt => ?_
          rw [leaders, Nat.sub_eq_zero_of_le hlt] at hn
          exact Nat.not_lt_zero n hn
        rw [leaders_succ hk] at hn
        split_ifs at hn with hleft
        · exact ⟨k, hk, Nat.lt_succ_self k, hleft, by omega⟩
        · omega

theorem Lists.head_le (h : Lists R e a xs) (hx : x ∈ xs.head?) (hb : b ∈ xs) : x ≤ b := by
  obtain ⟨zs, rfl⟩ := head?_eq_some_iff.mp hx
  rcases mem_cons.mp hb with rfl | hb
  · exact Nat.le_refl b
  · exact ((pairwise_cons.mp h.sorted).1 b hb).le

/-- The least symbol of a class. -/
theorem Holds.exists_head (he : Holds R e) (ha : e.ValidSymbol a) :
    ∃ x xs, Lists R e a xs ∧ x ∈ xs.head? ∧ e.ValidSymbol x ∧ R a x ∧ e.left x = none := by
  obtain ⟨xs, hxs⟩ := he.lists a ha
  have hmem : a ∈ xs := (hxs.mem a).mpr ⟨ha, he.equivalence.refl a⟩
  obtain ⟨x, hx⟩ := ne_none_iff_exists'.mp
    (mt head?_eq_none_iff.mp (ne_nil_of_mem hmem))
  obtain ⟨hvalid, hax⟩ := (hxs.mem x).mp (mem_of_head? hx)
  exact ⟨x, xs, hxs, hx, hvalid, hax, hxs.chain.first x hx⟩

theorem Holds.head_eq (he : Holds R e) (hxs : Lists R e a xs) (hys : Lists R e b ys)
    (hx : x ∈ xs.head?) (hy : y ∈ ys.head?) (hab : R a b) : x = y := by
  have hxmem := (hxs.mem x).mp (mem_of_head? hx)
  have hymem := (hys.mem y).mp (mem_of_head? hy)
  refine Nat.le_antisymm (hxs.head_le hx ?_) (hys.head_le hy ?_)
  · exact (hxs.mem y).mpr ⟨hymem.1, he.equivalence.trans hab hymem.2⟩
  · exact (hys.mem x).mpr ⟨hxmem.1, he.equivalence.trans (he.equivalence.symm hab) hxmem.2⟩

/-- A symbol without a symbol at its left is the least one of its class. -/
theorem Holds.leader (he : Holds R e) (hi : e.ValidSymbol i) (hleft : e.left i = none) :
    ∃ after, Lists R e i (i :: after) := by
  obtain ⟨before, after, hxs⟩ := he.around hi
  have hbefore : before = [] := by
    cases hlast : before.getLast? with
    | none => exact getLast?_eq_none_iff.mp hlast
    | some a =>
        have hlink := (Bilinked.append_iff.mp hxs.chain.linked).2.2 a hlast i rfl
        exact nomatch hleft.symm.trans hlink.2
  rw [hbefore, nil_append] at hxs
  exact ⟨after, hxs⟩

/-- The classes whose least symbols are below `i` have their numbers, `j` is the next one. -/
structure Numbering (R : Nat → Nat → Prop) (e : EquivalenceClasses) (i : Nat)
    (m : EquivalenceClasses) (j : Nat) : Prop where
  same : m = { e with item := m.item }
  next : j = e.lower + e.leaders i
  item : ∀ a xs, e.ValidSymbol a → Lists R e a xs → ∀ x ∈ xs.head?, x < i →
    m.item a = e.lower + e.leaders x

theorem putItem_item (v k : Nat) :
    (e.putItem v k).item a = if a = k then v else e.item a :=
  Function.update_apply ..

/-- The cells of a chain get the number `j`. -/
theorem number_chain {j : Nat} (m : EquivalenceClasses) (hchain : Chain m.right xs.head? xs)
    (hfuel : xs.length ≤ k) :
    ∃ m', forCells EquivalenceClasses.right (fun r e => some (e.putItem j r)) k xs.head? m =
      some m' ∧ m' = { m with item := m'.item } ∧
        ∀ a, m'.item a = if a ∈ xs then j else m.item a := by
  refine forCells_spec (fun done (m' : EquivalenceClasses) => m' = { m with item := m'.item } ∧
    ∀ a, m'.item a = if a ∈ done then j else m.item a) ?_ hfuel ⟨rfl, fun a => ?_⟩
  · rintro done x rest s rfl ⟨hsame, hitem⟩
    refine ⟨_, rfl, ?_, ?_, fun a => ?_⟩
    · rw [putItem, hsame]
      exact hchain.suffix.head?_eq.symm
    · rw [hsame]
      rfl
    · rw [putItem_item, hitem]
      by_cases hax : a = x
      · rw [if_pos hax, if_pos (hax ▸ mem_append_right _ mem_cons_self)]
      · rw [if_neg hax]
        exact if_congr (by simp [hax]) rfl rfl
  · rw [if_neg not_mem_nil]

/-- A symbol is looked at. -/
theorem Numbering.turn {e₁ : EquivalenceClasses} {j : Nat} (he : Holds R e)
    (hm : Numbering R e i e₁ j) (hi : e.ValidSymbol i) :
    ∃ m', buildTurn i (e₁, j) = some m' ∧ Numbering R e (i + 1) m'.1 m'.2 := by
  obtain ⟨hsame, hnext, hitem⟩ := hm
  have hcell : e₁.cell i = some i := by
    rw [hsame]
    exact cell_eq hi
  have hleft : e₁.left i = e.left i := by rw [hsame]
  have hright : e₁.right = e.right := by rw [hsame]
  have hupper : e₁.upper = e.upper := by rw [hsame]
  rw [buildTurn, hcell, some_bind, hleft]
  split_ifs with hnone
  · obtain ⟨after, hxs⟩ := he.leader hi hnone
    have hchain : Chain e.right after.head? after := by
      have hrest := hxs.chain.chain.2
      rwa [← hrest.head?_eq] at hrest
    have hfuel : after.length ≤ e.upper + 1 := by
      have hsub : after ⊆ range (e.upper + 1) := fun a ha =>
        mem_range.mpr (Nat.lt_succ_of_le ((hxs.mem a).mp (mem_cons_of_mem i ha)).1.2)
      have hnodup := (nodup_cons.mp hxs.chain.nodup).2
      exact (hnodup.subperm hsub).length_le.trans (by rw [length_range])
    obtain ⟨e', hrun, hsame', hitem'⟩ := number_chain (j := j) (e₁.putItem j i)
      (show Chain e₁.right after.head? after from hright ▸ hchain) hfuel
    have hhead : e₁.right i = after.head? := by
      rw [hright]
      exact hxs.chain.chain.2.head?_eq.symm
    refine ⟨(e', j + 1), ?_, ?_, ?_, ?_⟩
    · rw [hhead, hupper, hrun]
      rfl
    · rw [hsame', hsame]
      rfl
    · rw [leaders_succ hi.1, if_pos hnone, hnext, Nat.add_assoc]
    · intro a ys ha hys x hx hlt
      have hall : ∀ a, e'.item a = if a ∈ i :: after then j else e₁.item a := fun a => by
        rw [hitem', putItem_item]
        by_cases hai : a = i
        · rw [if_pos hai, ite_self, if_pos (hai ▸ mem_cons_self)]
        · rw [if_neg hai]
          exact if_congr (by simp [hai]) rfl rfl
      rw [hall]
      rcases Nat.lt_succ_iff_lt_or_eq.mp hlt with hlt | rfl
      · rw [if_neg, hitem a ys ha hys x hx hlt]
        intro hmem
        exact Nat.ne_of_gt hlt (he.head_eq hxs hys rfl hx ((hxs.mem a).mp hmem).2)
      · have hax := ((hys.mem x).mp (mem_of_head? hx)).2
        rw [if_pos ((hxs.mem a).mpr ⟨ha, he.equivalence.symm hax⟩), hnext]
  · refine ⟨_, rfl, hsame, ?_, fun a ys ha hys x hx hlt => ?_⟩
    · rw [leaders_succ hi.1, if_neg hnone]
      exact hnext
    · refine hitem a ys ha hys x hx (Nat.lt_of_le_of_ne (Nat.le_of_lt_succ hlt) ?_)
      rintro rfl
      exact hnone (hys.chain.first x hx)

/-- The numbers of the classes of `R`: the next one for each class, in the order of their least
symbols. -/
structure Numbered (R : Nat → Nat → Prop) (e : EquivalenceClasses) : Prop where
  same : ∀ a b, e.ValidSymbol a → e.ValidSymbol b →
    (e.equivalenceClass a = e.equivalenceClass b ↔ R a b)
  increasing : ∀ a b x y, e.ValidSymbol a → e.ValidSymbol b →
    IsLeast {c | e.ValidSymbol c ∧ R a c} x → IsLeast {c | e.ValidSymbol c ∧ R b c} y → x < y →
      ∃ m n, e.equivalenceClass a = some m ∧ e.equivalenceClass b = some n ∧ m < n
  consecutive : ∀ n : Nat, (∃ a, e.ValidSymbol a ∧ e.equivalenceClass a = some n) ↔
    e.lower ≤ n ∧ (n : Int) ≤ e.newUpper
  lists : ∀ a, e.ValidSymbol a → ∃ xs, Lists R e a xs

/-- The classes are numbered when each symbol has been looked at. -/
theorem Numbering.numbered {e₁ : EquivalenceClasses} {j : Nat} (he : Holds R e)
    (hm : Numbering R e (e.upper + 1) e₁ j) :
    built { e₁ with newUpper := (j : Int) - 1 } ∧
      Numbered R { e₁ with newUpper := (j : Int) - 1 } := by
  obtain ⟨hsame, hnext, hitem⟩ := hm
  have hnumber : ∀ a, e.ValidSymbol a → ∃ x xs, Lists R e a xs ∧ x ∈ xs.head? ∧
      e.ValidSymbol x ∧ R a x ∧ e.left x = none ∧ e₁.item a = e.lower + e.leaders x := by
    intro a ha
    obtain ⟨x, xs, hxs, hx, hvalid, hax, hleft⟩ := he.exists_head ha
    exact ⟨x, xs, hxs, hx, hvalid, hax, hleft,
      hitem a xs ha hxs x hx (Nat.lt_succ_of_le hvalid.2)⟩
  have hclass : ∀ a, e.ValidSymbol a →
      equivalenceClass { e₁ with newUpper := (j : Int) - 1 } a = some (e₁.item a) := by
    intro a ha
    rw [hsame]
    exact congrArg (Option.map _) (cell_eq ha)
  have hlower : e₁.lower = e.lower := by rw [hsame]
  have hupper : e₁.upper = e.upper := by rw [hsame]
  have hvalid : ∀ a, ValidSymbol { e₁ with newUpper := (j : Int) - 1 } a ↔ e.ValidSymbol a := by
    intro a
    rw [ValidSymbol, ValidSymbol, hlower, hupper]
  have hleast : ∀ a x, e.ValidSymbol a →
      IsLeast {c | ValidSymbol { e₁ with newUpper := (j : Int) - 1 } c ∧ R a c} x →
        e₁.item a = e.lower + e.leaders x ∧ e.ValidSymbol x ∧ e.left x = none := by
    rintro a x ha ⟨⟨hx, hax⟩, hmin⟩
    obtain ⟨y, ys, hys, hy, hyvalid, hay, hleft, hnum⟩ := hnumber a ha
    have hxy : x = y := Nat.le_antisymm (hmin ⟨(hvalid y).mpr hyvalid, hay⟩)
      (hys.head_le hy ((hys.mem x).mpr ⟨(hvalid x).mp hx, hax⟩))
    exact hxy ▸ ⟨hnum, hyvalid, hleft⟩
  refine ⟨?_, fun a b ha hb => ?_, fun a b x y ha hb hx hy hxy => ?_, fun n => ⟨?_, ?_⟩,
    fun a ha => ?_⟩
  · have hpos : e.leaders e.lower < e.leaders (e.upper + 1) := by
      obtain ⟨x, -, -, -, hx, -, hleft, -⟩ := hnumber e.lower ⟨Nat.le_refl _, he.lower_le⟩
      exact (leaders_mono hx.1).trans_lt (leaders_lt hx.1 hleft (Nat.lt_succ_of_le hx.2))
    show ((e₁.lower : Nat) : Int) ≤ (j : Int) - 1
    omega
  · rw [hvalid] at ha hb
    rw [hclass a ha, hclass b hb, Option.some_inj]
    obtain ⟨x, xs, hxs, hx, hxvalid, hax, hxleft, hxnum⟩ := hnumber a ha
    obtain ⟨y, ys, hys, hy, hyvalid, hby, hyleft, hynum⟩ := hnumber b hb
    constructor
    · intro heq
      have hcount : e.leaders x = e.leaders y :=
        Nat.add_left_cancel (hxnum.symm.trans (heq.trans hynum))
      rcases Nat.lt_trichotomy x y with hlt | rfl | hgt
      · exact absurd hcount (Nat.ne_of_lt (leaders_lt hxvalid.1 hxleft hlt))
      · exact he.equivalence.trans hax (he.equivalence.symm hby)
      · exact absurd hcount (Nat.ne_of_gt (leaders_lt hyvalid.1 hyleft hgt))
    · intro hab
      rw [hxnum, hynum, he.head_eq hxs hys hx hy hab]
  · rw [hvalid] at ha hb
    obtain ⟨hxnum, hxvalid, hxleft⟩ := hleast a x ha hx
    obtain ⟨hynum, -, -⟩ := hleast b y hb hy
    refine ⟨_, _, hclass a ha, hclass b hb, ?_⟩
    rw [hxnum, hynum]
    exact Nat.add_lt_add_left (leaders_lt hxvalid.1 hxleft hxy) _
  · rintro ⟨a, ha, hn⟩
    rw [hvalid] at ha
    obtain ⟨x, -, -, -, hx, -, hleft, hnum⟩ := hnumber a ha
    have hlt : e.leaders x < e.leaders (e.upper + 1) :=
      leaders_lt hx.1 hleft (Nat.lt_succ_of_le hx.2)
    obtain rfl : e₁.item a = n := Option.some.inj ((hclass a ha).symm.trans hn)
    show e₁.lower ≤ e₁.item a ∧ ((e₁.item a : Nat) : Int) ≤ (j : Int) - 1
    omega
  · rintro ⟨hle, hle'⟩
    change e₁.lower ≤ n at hle
    change (n : Int) ≤ (j : Int) - 1 at hle'
    obtain ⟨x, hx, hlt, hleft, hcount⟩ := exists_leader (e := e) (n := n - e.lower)
      (k := e.upper + 1) (by omega)
    have hxvalid : e.ValidSymbol x := ⟨hx, Nat.le_of_lt_succ hlt⟩
    obtain ⟨after, hxs⟩ := he.leader hxvalid hleft
    refine ⟨x, (hvalid x).mpr hxvalid, ?_⟩
    rw [hclass x hxvalid, hitem x _ hxvalid hxs x rfl hlt, hcount]
    exact congrArg some (by omega)
  · rw [hvalid] at ha
    obtain ⟨xs, hxs⟩ := he.lists a ha
    refine ⟨xs, hxs.congr hlower hupper (fun b _ => ?_) (fun b _ => ?_) fun b => Iff.rfl⟩
    · show e₁.right b = e.right b
      rw [hsame]
    · show e₁.left b = e.left b
      rw [hsame]

theorem Holds.build_eq (he : Holds R e) :
    ∃ e', e.build = some e' ∧ e'.lower = e.lower ∧ e'.upper = e.upper ∧ e'.built ∧
      Numbered R e' := by
  obtain ⟨⟨e₁, j⟩, hrun, hm⟩ : ∃ m : EquivalenceClasses × Nat,
      forUp buildTurn (e.upper + 1 - e.lower) e.lower (e, e.lower) = some m ∧
        Numbering R e (e.lower + (e.upper + 1 - e.lower)) m.1 m.2 := by
    refine forUp_spec (fun i (m : EquivalenceClasses × Nat) => Numbering R e i m.1 m.2)
      (fun i m hi hlt hm => hm.turn he ⟨hi, by omega⟩) ⟨rfl, ?_, fun a xs ha hxs x hx hlt => ?_⟩
    · rw [leaders, Nat.sub_self]
      rfl
    · exact absurd ((hxs.mem x).mp (mem_of_head? hx)).1.1 (Nat.not_le_of_lt hlt)
  have hend : e.lower + (e.upper + 1 - e.lower) = e.upper + 1 := by
    have := he.lower_le
    omega
  rw [hend] at hm
  have hsame : e₁ = { e with item := e₁.item } := hm.same
  have hlower : e₁.lower = e.lower := by rw [hsame]
  have hupper : e₁.upper = e.upper := by rw [hsame]
  exact ⟨{ e₁ with newUpper := (j : Int) - 1 }, by rw [build, hrun]; rfl, hlower, hupper,
    hm.numbered he⟩

/-- The representatives are the least symbols of their classes. -/
theorem Numbered.representative_iff (hn : Numbered R e) : e.isRepresentative a = some true ↔
    e.ValidSymbol a ∧
      ∀ b, e.ValidSymbol b → e.equivalenceClass b = e.equivalenceClass a → a ≤ b := by
  by_cases ha : e.ValidSymbol a
  · obtain ⟨xs, hxs⟩ := hn.lists a ha
    obtain ⟨before, after, rfl⟩ :=
      append_of_mem ((hxs.mem a).mpr ⟨ha, (hn.same a a ha ha).mp rfl⟩)
    have hleft : e.isRepresentative a = some true ↔ before = [] := by
      rw [isRepresentative, cell_eq ha, map_some, some.injEq, isNone_iff_eq_none]
      cases hlast : before.getLast? with
      | none =>
          obtain rfl := getLast?_eq_none_iff.mp hlast
          exact iff_of_true (hxs.chain.first a rfl) rfl
      | some b =>
          have hlink := (Bilinked.append_iff.mp hxs.chain.linked).2.2 b hlast a rfl
          refine iff_of_false (fun hnone => nomatch hnone.symm.trans hlink.2) fun hnil => ?_
          rw [hnil] at hlast
          exact nomatch hlast
    rw [hleft, and_iff_right ha]
    constructor
    · rintro rfl b hb hclass
      exact hxs.head_le rfl ((hxs.mem b).mpr ⟨hb, (hn.same a b ha hb).mp hclass.symm⟩)
    · intro hleast
      refine eq_nil_iff_forall_not_mem.mpr fun b hb => ?_
      obtain ⟨hvalid, hR⟩ := (hxs.mem b).mp (mem_append_left _ hb)
      have hlt := (pairwise_append.mp hxs.sorted).2.2 b hb a mem_cons_self
      exact Nat.not_le_of_lt hlt (hleast b hvalid ((hn.same a b ha hvalid).mpr hR).symm)
  · refine iff_of_false (fun heq => ?_) fun hand => ha hand.1
    rw [isRepresentative, show e.cell a = none from if_neg ha] at heq
    exact nomatch heq

theorem Numbered.exists_representative (hn : Numbered R e) (ha : e.ValidSymbol a) :
    ∃ r, e.isRepresentative r = some true ∧ e.equivalenceClass r = e.equivalenceClass a ∧
      r ≤ a := by
  classical
  have hex : ∃ r, e.ValidSymbol r ∧ e.equivalenceClass r = e.equivalenceClass a := ⟨a, ha, rfl⟩
  obtain ⟨hvalid, hclass⟩ := Nat.find_spec hex
  refine ⟨Nat.find hex, hn.representative_iff.mpr ⟨hvalid, fun b hb hbr => ?_⟩, hclass,
    Nat.find_min' hex ⟨ha, rfl⟩⟩
  exact Nat.find_min' hex ⟨hb, hbr.trans hclass⟩

theorem Numbered.isLeast (hn : Numbered R e) (ha : e.ValidSymbol a)
    (hx : e.isRepresentative x = some true) (hxa : e.equivalenceClass x = e.equivalenceClass a) :
    IsLeast {c | e.ValidSymbol c ∧ R a c} x := by
  obtain ⟨hvalid, hmin⟩ := hn.representative_iff.mp hx
  refine ⟨⟨hvalid, (hn.same a x ha hvalid).mp hxa.symm⟩, ?_⟩
  rintro c ⟨hc, hac⟩
  exact hmin c hc (((hn.same a c ha hc).mpr hac).symm.trans hxa.symm)

/-- The number of a class is not greater than its symbols. -/
theorem Numbered.class_le (hn : Numbered R e) {n : Nat} (ha : e.ValidSymbol a)
    (hclass : e.equivalenceClass a = some n) : n ≤ a := by
  induction n generalizing a with
  | zero => exact Nat.zero_le a
  | succ m ih =>
      obtain ⟨hlower, hupper⟩ := (hn.consecutive (m + 1)).mp ⟨a, ha, hclass⟩
      rcases Nat.lt_or_ge m e.lower with hlt | hge
      · exact (Nat.succ_le_of_lt hlt).trans ha.1
      · obtain ⟨b, hb, hbclass⟩ := (hn.consecutive m).mpr ⟨hge, by omega⟩
        obtain ⟨x, hx, hxa, hle⟩ := hn.exists_representative ha
        obtain ⟨y, hy, hyb, -⟩ := hn.exists_representative hb
        have hyvalid := (hn.representative_iff.mp hy).1
        have hym := ih hyvalid (hyb.trans hbclass)
        rcases Nat.lt_trichotomy x y with hxy | rfl | hxy
        · obtain ⟨k, l, hk, hl, hkl⟩ := hn.increasing a b x y ha hb (hn.isLeast ha hx hxa)
            (hn.isLeast hb hy hyb) hxy
          obtain rfl := some.inj (hclass.symm.trans hk)
          obtain rfl := some.inj (hbclass.symm.trans hl)
          omega
        · have heq := some.inj ((hxa.trans hclass).symm.trans (hyb.trans hbclass))
          omega
        · omega

/-- If the numbers of the classes with lesser symbols agree, then the number of a class is not
less in one of two numberings of the same relation. -/
theorem Numbered.not_class_lt {e' : EquivalenceClasses} (hn : Numbered R e) (hn' : Numbered R e')
    (hlower : e'.lower = e.lower) (hupper : e'.upper = e.upper) (ha : e.ValidSymbol a)
    (hx : IsLeast {c | e.ValidSymbol c ∧ R a c} x)
    (hless : ∀ b y, e.ValidSymbol b → IsLeast {c | e.ValidSymbol c ∧ R b c} y → y < x →
      e'.equivalenceClass b = e.equivalenceClass b)
    {m n : Nat} (hm : e.equivalenceClass a = some m) (hm' : e'.equivalenceClass a = some n) :
    ¬m < n := by
  intro hlt
  have hvalid : ∀ c, e'.ValidSymbol c ↔ e.ValidSymbol c := by
    intro c
    rw [ValidSymbol, ValidSymbol, hlower, hupper]
  have hlow := ((hn.consecutive m).mp ⟨a, ha, hm⟩).1
  have hhigh := ((hn'.consecutive n).mp ⟨a, (hvalid a).mpr ha, hm'⟩).2
  -- The number is then the one of another class in the second numbering.
  obtain ⟨b, hb', hbm⟩ := (hn'.consecutive m).mpr ⟨hlower ▸ hlow, by omega⟩
  have hb := (hvalid b).mp hb'
  obtain ⟨y, hrepresentative, hyb, -⟩ := hn.exists_representative hb
  have hy := hn.isLeast hb hrepresentative hyb
  have hclass : ∀ {c z}, e.ValidSymbol c → IsLeast {d | e.ValidSymbol d ∧ R c d} z →
      e'.equivalenceClass c = e'.equivalenceClass z := by
    intro c z hc hz
    exact (hn'.same c z ((hvalid c).mpr hc) ((hvalid z).mpr hz.1.1)).mpr hz.1.2
  rcases Nat.lt_trichotomy y x with hyx | rfl | hxy
  · have hab := (hn.same b a hb ha).mp ((hless b y hb hy hyx).symm.trans (hbm.trans hm.symm))
    have heq := (hn'.same b a hb' ((hvalid a).mpr ha)).mpr hab
    rw [hbm, hm', some_inj] at heq
    omega
  · have heq := (hclass hb hy).trans (hclass ha hx).symm
    rw [hbm, hm', some_inj] at heq
    omega
  · simp only [← hvalid] at hx hy
    obtain ⟨k, l, hk, hl, hkl⟩ := hn'.increasing a b x y ((hvalid a).mpr ha) hb' hx hy hxy
    obtain rfl := some.inj (hm'.symm.trans hk)
    obtain rfl := some.inj (hbm.symm.trans hl)
    omega

/-- There is one numbering of the classes of a relation. -/
theorem Numbered.class_eq {e' : EquivalenceClasses} (hn : Numbered R e) (hn' : Numbered R e')
    (hlower : e'.lower = e.lower) (hupper : e'.upper = e.upper) (ha : e.ValidSymbol a) :
    e'.equivalenceClass a = e.equivalenceClass a := by
  have hvalid : ∀ c, e'.ValidSymbol c ↔ e.ValidSymbol c := by
    intro c
    rw [ValidSymbol, ValidSymbol, hlower, hupper]
  obtain ⟨x, hrepresentative, hxa, -⟩ := hn.exists_representative ha
  have hx := hn.isLeast ha hrepresentative hxa
  clear hrepresentative hxa
  induction x using Nat.strong_induction_on generalizing a with
  | _ x ih =>
      have hless : ∀ b y, e.ValidSymbol b → IsLeast {c | e.ValidSymbol c ∧ R b c} y → y < x →
          e'.equivalenceClass b = e.equivalenceClass b :=
        fun b y hb hy hyx => ih y hyx hb hy
      obtain ⟨m, hm⟩ : ∃ m, e.equivalenceClass a = some m :=
        ⟨_, congrArg (Option.map _) (cell_eq ha)⟩
      obtain ⟨n, hm'⟩ : ∃ n, e'.equivalenceClass a = some n :=
        ⟨_, congrArg (Option.map _) (cell_eq ((hvalid a).mpr ha))⟩
      have hmn := hn.not_class_lt hn' hlower hupper ha hx hless hm hm'
      have hnm := hn'.not_class_lt hn hlower.symm hupper.symm ((hvalid a).mpr ha)
        (by simpa only [hvalid] using hx)
        (fun b y hb hy hyx =>
          (hless b y ((hvalid b).mp hb) (by simpa only [hvalid] using hy) hyx).symm)
        hm' hm
      rw [hm, hm', Nat.le_antisymm (Nat.le_of_not_lt hmn) (Nat.le_of_not_lt hnm)]

/-- The classes are the same for a relation that agrees on the symbols. -/
theorem Numbered.congr {R' : Nat → Nat → Prop} (hn : Numbered R e)
    (hsame : ∀ a b, e.ValidSymbol a → e.ValidSymbol b → (R a b ↔ R' a b)) : Numbered R' e := by
  have hclass : ∀ a b, e.ValidSymbol a → (e.ValidSymbol b ∧ R a b ↔ e.ValidSymbol b ∧ R' a b) :=
    fun a b ha => and_congr_right fun hb => hsame a b ha hb
  refine ⟨fun a b ha hb => (hn.same a b ha hb).trans (hsame a b ha hb),
    fun a b x y ha hb hx hy hxy => ?_, hn.consecutive, fun a ha => ?_⟩
  · simp only [← hclass _ _ ha] at hx
    simp only [← hclass _ _ hb] at hy
    exact hn.increasing a b x y ha hb hx hy hxy
  · obtain ⟨xs, hchain, hsorted, hmem⟩ := hn.lists a ha
    exact ⟨xs, hchain, hsorted, fun b => (hmem b).trans (hclass a b ha)⟩

/-- The calls before `build`. -/
inductive Call where
  | put (symbol : Nat)
  | add (h : Chunks) (c : SymbolClass)

def exec (e : EquivalenceClasses) : Call → Option EquivalenceClasses
  | .put symbol => e.put symbol
  | .add h c => e.add h c

def execAll (e : EquivalenceClasses) (calls : List Call) : Option EquivalenceClasses :=
  calls.foldlM exec e

/-- The preconditions; the chunks of a class are its own. -/
def Pre (e : EquivalenceClasses) : Call → Prop
  | .put symbol => e.ValidSymbol symbol
  | .add h c => e.ValidSymbolClass c ∧ c.Good h

/-- Whether a symbol has been added to a class, which says nothing about the symbols out of its
bounds. -/
def addedTo (h : Chunks) (c : SymbolClass) (a : Nat) : Bool :=
  decide (c.lower ≤ a ∧ a ≤ c.upper) && c.added h a == some true

/-- Whether a call separates two symbols. -/
def Separates (a b : Nat) : Call → Prop
  | .put symbol => ¬(a = symbol ↔ b = symbol)
  | .add h c => addedTo h c a ≠ addedTo h c b

theorem answers_of_good {h : Chunks} {c : SymbolClass} (hg : c.Good h) :
    Answers h c (addedTo h c) := by
  refine ⟨fun a hle hle' => ?_, fun a ha => ?_⟩
  · rw [addedTo, decide_eq_true ⟨hle, hle'⟩, hg.added_eq hle', Bool.true_and]
    cases !c.isEmpty && c.bit h a <;> rfl
  · exact of_decide_eq_true (Bool.and_eq_true_iff.mp ha).1

/-- A call separates the symbols that it says. -/
theorem Holds.exec_eq (he : Holds R e) (call : Call) (hpre : e.Pre call) :
    ∃ e', e.exec call = some e' ∧ e'.lower = e.lower ∧ e'.upper = e.upper ∧
      Holds (fun a b => R a b ∧ ¬Separates a b call) e' := by
  cases call with
  | put symbol =>
      obtain ⟨e', hrun, hlower, hupper, he'⟩ := he.put_eq hpre
      refine ⟨e', hrun, hlower, hupper, ?_⟩
      simp only [Separates, not_not]
      exact he'
  | add h c =>
      obtain ⟨e', hrun, hlower, hupper, he'⟩ := he.add_eq (answers_of_good hpre.2) hpre.1
      refine ⟨e', hrun, hlower, hupper, ?_⟩
      simpa only [Separates, not_not] using he'

theorem Holds.execAll_eq (he : Holds R e) (calls : List Call)
    (hcalls : ∀ call ∈ calls, e.Pre call) :
    ∃ e', e.execAll calls = some e' ∧ e'.lower = e.lower ∧ e'.upper = e.upper ∧
      Holds (fun a b => R a b ∧ ∀ call ∈ calls, ¬Separates a b call) e' := by
  induction calls generalizing e R with
  | nil => exact ⟨e, rfl, rfl, rfl, by simpa using he⟩
  | cons call calls ih =>
      obtain ⟨e₁, hrun, hlower, hupper, he₁⟩ := he.exec_eq call (hcalls call mem_cons_self)
      have hrest : ∀ call ∈ calls, e₁.Pre call := fun call' hmem => by
        have hpre := hcalls call' (mem_cons_of_mem call hmem)
        cases call' <;>
          simpa only [Pre, ValidSymbol, ValidSymbolClass, hlower, hupper] using hpre
      obtain ⟨e', hrun', hlower', hupper', he'⟩ := ih he₁ hrest
      refine ⟨e', ?_, hlower'.trans hlower, hupper'.trans hupper, ?_⟩
      · rw [execAll, foldlM_cons, hrun]
        exact hrun'
      · simpa only [forall_mem_cons, and_assoc] using he'

end EquivalenceClasses

end Gobo
