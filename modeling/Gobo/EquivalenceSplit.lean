/-
The split of a class of symbols: the members of a symbol class are linked into a chain of
their own, the other ones stay in the old chain.
-/
import Gobo.BilinkedChain
import Gobo.EquivalenceClasses

namespace Gobo

open Option List Function

namespace EquivalenceClasses

variable {h : Chunks} {c : SymbolClass} {f : Nat → Bool} {flags : List Nat} {e : EquivalenceClasses}
  {i k : Nat}

/-- The symbol class has the members `f`. -/
structure Answers (h : Chunks) (c : SymbolClass) (f : Nat → Bool) : Prop where
  added : ∀ a, c.lower ≤ a → a ≤ c.upper → c.added h a = some (f a)
  bounds : ∀ a, f a = true → c.lower ≤ a ∧ a ≤ c.upper

/-- The search of the symbol `i` from `k` on has not passed a member. -/
structure Searching (c : SymbolClass) (f : Nat → Bool) (i k : Nat) (m : MemberSearch) : Prop where
  lower_le : c.lower ≤ m.otherSymbol
  reached : f i = true → m.otherSymbol ≤ i
  next : ∀ a, i < a → f a = true → k ≤ a → m.otherSymbol ≤ a
  going : m.stop = false → m.nextEc = false
  stopped : m.stop = true → m.nextEc = f i ∧ (f i = true → m.otherSymbol = i)

/-- The next symbol is looked at. -/
theorem Searching.forth {m : MemberSearch} (hm : Searching c f i k m) (hstop : m.stop = false)
    (hskip : f m.otherSymbol = true → m.otherSymbol < i) :
    Searching c f i k { m with otherSymbol := m.otherSymbol + 1 } := by
  refine ⟨Nat.le_succ_of_le hm.lower_le, fun hi => ?_, fun a hia hf hk => ?_, hm.going,
    fun htrue => absurd (hstop.symm.trans htrue) Bool.false_ne_true⟩
  · refine Nat.lt_of_le_of_ne (hm.reached hi) fun heq => ?_
    exact Nat.ne_of_lt (hskip (heq ▸ hi)) heq
  · refine Nat.lt_of_le_of_ne (hm.next a hia hf hk) fun heq => ?_
    exact Nat.lt_asymm hia (heq ▸ hskip (heq ▸ hf))

theorem Answers.searchTurn_eq (ha : Answers h c f) (hflags : i ∉ flags) {m : MemberSearch}
    (hm : Searching c f i k m) (hstop : m.stop = false) (hle : m.otherSymbol ≤ c.upper) :
    ∃ m', searchTurn h c flags i m = some m' ∧
      (if m'.stop then 0 else c.upper + 2 - m'.otherSymbol) <
        (if m.stop then 0 else c.upper + 2 - m.otherSymbol) ∧ Searching c f i k m' := by
  obtain ⟨o, stop, ec⟩ := m
  obtain rfl : stop = false := hstop
  have hforth : c.upper + 2 - (o + 1) < c.upper + 2 - o :=
    Nat.sub_lt_sub_left (Nat.lt_succ_of_le (Nat.le_succ_of_le hle)) (Nat.lt_succ_self o)
  have hstops : 0 < c.upper + 2 - o := Nat.zero_lt_of_lt hforth
  rw [searchTurn, ha.added o hm.lower_le hle]
  cases hf : f o with
  | false =>
      exact ⟨_, rfl, hforth, hm.forth rfl fun htrue =>
        absurd (hf.symm.trans htrue) Bool.false_ne_true⟩
  | true =>
      simp only [some_bind, Bool.true_eq_false, if_false]
      rcases Nat.lt_trichotomy i o with hlt | rfl | hgt
      · have hnot : f i = false :=
          Bool.eq_false_iff.mpr fun hi => Nat.not_lt_of_le (hm.reached hi) hlt
        rw [if_pos hlt]
        exact ⟨_, rfl, hstops, hm.lower_le, hm.reached, hm.next, nofun, fun _ =>
          ⟨(hm.going rfl).trans hnot.symm, fun hi => absurd hlt (Nat.not_lt_of_le (hm.reached hi))⟩⟩
      · rw [if_neg (Nat.lt_irrefl i), if_pos ⟨rfl, hflags⟩]
        exact ⟨_, rfl, hstops, hm.lower_le, hm.reached, hm.next, nofun, fun _ =>
          ⟨hf.symm, fun _ => rfl⟩⟩
      · rw [if_neg (Nat.lt_asymm hgt), if_neg fun hand => Nat.ne_of_lt hgt hand.1]
        exact ⟨_, rfl, hforth, hm.forth rfl fun _ => hgt⟩

/-- The search of the symbol `i` from the symbol `k` on. -/
theorem Answers.searchMember_eq (ha : Answers h c f) (hk : c.lower ≤ k) (hi : f i = true → k ≤ i)
    (hflags : i ∉ flags) :
    ∃ m, searchMember h c flags i k = some m ∧ m.nextEc = f i ∧ c.lower ≤ m.otherSymbol ∧
      (f i = true → m.otherSymbol = i) ∧
      ∀ a, i < a → f a = true → k ≤ a → m.otherSymbol ≤ a := by
  have hstart : Searching c f i k ⟨k, false, false⟩ :=
    ⟨hk, hi, fun _ _ _ hle => hle, fun _ => rfl, nofun⟩
  obtain ⟨m, hrun, hm, hend⟩ := loopUntil_decide (P := fun m : MemberSearch =>
      m.stop = true ∨ c.upper < m.otherSymbol) (Searching c f i k)
    (fun m => if m.stop then 0 else c.upper + 2 - m.otherSymbol)
    (fun m hm hgo => by
      obtain ⟨hstop, hle⟩ := not_or.mp hgo
      exact ha.searchTurn_eq hflags hm (Bool.eq_false_iff.mpr hstop) (Nat.le_of_not_lt hle))
    hstart (show c.upper + 2 - k < c.upper + 3 by omega)
  have hover : m.nextEc = f i ∧ (f i = true → m.otherSymbol = i) := by
    cases hstop : m.stop with
    | true => exact hm.stopped hstop
    | false =>
        have hlast : c.upper < m.otherSymbol := hend.resolve_left (by simp [hstop])
        have hnot : ¬f i = true := fun hi =>
          Nat.not_lt_of_le ((hm.reached hi).trans (ha.bounds i hi).2) hlast
        exact ⟨(hm.going hstop).trans (Bool.eq_false_iff.mpr hnot).symm, fun hi => absurd hi hnot⟩
  exact ⟨m, hrun, hover.1, hm.lower_le, hover.2, hm.next⟩

/-- The cells of the old class, once its cells `done` have been looked at. -/
def oldCells (f : Nat → Bool) (before done : List Nat) : List Nat :=
  before ++ done.filter fun a => !f a

def newCells (f : Nat → Bool) (x : Nat) (done : List Nat) : List Nat := x :: done.filter f

variable {before after done rest : List Nat} {x y : Nat}

theorem oldCells_concat_true (hy : f y = true) :
    oldCells f before (done ++ [y]) = oldCells f before done := by
  simp [oldCells, hy]

theorem oldCells_concat_false (hy : f y = false) :
    oldCells f before (done ++ [y]) = oldCells f before done ++ [y] := by
  simp [oldCells, hy]

theorem newCells_concat_true (hy : f y = true) :
    newCells f x (done ++ [y]) = newCells f x done ++ [y] := by
  simp [newCells, hy]

theorem newCells_concat_false (hy : f y = false) :
    newCells f x (done ++ [y]) = newCells f x done := by
  simp [newCells, hy]

theorem mem_of_mem_oldCells {a : Nat} (ha : a ∈ oldCells f before done) :
    a ∈ before ++ x :: done := by
  rcases mem_append.mp ha with ha | ha
  · exact mem_append_left _ ha
  · exact mem_append_right _ (mem_cons_of_mem x (mem_of_mem_filter ha))

theorem mem_of_mem_newCells {a : Nat} (ha : a ∈ newCells f x done) : a ∈ before ++ x :: done := by
  refine mem_append_right _ ?_
  rcases mem_cons.mp ha with rfl | ha
  · exact mem_cons_self
  · exact mem_cons_of_mem x (mem_of_mem_filter ha)

/-- The cells `done` of the class have been looked at. -/
structure Walked (c : SymbolClass) (f : Nat → Bool) (e : EquivalenceClasses) (flags : List Nat)
    (before : List Nat) (x : Nat) (after done : List Nat) (m : Splitting) : Prop where
  apart : Apart m.classes.right m.classes.left (oldCells f before done) (newCells f x done)
  oldCell : m.oldCell = (oldCells f before done).getLast?
  newCell : (newCells f x done).getLast? = some m.newCell
  head : ∀ a ∈ (oldCells f before done).head?, m.classes.left a = none
  leftCell : m.classes.left x = e.left x
  frame : ∀ a, a ∉ before ++ x :: done →
    m.classes.right a = e.right a ∧ m.classes.left a = e.left a
  same : m.classes = { e with right := m.classes.right, left := m.classes.left }
  flags : ∀ a, a ∈ m.flags ↔ a ∈ flags ∨ a ∈ done ∧ f a = true
  lower_le : c.lower ≤ m.otherSymbol
  next : ∀ a ∈ after, a ∉ done → f a = true → m.otherSymbol ≤ a

/-- A member of the symbol class is linked into the new class. -/
theorem Walked.linkNew {m : Splitting} (hm : Walked c f e flags before x after done m)
    (hnew : y ∉ before ++ x :: done) (hf : f y = true) (hlower : c.lower ≤ y)
    (hnext : ∀ a ∈ after, a ∉ done ++ [y] → f a = true → y ≤ a) :
    Walked c f e flags before x after (done ++ [y])
      ⟨m.classes.putRight m.newCell y, m.oldCell, y, y, y :: m.flags⟩ := by
  have hold : ∀ {a}, a ∈ oldCells f before done → a ≠ y := fun ha =>
    ne_of_mem_of_not_mem (mem_of_mem_oldCells ha) hnew
  have hy : y ∉ newCells f x done ++ oldCells f before done := fun hy =>
    (mem_append.mp hy).elim (fun hy => hnew (mem_of_mem_newCells hy)) fun hy => hold hy rfl
  have hlast := mem_of_getLast? hm.newCell
  constructor
  case apart =>
    rw [oldCells_concat_true hf, newCells_concat_true hf]
    exact (hm.apart.swap.concat hy hm.newCell).swap
  case oldCell => exact hm.oldCell.trans (by rw [oldCells_concat_true hf])
  case newCell => rw [newCells_concat_true hf, getLast?_concat]
  case head =>
    rw [oldCells_concat_true hf]
    exact fun a ha => (update_of_ne (hold (mem_of_head? ha)) _ _).trans (hm.head a ha)
  case leftCell =>
    refine (update_of_ne ?_ _ _).trans hm.leftCell
    exact fun hxy => hnew (hxy ▸ mem_append_right _ mem_cons_self)
  case frame =>
    intro a ha
    have hdone : a ∉ before ++ x :: done := fun h => ha (by
      rw [← cons_append, ← append_assoc]
      exact mem_append_left _ h)
    obtain ⟨hright, hleft⟩ := hm.frame a hdone
    refine ⟨(update_of_ne ?_ _ _).trans hright, (update_of_ne ?_ _ _).trans hleft⟩
    · exact fun heq => hdone (heq ▸ mem_of_mem_newCells hlast)
    · exact fun heq => ha (by simp [heq])
  case same =>
    rw [hm.same]
    rfl
  case flags =>
    intro a
    simp only [mem_cons, hm.flags a, mem_append, not_mem_nil, or_false]
    constructor
    · rintro (rfl | hflag | ⟨hdone, hfa⟩)
      · exact Or.inr ⟨Or.inr rfl, hf⟩
      · exact Or.inl hflag
      · exact Or.inr ⟨Or.inl hdone, hfa⟩
    · rintro (hflag | ⟨hdone | rfl, hfa⟩)
      · exact Or.inr (Or.inl hflag)
      · exact Or.inr (Or.inr ⟨hdone, hfa⟩)
      · exact Or.inl rfl
  case lower_le => exact hlower
  case next => exact hnext

/-- Another cell is put back into the old class. -/
theorem Walked.linkOld {m : Splitting} (hm : Walked c f e flags before x after done m)
    (hnew : y ∉ before ++ x :: done) (hf : f y = false) {k : Nat} (hlower : c.lower ≤ k)
    (hnext : ∀ a ∈ after, a ∉ done ++ [y] → f a = true → k ≤ a) :
    Walked c f e flags before x after (done ++ [y])
      ⟨m.oldCell.elim (m.classes.forgetLeft y) fun old => m.classes.putRight old y,
        some y, m.newCell, k, m.flags⟩ := by
  have hxy : x ≠ y := fun hxy => hnew (hxy ▸ mem_append_right _ mem_cons_self)
  have hy : y ∉ oldCells f before done ++ newCells f x done := fun hy =>
    (mem_append.mp hy).elim (fun hy => hnew (mem_of_mem_oldCells hy))
      fun hy => hnew (mem_of_mem_newCells hy)
  have hflags : ∀ a, a ∈ m.flags ↔ a ∈ flags ∨ a ∈ done ++ [y] ∧ f a = true := fun a => by
    rw [hm.flags a, mem_append, or_and_right, mem_singleton]
    have hnot : ¬(a = y ∧ f a = true) := fun h => by
      rw [h.1, hf] at h
      exact Bool.false_ne_true h.2
    simp only [hnot, or_false]
  have houter : ∀ {a}, a ∉ before ++ x :: (done ++ [y]) → a ∉ before ++ x :: done ∧ a ≠ y := by
    intro a ha
    rw [← cons_append, ← append_assoc] at ha
    obtain ⟨hdone, hay⟩ := not_or.mp (mt mem_append.mpr ha)
    exact ⟨hdone, fun heq => hay (mem_singleton.mpr heq)⟩
  have happart := hm.apart
  rw [← newCells_concat_false hf] at happart
  cases hlast : m.oldCell with
  | none =>
      have hnil : oldCells f before done = [] :=
        getLast?_eq_none_iff.mp (hm.oldCell.symm.trans hlast)
      have hone : oldCells f before (done ++ [y]) = [y] := by
        rw [oldCells_concat_false hf, hnil, nil_append]
      rw [hnil] at happart
      refine ⟨?_, ?_, ?_, ?_, ?_, ?_, ?_, hflags, hlower, hnext⟩
      · rw [hone]
        refine happart.singleton fun hmem => hy ?_
        rw [newCells_concat_false hf] at hmem
        exact mem_append_right _ hmem
      · rw [hone]
        rfl
      · exact (congrArg getLast? (newCells_concat_false hf)).trans hm.newCell
      · rw [hone]
        rintro a ⟨⟩
        exact update_self ..
      · exact (update_of_ne hxy _ _).trans hm.leftCell
      · intro a ha
        obtain ⟨hdone, hay⟩ := houter ha
        obtain ⟨hright, hleft⟩ := hm.frame a hdone
        exact ⟨hright, (update_of_ne hay _ _).trans hleft⟩
      · rw [hm.same]
        rfl
  | some old =>
      have hmem : (oldCells f before done).getLast? = some old := hm.oldCell.symm.trans hlast
      have hin : old ∈ before ++ x :: done := mem_of_mem_oldCells (mem_of_getLast? hmem)
      refine ⟨?_, ?_, ?_, ?_, ?_, ?_, ?_, hflags, hlower, hnext⟩
      · rw [oldCells_concat_false hf]
        refine happart.concat ?_ hmem
        rwa [newCells_concat_false hf]
      · rw [oldCells_concat_false hf, getLast?_concat]
      · exact (congrArg getLast? (newCells_concat_false hf)).trans hm.newCell
      · intro a ha
        obtain ⟨b, hb⟩ := ne_none_iff_exists'.mp
          (mt head?_eq_none_iff.mp (ne_nil_of_mem (mem_of_getLast? hmem)))
        rw [oldCells_concat_false hf, head?_append, hb, some_or] at ha
        obtain rfl := some.inj ha
        refine (update_of_ne ?_ _ _).trans (hm.head b hb)
        exact ne_of_mem_of_not_mem (mem_of_mem_oldCells (mem_of_head? hb)) hnew
      · exact (update_of_ne hxy _ _).trans hm.leftCell
      · intro a ha
        obtain ⟨hdone, hay⟩ := houter ha
        obtain ⟨hright, hleft⟩ := hm.frame a hdone
        exact ⟨(update_of_ne (ne_of_mem_of_not_mem hin hdone).symm _ _).trans hright,
          (update_of_ne hay _ _).trans hleft⟩
      · rw [hm.same]
        rfl

/-- The next cell of the class is looked at. -/
theorem Walked.turn (ha : Answers h c f) {m : Splitting}
    (hm : Walked c f e flags before x after done m) (hafter : after = done ++ y :: rest)
    (hnew : y ∉ before ++ x :: done) (hsorted : after.Pairwise (· < ·))
    (hitem : e.item y = y) (hflags : y ∉ flags) :
    ∃ m', splitTurn h c y m = some m' ∧ m'.classes.right y = e.right y ∧
      Walked c f e flags before x after (done ++ [y]) m' := by
  have hright : m.classes.right y = e.right y := (hm.frame y hnew).1
  have hlast : m.newCell ∈ before ++ x :: done :=
    mem_of_mem_newCells (mem_of_getLast? hm.newCell)
  have hy : m.classes.item y = y := by rw [hm.same, hitem]
  have hdone : y ∉ done := fun hy => hnew (mem_append_right _ (mem_cons_of_mem x hy))
  have hnot : y ∉ m.flags := fun hy => ((hm.flags y).mp hy).elim hflags fun hy => hdone hy.1
  obtain ⟨s, hsearch, hs, hslower, hsy, hsnext⟩ := ha.searchMember_eq hm.lower_le
    (hm.next y (hafter ▸ mem_append_right _ mem_cons_self) hdone) hnot
  have hrest : ∀ a ∈ after, a ∉ done ++ [y] → f a = true → s.otherSymbol ≤ a := by
    intro a hmem hout hfa
    have hadone : a ∉ done := fun h => hout (mem_append_left _ h)
    refine hsnext a ?_ hfa (hm.next a hmem hadone hfa)
    rw [hafter] at hmem hsorted
    rcases mem_cons.mp ((mem_append.mp hmem).resolve_left hadone) with rfl | hmem
    · exact absurd (mem_append_right _ (mem_singleton.mpr rfl)) hout
    · exact (pairwise_cons.mp (pairwise_append.mp hsorted).2.1).1 a hmem
  rw [splitTurn, hy, hsearch, some_bind, hs]
  cases hf : f y with
  | false =>
      refine ⟨_, rfl, ?_, hm.linkOld hnew hf hslower hrest⟩
      cases hold : m.oldCell with
      | none => exact hright
      | some old =>
          have hmem := mem_of_getLast? (hm.oldCell.symm.trans hold)
          exact (update_of_ne
            (ne_of_mem_of_not_mem (mem_of_mem_oldCells hmem) hnew).symm _ _).trans hright
  | true =>
      rw [hsy hf] at hslower hrest ⊢
      exact ⟨_, rfl, (update_of_ne (ne_of_mem_of_not_mem hlast hnew).symm _ _).trans hright,
        hm.linkNew hnew hf hslower hrest⟩

/-- Before the first turn. -/
theorem Walked.start (hchain : Bichain e.right e.left (before ++ x :: after))
    (hlower : c.lower ≤ x + 1) (hsorted : (x :: after).Pairwise (· < ·)) :
    Walked c f e flags before x after [] ⟨e, e.left x, x, x + 1, flags⟩ := by
  obtain ⟨hbefore, hafter, hlink⟩ := Bilinked.append_iff.mp hchain.linked
  obtain ⟨hnodup, -, hdisjoint⟩ := nodup_append'.mp hchain.nodup
  have hold : oldCells f before [] = before := append_nil before
  constructor
  case apart =>
    rw [hold]
    refine ⟨hbefore, .singleton x, nodup_append'.mpr ⟨hnodup, nodup_singleton x, ?_⟩⟩
    exact fun a ha hax => hdisjoint ha (mem_singleton.mp hax ▸ mem_cons_self)
  case oldCell =>
    rw [hold]
    cases hlast : before.getLast? with
    | none =>
        refine hchain.first x ?_
        rw [getLast?_eq_none_iff.mp hlast]
        rfl
    | some a => exact (hlink a hlast x rfl).2
  case newCell => rfl
  case head =>
    rw [hold]
    refine fun a ha => hchain.first a ?_
    rw [head?_append, mem_def.mp ha, some_or, mem_def]
  case leftCell => rfl
  case frame => exact fun a _ => ⟨rfl, rfl⟩
  case same => rfl
  case flags => simp
  case lower_le => exact hlower
  case next => exact fun a ha _ _ => (pairwise_cons.mp hsorted).1 a ha

theorem forgetRight_none {a b : Nat} {right : Nat → Option Nat} (h : right a = none) :
    update right b none a = none := by
  rcases eq_or_ne a b with rfl | hab
  · exact update_self ..
  · exact (update_of_ne hab _ _).trans h

/-- What the old class and the new one are cut off from. -/
theorem cutOff_eq (o : Option Nat) (e : EquivalenceClasses) (x : Nat) :
    (if e.left x ≠ none ∨ o ≠ e.left x then
      o.elim (e.forgetLeft x) fun old => (e.forgetLeft x).forgetRight old else e) =
      o.elim (e.forgetLeft x) fun old => (e.forgetLeft x).forgetRight old := by
  split_ifs with hcut
  · rfl
  · obtain ⟨hleft, ho⟩ := not_or.mp hcut
    have hnone : e.left x = none := not_not.mp hleft
    rw [not_not.mp ho, hnone, elim_none, forgetLeft, ← hnone, update_eq_self]

/-- The split of the class of a symbol. -/
structure Parted (f : Nat → Bool) (e : EquivalenceClasses) (flags : List Nat) (before : List Nat)
    (x : Nat) (after : List Nat) (e' : EquivalenceClasses) (flags' : List Nat) : Prop where
  old : Bichain e'.right e'.left (oldCells f before after)
  new : Bichain e'.right e'.left (newCells f x after)
  frame : ∀ a, a ∉ before ++ x :: after → e'.right a = e.right a ∧ e'.left a = e.left a
  same : e' = { e with right := e'.right, left := e'.left }
  flags : ∀ a, a ∈ flags' ↔ a ∈ flags ∨ a ∈ after ∧ f a = true

theorem Walked.parted {m : Splitting} (hm : Walked c f e flags before x after after m) :
    Parted f e flags before x after
      ((m.oldCell.elim (m.classes.forgetLeft x) fun old =>
        (m.classes.forgetLeft x).forgetRight old).forgetRight m.newCell) m.flags := by
  have hxnew : x ∈ newCells f x after := mem_cons_self
  have hlast := mem_of_getLast? hm.newCell
  obtain ⟨holdNodup, hnewNodup, hdisjoint⟩ := nodup_append'.mp hm.apart.nodup
  have hold := hm.apart.first.forgetLeft holdNodup fun hx => absurd hxnew (hdisjoint hx)
  have hnew := hm.apart.second.forgetLeft (a := x) hnewNodup fun _ => rfl
  have hhead : ∀ a ∈ (oldCells f before after).head?,
      update m.classes.left x none a = none := fun a ha => forgetRight_none (hm.head a ha)
  have hfirst : ∀ a ∈ (newCells f x after).head?,
      update m.classes.left x none a = none := by
    rintro a ⟨⟩
    exact update_self ..
  have hxmem : x ∈ before ++ x :: after := mem_append_right _ mem_cons_self
  have hleft : ∀ a, a ∉ before ++ x :: after →
      update m.classes.left x none a = e.left a := fun a ha =>
    (update_of_ne (ne_of_mem_of_not_mem hxmem ha).symm _ _).trans (hm.frame a ha).2
  have hnewMem : m.newCell ∈ before ++ x :: after := mem_of_mem_newCells hlast
  cases ho : m.oldCell with
  | none =>
      have hnil : oldCells f before after = [] :=
        getLast?_eq_none_iff.mp (hm.oldCell.symm.trans ho)
      refine ⟨?_, ⟨hnew.forgetRight hnewNodup fun _ => hm.newCell, hfirst, ?_⟩, ?_, ?_, hm.flags⟩
      · rw [hnil]
        exact ⟨.nil, nofun, nofun⟩
      · intro a ha
        obtain rfl := some.inj (hm.newCell.symm.trans ha)
        exact update_self ..
      · refine fun a ha => ⟨(update_of_ne ?_ _ _).trans (hm.frame a ha).1, hleft a ha⟩
        exact (ne_of_mem_of_not_mem hnewMem ha).symm
      · rw [hm.same]
        rfl
  | some old =>
      have hend : (oldCells f before after).getLast? = some old := hm.oldCell.symm.trans ho
      have hin := mem_of_getLast? hend
      refine ⟨⟨?_, hhead, ?_⟩, ⟨?_, hfirst, ?_⟩, ?_, ?_, hm.flags⟩
      · exact (hold.forgetRight holdNodup fun _ => hend).forgetRight holdNodup
          fun hmem => absurd hlast (hdisjoint hmem)
      · intro a ha
        obtain rfl := some.inj (hend.symm.trans ha)
        exact forgetRight_none (update_self ..)
      · exact (hnew.forgetRight hnewNodup fun hmem => absurd hmem (hdisjoint hin)).forgetRight
          hnewNodup fun _ => hm.newCell
      · intro a ha
        obtain rfl := some.inj (hm.newCell.symm.trans ha)
        exact update_self ..
      · refine fun a ha => ⟨?_, hleft a ha⟩
        refine (update_of_ne ?_ _ _).trans ((update_of_ne ?_ _ _).trans
          (hm.frame a ha).1)
        · exact (ne_of_mem_of_not_mem hnewMem ha).symm
        · exact (ne_of_mem_of_not_mem (mem_of_mem_oldCells hin) ha).symm
      · rw [hm.same]
        rfl

theorem Answers.split_eq (ha : Answers h c f)
    (hchain : Bichain e.right e.left (before ++ x :: after))
    (hsorted : (x :: after).Pairwise (· < ·)) (hitem : ∀ a ∈ after, e.item a = a)
    (hflags : ∀ a ∈ after, a ∉ flags) (hcell : e.cell x = some x) (hlower : c.lower ≤ x + 1)
    (hfuel : after.length ≤ e.upper + 1) :
    ∃ e' flags', split h c x e flags = some (e', flags') ∧
      Parted f e flags before x after e' flags' := by
  have hright : e.right x = after.head? := hchain.chain.suffix.head?_eq.symm
  obtain ⟨m, hrun, hm⟩ : ∃ m, forCells (fun m => m.classes.right) (splitTurn h c) (e.upper + 1)
      after.head? ⟨e, e.left x, x, x + 1, flags⟩ = some m ∧
        Walked c f e flags before x after after m := by
    refine forCells_spec (Walked c f e flags before x after) ?_ hfuel (.start hchain hlower hsorted)
    intro done y rest m hafter hm
    have hy : y ∈ after := hafter ▸ mem_append_right _ mem_cons_self
    have hnodup := hchain.nodup
    have hnew : y ∉ before ++ x :: done := by
      rw [hafter, ← cons_append, ← append_assoc] at hnodup
      exact fun h => (nodup_append'.mp hnodup).2.2 h mem_cons_self
    obtain ⟨m', hturn, hsame, hm'⟩ := hm.turn ha hafter hnew (pairwise_cons.mp hsorted).2
      (hitem y hy) (hflags y hy)
    refine ⟨m', hturn, hsame.trans ?_, hm'⟩
    have hwhole := hchain.chain
    rw [hafter, ← cons_append, ← append_assoc] at hwhole
    exact hwhole.suffix.head?_eq.symm
  refine ⟨_, m.flags, ?_, hm.parted⟩
  rw [split, hcell, some_bind, hright, hrun, some_bind, ← cutOff_eq]

end EquivalenceClasses

end Gobo
