/-
The chains of the classes of symbols: each one lists the symbols that no symbol and no symbol
class has separated.
-/
import Gobo.EquivalenceSplit
import Mathlib.Order.Bounds.Basic

namespace Gobo

open List Function

namespace EquivalenceClasses

variable {h : Chunks} {c : SymbolClass} {e e' : EquivalenceClasses} {R R' : Nat → Nat → Prop}
  {xs : List Nat} {a b k s : Nat}

/-- A chain lists in increasing order the symbols that `R` relates to `a`. -/
structure Lists (R : Nat → Nat → Prop) (e : EquivalenceClasses) (a : Nat) (xs : List Nat) :
    Prop where
  chain : Bichain e.right e.left xs
  sorted : xs.Pairwise (· < ·)
  mem : ∀ b, b ∈ xs ↔ e.ValidSymbol b ∧ R a b

/-- The classes of `R` before they are numbered. -/
structure Holds (R : Nat → Nat → Prop) (e : EquivalenceClasses) : Prop where
  lower_le : e.lower ≤ e.upper
  equivalence : Equivalence R
  item : ∀ a, e.item a = a
  lists : ∀ a, e.ValidSymbol a → ∃ xs, Lists R e a xs

theorem cell_eq (ha : e.ValidSymbol a) : e.cell a = some a := if_pos ha

/-- A chain that no change has met. -/
theorem Lists.congr (hxs : Lists R e a xs) (hlower : e'.lower = e.lower)
    (hupper : e'.upper = e.upper) (hright : ∀ b ∈ xs, e'.right b = e.right b)
    (hleft : ∀ b ∈ xs, e'.left b = e.left b) (hR : ∀ b, R' a b ↔ R a b) : Lists R' e' a xs := by
  refine ⟨hxs.chain.congr hright hleft, hxs.sorted, fun b => ?_⟩
  rw [hxs.mem, ValidSymbol, ValidSymbol, hlower, hupper, hR]

/-- The symbols of a class, around one of them. -/
theorem Holds.around (he : Holds R e) (hs : e.ValidSymbol s) :
    ∃ before after, Lists R e s (before ++ s :: after) := by
  obtain ⟨xs, hxs⟩ := he.lists s hs
  obtain ⟨before, after, rfl⟩ := append_of_mem ((hxs.mem s).mpr ⟨hs, he.equivalence.refl s⟩)
  exact ⟨before, after, hxs⟩

/-- Only the class of `s` is changed. -/
theorem Holds.changed (he : Holds R e) (hxs : Lists R e s xs)
    (hframe : ∀ a, a ∉ xs → e'.right a = e.right a ∧ e'.left a = e.left a)
    (hsame : e' = { e with right := e'.right, left := e'.left })
    (hequivalence : Equivalence R') (hR : ∀ a, ¬R s a → ∀ b, R' a b ↔ R a b)
    (hclass : ∀ a ∈ xs, ∃ ys, Bichain e'.right e'.left ys ∧ ys.Pairwise (· < ·) ∧
      ∀ b, b ∈ ys ↔ b ∈ xs ∧ R' a b)
    (hle : ∀ a b, R' a b → R a b) : Holds R' e' := by
  have hlower : e'.lower = e.lower := by rw [hsame]
  have hupper : e'.upper = e.upper := by rw [hsame]
  refine ⟨by rw [hlower, hupper]; exact he.lower_le, hequivalence,
    fun a => by rw [hsame]; exact he.item a, fun a ha => ?_⟩
  rw [ValidSymbol, hlower, hupper] at ha
  by_cases hmem : a ∈ xs
  · obtain ⟨ys, hchain, hsorted, hys⟩ := hclass a hmem
    refine ⟨ys, hchain, hsorted, fun b => (hys b).trans ?_⟩
    have hsa := ((hxs.mem a).mp hmem).2
    rw [hxs.mem, ValidSymbol, ValidSymbol, hlower, hupper, and_assoc]
    refine and_congr_right fun _ => and_iff_right_of_imp fun hab => ?_
    exact he.equivalence.trans hsa (hle a b hab)
  · have hsa : ¬R s a := fun hsa => hmem ((hxs.mem a).mpr ⟨ha, hsa⟩)
    obtain ⟨ys, hys⟩ := he.lists a ha
    have hout : ∀ b ∈ ys, b ∉ xs := fun b hb hbx => hsa
      (he.equivalence.trans ((hxs.mem b).mp hbx).2 (he.equivalence.symm ((hys.mem b).mp hb).2))
    exact ⟨ys, hys.congr hlower hupper (fun b hb => (hframe b (hout b hb)).1)
      (fun b hb => (hframe b (hout b hb)).2) (hR a hsa)⟩

/-- Nothing is left of a symbol between its neighbours. -/
theorem put_eq (hs : e.ValidSymbol s) :
    ∃ e', e.put s = some e' ∧ e' = { e with right := e'.right, left := e'.left } ∧
      (∀ a, e'.right a =
        if a = s then none else if e.left s = some a then e.right s else e.right a) ∧
      ∀ a, e'.left a =
        if a = s then none else if e.right s = some a then e.left s else e.left a := by
  rw [put, cell_eq hs, some_bind]
  cases hleft : e.left s with
  | none =>
      cases hright : e.right s with
      | none =>
          refine ⟨e, rfl, rfl, fun a => ?_, fun a => ?_⟩
          · by_cases ha : a = s <;> simp [ha, hright]
          · by_cases ha : a = s <;> simp [ha, hleft]
      | some right =>
          refine ⟨_, rfl, rfl, fun a => ?_, fun a => ?_⟩
          · simp [forgetLeft, forgetRight, update_apply]
          · by_cases ha : a = s <;>
              simp [forgetLeft, forgetRight, update_apply, ha, hleft, eq_comm]
  | some left =>
      cases hright : e.right s with
      | none =>
          refine ⟨_, rfl, rfl, fun a => ?_, fun a => ?_⟩
          · by_cases ha : a = s <;>
              simp [forgetLeft, forgetRight, update_apply, ha, hright, eq_comm]
          · simp [forgetLeft, forgetRight, update_apply]
      | some right =>
          refine ⟨_, rfl, rfl, fun a => ?_, fun a => ?_⟩ <;>
            simp [forgetLeft, forgetRight, putRight, update_apply, eq_comm]

/-- The symbol `s` is no longer related to another one. -/
def Single (R : Nat → Nat → Prop) (s a b : Nat) : Prop := R a b ∧ (a = s ↔ b = s)

theorem Holds.put_eq (he : Holds R e) (hs : e.ValidSymbol s) :
    ∃ e', e.put s = some e' ∧ e'.lower = e.lower ∧ e'.upper = e.upper ∧
      Holds (Single R s) e' := by
  obtain ⟨e', hrun, hsame, hright, hleft⟩ := EquivalenceClasses.put_eq hs
  obtain ⟨before, after, hxs⟩ := he.around hs
  have hnodup := hxs.chain.nodup
  obtain ⟨hout, -⟩ := nodup_cons.mp (nodup_middle.mp hnodup)
  have hsright : e.right s = after.head? := hxs.chain.chain.suffix.head?_eq.symm
  have hsleft : e.left s = before.getLast? := by
    cases hlast : before.getLast? with
    | none =>
        refine hxs.chain.first s ?_
        rw [getLast?_eq_none_iff.mp hlast]
        rfl
    | some a => exact ((Bilinked.append_iff.mp hxs.chain.linked).2.2 a hlast s rfl).2
  have hne : ∀ a ∈ before ++ after, a ≠ s := fun a ha => ne_of_mem_of_not_mem ha hout
  refine ⟨e', hrun, by rw [hsame], by rw [hsame], he.changed hxs ?_ hsame ?_ ?_ ?_ fun _ _ h => h.1⟩
  · intro a ha
    have hmem : a ∉ before ++ after := fun h => ha (by
      rcases mem_append.mp h with h | h
      · exact mem_append_left _ h
      · exact mem_append_right _ (mem_cons_of_mem s h))
    have has : a ≠ s :=
      (ne_of_mem_of_not_mem (mem_append_right _ mem_cons_self) ha).symm
    rw [hright, hleft, if_neg has, if_neg has,
      if_neg fun hl => hmem (mem_append_left _ (mem_of_getLast? (hsleft.symm.trans hl))),
      if_neg fun hr => hmem (mem_append_right _ (mem_of_head? (hsright.symm.trans hr)))]
    exact ⟨rfl, rfl⟩
  · exact ⟨fun a => ⟨he.equivalence.refl a, Iff.rfl⟩,
      fun h => ⟨he.equivalence.symm h.1, h.2.symm⟩,
      fun h h' => ⟨he.equivalence.trans h.1 h'.1, h.2.trans h'.2⟩⟩
  · intro a hsa b
    refine and_iff_left_of_imp fun hab => ?_
    refine iff_of_false (fun has : a = s => hsa ?_) fun hbs : b = s => hsa ?_
    · exact has ▸ he.equivalence.refl a
    · exact he.equivalence.symm (hbs ▸ hab)
  · intro a ha
    by_cases has : a = s
    · subst has
      refine ⟨[a], ⟨.singleton a, ?_, ?_⟩, pairwise_singleton _ a, fun b => ?_⟩
      · intro b hb
        obtain rfl : a = b := Option.some.inj hb
        rw [hleft, if_pos rfl]
      · intro b hb
        obtain rfl : a = b := Option.some.inj hb
        rw [hright, if_pos rfl]
      · rw [mem_singleton]
        refine ⟨?_, fun hb => hb.2.2.mp rfl⟩
        rintro rfl
        exact ⟨ha, he.equivalence.refl b, Iff.rfl⟩
    · have hsub : (before ++ after).Sublist (before ++ s :: after) :=
        List.Sublist.append_left (sublist_cons_self s after) before
      refine ⟨before ++ after, hxs.chain.join ?_ ?_ ?_ ?_, hxs.sorted.sublist hsub, fun b => ?_⟩
      · intro b hb hend
        rw [hright, if_neg (hne b hb), if_neg fun h => hend (hsleft.symm.trans h)]
      · intro b hb hhead
        rw [hleft, if_neg (hne b hb), if_neg fun h => hhead (hsright.symm.trans h)]
      · intro b hb
        rw [hright, if_neg (hne b (mem_append_left _ (mem_of_getLast? hb))),
          if_pos (hsleft.trans hb), hsright]
      · intro b hb
        rw [hleft, if_neg (hne b (mem_append_right _ (mem_of_head? hb))),
          if_pos (hsright.trans hb), hsleft]
      · have hsa := ((hxs.mem a).mp ha).2
        refine ⟨fun hb => ⟨hsub.subset hb, ?_, iff_of_false has (hne b hb)⟩, fun hb => ?_⟩
        · exact he.equivalence.trans (he.equivalence.symm hsa) ((hxs.mem b).mp (hsub.subset hb)).2
        · rcases mem_append.mp hb.1 with h | h
          · exact mem_append_left _ h
          · exact mem_append_right _
              ((mem_cons.mp h).resolve_left fun hbs => has (hb.2.2.mpr hbs))

section

variable {f : Nat → Bool} {flags : List Nat}

section

variable (R : Nat → Nat → Prop) (f : Nat → Bool)

/-- A member below `k` of the symbol class is related to `a`. -/
def Touched (k a : Nat) : Prop :=
  ∃ b < k, f b = true ∧ R b a

/-- What is left of `R` once the symbols below `k` of the symbol class have been looked at. -/
def Cut (k a b : Nat) : Prop := R a b ∧ (f a = f b ∨ ¬Touched R f k a)

/-- The flags of the symbols that need not be looked at. -/
def Flagged (k : Nat) (flags : List Nat) : Prop :=
  ∀ a, a ∈ flags ↔ f a = true ∧ ∃ b < k, b < a ∧ f b = true ∧ R b a

end

theorem touched_iff (hR : Equivalence R) (hab : R a b) : Touched R f k a ↔ Touched R f k b :=
  ⟨fun ⟨x, hx, hf, hxa⟩ => ⟨x, hx, hf, hR.trans hxa hab⟩,
    fun ⟨x, hx, hf, hxb⟩ => ⟨x, hx, hf, hR.trans hxb (hR.symm hab)⟩⟩

theorem touched_succ : Touched R f (k + 1) a ↔ Touched R f k a ∨ f k = true ∧ R k a := by
  constructor
  · rintro ⟨b, hb, hf, hba⟩
    rcases Nat.lt_succ_iff_lt_or_eq.mp hb with hlt | rfl
    · exact Or.inl ⟨b, hlt, hf, hba⟩
    · exact Or.inr ⟨hf, hba⟩
  · rintro (⟨b, hb, hf, hba⟩ | ⟨hf, hka⟩)
    · exact ⟨b, Nat.lt_succ_of_lt hb, hf, hba⟩
    · exact ⟨k, Nat.lt_succ_self k, hf, hka⟩

theorem cut_equivalence (hR : Equivalence R) (f : Nat → Bool) (k : Nat) :
    Equivalence (Cut R f k) := by
  refine ⟨fun a => ⟨hR.refl a, Or.inl rfl⟩, fun {a b} h => ⟨hR.symm h.1, ?_⟩,
    fun {a b d} h h' => ⟨hR.trans h.1 h'.1, ?_⟩⟩
  · exact h.2.imp Eq.symm (mt (touched_iff hR h.1).mpr)
  · rcases h.2 with heq | hnot
    · exact h'.2.imp heq.trans (mt (touched_iff hR h.1).mp)
    · exact Or.inr hnot

/-- Nothing happens to a symbol that is not a member, or that has a flag. -/
theorem cut_skip (hR : Equivalence R) (hflags : Flagged R f k flags)
    (hskip : ¬(f k = true ∧ k ∉ flags)) :
    Cut R f (k + 1) = Cut R f k ∧ Flagged R f (k + 1) flags := by
  have hbefore : f k = true → ∃ b < k, f b = true ∧ R b k := fun hf => by
    obtain ⟨-, b, hb, -, hfb, hbk⟩ := (hflags k).mp (not_not.mp fun hk => hskip ⟨hf, hk⟩)
    exact ⟨b, hb, hfb, hbk⟩
  have htouched : ∀ a, Touched R f (k + 1) a ↔ Touched R f k a := fun a => by
    refine touched_succ.trans (or_iff_left_of_imp fun ⟨hf, hka⟩ => ?_)
    obtain ⟨b, hb, hfb, hbk⟩ := hbefore hf
    exact ⟨b, hb, hfb, hR.trans hbk hka⟩
  refine ⟨?_, fun a => (hflags a).trans (and_congr_right fun hfa => ⟨?_, ?_⟩)⟩
  · funext a b
    rw [Cut, htouched, Cut]
  · exact fun ⟨b, hb, hrest⟩ => ⟨b, Nat.lt_succ_of_lt hb, hrest⟩
  · rintro ⟨b, hb, hba, hfb, hR'⟩
    rcases Nat.lt_succ_iff_lt_or_eq.mp hb with hlt | rfl
    · exact ⟨b, hlt, hba, hfb, hR'⟩
    · obtain ⟨d, hd, hfd, hdb⟩ := hbefore hfb
      exact ⟨d, hd, hd.trans hba, hfd, hR.trans hdb hR'⟩

theorem cut_succ_of_not (hka : ¬R k a) (b : Nat) : Cut R f (k + 1) a b ↔ Cut R f k a b := by
  have htouched : Touched R f (k + 1) a ↔ Touched R f k a :=
    touched_succ.trans (or_iff_left fun h => hka h.2)
  rw [Cut, Cut, htouched]

theorem cut_succ (hfk : f k = true) (hka : R k a) (b : Nat) :
    Cut R f (k + 1) a b ↔ R a b ∧ f a = f b := by
  refine and_congr_right fun _ => or_iff_left fun hnot => hnot ?_
  exact touched_succ.mpr (Or.inr ⟨hfk, hka⟩)

theorem cut_of_succ (h : Cut R f (k + 1) a b) : Cut R f k a b :=
  ⟨h.1, h.2.imp_right (mt fun ht => touched_succ.mpr (Or.inl ht))⟩

/-- The two classes that a split makes of one. -/
theorem parted_lists {before after : List Nat} (hfk : f k = true) (hlow : ∀ a ∈ before, f a = false)
    (a b : Nat) (ys : List Nat)
    (hys : ys = if f a then newCells f k after else oldCells f before after) :
    b ∈ ys ↔ b ∈ before ++ k :: after ∧ f a = f b := by
  subst hys
  cases hfa : f a with
  | true =>
      simp only [if_true, newCells, mem_cons, mem_filter, mem_append]
      constructor
      · rintro (rfl | ⟨hb, hfb⟩)
        · exact ⟨Or.inr (Or.inl rfl), hfk.symm⟩
        · exact ⟨Or.inr (Or.inr hb), hfb.symm⟩
      · rintro ⟨hb | hb | hb, hfb⟩
        · exact absurd (hfb.trans (hlow b hb)) (by decide)
        · exact Or.inl hb
        · exact Or.inr ⟨hb, hfb.symm⟩
  | false =>
      simp only [Bool.false_eq_true, if_false, oldCells, mem_cons, mem_filter,
        mem_append, Bool.not_eq_true']
      constructor
      · rintro (hb | ⟨hb, hfb⟩)
        · exact ⟨Or.inl hb, (hlow b hb).symm⟩
        · exact ⟨Or.inr (Or.inr hb), hfb.symm⟩
      · rintro ⟨hb | rfl | hb, hfb⟩
        · exact Or.inl hb
        · exact absurd (hfb.trans hfk) (by decide)
        · exact Or.inr ⟨hb, hfb.symm⟩

/-- A symbol of the class is looked at. -/
theorem Holds.addTurn_eq (hR : Equivalence R) (ha : Answers h c f) (he : Holds (Cut R f k) e)
    (hc : e.ValidSymbolClass c) (hflags : Flagged R f k flags) (hlower : c.lower ≤ k)
    (hupper : k ≤ c.upper) :
    ∃ e' flags', addTurn h c k (e, flags) = some (e', flags') ∧ e'.lower = e.lower ∧
      e'.upper = e.upper ∧ Holds (Cut R f (k + 1)) e' ∧ Flagged R f (k + 1) flags' := by
  rw [addTurn, ha.added k hlower hupper, some_bind]
  split_ifs with hdo
  swap
  · obtain ⟨hcut, hflags'⟩ := cut_skip hR hflags hdo
    exact ⟨e, flags, rfl, rfl, rfl, hcut ▸ he, hflags'⟩
  · obtain ⟨hfk, hnot⟩ := hdo
    have hk : e.ValidSymbol k := ⟨hc.1.trans hlower, hupper.trans hc.2⟩
    obtain ⟨before, after, hxs⟩ := he.around hk
    have hfresh : ¬Touched R f k k := fun ⟨b, hb, hfb, hbk⟩ =>
      hnot ((hflags k).mpr ⟨hfk, b, hb, hb, hfb, hbk⟩)
    have hmem : ∀ a, a ∈ before ++ k :: after ↔ e.ValidSymbol a ∧ R k a := fun a =>
      (hxs.mem a).trans (and_congr_right fun _ => and_iff_left (Or.inr hfresh))
    have hsorted : (k :: after).Pairwise (· < ·) := (pairwise_append.mp hxs.sorted).2.1
    have hlow : ∀ a ∈ before, f a = false := fun a hab => by
      refine Bool.eq_false_iff.mpr fun hfa => hfresh ⟨a, ?_, hfa, ?_⟩
      · exact (pairwise_append.mp hxs.sorted).2.2 a hab k mem_cons_self
      · exact hR.symm ((hmem a).mp (mem_append_left _ hab)).2
    have hafter : ∀ a ∈ after, R k a := fun a haa =>
      ((hmem a).mp (mem_append_right _ (mem_cons_of_mem k haa))).2
    have hout : ∀ a ∈ after, a ∉ flags := fun a haa hflag => by
      obtain ⟨-, b, hb, -, hfb, hba⟩ := (hflags a).mp hflag
      exact hfresh ⟨b, hb, hfb, hR.trans hba (hR.symm (hafter a haa))⟩
    have hfuel : after.length ≤ e.upper + 1 := by
      have hsub : after ⊆ range (e.upper + 1) := fun a haa => by
        have hvalid := ((hmem a).mp (mem_append_right _ (mem_cons_of_mem k haa))).1
        exact mem_range.mpr (Nat.lt_succ_of_le hvalid.2)
      have hnodup : after.Nodup :=
        ((pairwise_cons.mp hsorted).2).imp fun hab => Nat.ne_of_lt hab
      exact (hnodup.subperm hsub).length_le.trans (by rw [length_range])
    obtain ⟨e', flags', hrun, hp⟩ := ha.split_eq hxs.chain hsorted
      (fun a _ => he.item a) hout (cell_eq hk) (Nat.le_succ_of_le hlower) hfuel
    refine ⟨e', flags', hrun, by rw [hp.same], by rw [hp.same], ?_, ?_⟩
    · refine he.changed hxs hp.frame hp.same (cut_equivalence hR f (k + 1)) ?_ ?_
        fun _ _ => cut_of_succ
      · exact fun a hka => cut_succ_of_not fun h => hka ⟨h, Or.inr hfresh⟩
      · intro a haxs
        refine ⟨if f a then newCells f k after else oldCells f before after, ?_, ?_, fun b => ?_⟩
        · split_ifs
          · exact hp.new
          · exact hp.old
        · split_ifs
          · exact hsorted.sublist (List.Sublist.cons_cons k filter_sublist)
          · refine hxs.sorted.sublist (List.Sublist.append_left ?_ before)
            exact filter_sublist.trans (sublist_cons_self k after)
        · have hka := ((hmem a).mp haxs).2
          rw [parted_lists hfk hlow a b _ rfl, cut_succ hfk hka]
          refine and_congr_right fun hb => (and_iff_right ?_).symm
          exact hR.trans (hR.symm hka) ((hmem b).mp hb).2
    · intro a
      rw [hp.flags, hflags]
      constructor
      · rintro (⟨hfa, b, hb, hrest⟩ | ⟨haa, hfa⟩)
        · exact ⟨hfa, b, Nat.lt_succ_of_lt hb, hrest⟩
        · exact ⟨hfa, k, Nat.lt_succ_self k, (pairwise_cons.mp hsorted).1 a haa, hfk,
            hafter a haa⟩
      · rintro ⟨hfa, b, hb, hba, hfb, hrel⟩
        rcases Nat.lt_succ_iff_lt_or_eq.mp hb with hlt | rfl
        · exact Or.inl ⟨hfa, b, hlt, hba, hfb, hrel⟩
        · refine Or.inr ⟨?_, hfa⟩
          have hvalid : e.ValidSymbol a :=
            ⟨hc.1.trans (ha.bounds a hfa).1, (ha.bounds a hfa).2.trans hc.2⟩
          rcases mem_append.mp ((hmem a).mpr ⟨hvalid, hrel⟩) with hab | hab
          · exact absurd ((hlow a hab).symm.trans hfa) (by decide)
          · exact (mem_cons.mp hab).resolve_left (Nat.ne_of_gt hba)

/-- The symbols that the symbol class separates. -/
theorem Holds.add_eq (he : Holds R e) (ha : Answers h c f) (hc : e.ValidSymbolClass c) :
    ∃ e', e.add h c = some e' ∧ e'.lower = e.lower ∧ e'.upper = e.upper ∧
      Holds (fun a b => R a b ∧ f a = f b) e' := by
  have hR := he.equivalence
  have hnone : ∀ a, ¬Touched R f c.lower a := fun a ⟨b, hb, hfb, _⟩ =>
    Nat.not_lt_of_le (ha.bounds b hfb).1 hb
  have hstart : Cut R f c.lower = R := by
    funext a b
    exact propext (and_iff_left (Or.inr (hnone a)))
  have hend : ∀ k, c.upper < k → Cut R f k = fun a b => R a b ∧ f a = f b := by
    intro k hk
    funext a b
    refine propext (and_congr_right fun hab => or_iff_left_of_imp fun hnot => ?_)
    have hfalse : ∀ d, R d a → f d = false := fun d hd => Bool.eq_false_iff.mpr fun hfd =>
      hnot ⟨d, Nat.lt_of_le_of_lt (ha.bounds d hfd).2 hk, hfd, hd⟩
    rw [hfalse a (hR.refl a), hfalse b (hR.symm hab)]
  rw [add]
  split_ifs with hempty
  · have hfalse : ∀ a, f a = false := fun a => Bool.eq_false_iff.mpr fun hfa => by
      obtain ⟨hle, hle'⟩ := ha.bounds a hfa
      have hadded := ha.added a hle hle'
      rw [SymbolClass.added, if_pos hempty, hfa] at hadded
      exact Bool.false_ne_true (Option.some.inj hadded)
    refine ⟨e, rfl, rfl, rfl, ?_⟩
    have heq : (fun a b => R a b ∧ f a = f b) = R := by
      funext a b
      rw [hfalse a, hfalse b, and_iff_left rfl]
    rw [heq]
    exact he
  · obtain ⟨⟨e', flags⟩, hrun, hlower, hupper, he', -⟩ :
        ∃ s' : EquivalenceClasses × List Nat,
          forUp (addTurn h c) (c.upper + 1 - c.lower) c.lower (e, []) = some s' ∧
            s'.1.lower = e.lower ∧ s'.1.upper = e.upper ∧
              Holds (Cut R f (c.lower + (c.upper + 1 - c.lower))) s'.1 ∧
                Flagged R f (c.lower + (c.upper + 1 - c.lower)) s'.2 := by
      refine forUp_spec (fun k (s : EquivalenceClasses × List Nat) => s.1.lower = e.lower ∧
        s.1.upper = e.upper ∧ Holds (Cut R f k) s.1 ∧ Flagged R f k s.2) ?_
        ⟨rfl, rfl, hstart.symm ▸ he, fun a => ?_⟩
      · rintro k ⟨e₁, flags⟩ hk hlt ⟨hlower, hupper, he₁, hflags⟩
        have hc₁ : e₁.ValidSymbolClass c := by
          rw [ValidSymbolClass, hlower, hupper]
          exact hc
        obtain ⟨e', flags', hturn, hlower', hupper', he', hflags'⟩ :=
          he₁.addTurn_eq hR ha hc₁ hflags hk (by omega)
        exact ⟨(e', flags'), hturn, hlower'.trans hlower, hupper'.trans hupper, he', hflags'⟩
      · refine iff_of_false not_mem_nil fun ⟨_, b, hb, _, hfb, _⟩ => ?_
        exact Nat.not_lt_of_le (ha.bounds b hfb).1 hb
    refine ⟨e', by rw [hrun]; rfl, hlower, hupper, ?_⟩
    rwa [hend _ (by omega)] at he'

end

/-- The cells up to `min + n` have been linked. -/
structure Started (min max n : Nat) (e : EquivalenceClasses) : Prop where
  lower : e.lower = min
  upper : e.upper = max
  item : ∀ a, e.item a = a
  linked : Bilinked e.right e.left (range' min (n + 1))
  first : e.left min = none
  last : ∀ a, min + n ≤ a → e.right a = none

theorem Started.turn {min max n : Nat} (he : Started min max n e) :
    Started min max (n + 1) ((e.putRight (min + n) (min + n + 1)).putItem (min + n + 1)
      (min + n + 1)) := by
  refine ⟨he.lower, he.upper, fun a => ?_, ?_, ?_, fun a ha => ?_⟩
  · rcases eq_or_ne a (min + n + 1) with rfl | hne
    · exact update_self ..
    · exact (update_of_ne hne _ _).trans (he.item a)
  · rw [range'_concat, Nat.one_mul]
    refine he.linked.concat nodup_range' (fun hmem => ?_) ?_
    · exact absurd (mem_range'_1.mp hmem).2 (by omega)
    · rw [range'_concat, getLast?_concat, Nat.one_mul]
  · exact (update_of_ne (by omega) _ _).trans he.first
  · exact (update_of_ne (by omega) _ _).trans (he.last a (by omega))

theorem started_make (min max : Nat) : Started min max (max - min) (make min max) := by
  have hstarted : ∀ n, Started min max n ((range' (min + 1) n).foldl
      (fun e i => (e.putRight (i - 1) i).putItem i i)
      ((⟨min, max, id, fun _ => none, fun _ => none, 0⟩ : EquivalenceClasses).putItem min
        min)) := by
    intro n
    induction n with
    | zero =>
        refine ⟨rfl, rfl, fun a => ?_, .singleton min, rfl, fun _ _ => rfl⟩
        exact congrFun (update_eq_self min id) a
    | succ n ih =>
        rw [range'_concat, foldl_append, Nat.one_mul, Nat.add_right_comm min 1 n]
        exact ih.turn
  obtain ⟨hlower, hupper, hitem, hlinked, hfirst, hlast⟩ := hstarted (max - min)
  exact ⟨hlower, hupper, hitem, hlinked, hfirst, hlast⟩

theorem holds_make {min max : Nat} (hle : min ≤ max) : Holds (fun _ _ => True) (make min max) := by
  have h := started_make min max
  have hlower_le : (make min max).lower ≤ (make min max).upper := by
    rw [h.lower, h.upper]
    exact hle
  refine ⟨hlower_le, ⟨fun _ => trivial, fun _ => trivial, fun _ _ => trivial⟩, h.item,
    fun a _ => ⟨range' min (max - min + 1), ⟨h.linked, fun b hb => ?_, fun b hb => ?_⟩,
      pairwise_lt_range', fun b => ?_⟩⟩
  · rw [head?_range', if_neg (Nat.succ_ne_zero _)] at hb
    exact Option.some.inj hb ▸ h.first
  · rw [range'_concat, getLast?_concat, Nat.one_mul] at hb
    exact h.last b (Option.some.inj hb).le
  · rw [mem_range'_1, and_iff_left trivial, ValidSymbol, h.lower, h.upper]
    omega

end EquivalenceClasses

end Gobo
