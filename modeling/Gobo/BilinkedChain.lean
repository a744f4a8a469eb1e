/-
Chains of cells that are linked in both directions, and the pieces of them between which the
links are being changed.
-/
import Gobo.LinkChain
import Mathlib.Data.List.Chain
import Mathlib.Data.List.Nodup

namespace Gobo

open Option List Function

universe u

variable {X : Type u} {right left right' left' : X → Option X} {xs ys : List X} {a z : X}

/-- The cells of a piece are linked in both directions; the ends may be linked elsewhere. -/
def Bilinked (right left : X → Option X) (xs : List X) : Prop :=
  xs.IsChain fun a b => right a = some b ∧ left b = some a

/-- A whole chain. -/
structure Bichain (right left : X → Option X) (xs : List X) : Prop where
  linked : Bilinked right left xs
  first : ∀ a ∈ xs.head?, left a = none
  last : ∀ a ∈ xs.getLast?, right a = none

namespace Bilinked

theorem congr (h : Bilinked right left xs) (hright : ∀ a ∈ xs.dropLast, right' a = right a)
    (hleft : ∀ a ∈ xs.tail, left' a = left a) : Bilinked right' left' xs := by
  induction xs with
  | nil => exact .nil
  | cons a xs ih =>
      cases xs with
      | nil => exact .singleton a
      | cons b xs =>
          obtain ⟨⟨hab, hba⟩, hrest⟩ := isChain_cons_cons.mp h
          refine isChain_cons_cons.mpr ⟨⟨?_, ?_⟩, ih hrest ?_ ?_⟩
          · rw [hright a mem_cons_self, hab]
          · rw [hleft b mem_cons_self, hba]
          · exact fun c hc => hright c (mem_cons_of_mem a hc)
          · exact fun c hc => hleft c (mem_cons_of_mem b hc)

theorem congr_of_mem (h : Bilinked right left xs) (hright : ∀ a ∈ xs, right' a = right a)
    (hleft : ∀ a ∈ xs, left' a = left a) : Bilinked right' left' xs :=
  h.congr (fun a ha => hright a (dropLast_subset xs ha))
    fun a ha => hleft a (mem_of_mem_tail ha)

theorem append_iff : Bilinked right left (xs ++ ys) ↔ Bilinked right left xs ∧
    Bilinked right left ys ∧
      ∀ a ∈ xs.getLast?, ∀ b ∈ ys.head?, right a = some b ∧ left b = some a :=
  isChain_append

/-- The links of a piece that ends lead over its cells. -/
theorem chain (h : Bilinked right left xs) (hlast : ∀ a ∈ xs.getLast?, right a = none) :
    Chain right xs.head? xs := by
  induction xs with
  | nil => rfl
  | cons a xs ih =>
      refine ⟨rfl, ?_⟩
      cases xs with
      | nil => exact hlast a rfl
      | cons b xs =>
          obtain ⟨⟨hab, -⟩, hrest⟩ := isChain_cons_cons.mp h
          rw [hab]
          exact ih hrest fun c hc => hlast c (by rwa [getLast?_cons_cons])

section

variable [DecidableEq X] (h : Bilinked right left xs) (hnodup : xs.Nodup)

include h hnodup

/-- A cell is linked at the end. -/
theorem concat (hz : z ∉ xs) (ha : xs.getLast? = some a) :
    Bilinked (update right a (some z)) (update left z (some a)) (xs ++ [z]) := by
  obtain ⟨ys, rfl⟩ := getLast?_eq_some_iff.mp ha
  refine append_iff.mpr ⟨h.congr (fun b hb => update_of_ne ?_ _ _)
    (fun b hb => update_of_ne ?_ _ _), .singleton z, ?_⟩
  · rw [dropLast_concat] at hb
    obtain ⟨-, -, hdisjoint⟩ := nodup_append'.mp hnodup
    exact fun hba => hdisjoint hb (hba ▸ mem_singleton.mpr rfl)
  · exact ne_of_mem_of_not_mem (mem_of_mem_tail hb) hz
  · intro b hb c hc
    obtain rfl := some.inj (ha.symm.trans hb)
    obtain rfl := some.inj hc
    exact ⟨update_self .., update_self ..⟩

/-- What follows the last cell is forgotten. -/
theorem forgetRight
    (ha : a ∈ xs → xs.getLast? = some a) : Bilinked (update right a none) left xs := by
  refine h.congr (fun b hb => update_of_ne ?_ _ _) fun b _ => rfl
  rintro rfl
  obtain ⟨ys, rfl⟩ := getLast?_eq_some_iff.mp (ha (dropLast_subset xs hb))
  rw [dropLast_concat] at hb
  exact (nodup_append'.mp hnodup).2.2 hb (mem_singleton.mpr rfl)

/-- What precedes the first cell is forgotten. -/
theorem forgetLeft (ha : a ∈ xs → xs.head? = some a) : Bilinked right (update left a none) xs := by
  refine h.congr (fun b _ => rfl) fun b hb => update_of_ne ?_ _ _
  rintro rfl
  obtain ⟨ys, rfl⟩ := head?_eq_some_iff.mp (ha (mem_of_mem_tail hb))
  exact (nodup_cons.mp hnodup).1 hb

end

end Bilinked

namespace Bichain

theorem chain (h : Bichain right left xs) : Chain right xs.head? xs := h.linked.chain h.last

theorem nodup (h : Bichain right left xs) : xs.Nodup := h.chain.nodup

theorem congr (h : Bichain right left xs) (hright : ∀ a ∈ xs, right' a = right a)
    (hleft : ∀ a ∈ xs, left' a = left a) : Bichain right' left' xs :=
  ⟨h.linked.congr_of_mem hright hleft,
    fun a ha => (hleft a (mem_of_head? ha)).trans (h.first a ha),
    fun a ha => (hright a (mem_of_getLast? ha)).trans (h.last a ha)⟩

/-- The cells around one that is taken out are linked. -/
theorem join (h : Bichain right left (xs ++ z :: ys))
    (hright : ∀ a ∈ xs ++ ys, xs.getLast? ≠ some a → right' a = right a)
    (hleft : ∀ a ∈ xs ++ ys, ys.head? ≠ some a → left' a = left a)
    (hlast : ∀ a ∈ xs.getLast?, right' a = ys.head?)
    (hfirst : ∀ a ∈ ys.head?, left' a = xs.getLast?) : Bichain right' left' (xs ++ ys) := by
  obtain ⟨hxs, hzys, -⟩ := Bilinked.append_iff.mp h.linked
  obtain ⟨-, hys, -⟩ : Bilinked right left [z] ∧ Bilinked right left ys ∧ _ :=
    Bilinked.append_iff.mp hzys
  obtain ⟨hxnodup, hynodup, hdisjoint⟩ := nodup_append'.mp
    (nodup_cons.mp (nodup_middle.mp h.nodup)).2
  refine ⟨Bilinked.append_iff.mpr ⟨hxs.congr (fun a ha => ?_) fun a ha => ?_,
    hys.congr (fun a ha => ?_) fun a ha => ?_, fun a ha b hb => ?_⟩, fun a ha => ?_, fun a ha => ?_⟩
  · refine hright a (mem_append_left _ (dropLast_subset xs ha)) fun hend => ?_
    obtain ⟨zs, rfl⟩ := getLast?_eq_some_iff.mp hend
    rw [dropLast_concat] at ha
    exact (nodup_append'.mp hxnodup).2.2 ha mem_cons_self
  · have hmem := mem_of_mem_tail ha
    exact hleft a (mem_append_left _ hmem)
      fun hhead => hdisjoint hmem (mem_of_head? hhead)
  · have hmem := dropLast_subset ys ha
    exact hright a (mem_append_right _ hmem)
      fun hend => hdisjoint (mem_of_getLast? hend) hmem
  · refine hleft a (mem_append_right _ (mem_of_mem_tail ha)) fun hhead => ?_
    obtain ⟨zs, rfl⟩ := head?_eq_some_iff.mp hhead
    exact (nodup_cons.mp hynodup).1 ha
  · exact ⟨(hlast a ha).trans hb, (hfirst b hb).trans ha⟩
  · cases hx : xs.head? with
    | none =>
        obtain rfl := head?_eq_none_iff.mp hx
        exact hfirst a ha
    | some b =>
        rw [head?_append, hx, some_or] at ha
        obtain rfl := some.inj ha
        have hmem := mem_of_head? hx
        rw [hleft b (mem_append_left _ hmem)
          fun hhead => hdisjoint hmem (mem_of_head? hhead)]
        exact h.first b (by rw [head?_append, hx, some_or, mem_def])
  · cases hy : ys.getLast? with
    | none =>
        obtain rfl := getLast?_eq_none_iff.mp hy
        rw [append_nil] at ha
        exact hlast a ha
    | some b =>
        rw [getLast?_append, hy, some_or] at ha
        obtain rfl := some.inj ha
        have hmem := mem_of_getLast? hy
        rw [hright b (mem_append_right _ hmem)
          fun hend => hdisjoint (mem_of_getLast? hend) hmem]
        refine h.last b ?_
        rw [getLast?_append, getLast?_cons, hy, getD_some, some_or, mem_def]

end Bichain

/-- Two pieces that share no cell. -/
structure Apart (right left : X → Option X) (xs ys : List X) : Prop where
  first : Bilinked right left xs
  second : Bilinked right left ys
  nodup : (xs ++ ys).Nodup

namespace Apart

theorem swap (h : Apart right left xs ys) : Apart right left ys xs :=
  ⟨h.second, h.first, nodup_append_comm.mp h.nodup⟩

theorem disjoint (h : Apart right left xs ys) : xs.Disjoint ys :=
  (nodup_append'.mp h.nodup).2.2

/-- A cell is linked at the end of the first piece. -/
theorem concat [DecidableEq X] (h : Apart right left xs ys) (hz : z ∉ xs ++ ys)
    (ha : xs.getLast? = some a) :
    Apart (update right a (some z)) (update left z (some a)) (xs ++ [z]) ys := by
  obtain ⟨hxs, -, -⟩ := nodup_append'.mp h.nodup
  obtain ⟨hzx, hzy⟩ := not_or.mp (mt mem_append.mpr hz)
  refine ⟨h.first.concat hxs hzx ha, ?_, ?_⟩
  · refine h.second.congr_of_mem (fun b hb => update_of_ne ?_ _ _)
      fun b hb => update_of_ne (ne_of_mem_of_not_mem hb hzy) _ _
    exact (ne_of_mem_of_not_mem (mem_of_getLast? ha) fun ha => h.disjoint ha hb).symm
  · rw [append_assoc]
    exact (perm_middle.symm.nodup_iff).mp (nodup_cons.mpr ⟨hz, h.nodup⟩)

/-- A cell that starts the first piece. -/
theorem singleton [DecidableEq X] (h : Apart right left [] ys) (hz : z ∉ ys) :
    Apart right (update left z none) [z] ys :=
  ⟨.singleton z, h.second.congr_of_mem (fun _ _ => rfl) fun _ hb =>
      update_of_ne (ne_of_mem_of_not_mem hb hz) _ _,
    nodup_cons.mpr ⟨hz, h.nodup⟩⟩

end Apart

end Gobo
