/-
Doubly linked lists over arbitrary pointer functions.  The elements are those met
from the first one along `next`; `previous` leads back.  An element that was put
first may be unknown to the one behind it, which is then said to be stale.
-/
import Gobo.LinkChain

namespace Gobo

open Function Option List

universe u

variable {X : Type u}

/-- Every element is led back to the one before it, the first one to `p`. -/
def Backward (previous : X → Option X) : Option X → List X → Prop
  | _, [] => True
  | p, x :: xs => previous x = p ∧ Backward previous (some x) xs

namespace Backward

variable {previous : X → Option X} {p : Option X} {xs ys : List X}

theorem append_iff : Backward previous p (xs ++ ys) ↔
    Backward previous p xs ∧ Backward previous (xs.getLast?.or p) ys := by
  induction xs generalizing p with
  | nil => simp [Backward]
  | cons x xs ih =>
      have hlast : (x :: xs).getLast?.or p = xs.getLast?.or (some x) := by
        cases xs with
        | nil => rfl
        | cons y ys => simp [getLast?_cons]
      rw [cons_append, Backward, Backward, ih, hlast, and_assoc]

theorem congr {previous' : X → Option X} (h : Backward previous p xs)
    (heq : ∀ x ∈ xs, previous' x = previous x) : Backward previous' p xs := by
  induction xs generalizing p with
  | nil => trivial
  | cons x xs ih =>
      refine ⟨(heq x mem_cons_self).trans h.1, ih h.2 ?_⟩
      exact fun y hy => heq y (mem_cons_of_mem x hy)

variable [DecidableEq X]

theorem update_of_notMem {x : X} {v : Option X} (h : Backward previous p xs) (hx : x ∉ xs) :
    Backward (update previous x v) p xs := by
  refine h.congr fun y hy => ?_
  have hne : y ≠ x := by
    rintro rfl
    exact hx hy
  exact update_of_ne hne _ _

/-- Without an element: the one behind it gets its predecessor. -/
theorem remove {z : X} (h : Backward previous p (xs ++ z :: ys)) (hnodup : (xs ++ z :: ys).Nodup) :
    Backward (ys.head?.elim previous fun y => update previous y (previous z)) p
      (xs ++ ys) := by
  obtain ⟨hfront, hz, hback⟩ := append_iff.mp h
  cases ys with
  | nil => exact append_iff.mpr ⟨hfront, trivial⟩
  | cons y ys =>
      have hnot : y ∉ xs ∧ y ∉ ys := by
        rw [nodup_append] at hnodup
        obtain ⟨-, hcons, hdisjoint⟩ := hnodup
        obtain ⟨-, hys⟩ := nodup_cons.mp hcons
        refine ⟨fun hmem => ?_, (nodup_cons.mp hys).1⟩
        exact hdisjoint y hmem y (mem_cons_of_mem z mem_cons_self) rfl
      refine append_iff.mpr ⟨hfront.update_of_notMem hnot.1, ?_, hback.2.update_of_notMem hnot.2⟩
      exact (update_self _ _ _).trans hz

end Backward

/-- The pointers of a doubly linked list. -/
structure ListLinks (X : Type u) where
  first : Option X
  last : Option X
  next : X → Option X
  previous : X → Option X

/-- The elements of a list, from the first one on. If `stale` is true, the second one
may be led back to nothing. -/
structure Linked (l : ListLinks X) (stale : Prop) (xs : List X) : Prop where
  chain : Chain l.next l.first xs
  last_eq : l.last = xs.getLast?
  backward : Backward l.previous none xs ∨
    stale ∧ ∃ x ys, xs = x :: ys ∧ l.previous x = none ∧ Backward l.previous none ys

namespace ListLinks

variable [DecidableEq X]

def append (l : ListLinks X) (x : X) : ListLinks X :=
  match l.last with
  | some y =>
      { l with
        next := update l.next y (some x)
        previous := update l.previous x (some y)
        last := some x }
  | none => { l with first := some x, last := some x }

theorem append_of_some {l : ListLinks X} {y : X} (h : l.last = some y) (x : X) : l.append x =
    { l with
      next := update l.next y (some x)
      previous := update l.previous x (some y)
      last := some x } := by
  rw [append, h]

theorem append_of_none {l : ListLinks X} (h : l.last = none) (x : X) :
    l.append x = { l with first := some x, last := some x } := by
  rw [append, h]

def unlink (l : ListLinks X) (x : X) : ListLinks X where
  first := if l.previous x = none then l.next x else l.first
  last := if l.next x = none then l.previous x else l.last
  next := (l.previous x).elim l.next fun y => update l.next y (l.next x)
  previous := (l.next x).elim l.previous fun y => update l.previous y (l.previous x)

/-- Put an element first, without telling the one that was. -/
def jump (l : ListLinks X) (x : X) : ListLinks X :=
  { l with
    next := update l.next x l.first
    previous := update l.previous x none
    first := some x }

end ListLinks

namespace Linked

variable {l : ListLinks X} {stale stale' : Prop} {xs ys : List X}

theorem nodup (h : Linked l stale xs) : xs.Nodup := h.chain.nodup

theorem first_eq (h : Linked l stale xs) : l.first = xs.head? := h.chain.head?_eq.symm

theorem mono (h : Linked l stale xs) (himp : stale → stale') : Linked l stale' xs :=
  ⟨h.chain, h.last_eq, h.backward.imp id fun hstale => ⟨himp hstale.1, hstale.2⟩⟩

theorem congr {l' : ListLinks X} (h : Linked l stale xs) (hfirst : l'.first = l.first)
    (hlast : l'.last = l.last) (hnext : ∀ x ∈ xs, l'.next x = l.next x)
    (hprevious : ∀ x ∈ xs, l'.previous x = l.previous x) : Linked l' stale xs := by
  refine ⟨?_, hlast.trans h.last_eq, ?_⟩
  · rw [hfirst]
    exact h.chain.congr hnext
  · rcases h.backward with hback | ⟨hstale, x, ys, rfl, hx, hback⟩
    · exact Or.inl (hback.congr hprevious)
    · refine Or.inr ⟨hstale, x, ys, rfl, (hprevious x mem_cons_self).trans hx, ?_⟩
      exact hback.congr fun y hy => hprevious y (mem_cons_of_mem x hy)

/-- The first element is led back to nothing. -/
theorem previous_head {x : X} (h : Linked l stale (x :: xs)) : l.previous x = none := by
  rcases h.backward with hback | ⟨-, y, ys, heq, hy, -⟩
  · exact hback.1
  · obtain ⟨rfl, -⟩ := cons.inj heq
    exact hy

variable [DecidableEq X]

theorem append (h : Linked l stale xs) {z : X} (hz : z ∉ xs) (hnext : l.next z = none)
    (hprevious : l.previous z = none) : Linked (l.append z) stale (xs ++ [z]) := by
  have hlast := h.last_eq
  rcases eq_nil_or_concat xs with rfl | ⟨front, y, hxs⟩
  · rw [getLast?_nil] at hlast
    rw [ListLinks.append_of_none hlast]
    exact ⟨⟨rfl, hnext⟩, rfl, Or.inl ⟨hprevious, trivial⟩⟩
  · rw [concat_eq_append] at hxs
    have hy : xs.getLast? = some y := by rw [hxs, getLast?_concat]
    rw [hy] at hlast
    rw [ListLinks.append_of_some hlast]
    refine ⟨?_, ?_, ?_⟩
    · subst hxs
      have hchain := h.chain.insertAfter hz
      have hnone : l.next y = none := h.chain.next_last
      have hsame : update l.next z (l.next y) = l.next := by
        rw [hnone, ← hnext, update_eq_self]
      rw [hsame] at hchain
      rw [append_assoc]
      exact hchain
    · rw [getLast?_concat]
    · have hsnoc : ∀ {p : Option X} {ws : List X}, Backward l.previous p ws → z ∉ ws →
          ws.getLast?.or p = some y →
          Backward (update l.previous z (some y)) p (ws ++ [z]) := by
        intro p ws hback hnot hor
        refine Backward.append_iff.mpr ⟨hback.update_of_notMem hnot, ?_, trivial⟩
        rw [update_self, hor]
      rcases h.backward with hback | ⟨hstale, x, ys, rfl, hx, hback⟩
      · exact Or.inl (hsnoc hback hz (by rw [hy]; rfl))
      · have hzx : z ≠ x := fun heq => hz (heq ▸ mem_cons_self)
        have hnot : z ∉ ys := fun hmem => hz (mem_cons_of_mem x hmem)
        have hx' : update l.previous z (some y) x = none := by
          rw [update_of_ne (Ne.symm hzx), hx]
        cases ys with
        | nil =>
            obtain rfl : x = y := some.inj hy
            exact Or.inl ⟨hx', update_self _ _ _, trivial⟩
        | cons w ws =>
            refine Or.inr ⟨hstale, x, w :: ws ++ [z], rfl, hx', hsnoc hback hnot ?_⟩
            rw [getLast?_cons_cons] at hy
            rw [hy]
            rfl

omit [DecidableEq X] in
theorem backward_of_not_stale (h : Linked l False xs) : Backward l.previous none xs := by
  rcases h.backward with hback | ⟨hfalse, -⟩
  · exact hback
  · exact hfalse.elim

omit [DecidableEq X] in
theorem previous_eq {z : X} (h : Linked l False (xs ++ z :: ys)) : l.previous z = xs.getLast? := by
  have hz := (Backward.append_iff.mp h.backward_of_not_stale).2.1
  rwa [or_none] at hz

omit [DecidableEq X] in
theorem next_eq {z : X} (h : Linked l stale (xs ++ z :: ys)) : l.next z = ys.head? :=
  h.chain.suffix.head?_eq.symm

/-- Without an element whose predecessor is known. -/
theorem unlink {z : X} (h : Linked l False (xs ++ z :: ys)) :
    Linked (l.unlink z) False (xs ++ ys) := by
  have hback := h.backward_of_not_stale
  have hprevious := h.previous_eq
  have hnext := h.next_eq
  have hlast := h.last_eq
  refine ⟨?_, ?_, Or.inl ?_⟩
  · rcases eq_nil_or_concat xs with rfl | ⟨front, y, hxs⟩
    · have hnone : l.previous z = none := hprevious
      simp only [ListLinks.unlink, hnone, if_true, elim_none]
      exact h.chain.suffix
    · rw [concat_eq_append] at hxs
      subst hxs
      have hsome : l.previous z = some y := by rw [hprevious, getLast?_concat]
      have hne : some y ≠ none := some_ne_none y
      simp only [ListLinks.unlink, hsome, if_neg hne, elim_some]
      have hchain := h.chain
      rw [append_assoc] at hchain ⊢
      exact hchain.unlink
  · rw [ListLinks.unlink]
    cases ys with
    | nil =>
        have hnone : l.next z = none := hnext
        rw [if_pos hnone, hprevious, append_nil]
    | cons y ys =>
        have hsome : l.next z = some y := hnext
        have hne : ¬l.next z = none := hsome ▸ some_ne_none y
        simp only [if_neg hne, hlast]
        simp [getLast?_append, getLast?_cons]
  · have hremoved := hback.remove h.nodup
    rw [← hnext] at hremoved
    exact hremoved

/-- Without the first element: the next one is not stale any more. -/
theorem unlink_head {x : X} (h : Linked l stale (x :: ys)) : Linked (l.unlink x) False ys := by
  have hprevious := h.previous_head
  have hnext : l.next x = ys.head? := h.chain.2.head?_eq.symm
  have hlast := h.last_eq
  obtain ⟨p, hback⟩ : ∃ p, Backward l.previous p ys := by
    rcases h.backward with hback | ⟨-, y, zs, heq, -, hback⟩
    · exact ⟨_, hback.2⟩
    · obtain ⟨rfl, rfl⟩ := cons.inj heq
      exact ⟨_, hback⟩
  refine ⟨?_, ?_, Or.inl ?_⟩
  · simp only [ListLinks.unlink, hprevious, if_true, elim_none]
    exact h.chain.2
  · rw [ListLinks.unlink]
    cases ys with
    | nil =>
        have hnone : l.next x = none := hnext
        rw [if_pos hnone, hprevious]
        rfl
    | cons y ys =>
        have hsome : l.next x = some y := hnext
        have hne : ¬l.next x = none := hsome ▸ some_ne_none y
        simp only [if_neg hne, hlast, getLast?_cons_cons]
  · cases ys with
    | nil => trivial
    | cons y ys =>
        have hsome : l.next x = some y := hnext
        have hnot : y ∉ ys := (nodup_cons.mp (nodup_cons.mp h.nodup).2).1
        simp only [ListLinks.unlink, hsome, elim_some]
        refine ⟨?_, hback.2.update_of_notMem hnot⟩
        rw [update_self, hprevious]

/-- Without an element: the first one, or one that is not stale. -/
theorem unlink_of_previous {z : X} (h : Linked l stale (xs ++ z :: ys))
    (hz : l.previous z = none → xs = []) : Linked (l.unlink z) (stale ∧ xs ≠ []) (xs ++ ys) := by
  cases xs with
  | nil => exact h.unlink_head.mono False.elim
  | cons w front =>
      have hprevious : l.previous z ≠ none := fun hnone => cons_ne_nil w front (hz hnone)
      rcases h.backward with hback | ⟨hstale, v, zs, heq, hw, hback⟩
      · have hright : Linked l False (w :: front ++ z :: ys) := ⟨h.chain, h.last_eq, Or.inl hback⟩
        exact hright.unlink.mono False.elim
      · obtain ⟨rfl, rfl⟩ := cons.inj heq
        obtain ⟨hwnot, -⟩ := nodup_cons.mp h.nodup
        -- The elements behind the first one are a list of their own.
        let tail : ListLinks X := { l with first := l.next w }
        have htail : Linked tail False (front ++ z :: ys) := by
          refine ⟨h.chain.2, ?_, Or.inl hback⟩
          have hlast := h.last_eq
          rw [cons_append, getLast?_cons_of_ne_nil (by simp)] at hlast
          exact hlast
        have hunlinked := htail.unlink
        obtain ⟨y, hy⟩ := ne_none_iff_exists'.mp hprevious
        have hylast : front.getLast? = some y := htail.previous_eq.symm.trans hy
        have hne : some y ≠ none := some_ne_none y
        have hyw : w ≠ y := by
          rintro rfl
          exact hwnot (mem_append_left _ (mem_of_getLast? hylast))
        have hnonempty : front ++ ys ≠ [] := by
          intro hnil
          rw [(append_eq_nil_iff.mp hnil).1] at hylast
          exact nomatch hylast
        have hfirst : (l.unlink z).first = some w := by
          rw [ListLinks.unlink]
          simp only [hy, if_neg hne]
          exact h.chain.1
        have hnext : (l.unlink z).next w = l.next w := by
          rw [ListLinks.unlink]
          simp only [hy, elim_some]
          exact update_of_ne hyw _ _
        have htailfirst : (tail.unlink z).first = l.next w := by
          rw [ListLinks.unlink]
          simp only [tail, hy, if_neg hne]
        refine ⟨⟨hfirst, ?_⟩, ?_,
          Or.inr ⟨⟨hstale, cons_ne_nil w front⟩, w, front ++ ys, rfl, ?_, ?_⟩⟩
        · rw [hnext, ← htailfirst]
          exact hunlinked.chain
        · rw [cons_append, getLast?_cons_of_ne_nil hnonempty]
          exact hunlinked.last_eq
        · rw [ListLinks.unlink]
          cases hz : l.next z with
          | none => exact hw
          | some v =>
              have hv : v ∈ ys := by
                have hhead := htail.next_eq
                exact mem_of_head? (hhead.symm.trans hz)
              have hwv : w ≠ v := by
                rintro rfl
                exact hwnot (mem_append_right _ (mem_cons_of_mem z hv))
              exact (update_of_ne hwv _ _).trans hw
        · exact hunlinked.backward_of_not_stale

/-- An element put first without telling the old first one. -/
theorem jump {z : X} (h : Linked l False xs) (hz : z ∉ xs) (hxs : xs ≠ []) :
    Linked (l.jump z) True (z :: xs) := by
  have hback := h.backward_of_not_stale
  refine ⟨h.chain.push hz, ?_, Or.inr ⟨trivial, z, xs, rfl, update_self _ _ _, ?_⟩⟩
  · obtain ⟨y, ys, rfl⟩ := exists_cons_of_ne_nil hxs
    rw [getLast?_cons_cons]
    exact h.last_eq
  · exact hback.update_of_notMem hz

end Linked

end Gobo
