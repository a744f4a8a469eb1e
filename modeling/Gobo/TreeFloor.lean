/-
Cursors that go to the greatest key at or before a key, or to the least at or
after it.
-/
import Gobo.TreeMoves
import Gobo.TreeNotLess

namespace Gobo

open List

variable {G K M : Type} {gen : TreeGenerics G K}

/-- The node before a subtree is an ancestor that has it on its right side. -/
theorem LinkedTree.Holds.rightChild_before {t : LinkedTree M} {q : Path M} {U : Tree M} {v : Nat}
    (h : t.Holds (q.plug U)) (hU : U ≠ .nil) (hv : q.before.getLast? = some v) :
    t.rightChild v ≠ none := by
  induction q generalizing U with
  | root => exact absurd hv (by simp [Path.before])
  | child isLeft i m sib up ih =>
      cases isLeft with
      | true => exact ih h (by simp) hv
      | false =>
          obtain rfl : i = v := by
            rw [Path.before, getLast?_concat] at hv
            exact Option.some.inj hv
          have hchild : t.rightChild i = U.root := h.child_join
          rw [hchild]
          exact fun hnone => hU (Tree.root_eq_none.mp hnone)

namespace TreeContainer

/-- The position on the greatest key at or before `k`. -/
def IsFloor (gen : TreeGenerics G K) (s : TreeContainer G K M) (T : Tree M) (k : Option K) :
    TreePosition → Prop
  | .on i => i ∈ T.ids ∧ gen.order.lessThan k (s.key i) = false ∧
      ∀ j ∈ T.ids, gen.order.lessThan k (s.key j) = false →
        gen.order.lessThan (s.key i) (s.key j) = false
  | .before => ∀ i ∈ T.ids, gen.order.lessThan k (s.key i) = true
  | .after => False

/-- The position on the least key at or after `k`. -/
def IsCeiling (gen : TreeGenerics G K) (s : TreeContainer G K M) (T : Tree M) (k : Option K) :
    TreePosition → Prop
  | .on i => i ∈ T.ids ∧ gen.order.lessThan (s.key i) k = false ∧
      ∀ j ∈ T.ids, gen.order.lessThan (s.key j) k = false →
        gen.order.lessThan (s.key j) (s.key i) = false
  | .after => ∀ i ∈ T.ids, gen.order.lessThan (s.key i) k = true
  | .before => False

section

variable {s : TreeContainer G K M} {T : Tree M} {c i : Nat} {k : K} {front back : List Nat}

/-- The node that `search_insert_position` finds is beside the place of the key. -/
theorem InsertPlace.split {key : Nat → Option K} {k : Option K} {exact isLeft : Bool}
    (h : InsertPlace gen key T k i exact isLeft) (hsorted : SortedIds gen key T.ids) :
    ∃ front back, T.ids = front ++ i :: back ∧
      (∀ j ∈ front, gen.order.lessThan (key j) k = true) ∧
      ∀ j ∈ back, gen.order.lessThan k (key j) = true := by
  cases exact with
  | true =>
      obtain ⟨hi, hequal⟩ : i ∈ T.ids ∧ gen.order.equal k (key i) = true := h
      obtain ⟨front, back, hids⟩ := append_of_mem hi
      rw [hids] at hsorted
      obtain ⟨-, hright, hcross⟩ := pairwise_append.mp hsorted
      refine ⟨front, back, hids, ?_, ?_⟩
      · intro j hj
        exact Comparator.less_of_less_of_equal (hcross j hj i mem_cons_self)
          (Comparator.equal_symm hequal)
      · intro j hj
        exact Comparator.less_of_equal_of_less hequal ((pairwise_cons.mp hright).1 j hj)
  | false =>
      obtain ⟨q, m, o, hplug, hbefore, hafter⟩ : ∃ (q : Path M) (m : M) (o : Tree M),
        T = q.plug (.join isLeft .nil i m o) ∧ Between gen key k
          (Path.child isLeft i m o q).before (Path.child isLeft i m o q).after := h
      have hids : T.ids = (Path.child isLeft i m o q).before ++
          (Path.child isLeft i m o q).after := by
        rw [hplug, ← Path.plug_child, Path.ids_plug, Tree.ids_nil, append_nil]
      cases isLeft with
      | true =>
          refine ⟨q.before, o.ids ++ q.after, hids, hbefore, ?_⟩
          exact fun j hj => hafter j (mem_cons_of_mem i hj)
      | false =>
          refine ⟨q.before ++ o.ids, q.after, ?_, ?_, hafter⟩
          · rw [hids, append_cons]
            rfl
          · exact fun j hj => hbefore j (mem_append_left _ hj)

/-- A registered cursor, or one that is not, is set to a node. -/
theorem Registered.setOn {t : Traversal TreePosition} {cs : List Nat} (h : Registered t cs)
    (c i : Nat) : Registered (t.setPosition c (.on i)) cs := by
  refine ⟨h.listed, ?_⟩
  intro d hd hne
  rw [position_setPosition]
  split_ifs
  · exact Option.some_ne_none i
  · exact h.onNode d hd hne

/-- A cursor is moved and unregistered. -/
theorem Registered.exists_remove {t : Traversal TreePosition} {cs : List Nat}
    (h : Registered t cs) (c : Nat) (p : TreePosition) :
    ∃ t', (t.setPosition c p).removeTraversingCursor c = some t' ∧ t'.position c = p ∧
      ∃ cs', Registered t' cs' := by
  obtain ⟨rest, rfl⟩ := h.listed.exists_cons
  have hset : (t.setPosition c p).Listed ((t.setPosition c p).internalCursor :: rest) := h.listed
  obtain ⟨t', hrun, ht'⟩ := hset.exists_remove c
  refine ⟨t', hrun, ?_, _, ht'.listed, ?_⟩
  · rw [ht'.position, position_setPosition, if_pos rfl]
  · intro d hd hne
    have hnodup := (nodup_cons.mp h.listed.1.nodup).2
    have hinternal : t'.internalCursor = t.internalCursor := ht'.internal
    have hmem : d ∈ rest.erase c := (mem_cons.mp hd).resolve_left (hinternal ▸ hne)
    have hdc : d ≠ c := fun heq => hnodup.not_mem_erase (heq ▸ hmem)
    rw [ht'.position, position_setPosition, if_neg hdc]
    exact h.onNode d (mem_cons_of_mem _ (mem_of_mem_erase hmem)) (hinternal ▸ hne)

/-- Going forth from a node. -/
theorem Sound.exists_forth (hs : Sound gen s T) (hposition : s.cursorPosition c = .on i)
    (hids : T.ids = front ++ i :: back) :
    ∃ t, s.cursorForth c = some { s with cursors := t } ∧
      t.position c = back.head?.elim .after .on ∧ ∃ cs, Registered t cs := by
  obtain ⟨cs, hcs⟩ := hs.cursors
  have hnext : s.successorForCursor i = some back.head? := hs.holds.successor hids
  unfold cursorForth
  rw [hposition, TreePosition.position_on]
  dsimp only
  rw [hnext, some_bind]
  cases back with
  | nil =>
      obtain ⟨t, hrun, ht, hregistered⟩ := hcs.exists_remove c .after
      exact ⟨t, bind_of_some hrun rfl, ht, hregistered⟩
  | cons j back =>
      refine ⟨s.cursors.setPosition c (.on j), rfl, ?_, cs, hcs.setOn c j⟩
      rw [position_setPosition, if_pos rfl]
      rfl

/-- Going back from a node. -/
theorem Sound.exists_back (hs : Sound gen s T) (hposition : s.cursorPosition c = .on i)
    (hids : T.ids = front ++ i :: back) :
    ∃ t, s.cursorBack c = some { s with cursors := t } ∧
      t.position c = front.getLast?.elim .before .on ∧ ∃ cs, Registered t cs := by
  obtain ⟨cs, hcs⟩ := hs.cursors
  have hprevious : s.predecessorForCursor i = some front.getLast? := hs.holds.predecessor hids
  unfold cursorBack
  rw [hposition, TreePosition.position_on]
  dsimp only
  rw [hprevious, some_bind]
  cases front.getLast? with
  | none =>
      obtain ⟨t, hrun, ht, hregistered⟩ := hcs.exists_remove c .before
      exact ⟨t, bind_of_some hrun rfl, ht, hregistered⟩
  | some j =>
      obtain ⟨t, hrun, ht, hregistered⟩ := hcs.exists_remove c (.on j)
      exact ⟨t, bind_of_some hrun rfl, ht, hregistered⟩

/-- Only the cursors, and what the last search found, may differ. -/
structure SameTree (gen : TreeGenerics G K) (s : TreeContainer G K M) (T : Tree M)
    (s' : TreeContainer G K M) : Prop where
  ordered : Ordered gen s' T
  key : s'.key = s.key
  item : s'.item = s.item

theorem SameTree.of_sound {s' : TreeContainer G K M} (hs' : Sound gen s' T) (hkey : s'.key = s.key)
    (hitem : s'.item = s.item) : SameTree gen s T s' :=
  ⟨hs'.toOrdered, hkey, hitem⟩

theorem Sound.ids_eq_nil (hs : Sound gen s T) (hempty : s.isEmpty = true) : T.ids = [] := by
  have hcount : s.count = 0 := by simpa [isEmpty] using hempty
  have hlength := hs.count
  rw [hcount] at hlength
  exact length_eq_zero_iff.mp (by omega)

/-- The node found, and its place among the others. -/
theorem Sound.exists_place (hs : Sound gen s T) (hempty : ¬s.isEmpty = true) (k : K) :
    ∃ i front back s', s.searchInsertPosition gen (some k) = some s' ∧ s'.foundNode = some i ∧
      s'.toLinkedTree = s.toLinkedTree ∧ s'.cursors = s.cursors ∧ s'.key = s.key ∧
      s'.item = s.item ∧ Sound gen s' T ∧ T.ids = front ++ i :: back ∧
      (∀ j ∈ front, gen.order.lessThan (s.key j) (some k) = true) ∧
      (∀ j ∈ back, gen.order.lessThan (some k) (s.key j) = true) ∧
      ∃ exact isLeft, InsertPlace gen s.key T (some k) i exact isLeft := by
  have hT : T ≠ .nil := by
    rintro rfl
    exact hempty (by simp [isEmpty, hs.count])
  obtain ⟨i, exact, isLeft, hrun, hplace⟩ := hs.exists_searchInsertPosition hT (some k)
  obtain ⟨front, back, hids, hfront, hback⟩ := hplace.split hs.sorted
  exact ⟨i, front, back, _, hrun, rfl, rfl, rfl, rfl, rfl, hs.setFound hplace.mem exact isLeft,
    hids, hfront, hback, exact, isLeft, hplace⟩

theorem position_setOn (s : TreeContainer G K M) (c i : Nat) :
    (s.setPosition c i).cursorPosition c = .on i := by
  rw [cursorPosition, setPosition, position_setPosition, if_pos rfl]

/-- `go_at_or_after_key` goes to the first node that is not before the key.  In an
empty tree it does not unregister the cursor. -/
theorem Sound.exists_goAtOrAfter (hs : Sound gen s T) (c : Nat) (k : K) :
    ∃ s' front back, s.cursorGoAtOrAfterKey gen c (some k) = some s' ∧ SameTree gen s T s' ∧
      T.ids = front ++ back ∧ (∀ j ∈ front, gen.order.lessThan (s.key j) (some k) = true) ∧
      (∀ j ∈ back, gen.order.lessThan (s.key j) (some k) = false) ∧
      s'.cursorPosition c = back.head?.elim .after .on ∧
      ((T.ids = [] → ∃ cs, Registered s.cursors cs ∧ c ∉ cs) → Sound gen s' T) := by
  unfold cursorGoAtOrAfterKey
  by_cases hempty : s.isEmpty = true
  · rw [if_pos hempty]
    refine ⟨_, [], [], rfl, ⟨⟨hs.holds, hs.sorted, hs.keyed, hs.first, hs.last⟩, rfl, rfl⟩,
      hs.ids_eq_nil hempty, by simp, by simp, ?_, ?_⟩
    · rw [cursorPosition, setBefore, position_setPosition, if_pos rfl]
      rfl
    · intro hnew
      obtain ⟨cs, hcs, hc⟩ := hnew (hs.ids_eq_nil hempty)
      refine hs.setCursors ⟨cs, hcs.listed, fun d hd hne => ?_⟩
      have hdc : d ≠ c := by
        rintro rfl
        exact hc hd
      rw [position_setPosition, if_neg hdc]
      exact hcs.onNode d hd hne
  · rw [if_neg hempty]
    obtain ⟨i, front, back, s', hrun, hfound, -, -, hkey, hitem, hs', hids, hfront, hback, -⟩ :=
      hs.exists_place hempty k
    obtain ⟨cs, hcs⟩ := hs'.cursors
    have hmoved : Sound gen (s'.setPosition c i) T := hs'.setCursors ⟨cs, hcs.setOn c i⟩
    have hshort : s'.isShort gen k i = gen.order.lessThan (s.key i) (some k) := by
      rw [isShort, hkey]
      cases s.key i <;> rfl
    dsimp only
    rw [hrun, some_bind, hfound, some_bind, hshort]
    by_cases hless : gen.order.lessThan (s.key i) (some k) = true
    · rw [if_pos hless]
      obtain ⟨t, hforth, ht, hregistered⟩ := hmoved.exists_forth (position_setOn s' c i) hids
      refine ⟨_, front ++ [i], back, hforth,
        .of_sound (hmoved.setCursors hregistered) hkey hitem, ?_, ?_, ?_, ht,
        fun _ => hmoved.setCursors hregistered⟩
      · rw [hids, append_cons]
      · intro j hj
        rcases mem_append.mp hj with hmem | hmem
        · exact hfront j hmem
        · exact mem_singleton.mp hmem ▸ hless
      · exact fun j hj => gen.order.asymm (hback j hj)
    · rw [if_neg hless]
      refine ⟨_, front, i :: back, rfl, .of_sound hmoved hkey hitem, hids, hfront, ?_, ?_,
        fun _ => hmoved⟩
      · intro j hj
        rcases mem_cons.mp hj with rfl | hmem
        · exact Bool.eq_false_iff.mpr hless
        · exact gen.order.asymm (hback j hmem)
      · rw [position_setOn]
        rfl

/-- A place below the node of Void is on its right side. -/
theorem InsertPlace.right_of_none {key : Nat → Option K} {exact isLeft : Bool}
    (h : InsertPlace gen key T (some k) i exact isLeft) (hi : key i = none) :
    ∃ (q : Path M) (m : M) (o : Tree M), T = q.plug (.join false .nil i m o) := by
  cases exact with
  | true =>
      have hequal : gen.order.equal (some k) (key i) = true := h.2
      rw [hi] at hequal
      exact absurd (Comparator.equal_iff.mp hequal).2 (by simp [TreeGenerics.order,
        Comparator.withBottom])
  | false =>
      obtain ⟨q, m, o, hplug, hbetween⟩ : ∃ (q : Path M) (m : M) (o : Tree M),
        T = q.plug (.join isLeft .nil i m o) ∧ Between gen key (some k)
          (Path.child isLeft i m o q).before (Path.child isLeft i m o q).after := h
      cases isLeft with
      | true =>
          have hless := hbetween.after i mem_cons_self
          rw [hi] at hless
          exact absurd hless Bool.false_ne_true
      | false => exact ⟨q, m, o, hplug⟩

/-- `go_at_or_before_key` goes to the last node that is not after the key, but it
steps back from the node of Void. -/
theorem Sound.exists_goAtOrBefore (hs : Sound gen s T) (c : Nat) (k : K) :
    ∃ s', s.cursorGoAtOrBeforeKey gen c (some k) = some s' ∧
      ((s'.cursorPosition c = .before ∧ ∃ i, s.key i = none ∧
          (∃ (q : Path M) (m : M) (o : Tree M), T = q.plug (.join false .nil i m o)) ∧
          ∃ back, T.ids = i :: back ∧
            ∀ j ∈ back, gen.order.lessThan (some k) (s.key j) = true) ∨
        ∃ front back, T.ids = front ++ back ∧
          (∀ j ∈ front, gen.order.lessThan (some k) (s.key j) = false) ∧
          (∀ j ∈ back, gen.order.lessThan (some k) (s.key j) = true) ∧
          s'.cursorPosition c = front.getLast?.elim .before .on ∧
          (T.ids = [] ∨ ∃ i exact isLeft, s.key i ≠ none ∧
            InsertPlace gen s.key T (some k) i exact isLeft)) := by
  unfold cursorGoAtOrBeforeKey
  by_cases hempty : s.isEmpty = true
  · rw [if_pos hempty]
    refine ⟨_, rfl, Or.inr ⟨[], [], hs.ids_eq_nil hempty, by simp, by simp, ?_,
      Or.inl (hs.ids_eq_nil hempty)⟩⟩
    rw [cursorPosition, setBefore, position_setPosition, if_pos rfl]
    rfl
  · rw [if_neg hempty]
    obtain ⟨i, front, back, s', hrun, hfound, -, -, hkey, -, hs', hids, hfront, hback, exact,
      isLeft, hplace⟩ := hs.exists_place hempty k
    obtain ⟨cs, hcs⟩ := hs'.cursors
    have hmoved : Sound gen (s'.setPosition c i) T := hs'.setCursors ⟨cs, hcs.setOn c i⟩
    obtain ⟨t, hgo, ht, -⟩ := hmoved.exists_back (position_setOn s' c i) hids
    dsimp only
    rw [hrun, some_bind, hfound, some_bind]
    by_cases hnone : s.key i = none
    · have hbeyond : s'.isBeyond gen k i = true := by
        rw [isBeyond, hkey, hnone]
        rfl
      obtain rfl : front = [] := key_none_iff (hids ▸ hs.sorted) hnone
      rw [if_pos hbeyond]
      exact ⟨_, hgo, Or.inl ⟨ht, i, hnone, hplace.right_of_none hnone, back, hids, hback⟩⟩
    · have hbeyond : s'.isBeyond gen k i = gen.order.lessThan (some k) (s.key i) := by
        obtain ⟨l, hl⟩ := Option.ne_none_iff_exists'.mp hnone
        rw [isBeyond, hkey, hl]
        rfl
      rw [hbeyond]
      by_cases hless : gen.order.lessThan (some k) (s.key i) = true
      · rw [if_pos hless]
        refine ⟨_, hgo, Or.inr ⟨front, i :: back, hids, ?_, ?_, ht,
          Or.inr ⟨i, exact, isLeft, hnone, hplace⟩⟩⟩
        · exact fun j hj => gen.order.asymm (hfront j hj)
        · intro j hj
          rcases mem_cons.mp hj with rfl | hmem
          · exact hless
          · exact hback j hmem
      · rw [if_neg hless]
        refine ⟨_, rfl, Or.inr ⟨front ++ [i], back, ?_, ?_, hback, ?_,
          Or.inr ⟨i, exact, isLeft, hnone, hplace⟩⟩⟩
        · rw [hids, append_cons]
        · intro j hj
          rcases mem_append.mp hj with hmem | hmem
          · exact gen.order.asymm (hfront j hmem)
          · rw [mem_singleton.mp hmem]
            exact Bool.eq_false_iff.mpr hless
        · rw [position_setOn, getLast?_concat]
          rfl

section

variable (gen : TreeGenerics G K) (s : TreeContainer G K M) (T : Tree M)

/-- The node of Void is not the last one before the place of `k`, or has a right
child. -/
def ReachesFloor (k : Option K) : Prop :=
  ∀ v ∈ T.ids, s.key v = none →
    s.rightChild v ≠ none ∨ ∃ j ∈ T.ids, j ≠ v ∧ gen.order.lessThan k (s.key j) = false

/-- `go_at_or_before_key` puts the cursor on the greatest key at or before. -/
def FindsFloor (c : Nat) (k : K) : Prop :=
  ∃ s', s.cursorGoAtOrBeforeKey gen c (some k) = some s' ∧
    s.IsFloor gen T (some k) (s'.cursorPosition c)

/-- `go_at_or_after_key` puts the cursor on the least key at or after. -/
def FindsCeiling (c : Nat) (k : K) : Prop :=
  ∃ s', s.cursorGoAtOrAfterKey gen c (some k) = some s' ∧
    s.IsCeiling gen T (some k) (s'.cursorPosition c)

end

theorem Sound.findsCeiling (hs : Sound gen s T) (c : Nat) (k : K) : s.FindsCeiling gen T c k := by
  obtain ⟨s', front, back, hrun, -, hids, hfront, hback, hposition, -⟩ :=
    hs.exists_goAtOrAfter c k
  refine ⟨s', hrun, ?_⟩
  rw [hposition]
  cases back with
  | nil =>
      intro i hi
      rw [hids, append_nil] at hi
      exact hfront i hi
  | cons i back =>
      refine ⟨by simp [hids], hback i mem_cons_self, ?_⟩
      intro j hj hge
      have hsorted := hs.sorted
      rw [hids] at hj hsorted
      rcases mem_append.mp hj with hmem | hmem
      · rw [hfront j hmem] at hge
        exact absurd hge Bool.false_ne_true.symm
      · rcases mem_cons.mp hmem with rfl | hmem
        · exact gen.order.irrefl _
        · exact gen.order.asymm ((pairwise_cons.mp
            (pairwise_append.mp hsorted).2.1).1 j hmem)

theorem isFloor_of_split (hs : SortedIds gen s.key T.ids) {k : Option K}
    (hids : T.ids = front ++ back) (hfront : ∀ j ∈ front, gen.order.lessThan k (s.key j) = false)
    (hback : ∀ j ∈ back, gen.order.lessThan k (s.key j) = true) :
    s.IsFloor gen T k (front.getLast?.elim .before .on) := by
  rcases eq_nil_or_concat front with rfl | ⟨front, i, rfl⟩
  · intro i hi
    rw [hids, nil_append] at hi
    exact hback i hi
  · rw [concat_eq_append] at hids hfront ⊢
    rw [getLast?_concat]
    refine ⟨by simp [hids], hfront i (by simp), ?_⟩
    intro j hj hle
    rw [hids] at hj hs
    rcases mem_append.mp hj with hmem | hmem
    · rcases mem_append.mp hmem with hmem | hmem
      · exact gen.order.asymm ((pairwise_append.mp
          (pairwise_append.mp hs).1).2.2 j hmem i mem_cons_self)
      · rw [mem_singleton.mp hmem]
        exact gen.order.irrefl _
    · rw [hback j hmem] at hle
      exact absurd hle Bool.false_ne_true.symm

/-- The greatest key at or before a key is found but where the node of Void has it
and no right child. -/
theorem Sound.findsFloor_iff (hs : Sound gen s T) (c : Nat) (k : K) :
    s.FindsFloor gen T c k ↔ s.ReachesFloor gen T (some k) := by
  obtain ⟨s', hrun, hcase⟩ := hs.exists_goAtOrBefore c k
  unfold FindsFloor ReachesFloor
  rcases hcase with ⟨hbefore, i, hnone, ⟨q, m, o, hplug⟩, back, hids, hback⟩ |
    ⟨front, back, hids, hfront, hback, hposition, hplace⟩
  · refine iff_of_false ?_ ?_
    · rintro ⟨s'', hrun', hfloor⟩
      obtain rfl := Option.some.inj (hrun.symm.trans hrun')
      rw [hbefore] at hfloor
      have hless := hfloor i (by simp [hids])
      rw [hnone] at hless
      exact Bool.false_ne_true hless
    · intro hreaches
      rcases hreaches i (by simp [hids]) hnone with hright | ⟨j, hj, hne, hle⟩
      · have hholds : s.Holds (q.plug (.join false .nil i m o)) := hplug ▸ hs.holds
        have hnil : s.rightChild i = none := hholds.child_join
        exact hright hnil
      · rw [hids] at hj
        rw [hback j ((mem_cons.mp hj).resolve_left hne)] at hle
        exact Bool.false_ne_true hle.symm
  · refine iff_of_true ⟨s', hrun, ?_⟩ ?_
    · rw [hposition]
      exact isFloor_of_split hs.sorted hids hfront hback
    · intro v hv hvnone
      by_contra hnot
      push Not at hnot
      obtain ⟨hright, hothers⟩ := hnot
      have hgreater : ∀ j ∈ T.ids, j ≠ v → gen.order.lessThan (some k) (s.key j) = true :=
        fun j hj hne => Bool.of_not_eq_false (hothers j hj hne)
      rcases hplace with hnil | ⟨i, exact, isLeft, hi, hplace⟩
      · rw [hnil] at hv
        exact not_mem_nil hv
      have hless := hgreater i hplace.mem fun heq => hi (heq ▸ hvnone)
      cases exact with
      | true =>
          rw [(Comparator.equal_iff.mp hplace.2).1] at hless
          exact Bool.false_ne_true hless
      | false =>
          obtain ⟨q, m, o, hplug, hbetween⟩ : ∃ (q : Path M) (m : M) (o : Tree M),
            T = q.plug (.join isLeft .nil i m o) ∧ Between gen s.key (some k)
              (Path.child isLeft i m o q).before (Path.child isLeft i m o q).after := hplace
          cases isLeft with
          | false =>
              have hbelow := hbetween.before i (mem_append_right _ mem_cons_self)
              rw [gen.order.asymm hbelow] at hless
              exact Bool.false_ne_true hless
          | true =>
              -- the node of Void is the only one before, so it is an ancestor
              have hids' : T.ids = q.before ++ (Path.child true i m o q).after := by
                rw [hplug, ← Path.plug_child, Path.ids_plug, Tree.ids_nil, append_nil]
                rfl
              have hvbefore : v ∈ q.before := by
                rw [hids'] at hv
                refine (mem_append.mp hv).resolve_right fun hafter => ?_
                have hvless := hbetween.after v hafter
                rw [hvnone] at hvless
                exact Bool.false_ne_true hvless
              have hall : ∀ j ∈ q.before, j = v := by
                intro j hj
                by_contra hne
                have hjless := hgreater j (hids' ▸ mem_append_left _ hj) hne
                rw [gen.order.asymm (hbetween.before j hj)] at hjless
                exact Bool.false_ne_true hjless
              have hlast : q.before.getLast? = some v := by
                obtain ⟨j, hj⟩ := Option.isSome_iff_exists.mp
                  (getLast?_isSome.mpr (ne_nil_of_mem hvbefore))
                rw [hj, hall j (mem_of_getLast? hj)]
              have hholds : s.Holds (q.plug (.join true .nil i m o)) := hplug ▸ hs.holds
              exact hholds.rightChild_before (by simp) hlast hright

end

end TreeContainer

end Gobo
