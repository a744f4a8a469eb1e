/-
The copy of a range of keys to another tree, or to the tree itself.
-/
import Gobo.TreeFloor

namespace Gobo

open List

variable {G K M : Type} {gen : TreeGenerics G K}

namespace TreeContainer

/-- What `copy_key_range` reads from and writes to: two trees, or one. -/
structure Copying (G K M S : Type) where
  source : S → TreeContainer G K M
  setSource : S → TreeContainer G K M → S
  force : S → G → Option K → Option S

/-- The target is another tree, with a comparator and a balance of its own. -/
def toOther {N : Type} (gen' : TreeGenerics G K) (V' : TreeVariant G K N) :
    Copying G K M (TreeContainer G K M × TreeContainer G K N) where
  source := Prod.fst
  setSource := fun t s => (s, t.2)
  force := fun t v k => do
    let target ← t.2.internalPut gen' V' v k
    return (t.1, target)

/-- The target is `Current`. -/
def toCurrent (gen : TreeGenerics G K) (V : TreeVariant G K M) :
    Copying G K M (TreeContainer G K M) where
  source := id
  setSource := fun _ s => s
  force := fun s v k => s.internalPut gen V v k

variable {S : Type}

/-- The locals of the loop in `copy_key_range`. -/
structure CopyLoop (S : Type) where
  state : S
  finished : Bool

/-- `l_finished or l_cursor.after`. -/
def copyEnds (C : Copying G K M S) (c : Nat) (x : CopyLoop S) : Option Bool :=
  some (x.finished || ((C.source x.state).cursorPosition c).isAfter)

/-- One turn of the loop in `copy_key_range`. -/
def copyTurn (gen : TreeGenerics G K) (C : Copying G K M S) (c : Nat) (last : Option K)
    (x : CopyLoop S) : Option (CopyLoop S) := do
  let i ← ((C.source x.state).cursorPosition c).position
  if keyIsLess gen last ((C.source x.state).key i) then
    return ⟨x.state, true⟩
  else
    let t ← C.force x.state ((C.source x.state).item i) ((C.source x.state).key i)
    let s ← (C.source t).cursorForth c
    return ⟨C.setSource t s, x.finished⟩

def copyKeyRange (gen : TreeGenerics G K) (C : Copying G K M S) (t : S)
    (start last : Option K) : Option S := do
  let c := (C.source t).cursors.cursorCount
  let s ← (C.source t).newCursor.cursorGoAtOrAfterKey gen c start
  let x ← loopUntil (copyEnds C c) (copyTurn gen C c last) ((C.source t).created + 2)
    ⟨C.setSource t s, false⟩
  return x.state

/-- Does the key of a pair lie in the range? -/
def inRange (gen : TreeGenerics G K) (start last : Option K) (p : Option K × G) : Bool :=
  !gen.order.lessThan p.1 start && !gen.order.lessThan last p.1

/-- What the copy of the nodes `done` keeps true. -/
structure CopyLaws (gen : TreeGenerics G K) (C : Copying G K M S) (T : Tree M)
    (key : Nat → Option K) (item : Nat → G) (I : S → List Nat → Prop) : Prop where
  sound : ∀ t done, I t done → Sound gen (C.source t) T ∧ (C.source t).key = key ∧
    (C.source t).item = item
  force : ∀ t done, I t done → ∀ i ∈ T.ids, ∃ t', C.force t (item i) (key i) = some t' ∧
    I t' (done ++ [i]) ∧ (C.source t').cursors = (C.source t).cursors
  setSource : ∀ t done, I t done → ∀ s, Sound gen s T → s.key = key → s.item = item →
    I (C.setSource t s) done ∧ C.source (C.setSource t s) = s

section

variable {C : Copying G K M S} {T : Tree M} {key : Nat → Option K} {item : Nat → G}
  {I : S → List Nat → Prop} {c : Nat}

/-- The loop copies the nodes from the cursor on, up to the end of the range. -/
theorem CopyLaws.exists_loop (h : CopyLaws gen C T key item I) {last : Option K} {t : S}
    {done front rest : List Nat} (ht : I t done) (hids : T.ids = front ++ rest)
    (hposition : (C.source t).cursorPosition c = rest.head?.elim .after .on) {fuel : Nat}
    (hfuel : rest.length + 1 < fuel) :
    ∃ t' b, loopUntil (copyEnds C c) (copyTurn gen C c last) fuel ⟨t, false⟩ = some ⟨t', b⟩ ∧
      I t' (done ++ rest.takeWhile fun i => !gen.order.lessThan last (key i)) := by
  induction rest generalizing t done front fuel with
  | nil =>
      obtain ⟨fuel, rfl⟩ : ∃ n, fuel = n + 1 := ⟨fuel - 1, by omega⟩
      refine ⟨t, false, loopUntil_of_stop ?_, ?_⟩
      · rw [copyEnds, hposition]
        rfl
      · rw [takeWhile_nil, append_nil]
        exact ht
  | cons i rest ih =>
      obtain ⟨fuel, rfl⟩ : ∃ n, fuel = n + 1 := ⟨fuel - 1, by omega⟩
      obtain ⟨-, hkey, hitem⟩ := h.sound t done ht
      have hon : (C.source t).cursorPosition c = .on i := hposition
      have hgo : copyEnds C c ⟨t, false⟩ = some false := by
        rw [copyEnds, hon]
        rfl
      have hturn : copyTurn gen C c last ⟨t, false⟩ =
          if gen.order.lessThan last (key i) then some ⟨t, true⟩
          else (C.force t (item i) (key i)).bind fun t' =>
            ((C.source t').cursorForth c).bind fun s => some ⟨C.setSource t' s, false⟩ := by
        unfold copyTurn
        rw [hon, TreePosition.position_on, hkey, hitem, ← keyIsLess_eq]
        rfl
      by_cases hlast : gen.order.lessThan last (key i) = true
      · rw [if_pos hlast] at hturn
        obtain ⟨fuel, rfl⟩ : ∃ n, fuel = n + 1 := ⟨fuel - 1, by simp at hfuel; omega⟩
        refine ⟨t, true, (loopUntil_of_go hgo hturn).trans (loopUntil_of_stop rfl), ?_⟩
        rw [takeWhile_cons_of_neg (by simp [hlast]), append_nil]
        exact ht
      · rw [if_neg hlast] at hturn
        obtain ⟨t', hforce, ht', hcursors⟩ := h.force t done ht i (by simp [hids])
        obtain ⟨hsound, hkey', hitem'⟩ := h.sound t' _ ht'
        have hon' : (C.source t').cursorPosition c = .on i := by
          rw [cursorPosition, hcursors]
          exact hon
        obtain ⟨u, hforth, hu, hregistered⟩ := hsound.exists_forth hon' hids
        obtain ⟨hnext, hsource⟩ :=
          h.setSource t' _ ht' _ (hsound.setCursors hregistered) hkey' hitem'
        rw [hforce, Option.bind_some, hforth, Option.bind_some] at hturn
        obtain ⟨t'', b, hrun, hend⟩ := ih hnext (hids.trans (append_cons front i rest))
          (by rw [hsource]; exact hu) (by simpa using hfuel)
        refine ⟨t'', b, (loopUntil_of_go hgo hturn).trans hrun, ?_⟩
        rw [takeWhile_cons_of_pos (by simp [hlast]), append_cons]
        exact hend

/-- A new cursor is not registered. -/
theorem Registered.newCursor {t : Traversal TreePosition} {cs : List Nat} (h : Registered t cs) :
    Registered (t.newCursor (.away true)).1 cs := by
  have hne : ∀ d ∈ cs, d ≠ t.cursorCount := fun d hd => Nat.ne_of_lt (h.listed.2 d hd)
  refine ⟨⟨h.listed.1.congr ?_, ?_⟩, ?_⟩
  · intro d hd
    exact Function.update_of_ne (hne d hd) _ _
  · intro d hd
    exact Nat.lt_succ_of_lt (h.listed.2 d hd)
  · intro d hd hinternal
    have hsame : (t.newCursor (.away true)).1.position d = t.position d :=
      Function.update_of_ne (hne d hd) _ _
    rw [hsame]
    exact h.onNode d hd hinternal

theorem takeWhile_eq_filter {last : Option K} {ids : List Nat}
    (hsorted : SortedIds gen key ids) :
    (ids.takeWhile fun i => !gen.order.lessThan last (key i)) =
      ids.filter fun i => !gen.order.lessThan last (key i) := by
  induction ids with
  | nil => rfl
  | cons i ids ih =>
      obtain ⟨hi, hrest⟩ := pairwise_cons.mp hsorted
      by_cases hlast : gen.order.lessThan last (key i) = true
      · rw [takeWhile_cons_of_neg (by simp [hlast]), filter_cons_of_neg (by simp [hlast])]
        refine (filter_eq_nil_iff.mpr fun j hj => ?_).symm
        simp [gen.order.trans _ _ _ hlast (hi j hj)]
      · rw [takeWhile_cons_of_pos (by simp [hlast]),
          filter_cons_of_pos (by simp [hlast]), ih hrest]

/-- `copy_key_range` copies the nodes whose keys are in the range, in their order. -/
theorem CopyLaws.exists_copy (h : CopyLaws gen C T key item I) {t : S} (ht : I t [])
    (start : K) (last : Option K) :
    ∃ t', copyKeyRange gen C t (some start) last = some t' ∧
      I t' (T.ids.filter fun i => !gen.order.lessThan (key i) (some start) &&
        !gen.order.lessThan last (key i)) := by
  obtain ⟨hs, hkey, hitem⟩ := h.sound t [] ht
  obtain ⟨cs, hcs⟩ := hs.cursors
  have hnew : Sound gen (C.source t).newCursor T := hs.setCursors ⟨cs, hcs.newCursor⟩
  have hfresh : (C.source t).cursors.cursorCount ∉ cs :=
    fun hmem => Nat.lt_irrefl _ (hcs.listed.2 _ hmem)
  obtain ⟨s, front, back, hgo, hsame, hids, hfront, hback, hposition, hsound⟩ :=
    hnew.exists_goAtOrAfter (C.source t).cursors.cursorCount start
  have hkey' : s.key = key := hsame.key.trans hkey
  obtain ⟨hbegin, hsource⟩ := h.setSource t [] ht s
    (hsound fun _ => ⟨cs, hcs.newCursor, hfresh⟩) hkey' (hsame.item.trans hitem)
  have hlength : back.length + 1 < (C.source t).created + 2 := by
    have hle := hs.holds.length_le
    rw [hids, length_append] at hle
    omega
  have hposition' : (C.source (C.setSource t s)).cursorPosition
      (C.source t).cursors.cursorCount = back.head?.elim .after .on := by
    rw [hsource]
    exact hposition
  obtain ⟨t', b, hrun, hend⟩ := h.exists_loop hbegin hids hposition' hlength
  refine ⟨t', ?_, ?_⟩
  · unfold copyKeyRange
    dsimp only
    rw [hgo, some_bind, hrun]
    rfl
  · have hsorted : SortedIds gen key back := by
      have hall := hs.sorted
      rw [hids, hkey] at hall
      exact (pairwise_append.mp hall).2.1
    rw [nil_append, takeWhile_eq_filter hsorted] at hend
    have hkeyNew : (C.source t).newCursor.key = key := hkey
    rw [hkeyNew] at hfront hback
    have hnil : (front.filter fun i => !gen.order.lessThan (key i) (some start) &&
        !gen.order.lessThan last (key i)) = [] :=
      filter_eq_nil_iff.mpr fun i hi => by simp [hfront i hi]
    have hrest : (back.filter fun i => !gen.order.lessThan (key i) (some start) &&
        !gen.order.lessThan last (key i)) =
        back.filter fun i => !gen.order.lessThan last (key i) :=
      filter_congr fun i hi => by simp [hback i hi]
    rw [hids, filter_append, hnil, nil_append, hrest]
    exact hend

end

/-- The pairs of a map are put into another one. -/
def updated (gen : TreeGenerics G K) (m target : List (Option K × G)) : List (Option K × G) :=
  m.foldl (fun target p => SortedMap.insert gen.order false p.1 p.2 target) target

/-- Another tree, whatever its comparator and its balance, gets the pairs in the
range. -/
def CopiesToOther (gen : TreeGenerics G K) (s : TreeContainer G K M) (T : Tree M) (a b : K) :
    Prop :=
  ∀ (N : Type) (gen' : TreeGenerics G K) (V' : TreeVariant G K N) (L' : TreeLaws gen' V')
    (t : TreeContainer G K N) (U : Tree N), gen'.keyOfItem = none → Sound gen' t U →
    L'.Balanced U →
    ∃ s' t' U', copyKeyRange gen (toOther gen' V') (s, t) (some a) (some b) = some (s', t') ∧
      Sound gen s' T ∧ s'.pairs T = s.pairs T ∧ Sound gen' t' U' ∧ L'.Balanced U' ∧
      t'.pairs U' = updated gen' ((s.pairs T).filter (inRange gen (some a) (some b))) (t.pairs U)

/-- The tree gets its own pairs in the range, so that it stays what it is. -/
def CopiesToCurrent (gen : TreeGenerics G K) (V : TreeVariant G K M) (s : TreeContainer G K M)
    (T : Tree M) (a b : K) : Prop :=
  ∃ s', copyKeyRange gen (toCurrent gen V) s (some a) (some b) = some s' ∧ Sound gen s' T ∧
    s'.pairs T = s.pairs T ∧
    s'.pairs T = updated gen ((s.pairs T).filter (inRange gen (some a) (some b))) (s.pairs T)

section

variable {s : TreeContainer G K M} {T : Tree M} {a b : K}

theorem filter_inRange (s : TreeContainer G K M) (T : Tree M) (start last : Option K) :
    (s.pairs T).filter (inRange gen start last) =
      (T.ids.filter fun i => !gen.order.lessThan (s.key i) start &&
        !gen.order.lessThan last (s.key i)).map fun i => (s.key i, s.item i) :=
  filter_map

theorem updated_concat (m target : List (Option K × G)) (p : Option K × G) :
    updated gen (m ++ [p]) target =
      SortedMap.insert gen.order false p.1 p.2 (updated gen m target) :=
  foldl_append

theorem Sound.copiesToOther (hs : Sound gen s T) (a b : K) : s.CopiesToOther gen T a b := by
  intro N gen' V' L' t U htable ht hU
  let I : TreeContainer G K M × TreeContainer G K N → List Nat → Prop := fun x done =>
    Sound gen x.1 T ∧ x.1.key = s.key ∧ x.1.item = s.item ∧ ∃ U', Sound gen' x.2 U' ∧
      L'.Balanced U' ∧
      x.2.pairs U' = updated gen' (done.map fun i => (s.key i, s.item i)) (t.pairs U)
  have hlaws : CopyLaws gen (toOther gen' V') T s.key s.item I := by
    refine ⟨fun x done hx => ⟨hx.1, hx.2.1, hx.2.2.1⟩, ?_, ?_⟩
    · rintro ⟨s', t'⟩ done ⟨hs', hkey, hitem, U', ht', hU', hpairs⟩ i -
      have hagrees : Agrees gen' (s.item i) (s.key i) := by
        intro f hf
        rw [htable] at hf
        cases hf
      obtain ⟨t'', U'', hput, hstores⟩ := exists_internalPut (V := V') (L := L') ht' hU' hagrees
      refine ⟨(s', t''), ?_, ⟨hs', hkey, hitem, U'', hstores.sound, hstores.balanced, ?_⟩, rfl⟩
      · exact bind_of_some hput rfl
      · have hconcat : updated gen' (done.map (fun i => (s.key i, s.item i)) ++
            [(s.key i, s.item i)]) (t.pairs U) = _ := updated_concat _ _ _
        rw [hstores.pairs, hpairs, htable, map_append]
        exact hconcat.symm
    · rintro ⟨s', t'⟩ done ⟨-, -, -, hrest⟩ s'' hs'' hkey hitem
      exact ⟨⟨hs'', hkey, hitem, hrest⟩, rfl⟩
  have hstart : I (s, t) [] := ⟨hs, rfl, rfl, U, ht, hU, rfl⟩
  obtain ⟨⟨s', t'⟩, hrun, hs', hkey, hitem, U', ht', hU', hpairs⟩ :=
    hlaws.exists_copy hstart a (some b)
  refine ⟨s', t', U', hrun, hs', ?_, ht', hU', ?_⟩
  · unfold pairs
    rw [hkey, hitem]
  · rw [filter_inRange]
    exact hpairs

/-- Putting in a pair that is there changes nothing. -/
theorem insert_self {m : List (Option K × G)} (hm : SortedMap.Sorted gen.order m)
    {p : Option K × G} (hp : p ∈ m) : SortedMap.insert gen.order false p.1 p.2 m = m := by
  obtain ⟨front, back, rfl⟩ := append_of_mem hp
  have hfront := (pairwise_append.mp hm).2.2
  exact SortedMap.insert_at (fun q hq => hfront q hq p mem_cons_self)
    (Comparator.equal_refl p.1)

theorem updated_self {m m' : List (Option K × G)} (hm : SortedMap.Sorted gen.order m)
    (hm' : ∀ p ∈ m', p ∈ m) : updated gen m' m = m := by
  induction m' with
  | nil => rfl
  | cons p m' ih =>
      rw [updated, foldl_cons, insert_self hm (hm' p mem_cons_self)]
      exact ih fun q hq => hm' q (mem_cons_of_mem p hq)

section

variable (hs : Sound gen s T) (V : TreeVariant G K M) (htable : gen.keyOfItem = none)

include hs htable

/-- A pair that is in the tree is put in again. -/
theorem Sound.exists_putAgain {i : Nat} (hi : i ∈ T.ids) :
    ∃ s', s.internalPut gen V (s.item i) (s.key i) = some s' ∧ Sound gen s' T ∧
      s'.key = s.key ∧ s'.item = s.item ∧ s'.cursors = s.cursors := by
  have hne : T ≠ .nil := by
    rintro rfl
    exact not_mem_nil hi
  have hroot : s.rootNode ≠ none := by
    rw [hs.holds.root]
    exact fun hnone => hne (Tree.root_eq_none.mp hnone)
  obtain ⟨node, exact, isLeft, hrun, hplace⟩ := hs.exists_searchInsertPosition hne (s.key i)
  have hfound := hs.setFound hplace.mem exact isLeft
  cases exact with
  | false =>
      obtain ⟨q, m, o, hplug, hbetween⟩ : ∃ (q : Path M) (m : M) (o : Tree M),
        T = q.plug (.join isLeft .nil node m o) ∧ Between gen s.key (s.key i)
          (Path.child isLeft node m o q).before (Path.child isLeft node m o q).after := hplace
      rw [hplug, ← Path.plug_child, Path.ids_plug, Tree.ids_nil, append_nil] at hi
      have habsent := hbetween.absent i hi
      rw [Comparator.equal_refl] at habsent
      exact absurd habsent.symm Bool.false_ne_true
  | true =>
      obtain ⟨hnode, hequal⟩ : node ∈ T.ids ∧ gen.order.equal (s.key i) (s.key node) = true :=
        hplace
      obtain ⟨hless, hgreater⟩ := Comparator.equal_iff.mp hequal
      obtain rfl : i = node := by
        rcases hs.sorted.less_or_eq hi hnode with heq | h | h
        · exact heq
        · exact absurd (hless.symm.trans h) Bool.false_ne_true
        · exact absurd (hgreater.symm.trans h) Bool.false_ne_true
      have hput : s.internalPut gen V (s.item i) (s.key i) = some { s with
          foundNode := some i
          exactInsertPositionFound := true
          insertPositionIsLeft := isLeft } := by
        rw [internalPut, if_neg hroot, hrun]
        dsimp only [some_bind, setItem]
        rw [if_pos rfl, htable, Function.update_eq_self]
        rfl
      exact ⟨_, hput, hfound, rfl, rfl, rfl⟩

theorem Sound.copiesToCurrent (a b : K) : s.CopiesToCurrent gen V T a b := by
  let I : TreeContainer G K M → List Nat → Prop := fun x _ =>
    Sound gen x T ∧ x.key = s.key ∧ x.item = s.item
  have hlaws : CopyLaws gen (toCurrent gen V) T s.key s.item I := by
    refine ⟨fun x done hx => hx, ?_, ?_⟩
    · rintro s' done ⟨hs', hkey, hitem⟩ i hi
      obtain ⟨s'', hput, hs'', hkey', hitem', hcursors⟩ := hs'.exists_putAgain V htable hi
      rw [hkey, hitem] at hput
      exact ⟨s'', hput, ⟨hs'', hkey'.trans hkey, hitem'.trans hitem⟩, hcursors⟩
    · exact fun s' done _ s'' hs'' hkey hitem => ⟨⟨hs'', hkey, hitem⟩, rfl⟩
  obtain ⟨s', hrun, hs', hkey, hitem⟩ := hlaws.exists_copy ⟨hs, rfl, rfl⟩ a (some b)
  have hpairs : s'.pairs T = s.pairs T := by
    unfold pairs
    rw [hkey, hitem]
  refine ⟨s', hrun, hs', hpairs, hpairs.trans (updated_self hs.isSortedMap.sorted ?_).symm⟩
  exact fun p hp => mem_of_mem_filter hp

/-- The three routines do what they say exactly if the floor is reached. -/
theorem findsAndCopies_iff (c : Nat) (k a b : K) :
    s.FindsFloor gen T c k ∧ s.FindsCeiling gen T c k ∧ s.CopiesToOther gen T a b ∧
      s.CopiesToCurrent gen V T a b ↔ s.ReachesFloor gen T (some k) := by
  rw [← hs.findsFloor_iff c k]
  exact and_iff_left ⟨hs.findsCeiling c k, hs.copiesToOther a b, hs.copiesToCurrent V htable a b⟩

end

end

theorem findsAndCopies_two_keys :
    ∃ s T, runAll (exec natTable avlBalancing.variant) make
        [.internalPut 20 (some 2), .internalPut 40 (some 4)] = some s ∧
      s.FindsFloor natTable T 0 3 ∧ s.FindsCeiling natTable T 0 3 ∧
      s.CopiesToOther natTable T 1 3 ∧
      s.CopiesToCurrent natTable avlBalancing.variant T 1 3 := by
  have hpermitted : Permitted (exec natTable avlBalancing.variant) (Pre natTable) make
      [.internalPut 20 (some 2), .internalPut 40 (some 4)] := by decide
  obtain ⟨s, hrun, T, hs, -, hpairs⟩ := run_represents avlBalancing natTable hpermitted
  refine ⟨s, T, hrun, (findsAndCopies_iff hs avlBalancing.variant rfl 0 3 1 3).mpr ?_⟩
  intro v hv hnone
  have hpair : (s.key v, s.item v) ∈ s.pairs T := mem_map_of_mem hv
  rw [hpairs, hnone] at hpair
  have hkey : none ∈ [some 2, some 4] := mem_map_of_mem (f := Prod.fst) hpair
  exact absurd hkey (by decide)

/-- The key 1 is looked for in a tree that has Void as its only key. -/
theorem findsFloor_not_void :
    ∃ s T, runAll (exec natTable plainBalancing.variant) make
        [.internalPut 10 none] = some s ∧ Sound natTable s T ∧
      ¬(s.FindsFloor natTable T 0 1 ∧ s.FindsCeiling natTable T 0 1 ∧
        s.CopiesToOther natTable T 1 1 ∧
        s.CopiesToCurrent natTable plainBalancing.variant T 1 1) := by
  have hpermitted : Permitted (exec natTable plainBalancing.variant) (Pre natTable) make
      [.internalPut 10 none] := by decide
  obtain ⟨s, hrun, T, hs, -, hpairs⟩ := run_represents plainBalancing natTable hpermitted
  have hstate : ∀ s, runAll (exec natTable plainBalancing.variant) make
      [.internalPut 10 none] = some s → s.created = 1 ∧ s.rightChild 0 = none := by
    rintro s ⟨⟩
    exact ⟨rfl, rfl⟩
  obtain ⟨hcreated, hright⟩ := hstate s hrun
  have hzero : ∀ j ∈ T.ids, j = 0 := by
    intro j hj
    have hlt := hs.holds.created j hj
    rw [hcreated] at hlt
    exact Nat.lt_one_iff.mp hlt
  have hmem : (none, 10) ∈ s.pairs T := by
    rw [hpairs]
    decide
  obtain ⟨v, hv, hpair⟩ := mem_map.mp hmem
  obtain rfl := hzero v hv
  refine ⟨s, T, hrun, hs, fun h => ?_⟩
  rcases (hs.findsFloor_iff 0 1).mp h.1 0 hv (congrArg Prod.fst hpair) with h | ⟨j, hj, hne, -⟩
  · exact h hright
  · exact hne (hzero j hj)

end TreeContainer

end Gobo
