/-
How `parse_reference` reads a scheme, an authority and the segments of a path.
-/
import Gobo.UriParsing
import Mathlib.Data.List.TakeWhile

namespace Gobo

open List Text UriReference

namespace Uri

/-- `read` is read of a path, and `cur` of it is the segment that is not ended. -/
structure Reading (t : Parsing) (read cur : List UInt8) : Prop where
  start_pos : 1 ≤ t.start
  index_eq : t.i = t.start + cur.length
  current_eq : t.uri.part t.start t.i = cur
  read_eq : joined t.uri.pathItems ++ cur = read
  items_free : ∀ segment ∈ t.uri.pathItems, slash ∉ segment
  current_free : slash ∉ cur

section

variable {t : Parsing} {read cur before text after : List UInt8} {c : UInt8}

/-- The part of a reference grows by the next character. -/
theorem part_succ {u : Uri} {start i : Nat} (hstart : start ≤ i) (hi : 1 ≤ i)
    (hc : item u.fullReference i = some c) : u.part start (i + 1) = u.part start i ++ [c] := by
  obtain ⟨j, rfl⟩ := Nat.exists_eq_add_of_le' hi
  unfold part
  rw [Nat.add_sub_cancel, Nat.add_sub_cancel]
  exact substring_succ hstart hc

theorem Reading.character (ht : Reading t read cur) (hstate : t.state = .path) (hslash : c ≠ slash)
    (hq : c ≠ questionMark) (hn : c ≠ numberSign) (hc : item t.uri.fullReference t.i = some c) :
    advance t c = { t with i := t.i + 1 } ∧
      Reading { t with i := t.i + 1 } (read ++ [c]) (cur ++ [c]) := by
  obtain ⟨hpos, hindex, hcur, hread, hitems, hfree⟩ := ht
  constructor
  · obtain ⟨u, i, start, state⟩ := t
    cases hstate
    unfold advance parseCharacter
    rw [if_neg hslash, if_neg hq, if_neg hn]
    simp only [ite_self]
  · refine ⟨hpos, ?_, ?_, ?_, hitems, ?_⟩
    · dsimp only
      rw [hindex, length_append]
      rfl
    · dsimp only
      rw [part_succ (by omega) (by omega) hc, hcur]
    · rw [← hread, append_assoc]
    · rw [mem_append, mem_singleton]
      exact fun h => h.elim hfree (Ne.symm hslash)

/-- A slash ends a segment. -/
theorem Reading.segment (ht : Reading t read cur) :
    Reading ⟨t.uri.stopPathItem t.start t.i, t.i + 1, t.i + 1, .path⟩ (read ++ [slash]) [] := by
  obtain ⟨hpos, hindex, hcur, hread, hitems, hfree⟩ := ht
  refine ⟨Nat.le_add_left 1 t.i, rfl, ?_, ?_, ?_, not_mem_nil⟩
  · exact substring_self _ _
  · unfold stopPathItem
    rw [hcur, joined_concat, append_nil, ← hread, append_assoc]
  · intro segment hsegment
    rcases mem_append.mp hsegment with hmem | hmem
    · exact hitems segment hmem
    · rw [mem_singleton.mp hmem, hcur]
      exact hfree

/-- The rest of a path is read. -/
theorem Reading.scan (ht : Reading t read cur) (hstate : t.state = .path)
    (htext : questionMark ∉ text ∧ numberSign ∉ text)
    (hfull : t.uri.fullReference = before ++ (text ++ after)) (hi : t.i = before.length + 1) :
    ∃ items start cur', Uri.scan t text =
        ⟨{ t.uri with pathItems := items }, t.i + text.length, start, .path⟩ ∧
      Reading ⟨{ t.uri with pathItems := items }, t.i + text.length, start, .path⟩
        (read ++ text) cur' := by
  induction text generalizing t read cur before with
  | nil =>
      obtain ⟨u, i, start, state⟩ := t
      cases hstate
      exact ⟨u.pathItems, start, cur, rfl, (append_nil read).symm ▸ ht⟩
  | cons c text ih =>
      have htail : questionMark ∉ text ∧ numberSign ∉ text :=
        ⟨fun h => htext.1 (mem_cons_of_mem c h), fun h => htext.2 (mem_cons_of_mem c h)⟩
      have hq : c ≠ questionMark := fun h => htext.1 (h ▸ mem_cons_self)
      have hn : c ≠ numberSign := fun h => htext.2 (h ▸ mem_cons_self)
      have hc : item t.uri.fullReference t.i = some c := by
        rw [hfull, hi]
        exact item_append_cons before c (text ++ after)
      have hnext : (before ++ [c]) ++ (text ++ after) = before ++ (c :: text ++ after) := by
        rw [append_assoc]
        rfl
      have hlength : t.i + 1 = (before ++ [c]).length + 1 := by
        rw [hi, length_append]
        rfl
      have hcount : t.i + 1 + text.length = t.i + (c :: text).length := by
        rw [length_cons, Nat.add_right_comm, Nat.add_assoc]
      have happend : read ++ [c] ++ text = read ++ c :: text := by
        rw [append_assoc, singleton_append]
      rw [scan_cons, ← hcount, ← happend]
      by_cases hslash : c = slash
      · have hturn : advance t c =
            ⟨t.uri.stopPathItem t.start t.i, t.i + 1, t.i + 1, .path⟩ := by
          obtain ⟨u, i, start, state⟩ := t
          cases hstate
          rw [hslash]
          rfl
        rw [hturn]
        have hnew := ht.segment
        rw [← hslash] at hnew
        exact ih hnew rfl htail (hfull.trans hnext.symm) hlength
      · obtain ⟨hturn, hnew⟩ := ht.character hstate hslash hq hn hc
        rw [hturn]
        exact ih hnew hstate htail (hfull.trans hnext.symm) hlength

end

/-- `u'` is `u` with the items of `path`; an empty last segment leaves the base
item that was there. -/
def Described (u u' : Uri) (path : List UInt8) : Prop :=
  ∃ items last, u' = { u with
      hasAbsolutePath := decide (path.head? = some slash)
      pathItems := items
      pathBaseItem := if last = [] then u.pathBaseItem else some last } ∧
    (if path.head? = some slash then [slash] else []) ++ (joined items ++ last) = path ∧
    (∀ segment ∈ items, slash ∉ segment) ∧ slash ∉ last

/-- The parser is at the end of `path`, which began with the components of `u` read. -/
structure PathDone (u : Uri) (path : List UInt8) (t : Parsing) : Prop where
  not_query : t.state ≠ .query
  reference_eq : t.uri.fullReference = u.fullReference
  query_eq : t.uri.queryItem = u.queryItem
  fragment_eq : t.uri.fragmentItem = u.fragmentItem
  end_eq : parseEnd t = closePath t
  described : Described u (closePath t) path

section

variable {u : Uri} {t : Parsing} {path read cur before text after : List UInt8}

theorem Reading.stopPathBase (ht : Reading t read cur) : t.uri.stopPathBase t.start t.i =
    { t.uri with pathBaseItem := if cur = [] then t.uri.pathBaseItem else some cur } := by
  have hindex := ht.index_eq
  unfold Uri.stopPathBase
  by_cases hcur : cur = []
  · have hlength : cur.length = 0 := congrArg length hcur
    rw [if_neg (by omega), if_pos hcur]
  · have hpos := length_pos_iff.mpr hcur
    rw [if_pos (by omega), if_neg hcur, ht.current_eq]

/-- The first character of a segment that is not ended is no slash. -/
theorem Reading.item_start (ht : Reading t read cur) (hlt : t.start < t.i) :
    item t.uri.fullReference t.start ≠ some slash := by
  obtain ⟨j, hj⟩ := Nat.exists_eq_add_of_le' ht.start_pos
  intro hitem
  have hcur := ht.current_eq
  rw [hj] at hitem
  unfold part substring at hcur
  have hget : cur[0]? = some slash := by
    rw [← hcur, hj, Nat.add_sub_cancel, getElem?_drop, Nat.add_zero, getElem?_take,
      if_pos (by omega)]
    exact hitem
  exact ht.current_free (mem_of_getElem? hget)

/-- A path that is read but for its last segment. -/
theorem Reading.done (ht : Reading t read cur) (hstate : t.state = .path ∨ t.state = .scheme)
    (habsolute : t.uri.hasAbsolutePath = decide (path.head? = some slash))
    (huri : t.uri = { u with
      hasAbsolutePath := t.uri.hasAbsolutePath, pathItems := t.uri.pathItems })
    (hpath : (if path.head? = some slash then [slash] else []) ++ read = path) :
    PathDone u path t := by
  have hclose : closePath t = t.uri.stopPathBase t.start t.i := by
    unfold closePath
    rcases hstate with h | h <;> rw [h]
  have hend : parseEnd t = closePath t := by
    have hno : ¬(¬(t.uri.stopPathBase t.start t.i).hasAbsolutePath = true ∧ t.start < t.i ∧
        item (t.uri.stopPathBase t.start t.i).fullReference t.start = some slash) := by
      rintro ⟨-, hlt, hitem⟩
      rw [stopPathBase_fullReference] at hitem
      exact ht.item_start hlt hitem
    rw [hclose]
    unfold parseEnd
    rcases hstate with h | h <;> rw [h] <;> exact if_neg hno
  refine ⟨?_, ?_, ?_, ?_, hend, t.uri.pathItems, cur, ?_, ?_, ht.items_free, ht.current_free⟩
  · rcases hstate with h | h <;> rw [h] <;> exact nofun
  · rw [huri]
  · rw [huri]
  · rw [huri]
  · rw [hclose, ht.stopPathBase, ← habsolute]
    rw [huri]
  · rw [ht.read_eq, hpath]

end

/-- The characters that `parse_reference` passes over at the begin of a path. -/
def IsSkipped (c : UInt8) : Prop := c = equalsSign ∨ c = ampersand

instance (c : UInt8) : Decidable (IsSkipped c) :=
  inferInstanceAs (Decidable (_ ∨ _))

theorem scan_index (t : Parsing) (text : List UInt8) : (scan t text).i = t.i + text.length := by
  induction text generalizing t with
  | nil => rfl
  | cons c text ih =>
      rw [scan_cons, ih, length_cons, Nat.add_comm text.length, ← Nat.add_assoc]
      rfl

section

variable {u : Uri} {i start : Nat} {c : UInt8} {path rest before after : List UInt8}

/-- The first character of a path, that is no slash. -/
theorem advance_authorityPrefix (hslash : c ≠ slash) (hskip : ¬IsSkipped c)
    (hq : c ≠ questionMark) (hn : c ≠ numberSign) :
    advance ⟨u, i, start, .authorityPrefix⟩ c =
      ⟨{ u with hasAbsolutePath := decide (start < i) }, i + 1, i, .path⟩ := by
  unfold advance parseCharacter
  rw [if_neg hslash, if_neg hq, if_neg fun h => hskip (Or.inl h),
    if_neg fun h => hskip (Or.inr h), if_neg hn]
  simp only [ite_self]

theorem reading_first {state : State} (hitems : u.pathItems = []) (hi : 1 ≤ i)
    (hc : item u.fullReference i = some c) (hslash : c ≠ slash) :
    Reading ⟨u, i + 1, i, state⟩ [c] [c] := by
  obtain ⟨j, rfl⟩ := Nat.exists_eq_add_of_le' hi
  refine ⟨hi, rfl, ?_, ?_, ?_, ?_⟩
  · change u.part (j + 1) (j + 1 + 1) = [c]
    rw [part_succ (Nat.le_refl _) hi hc, part, Nat.add_sub_cancel, substring_self, nil_append]
  · change joined u.pathItems ++ [c] = [c]
    rw [hitems]
    rfl
  · change ∀ segment ∈ u.pathItems, slash ∉ segment
    rw [hitems]
    exact fun segment h => absurd h not_mem_nil
  · rw [mem_singleton]
    exact Ne.symm hslash

/-- The rest of a path whose first character is read and no slash. -/
theorem done_of_first {absolute : Bool} (hitems : u.pathItems = []) (hi : i = before.length + 1)
    (hfull : u.fullReference = before ++ (c :: rest ++ after)) (hslash : c ≠ slash)
    (hrest : questionMark ∉ rest ∧ numberSign ∉ rest)
    (habsolute : absolute = decide (path.head? = some slash))
    (hpath : (if path.head? = some slash then [slash] else []) ++ c :: rest = path) :
    PathDone u path (scan ⟨{ u with hasAbsolutePath := absolute }, i + 1, i, .path⟩ rest) := by
  have hc : item u.fullReference i = some c := by
    rw [hfull, hi]
    exact item_append_cons before c (rest ++ after)
  have hfirst : Reading ⟨{ u with hasAbsolutePath := absolute }, i + 1, i, .path⟩ [c] [c] :=
    reading_first hitems (by omega) hc hslash
  have hfull' : u.fullReference = before ++ [c] ++ (rest ++ after) := by
    rw [hfull, append_assoc]
    rfl
  have hlength : i + 1 = (before ++ [c]).length + 1 := by
    rw [hi, length_append]
    rfl
  obtain ⟨items, start, cur, hscan, hreading⟩ := hfirst.scan rfl hrest hfull' hlength
  rw [hscan]
  exact hreading.done (Or.inl rfl) habsolute rfl hpath

section

variable (hitems : u.pathItems = []) (hrelative : u.hasAbsolutePath = false)

include hitems hrelative

/-- A path that begins with a slash, which is read. -/
theorem done_of_slash
    (hi : i = before.length + 1) (hfull : u.fullReference = before ++ (slash :: rest ++ after))
    (hrest : questionMark ∉ rest ∧ numberSign ∉ rest) (hdouble : rest.head? ≠ some slash)
    (hskip : ∀ c ∈ rest.head?, ¬IsSkipped c) :
    PathDone u (slash :: rest) (scan ⟨u, i + 1, i, .authorityPrefix⟩ rest) := by
  cases rest with
  | nil =>
      have hslash : item u.fullReference i = some slash := by
        rw [hfull, hi]
        exact item_append_cons before slash ([] ++ after)
      have hlt : i < i + 1 := Nat.lt_succ_self i
      have hgo : ¬u.hasAbsolutePath = true := by
        rw [hrelative]
        exact Bool.false_ne_true
      have hclose : closePath ⟨u, i + 1, i, .authorityPrefix⟩ =
          { u with hasAbsolutePath := true } := by
        change { u with hasAbsolutePath := decide (i < i + 1) } = _
        rw [decide_eq_true hlt]
      refine ⟨nofun, rfl, rfl, rfl, ?_, [], [], ?_, rfl, ?_, not_mem_nil⟩
      · rw [scan_nil, hclose]
        exact if_pos ⟨hgo, hlt, hslash⟩
      · rw [scan_nil, hclose, ← hitems]
        rfl
      · exact fun segment h => absurd h not_mem_nil
  | cons c rest =>
      have hslash : c ≠ slash := fun h => hdouble (congrArg some h)
      have hq : c ≠ questionMark := fun h => hrest.1 (h ▸ mem_cons_self)
      have hn : c ≠ numberSign := fun h => hrest.2 (h ▸ mem_cons_self)
      have htail : questionMark ∉ rest ∧ numberSign ∉ rest :=
        ⟨fun h => hrest.1 (mem_cons_of_mem c h), fun h => hrest.2 (mem_cons_of_mem c h)⟩
      have hfull' : u.fullReference = before ++ [slash] ++ (c :: rest ++ after) := by
        rw [hfull, append_assoc]
        rfl
      have hlength : i + 1 = (before ++ [slash]).length + 1 := by
        rw [hi, length_append]
        rfl
      rw [scan_cons, advance_authorityPrefix hslash (hskip c rfl) hq hn]
      exact done_of_first hitems hlength hfull' hslash htail
        ((decide_eq_true (Nat.lt_succ_self i)).trans (decide_eq_true rfl).symm) rfl

/-- A path after a scheme, without an authority. -/
theorem done_of_scheme
    (hi : i = before.length + 1) (hfull : u.fullReference = before ++ (path ++ after))
    (hpath : questionMark ∉ path ∧ numberSign ∉ path) (hdouble : ¬[slash, slash] <+: path)
    (hskip : ∀ c ∈ path.head?, ¬IsSkipped c)
    (hskip' : ∀ c rest, path = slash :: c :: rest → ¬IsSkipped c) :
    PathDone u path (scan ⟨u, i, i, .authorityPrefix⟩ path) := by
  cases path with
  | nil =>
      have hclose : closePath ⟨u, i, i, .authorityPrefix⟩ = u := by
        change { u with hasAbsolutePath := decide (i < i) } = u
        rw [decide_eq_false (Nat.lt_irrefl i), ← hrelative]
      refine ⟨nofun, rfl, rfl, rfl, ?_, [], [], ?_, rfl, ?_, not_mem_nil⟩
      · rw [scan_nil, hclose]
        exact if_neg fun h => Nat.lt_irrefl i h.2.1
      · rw [scan_nil, hclose, ← hitems]
        exact (congrArg (fun a => { u with hasAbsolutePath := a }) hrelative)
      · exact fun segment h => absurd h not_mem_nil
  | cons c rest =>
      have hq : c ≠ questionMark := fun h => hpath.1 (h ▸ mem_cons_self)
      have hn : c ≠ numberSign := fun h => hpath.2 (h ▸ mem_cons_self)
      have hrest : questionMark ∉ rest ∧ numberSign ∉ rest :=
        ⟨fun h => hpath.1 (mem_cons_of_mem c h), fun h => hpath.2 (mem_cons_of_mem c h)⟩
      by_cases hslash : c = slash
      · have hturn : advance ⟨u, i, i, .authorityPrefix⟩ slash =
            ⟨u, i + 1, i, .authorityPrefix⟩ := by
          unfold advance parseCharacter
          simp only [slash, colon, Nat.lt_irrefl, if_false]
          rfl
        subst hslash
        rw [scan_cons, hturn]
        refine done_of_slash hitems hrelative hi hfull hrest ?_ ?_
        · intro hhead
          obtain ⟨tail, rfl⟩ := head?_eq_some_iff.mp hhead
          exact hdouble ⟨tail, rfl⟩
        · intro a ha
          obtain ⟨tail, rfl⟩ := head?_eq_some_iff.mp ha
          exact hskip' a tail rfl
      · have hhead : (c :: rest).head? ≠ some slash := fun h => hslash (Option.some.inj h)
        rw [scan_cons, advance_authorityPrefix hslash (hskip c rfl) hq hn]
        refine done_of_first hitems hi hfull hslash hrest ?_ ?_
        · rw [decide_eq_false (Nat.lt_irrefl i), decide_eq_false hhead]
        · rw [if_neg hhead]
          rfl

/-- A path that nothing is before. -/
theorem done_of_start
    (hfull : u.fullReference = path ++ after) (hpath : questionMark ∉ path ∧ numberSign ∉ path)
    (hdouble : ¬[slash, slash] <+: path)
    (hcolon : colon ∉ path.takeWhile fun a => a ≠ slash)
    (hskip : ∀ c rest, path = slash :: c :: rest → ¬IsSkipped c) :
    PathDone u path (scan ⟨u, 1, 1, .scheme⟩ path) := by
  let first := path.takeWhile fun a => a ≠ slash
  have hsplit : first ++ path.dropWhile (fun a => a ≠ slash) = path :=
    takeWhile_append_dropWhile
  have hfree : slash ∉ first := fun h => by simpa using mem_takeWhile_imp h
  have hsub : ∀ a ∈ first, a ∈ path := fun a ha => (List.takeWhile_prefix _).subset ha
  have hfirst : colon ∉ first ∧ slash ∉ first ∧ questionMark ∉ first ∧ numberSign ∉ first :=
    ⟨hcolon, hfree, fun h => hpath.1 (hsub _ h), fun h => hpath.2 (hsub _ h)⟩
  have hreading : Reading ⟨u, 1 + first.length, 1, .scheme⟩ first first := by
    have hreference : u.fullReference =
        [] ++ (first ++ (path.dropWhile (fun a => a ≠ slash) ++ after)) := by
      rw [hfull, nil_append, ← append_assoc, hsplit]
    refine ⟨Nat.le_refl 1, rfl, part_eq hreference, ?_, ?_, hfree⟩
    · change joined u.pathItems ++ first = first
      rw [hitems]
      rfl
    · change ∀ segment ∈ u.pathItems, slash ∉ segment
      rw [hitems]
      exact fun segment h => absurd h not_mem_nil
  cases hrest : path.dropWhile (fun a => a ≠ slash) with
  | nil =>
      rw [hrest, append_nil] at hsplit
      have hhead : path.head? ≠ some slash := fun h =>
        hfree (hsplit.symm ▸ mem_of_mem_head? h)
      have hscan : scan ⟨u, 1, 1, .scheme⟩ path = ⟨u, 1 + first.length, 1, .scheme⟩ := by
        conv => lhs; rw [← hsplit]
        exact scan_scheme hfirst u 1 1
      rw [hscan]
      refine hreading.done (Or.inr rfl) ?_ rfl ?_
      · rw [decide_eq_false hhead]
        exact hrelative
      · rw [if_neg hhead]
        exact hsplit
  | cons c rest =>
      have hc : c = slash := by
        have hnot := head?_dropWhile_not (fun a => decide (a ≠ slash)) path
        rw [hrest] at hnot
        simpa using hnot
      rw [hrest, hc] at hsplit
      have hrestFree : questionMark ∉ rest ∧ numberSign ∉ rest := by
        rw [← hsplit] at hpath
        exact ⟨fun h => hpath.1 (mem_append_right _ (mem_cons_of_mem _ h)),
          fun h => hpath.2 (mem_append_right _ (mem_cons_of_mem _ h))⟩
      by_cases hnil : first = []
      · rw [hnil, nil_append] at hsplit
        subst hsplit
        have hturn : advance ⟨u, 1, 1, .scheme⟩ slash = ⟨u, 1 + 1, 1, .authorityPrefix⟩ := rfl
        rw [scan_cons, hturn]
        have hfull' : u.fullReference = [] ++ (slash :: rest ++ after) := hfull
        refine done_of_slash hitems hrelative rfl hfull' hrestFree ?_ ?_
        · intro hhead
          obtain ⟨tail, rfl⟩ := head?_eq_some_iff.mp hhead
          exact hdouble ⟨tail, rfl⟩
        · intro a ha
          obtain ⟨tail, rfl⟩ := head?_eq_some_iff.mp ha
          exact hskip a tail rfl
      · have hpos := length_pos_iff.mpr hnil
        have hhead : path.head? ≠ some slash := by
          rw [← hsplit, head?_append_of_ne_nil _ hnil]
          exact fun h => hfree (mem_of_mem_head? h)
        have hturn : advance ⟨u, 1 + first.length, 1, .scheme⟩ slash =
            ⟨u.stopPathItem 1 (1 + first.length), 1 + first.length + 1, 1 + first.length + 1,
              .path⟩ := by
          have hne : 1 + first.length ≠ 1 := by omega
          unfold advance parseCharacter
          rw [if_neg (by decide), if_pos rfl]
          rw [if_neg hne]
        have hscan : scan ⟨u, 1, 1, .scheme⟩ path =
            scan ⟨u.stopPathItem 1 (1 + first.length), 1 + first.length + 1,
              1 + first.length + 1, .path⟩ rest := by
          conv => lhs; rw [← hsplit]
          rw [scan_append, scan_scheme hfirst, scan_cons, hturn]
        have hreference : u.fullReference = first ++ [slash] ++ (rest ++ after) := by
          rw [hfull, ← hsplit, append_assoc, append_assoc]
          rfl
        have hlength : 1 + first.length + 1 = (first ++ [slash]).length + 1 := by
          rw [length_append, Nat.add_comm 1]
          rfl
        obtain ⟨items, start, cur, hrun, hread⟩ :=
          hreading.segment.scan rfl hrestFree hreference hlength
        rw [hscan, hrun]
        refine hread.done (Or.inl rfl) ?_ rfl ?_
        · rw [decide_eq_false hhead]
          exact hrelative
        · rw [if_neg hhead, ← hsplit, append_assoc]
          rfl

end

/-- An authority and the path after it. -/
theorem done_of_authority {authority : List UInt8} (hitems : u.pathItems = [])
    (hrelative : u.hasAbsolutePath = false) (hi : i = before.length + 1)
    (hfull : u.fullReference = before ++ ([slash, slash] ++ authority ++ (path ++ after)))
    (hauthority : slash ∉ authority ∧ questionMark ∉ authority ∧ numberSign ∉ authority)
    (hpath : questionMark ∉ path ∧ numberSign ∉ path)
    (hafter : path = [] ∨ path.head? = some slash) :
    PathDone { u with authorityItem := some authority } path
      (scan ⟨u, i + 1 + 1, i, .authority⟩ (authority ++ path)) := by
  have hlength : i + 2 = (before ++ [slash, slash]).length + 1 := by
    rw [hi, length_append]
    rfl
  have hpart : u.part (i + 2) (i + 2 + authority.length) = authority := by
    have hreference : u.fullReference =
        before ++ [slash, slash] ++ (authority ++ (path ++ after)) := by
      rw [hfull, append_assoc, append_assoc]
    rw [hlength]
    exact part_eq hreference
  have hlt : i < i + 1 + 1 + authority.length := by omega
  have hstop : u.stopAuthority i (i + 2 + authority.length) =
      { u with authorityItem := some authority } := by
    rw [stopAuthority, hpart]
  rw [scan_append, scan_authority hauthority]
  cases path with
  | nil =>
      refine ⟨nofun, rfl, rfl, rfl, ?_, [], [], ?_, rfl, ?_, not_mem_nil⟩
      · exact if_pos hlt
      · change u.stopAuthority i (i + 2 + authority.length) = _
        rw [hstop, ← hitems]
        exact congrArg (fun a => { u with authorityItem := some authority, hasAbsolutePath := a })
          hrelative
      · exact fun segment h => absurd h not_mem_nil
  | cons c rest =>
      have hc : c = slash := hafter.elim (fun h => nomatch h) fun h => Option.some.inj h
      subst hc
      have hrest : questionMark ∉ rest ∧ numberSign ∉ rest :=
        ⟨fun h => hpath.1 (mem_cons_of_mem _ h), fun h => hpath.2 (mem_cons_of_mem _ h)⟩
      let j := i + 2 + authority.length
      have hturn : advance ⟨u, j, i, .authority⟩ slash =
          ⟨{ u with authorityItem := some authority, hasAbsolutePath := true }, j + 1, j + 1,
            .path⟩ := by
        have hset := congrArg (fun v => Parsing.mk { v with hasAbsolutePath := true } (j + 1)
          (j + 1) .path) hstop
        exact hset
      have hreading : Reading ⟨{ u with authorityItem := some authority, hasAbsolutePath := true },
          j + 1, j + 1, .path⟩ [] [] := by
        refine ⟨Nat.le_add_left 1 j, rfl, substring_self _ _, ?_, ?_, not_mem_nil⟩
        · change joined u.pathItems ++ [] = []
          rw [hitems]
          rfl
        · change ∀ segment ∈ u.pathItems, slash ∉ segment
          rw [hitems]
          exact fun segment h => absurd h not_mem_nil
      have hreference : u.fullReference =
          before ++ [slash, slash] ++ authority ++ [slash] ++ (rest ++ after) := by
        rw [hfull]
        simp only [append_assoc, cons_append, nil_append]
      have hcount : j + 1 = (before ++ [slash, slash] ++ authority ++ [slash]).length + 1 := by
        rw [length_append, length_append]
        change i + 2 + authority.length + 1 = _
        rw [hlength]
        exact congrArg Nat.succ (Nat.add_right_comm _ _ _)
      obtain ⟨items, start, cur, hrun, hread⟩ := hreading.scan rfl hrest hreference hcount
      rw [scan_cons, hturn, hrun]
      exact hread.done (Or.inl rfl) rfl rfl rfl

/-- Two slashes begin an authority, wherever they are read. -/
theorem scan_slashes (u : Uri) (i : Nat) :
    scan ⟨u, i, i, .authorityPrefix⟩ [slash, slash] = ⟨u, i + 1 + 1, i, .authority⟩ ∧
      scan ⟨u, i, i, .scheme⟩ [slash, slash] = ⟨u, i + 1 + 1, i, .authority⟩ := by
  constructor <;> simp [scan, advance, parseCharacter, slash, colon]

/-- The scheme and the colon after it. -/
theorem scan_schemeText {scheme : List UInt8}
    (hscheme : colon ∉ scheme ∧ slash ∉ scheme ∧ questionMark ∉ scheme ∧ numberSign ∉ scheme)
    (hfull : u.fullReference = scheme ++ (colon :: after)) :
    scan ⟨u, 1, 1, .scheme⟩ (scheme ++ [colon]) =
      ⟨{ u with scheme := some scheme }, scheme.length + 1 + 1, scheme.length + 1 + 1,
        .authorityPrefix⟩ := by
  have hbegin : u.fullReference = [] ++ (scheme ++ colon :: after) := hfull
  have hpart : u.part 1 (1 + scheme.length) = scheme := part_eq hbegin
  have hturn : advance ⟨u, 1 + scheme.length, 1, .scheme⟩ colon =
      ⟨u.stopScheme 1 (1 + scheme.length), 1 + scheme.length + 1, 1 + scheme.length + 1,
        .authorityPrefix⟩ := rfl
  rw [scan_append, scan_scheme hscheme, scan_cons, scan_nil, hturn, stopScheme,
    if_pos (Nat.le_add_right 1 _), hpart, Nat.add_comm 1]

end

end Uri

end Gobo
