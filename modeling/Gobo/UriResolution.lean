/-
The components of a reference that is resolved against a base.
-/
import Gobo.DotSegments
import Gobo.UriRoundTrip

namespace Gobo

open Option List Text UriReference

namespace Uri

/-- No item has a slash, a base item has a character, and a path that is not
absolute does not begin with an empty item. -/
structure Segmented (u : Uri) : Prop where
  items_free : ∀ s ∈ u.pathItems, slash ∉ s
  base_free : ∀ s ∈ u.pathBaseItem, s ≠ [] ∧ slash ∉ s
  rootless : u.hasAbsolutePath = false → u.pathItems.head? ≠ some []

theorem isDot_iff (s : List UInt8) : isDot s = true ↔ s = [dot] := by
  unfold isDot
  rw [decide_eq_true_iff]
  constructor
  · rintro ⟨hlength, hitem⟩
    obtain ⟨a, rfl⟩ := length_eq_one_iff.mp hlength
    exact congrArg (fun a => [a]) (some.inj hitem)
  · rintro rfl
    exact ⟨rfl, rfl⟩

theorem isDotDot_iff (s : List UInt8) : isDotDot s = true ↔ s = [dot, dot] := by
  unfold isDotDot
  rw [decide_eq_true_iff]
  constructor
  · rintro ⟨hlength, hitem, hitem'⟩
    obtain ⟨a, b, rfl⟩ := length_eq_two.mp hlength
    obtain rfl : a = dot := some.inj hitem
    obtain rfl : b = dot := some.inj hitem'
    rfl
  · rintro rfl
    exact ⟨rfl, rfl, rfl⟩

theorem resolveSegment_eq (someItems : List (List UInt8)) (segment : List UInt8) :
    resolveSegment someItems segment = pushSegment someItems segment := by
  unfold resolveSegment pushSegment
  rw [ite_congr (propext (isDot_iff segment)) (fun _ => rfl) fun _ => rfl,
    ite_congr (propext (isDotDot_iff segment)) (fun _ => rfl) fun _ => rfl]
  cases someItems <;> rfl

theorem ite_isDotSegment {A : Type} (s : List UInt8) (x y : A) :
    (if isDot s ∨ isDotDot s then x else y) = if IsDotSegment s then x else y :=
  ite_congr (propext (or_congr (isDot_iff s) (isDotDot_iff s))) (fun _ => rfl) fun _ => rfl

/-- The characters from the second on are those that the `inspect` names. -/
def BuildsItems (s : List UInt8) : Prop :=
  ∀ a ∈ s.drop 1, a = equalsSign ∨ a = ampersand

theorem buildQueryItems_eq {u : Uri} (hquery : ∀ s ∈ u.queryItem, BuildsItems s) :
    u.buildQueryItems = some u := by
  obtain ⟨reference, scheme, authority, absolute, items, base, query, fragment⟩ := u
  cases query with
  | none => rfl
  | some s =>
      have hturn : ∀ i, 2 ≤ i → i ≤ s.length →
          ∃ i', queryTurn s i = some i' ∧ i < i' ∧ 2 ≤ i' := by
        intro i hi hle
        obtain ⟨j, rfl⟩ := Nat.exists_eq_add_of_le' hi
        have hlt : j + 1 < s.length := hle
        have hmem : s[j + 1] ∈ s.drop 1 := by
          refine mem_iff_getElem.mpr ⟨j, by rw [length_drop]; omega, ?_⟩
          rw [getElem_drop]
          exact getElem_congr_idx (Nat.add_comm 1 j)
        have hitem : item s (j + 2) = some s[j + 1] := getElem?_eq_getElem hlt
        refine ⟨j + 2 + 1, ?_, Nat.lt_succ_self _, by omega⟩
        unfold queryTurn
        rw [hitem]
        rcases hquery s rfl s[j + 1] hmem with h | h
        · exact if_pos h
        · exact (ite_congr rfl (fun _ => rfl) fun _ => if_pos h).trans (ite_self _)
      have hloop : ∃ i', loopUntil (fun i => some (decide (s.length < i))) (queryTurn s)
          (s.length + 1) 2 = some i' ∧ s.length < i' ∧ 2 ≤ i' :=
        loopUntil_index (fun i => 2 ≤ i) (fun i => rfl) hturn (Nat.le_refl 2)
          (by omega : s.length + 1 - 2 < s.length + 1)
      obtain ⟨i', hrun, -⟩ := hloop
      unfold buildQueryItems
      dsimp only
      rw [hrun]
      rfl

/-- The second loop of `resolve_path` removes the empty ones of the items that are
left. -/
theorem sweep_eq (pre rest : List (List UInt8)) {fuel : Nat} (hfuel : rest.length < fuel) :
    ∃ t, loopUntil Sweep.isAfter sweepTurn fuel
        ⟨pre ++ rest, pre.length + 1, (pre ++ rest).length⟩ = some t ∧
      t.someItems = pre ++ rest.filter fun s => s ≠ [] := by
  induction rest generalizing pre fuel with
  | nil =>
      obtain ⟨fuel, rfl⟩ := Nat.exists_eq_add_of_lt hfuel
      refine ⟨_, loopUntil_of_stop (congrArg some (decide_eq_true ?_)), rfl⟩
      exact length_lt_iff.mpr rfl
  | cons segment rest ih =>
      obtain ⟨fuel, rfl⟩ := Nat.exists_eq_add_of_lt hfuel
      have hgo : Sweep.isAfter ⟨pre ++ segment :: rest, pre.length + 1,
          (pre ++ segment :: rest).length⟩ = some false :=
        congrArg some (decide_eq_false fun h => cons_ne_nil segment rest (length_lt_iff.mp h))
      have hitem : item (pre ++ segment :: rest) (pre.length + 1) = some segment :=
        item_append_cons pre segment rest
      have hmore : rest.length < (segment :: rest).length + fuel :=
        Nat.lt_add_right fuel (Nat.lt_succ_self _)
      by_cases hnil : segment = []
      · have herase : (pre ++ segment :: rest).eraseIdx (pre.length + 1 - 1) = pre ++ rest := by
          rw [Nat.add_sub_cancel, eraseIdx_append_of_length_le (Nat.le_refl _), Nat.sub_self]
          rfl
        have hnb : (pre ++ segment :: rest).length - 1 = (pre ++ rest).length := by
          rw [length_append, length_append]
          rfl
        have hturn : sweepTurn ⟨pre ++ segment :: rest, pre.length + 1,
            (pre ++ segment :: rest).length⟩ =
            some ⟨pre ++ rest, pre.length + 1, (pre ++ rest).length⟩ := by
          unfold sweepTurn
          rw [hitem, herase, hnb, hnil]
          rfl
        obtain ⟨t, hrun, ht⟩ := ih pre hmore
        refine ⟨t, (loopUntil_of_go hgo hturn).trans hrun, ?_⟩
        rw [filter_cons_of_neg (by simpa using hnil)]
        exact ht
      · have happend : pre ++ segment :: rest = pre ++ [segment] ++ rest :=
          append_cons pre segment rest
        have hlength : pre.length + 1 + 1 = (pre ++ [segment]).length + 1 := by
          rw [length_append]
          rfl
        have hturn : sweepTurn ⟨pre ++ segment :: rest, pre.length + 1,
            (pre ++ segment :: rest).length⟩ = some ⟨pre ++ [segment] ++ rest,
              (pre ++ [segment]).length + 1, (pre ++ [segment] ++ rest).length⟩ := by
          unfold sweepTurn
          rw [hitem, ← happend, ← hlength]
          exact congrArg some (if_neg (by simpa using hnil))
        obtain ⟨t, hrun, ht⟩ := ih (pre ++ [segment]) hmore
        refine ⟨t, (loopUntil_of_go hgo hturn).trans hrun, ?_⟩
        rw [filter_cons_of_pos (by simpa using hnil), append_cons]
        exact ht

/-- The first loop of `resolve_path` handles the items in their order. -/
theorem forUp_items (pre rest someItems : List (List UInt8)) :
    forUp (fun i someItems => (item (pre ++ rest) i).map (resolveSegment someItems)) rest.length
      (pre.length + 1) someItems = some (rest.foldl pushSegment someItems) := by
  induction rest generalizing pre someItems with
  | nil => rfl
  | cons segment rest ih =>
      have hlength : pre.length + 1 + 1 = (pre ++ [segment]).length + 1 := by
        rw [length_append]
        rfl
      rw [length_cons, forUp, item_append_cons, map_some, bind_some,
        resolveSegment_eq, hlength, append_cons, ih (pre ++ [segment])]
      rfl

theorem moveBaseItem_eq (u : Uri) (hbase : ∀ s ∈ u.pathBaseItem, s ≠ []) :
    u.moveBaseItem = { u with
      pathItems := withDotSegment u.pathItems (u.pathBaseItem.getD [])
      pathBaseItem := if lastLeft (u.pathBaseItem.getD []) = [] then none
        else some (lastLeft (u.pathBaseItem.getD [])) } := by
  obtain ⟨reference, scheme, authority, absolute, items, base, query, fragment⟩ := u
  unfold moveBaseItem withDotSegment lastLeft
  cases base with
  | none => rfl
  | some base =>
      dsimp only [getD_some]
      rw [ite_isDotSegment]
      split_ifs with hdots hnil hnil
      · rfl
      · exact absurd rfl hnil
      · exact absurd hnil (hbase base rfl)
      · rfl

/-- `resolve_path` removes the dot segments of the reference, and empty segments. -/
theorem resolvePath_eq (u base : Uri) (hbase : ∀ s ∈ u.pathBaseItem, s ≠ []) :
    u.resolvePath base = some { u with
      hasAbsolutePath := true
      pathItems := ((withDotSegment u.pathItems (u.pathBaseItem.getD [])).foldl pushSegment
        base.pathItems).filter fun s => s ≠ []
      pathBaseItem := if lastLeft (u.pathBaseItem.getD []) = [] then none
        else some (lastLeft (u.pathBaseItem.getD [])) } := by
  unfold resolvePath
  rw [moveBaseItem_eq u hbase]
  dsimp only
  have hloop := forUp_items [] (withDotSegment u.pathItems (u.pathBaseItem.getD []))
    base.pathItems
  rw [nil_append, length_nil, Nat.zero_add] at hloop
  rw [hloop]
  obtain ⟨t, hrun, ht⟩ := sweep_eq [] ((withDotSegment u.pathItems
    (u.pathBaseItem.getD [])).foldl pushSegment base.pathItems) (Nat.lt_succ_self _)
  rw [nil_append] at hrun ht
  dsimp only [some_bind]
  rw [length_nil, Nat.zero_add] at hrun
  rw [hrun, ← ht]
  rfl

section

variable {u base : Uri}

/-- The last segment, an empty one where there is no base item. -/
def last (u : Uri) : List UInt8 := u.pathBaseItem.getD []

theorem path_def (u : Uri) :
    u.path = (if u.hasAbsolutePath then [slash] else []) ++ (joined u.pathItems ++ u.last) :=
  append_assoc _ _ _

theorem Segmented.last_free (hu : u.Segmented) : slash ∉ u.last := by
  unfold last
  cases h : u.pathBaseItem with
  | none => exact not_mem_nil
  | some s => exact (hu.base_free s h).2

theorem Segmented.head?_path (hu : u.Segmented) :
    u.path.head? = some slash ↔ u.hasAbsolutePath = true := by
  rw [path_def]
  cases habsolute : u.hasAbsolutePath with
  | true => exact ⟨fun _ => rfl, fun _ => rfl⟩
  | false =>
      refine ⟨fun hhead => absurd hhead ?_, nofun⟩
      rw [if_neg Bool.false_ne_true, nil_append]
      cases hitems : u.pathItems with
      | nil => exact fun h => hu.last_free (mem_of_mem_head? h)
      | cons segment items =>
          have hne : segment ≠ [] := fun h => hu.rootless habsolute (by rw [hitems, h]; rfl)
          have hsegment : slash ∉ segment := hu.items_free segment (hitems ▸ mem_cons_self)
          rw [joined_cons, append_assoc, head?_append_of_ne_nil _ hne]
          exact fun h => hsegment (mem_of_mem_head? h)

theorem Segmented.hasPath_iff (hu : u.Segmented) : u.hasPath = true ↔ u.path ≠ [] := by
  rw [path_def]
  unfold hasPath last
  cases u.hasAbsolutePath with
  | true => exact ⟨fun _ => cons_ne_nil _ _, fun _ => rfl⟩
  | false =>
      cases hbase : u.pathBaseItem with
      | some s =>
          refine ⟨fun _ h => (hu.base_free s hbase).1 ?_, fun _ => rfl⟩
          exact (append_eq_nil_iff.mp (append_eq_nil_iff.mp h).2).2
      | none =>
          cases u.pathItems with
          | nil => exact ⟨nofun, fun h => absurd rfl h⟩
          | cons segment items =>
              refine ⟨fun _ h => ?_, fun _ => rfl⟩
              have hnil := (append_eq_nil_iff.mp (append_eq_nil_iff.mp h).2).1
              rw [joined_cons] at hnil
              exact cons_ne_nil _ _ (append_eq_nil_iff.mp hnil).2

/-- A path that is put together with that of the base. -/
def Merges (c : Components) : Prop :=
  c.scheme = none ∧ c.authority = none ∧ c.path ≠ [] ∧ c.path.head? ≠ some slash

/-- A reference to the document of the base: it has at most a fragment. -/
def KeepsQuery (c : Components) : Prop :=
  c.scheme = none ∧ c.authority = none ∧ c.path = [] ∧ c.query = none

/-- The target of the RFC, but for its dot segments: they are removed from a merged
path only, and this is made absolute, without empty segments. -/
def resolved : Components → Components → Components :=
  transform id fun path => singleSlashed (removeDotSegments path)

/-- `resolve_path` gives the path of the target. -/
theorem Segmented.resolvePath (hu : u.Segmented) (hbase : base.Segmented)
    (hrelative : u.hasAbsolutePath = false) (hdots : ∀ s ∈ base.pathItems, ¬IsDotSegment s) :
    ∃ u', u.resolvePath base = some u' ∧ u'.Segmented ∧
      u' = { u with
        hasAbsolutePath := true, pathItems := u'.pathItems, pathBaseItem := u'.pathBaseItem } ∧
      u'.path = singleSlashed (removeDotSegments (merge base.components u.path)) := by
  refine ⟨_, resolvePath_eq u base fun s hs => (hu.base_free s hs).1, ⟨?_, ?_, nofun⟩, rfl, ?_⟩
  · intro s hs
    exact foldl_pushSegment_free hbase.items_free
      (withDotSegment_free hu.items_free hu.last_free) s (mem_filter.mp hs).1
  · intro s hs
    dsimp only at hs
    split_ifs at hs with hnil
    · exact absurd hs (not_mem_none s)
    · obtain rfl := some.inj hs
      exact ⟨hnil, lastLeft_free hu.last_free⟩
  · have hroot : (if base.hasAbsolutePath then [slash] else []) = [slash] ∨
        (if base.hasAbsolutePath then [slash] else []) = [] := by
      cases base.hasAbsolutePath with
      | true => exact Or.inl rfl
      | false => exact Or.inr rfl
    have hpath : u.path = joined u.pathItems ++ u.last := by
      rw [path_def, hrelative]
      rfl
    rw [hpath, singleSlashed_merge hroot (path_def base) hbase.items_free hbase.last_free hdots
      hu.items_free hu.last_free, path_def]
    have hend : (if lastLeft u.last = [] then none else some (lastLeft u.last)).getD [] =
        lastLeft u.last := by
      split_ifs with hnil
      · exact hnil.symm
      · rfl
    exact congrArg (fun end' => slash :: (joined _ ++ end')) hend

/-- The two things that a resolution may stumble over: a query that no items are
made of, and dot segments that the base itself has. -/
structure Resolvable (base : Uri) (c : Components) : Prop where
  builds : KeepsQuery c → ∀ s ∈ base.queryItem, BuildsItems s
  no_dots : Merges c → ∀ s ∈ base.pathItems, ¬IsDotSegment s

/-- The components of a resolved reference. -/
theorem Segmented.resolveComponents (hu : u.Segmented) (hbase : base.Segmented)
    (hresolvable : Resolvable base u.components) :
    ∃ u', u.resolveComponents base = some u' ∧ u'.Segmented ∧
      u'.components = resolved base.components u.components := by
  obtain ⟨hbuilds, hdots⟩ := hresolvable
  unfold Uri.resolveComponents resolved transform
  by_cases hscheme : u.scheme = none
  · have hscheme' : ¬u.components.scheme ≠ none := not_not_intro hscheme
    rw [if_neg (by simp [hscheme]), if_neg hscheme']
    by_cases hauthority : u.authorityItem = none
    · have hauthority' : ¬u.components.authority ≠ none := not_not_intro hauthority
      rw [if_neg (by simp [hauthority]), if_neg hauthority']
      unfold resolveRelativePath
      by_cases hempty : u.path = []
      · have hnone : ¬u.hasPath = true := fun h => hu.hasPath_iff.mp h hempty
        have hsegmented : ∀ v : Uri, v.hasAbsolutePath = base.hasAbsolutePath →
            v.pathItems = base.pathItems → v.pathBaseItem = base.pathBaseItem →
            v.Segmented ∧ v.path = base.path := by
          intro v habsolute hitems hitem
          refine ⟨⟨?_, ?_, ?_⟩, ?_⟩
          · rw [hitems]
            exact hbase.items_free
          · rw [hitem]
            exact hbase.base_free
          · rw [habsolute, hitems]
            exact hbase.rootless
          · rw [Uri.path, habsolute, hitems, hitem]
            rfl
        rw [if_pos hnone, if_pos (show u.components.path = [] from hempty)]
        by_cases hquery : u.queryItem = none
        · have hkeeps : KeepsQuery u.components := ⟨hscheme, hauthority, hempty, hquery⟩
          rw [if_pos (show u.components.path = [] ∧ u.components.query = none from
            ⟨hempty, hquery⟩)]
          have hbuild := buildQueryItems_eq (u := { u with
            hasAbsolutePath := base.hasAbsolutePath
            pathItems := base.pathItems
            pathBaseItem := base.pathBaseItem
            queryItem := base.queryItem }) (hbuilds hkeeps)
          dsimp only
          rw [if_neg (by simp [hquery]), hbuild, ite_self]
          obtain ⟨hv, hpath⟩ := hsegmented
            { u with
              scheme := base.scheme
              authorityItem := base.authorityItem
              hasAbsolutePath := base.hasAbsolutePath
              pathItems := base.pathItems
              pathBaseItem := base.pathBaseItem
              queryItem := base.queryItem } rfl rfl rfl
          exact ⟨_, rfl, hv, congrArg (fun p => Components.mk _ _ p _ _) hpath⟩
        · rw [if_neg (show ¬(u.components.path = [] ∧ u.components.query = none) from
            fun h => hquery h.2)]
          rw [if_pos (by simpa [isSome_iff_ne_none] using hquery)]
          obtain ⟨hv, hpath⟩ := hsegmented
            { u with
              scheme := base.scheme
              authorityItem := base.authorityItem
              hasAbsolutePath := base.hasAbsolutePath
              pathItems := base.pathItems
              pathBaseItem := base.pathBaseItem } rfl rfl rfl
          exact ⟨_, rfl, hv, congrArg (fun p => Components.mk _ _ p _ _) hpath⟩
      · have hsome : u.hasPath = true := hu.hasPath_iff.mpr hempty
        have hquery : ¬(u.components.path = [] ∧ u.components.query = none) :=
          fun h => hempty h.1
        rw [if_neg (not_not_intro hsome), if_neg (show ¬u.components.path = [] from hempty),
          if_neg hquery]
        by_cases habsolute : u.hasAbsolutePath = true
        · have hhead : u.components.path.head? = some slash := hu.head?_path.mpr habsolute
          rw [if_pos habsolute, if_pos hhead]
          exact ⟨_, rfl, ⟨hu.items_free, hu.base_free, hu.rootless⟩, rfl⟩
        · have hhead : ¬u.components.path.head? = some slash :=
            fun h => habsolute (hu.head?_path.mp h)
          have hmerges : Merges u.components := ⟨hscheme, hauthority, hempty, hhead⟩
          obtain ⟨u', hrun, hu', heq, hpath⟩ := hu.resolvePath hbase
            (Bool.eq_false_iff.mpr habsolute) (hdots hmerges)
          rw [if_neg habsolute, if_neg hhead, hrun]
          refine ⟨_, rfl, ⟨hu'.items_free, hu'.base_free, hu'.rootless⟩, ?_⟩
          rw [heq] at hpath ⊢
          exact congrArg (fun p => Components.mk _ _ p _ _) hpath
    · have hauthority' : u.components.authority ≠ none := hauthority
      rw [if_pos (by simpa [isSome_iff_ne_none] using hauthority), if_pos hauthority']
      exact ⟨_, rfl, ⟨hu.items_free, hu.base_free, hu.rootless⟩, rfl⟩
  · have hscheme' : u.components.scheme ≠ none := hscheme
    rw [if_pos (by simpa [isSome_iff_ne_none] using hscheme), if_pos hscheme']
    exact ⟨u, rfl, hu, rfl⟩

/-- Two objects are resolved. -/
theorem Segmented.resolveRelativeTo (hu : u.Segmented) (hbase : base.Segmented)
    (hresolvable : Resolvable base u.components) :
    ∃ u', u.resolveRelativeTo base = some u' ∧ u'.Segmented ∧
      u'.components = resolved base.components u.components ∧
      u'.fullReference = u'.components.text := by
  obtain ⟨v, hrun, hv, hcomponents⟩ := hu.resolveComponents hbase hresolvable
  unfold Uri.resolveRelativeTo
  rw [hrun]
  refine ⟨_, rfl, ⟨hv.items_free, hv.base_free, hv.rootless⟩, hcomponents, ?_⟩
  exact newFullReference_eq v

/-- A new object parses a well-formed reference into its components, but for those
references that the parser misreads. -/
theorem segmented_make {c : Components} (hc : c.WellFormed) (hskip : ¬SkipsFirst c)
    (hquery : NoQuestionMark c.query) (hfragment : NoQuestionMark c.fragment) :
    ∃ u, make blank c.text = some u ∧ u.Segmented ∧ u.components = c := by
  obtain ⟨v, q, f, hrun, hdescribed, hiff⟩ := parse_wellFormed blank hc hskip
  obtain ⟨rfl, rfl⟩ := hiff.mpr ⟨hquery, hfragment⟩
  have hpath : v.path = c.path := by
    rw [hdescribed.path_eq, ite_congr rfl (fun _ => rfl) fun _ => rfl]
    split_ifs
    · exact append_nil _
    · exact append_nil _
  obtain ⟨items, last, rfl, htext, hitems, hlast⟩ := hdescribed
  refine ⟨_, (make_eq _ _).trans (congrArg some hrun), ⟨hitems, ?_, ?_⟩, ?_⟩
  · intro s hs
    dsimp only at hs
    split_ifs at hs with hnil
    · exact absurd hs (not_mem_none s)
    · obtain rfl := some.inj hs
      exact ⟨hnil, hlast⟩
  · intro habsolute hhead
    obtain ⟨rest, rfl⟩ := head?_eq_some_iff.mp hhead
    have hrelative : ¬c.path.head? = some slash := of_decide_eq_false habsolute
    rw [if_neg hrelative] at htext
    exact hrelative (htext ▸ rfl)
  · exact congrArg (fun p => Components.mk _ _ p _ _) hpath

/-- `make_resolve`: the components of a well-formed reference are resolved. -/
theorem makeResolve_resolved {c : Components} (hbase : base.Segmented) (hc : c.WellFormed)
    (hskip : ¬SkipsFirst c) (hquery : NoQuestionMark c.query)
    (hfragment : NoQuestionMark c.fragment) (hresolvable : Resolvable base c) :
    ∃ u, makeResolve blank base c.text = some u ∧ u.Segmented ∧
      u.components = resolved base.components c ∧ u.fullReference = u.components.text := by
  obtain ⟨v, hmake, hv, rfl⟩ := segmented_make hc hskip hquery hfragment
  obtain ⟨u, hrun, hu⟩ := hv.resolveRelativeTo hbase hresolvable
  refine ⟨u, ?_, hu⟩
  unfold makeResolve
  rw [hmake]
  exact hrun

/-- `../g//.` resolved against `s://a/b/c/d?q` is `s://a/b/g/`. -/
theorem makeResolve_resolved_merged : ∃ base u,
    make blank [115, 58, 47, 47, 97, 47, 98, 47, 99, 47, 100, 63, 113] = some base ∧
    makeResolve blank base [46, 46, 47, 103, 47, 47, 46] = some u ∧
    u.components = ⟨some [115], some [97], [47, 98, 47, 103, 47], none, none⟩ := by
  let base : Uri := ⟨[115, 58, 47, 47, 97, 47, 98, 47, 99, 47, 100, 63, 113], some [115],
    some [97], true, [[98], [99]], some [100], some [113], none⟩
  have hbase : base.Segmented := ⟨by decide, by rintro s ⟨⟩; decide, by decide⟩
  obtain ⟨u, hrun, -, hcomponents, -⟩ := makeResolve_resolved
    (c := ⟨none, none, [46, 46, 47, 103, 47, 47, 46], none, none⟩) hbase
    ⟨by decide, nofun, nofun, by decide, nofun, nofun, by decide, by decide, by decide⟩
    (fun h => absurd h.2 (by
      rintro (⟨h, -⟩ | ⟨a, rest, h, -⟩)
      · exact h rfl
      · exact absurd (cons.inj h).1 (by decide)))
    nofun nofun ⟨fun h => absurd h.2.2.1 (by decide), fun _ => by decide⟩
  exact ⟨base, u, rfl, hrun, hcomponents.trans (by decide)⟩

/-- `/./g` and `g//h` against `s://a/b`, and `g` against `s:`. -/
theorem makeResolve_not_target : ∃ base base' : Uri,
    make blank [115, 58, 47, 47, 97, 47, 98] = some base ∧ make blank [115, 58] = some base' ∧
    (∃ u, makeResolve blank base [47, 46, 47, 103] = some u ∧
      u.components ≠ target base.components ⟨none, none, [47, 46, 47, 103], none, none⟩) ∧
    (∃ u, makeResolve blank base [103, 47, 47, 104] = some u ∧
      u.components ≠ target base.components ⟨none, none, [103, 47, 47, 104], none, none⟩) ∧
    ∃ u, makeResolve blank base' [103] = some u ∧
      u.components ≠ target base'.components ⟨none, none, [103], none, none⟩ := by
  refine ⟨⟨[115, 58, 47, 47, 97, 47, 98], some [115], some [97], true, [], some [98], none, none⟩,
    ⟨[115, 58], some [115], none, false, [], none, none, none⟩, rfl, rfl, ?_, ?_, ?_⟩
  · exact ⟨⟨[115, 58, 47, 47, 97, 47, 46, 47, 103], some [115], some [97], true, [[46]],
      some [103], none, none⟩, by decide, by decide⟩
  · exact ⟨⟨[115, 58, 47, 47, 97, 47, 103, 47, 104], some [115], some [97], true, [[103]],
      some [104], none, none⟩, by decide, by decide⟩
  · exact ⟨⟨[115, 58, 47, 103], some [115], none, true, [], some [103], none, none⟩, by decide,
      by decide⟩

end

end Uri

end Gobo
