/-
The components of a parsed reference are those that it was composed of, but for
some references and some objects.
-/
import Gobo.UriPathParsing

namespace Gobo

open List Text UriReference

namespace Uri

/-- The components of an object. -/
def components (u : Uri) : Components where
  scheme := u.scheme
  authority := u.authorityItem
  path := u.path
  query := u.queryItem
  fragment := u.fragmentItem

/-- `new_full_reference` composes the components. -/
theorem newFullReference_eq (u : Uri) : u.newFullReference = u.components.text := by
  obtain ⟨reference, scheme, authority, absolute, items, base, query, fragment⟩ := u
  cases scheme <;> cases authority <;> cases query <;> cases fragment <;> rfl

/-- The path begins, where the parser expects an authority, with a character
that it passes over. -/
def SkipsFirst (c : Components) : Prop :=
  c.authority = none ∧ (c.scheme ≠ none ∧ (∃ a ∈ c.path.head?, IsSkipped a) ∨
    ∃ a rest, c.path = slash :: a :: rest ∧ IsSkipped a)

/-- The text before the query. -/
def upToPath (c : Components) : List UInt8 :=
  c.schemeText ++ delimited [slash, slash] c.authority ++ c.path

theorem text_eq (c : Components) : c.text = upToPath c ++
    (delimited [questionMark] c.query ++ delimited [numberSign] c.fragment) :=
  append_assoc _ _ _

section

variable {u : Uri} {c : Components} {after : List UInt8}

/-- The path of a well-formed reference is read as it is. -/
theorem done_of_wellFormed (hc : c.WellFormed) (hskip : ¬SkipsFirst c)
    (hitems : u.pathItems = []) (hrelative : u.hasAbsolutePath = false) (hscheme : u.scheme = none)
    (hauthority : u.authorityItem = none) (hfull : u.fullReference = upToPath c ++ after) :
    PathDone { u with scheme := c.scheme, authorityItem := c.authority } c.path
      (scan ⟨u, 1, 1, .scheme⟩ (upToPath c)) := by
  obtain ⟨scheme, authority, path, query, fragment⟩ := c
  obtain ⟨-, hschemeFree, hauthorityFree, hpath, -, -, hafter, hdouble, hfirst⟩ := hc
  obtain ⟨reference, scheme', authority', absolute, items, base, query', fragment'⟩ := u
  dsimp only at hitems hrelative hscheme hauthority hpath hafter hdouble hfirst ⊢
  subst hitems hrelative hscheme hauthority
  let u : Uri := ⟨reference, none, none, false, [], base, query', fragment'⟩
  unfold upToPath Components.schemeText delimited at hfull ⊢
  cases scheme with
  | none =>
      cases authority with
      | none =>
          rw [nil_append, nil_append] at hfull ⊢
          exact done_of_start rfl rfl hfull hpath (hdouble rfl) (hfirst rfl rfl)
            fun a rest heq hskipped => hskip ⟨rfl, Or.inr ⟨a, rest, heq, hskipped⟩⟩
      | some authority =>
          rw [nil_append] at hfull ⊢
          have hfull' : u.fullReference =
              [] ++ ([slash, slash] ++ authority ++ (path ++ after)) := by
            rw [nil_append, ← append_assoc]
            exact hfull
          rw [append_assoc, scan_append, (scan_slashes _ 1).2]
          exact done_of_authority rfl rfl rfl hfull' (hauthorityFree authority rfl) hpath
            (hafter nofun)
  | some scheme =>
      cases authority with
      | none =>
          have hfull' : u.fullReference = scheme ++ [colon] ++ (path ++ after) := by
            rw [← append_assoc]
            exact hfull.trans (by rw [append_nil])
          have hfull'' : u.fullReference = scheme ++ colon :: (path ++ after) := by
            rw [hfull', append_assoc]
            rfl
          have hlength : scheme.length + 1 + 1 = (scheme ++ [colon]).length + 1 := by
            rw [length_append]
            rfl
          rw [append_nil, scan_append, scan_schemeText (hschemeFree scheme rfl) hfull'']
          refine done_of_scheme rfl rfl hlength hfull' hpath (hdouble rfl) ?_ ?_
          · exact fun a ha hskipped => hskip ⟨rfl, Or.inl ⟨nofun, a, ha, hskipped⟩⟩
          · exact fun a rest heq hskipped => hskip ⟨rfl, Or.inr ⟨a, rest, heq, hskipped⟩⟩
      | some authority =>
          have hfull' : u.fullReference =
              scheme ++ [colon] ++ ([slash, slash] ++ authority ++ (path ++ after)) := by
            rw [← append_assoc, ← append_assoc]
            exact hfull
          have hfull'' : u.fullReference =
              scheme ++ colon :: ([slash, slash] ++ authority ++ (path ++ after)) := by
            rw [hfull', append_assoc]
            rfl
          have hlength : scheme.length + 1 + 1 = (scheme ++ [colon]).length + 1 := by
            rw [length_append]
            rfl
          rw [append_assoc, append_assoc [slash, slash], scan_append,
            scan_schemeText (hschemeFree scheme rfl) hfull'', scan_append, (scan_slashes _ _).1]
          exact done_of_authority (u := { u with scheme := some scheme }) rfl rfl hlength hfull'
            (hauthorityFree authority rfl) hpath (hafter nofun)

/-- An item that an earlier reference left is part of an open path. -/
theorem Described.path_eq {u' : Uri} {path : List UInt8} (h : Described u u' path) :
    u'.path = path ++ if IsOpen path then u.pathBaseItem.getD [] else [] := by
  obtain ⟨items, last, rfl, hpath, -, hlast⟩ := h
  have hopen : IsOpen path ↔ last = [] := by
    by_cases hhead : path.head? = some slash
    · rw [if_pos hhead] at hpath
      have hjoined : joined ([] :: items) ++ last = path := by
        rw [joined_cons, nil_append, cons_append]
        exact hpath
      rw [← hjoined]
      exact isOpen_joined_iff hlast
    · rw [if_neg hhead, nil_append] at hpath
      rw [← hpath]
      exact isOpen_joined_iff hlast
  unfold Uri.path
  simp only [decide_eq_true_eq]
  by_cases hnil : last = []
  · rw [if_pos hnil, if_pos (hopen.mpr hnil)]
    conv => rhs; rw [← hpath, hnil, append_nil]
  · rw [if_neg hnil, if_neg fun h => hnil (hopen.mp h), append_nil, Option.getD_some,
      append_assoc]
    exact hpath

/-- Characters that are passed over leave the parser where it is. -/
theorem scan_skipped {skipped : List UInt8} (hskipped : ∀ a ∈ skipped, IsSkipped a) (u : Uri)
    (i start : Nat) : scan ⟨u, i, start, .authorityPrefix⟩ skipped =
      ⟨u, i + skipped.length, start, .authorityPrefix⟩ := by
  refine scan_idle (fun a ha u i start => ?_) u i start
  rcases hskipped a ha with rfl | rfl <;> rfl

/-- Once two slashes were read, or what was taken for them, there is an authority. -/
def ClaimsAuthority (t : Parsing) : Prop :=
  t.uri.authorityItem ≠ none ∨ t.state = .authority ∧ t.start < t.i

theorem stopScheme_authorityItem (u : Uri) (start stop : Nat) :
    (u.stopScheme start stop).authorityItem = u.authorityItem := by
  unfold stopScheme
  split_ifs <;> rfl

theorem stopPathBase_authorityItem (u : Uri) (start stop : Nat) :
    (u.stopPathBase start stop).authorityItem = u.authorityItem := by
  unfold stopPathBase
  split_ifs <;> rfl

theorem ClaimsAuthority.advance {t : Parsing} (ht : ClaimsAuthority t) (a : UInt8) :
    ClaimsAuthority (advance t a) := by
  obtain ⟨u, i, start, state⟩ := t
  rcases ht with hsome | ⟨hstate, hlt⟩
  · refine Or.inl ?_
    unfold Uri.advance parseCharacter
    split_ifs <;> cases state <;>
      simp_all [stopScheme_authorityItem, stopPathBase_authorityItem, stopAuthority, stopPathItem,
        stopQuery]
  · cases hstate
    unfold ClaimsAuthority Uri.advance parseCharacter
    dsimp only at hlt
    split_ifs <;> simp [stopAuthority] <;> omega

theorem ClaimsAuthority.scan {t : Parsing} (ht : ClaimsAuthority t) (text : List UInt8) :
    ClaimsAuthority (scan t text) := by
  induction text generalizing t with
  | nil => exact ht
  | cons a text ih => exact ih (ht.advance a)

theorem ClaimsAuthority.parseEnd {t : Parsing} (ht : ClaimsAuthority t) :
    (parseEnd t).authorityItem ≠ none := by
  obtain ⟨u, i, start, state⟩ := t
  rcases ht with hsome | ⟨hstate, hlt⟩
  · unfold Uri.parseEnd
    cases state <;> dsimp only <;> split_ifs <;>
      simp_all [stopAuthority, stopQuery, stopFragment, stopPathBase_authorityItem]
  · cases hstate
    unfold Uri.parseEnd
    dsimp only at hlt ⊢
    rw [if_pos hlt]
    exact fun h => by cases h

/-- The text after the path. -/
def fromQuery (query fragment : Option (List UInt8)) : List UInt8 :=
  delimited [questionMark] query ++ delimited [numberSign] fragment

theorem update_none {u : Uri} (hquery : u.queryItem = none) (hfragment : u.fragmentItem = none) :
    { u with queryItem := none, fragmentItem := none } = u := by
  obtain ⟨reference, scheme, authority, absolute, items, base, query, fragment⟩ := u
  cases hquery
  cases hfragment
  rfl

/-- The components of a parsed reference, from the end of its path on. -/
theorem parseEnd_fromQuery {t : Parsing} {before : List UInt8}
    {query fragment : Option (List UInt8)} (hstate : t.state ≠ .query)
    (hquery : ∀ s ∈ query, numberSign ∉ s)
    (hfragment : ∀ s ∈ fragment, numberSign ∉ s)
    (hfull : t.uri.fullReference = before ++ fromQuery query fragment)
    (hi : t.i = before.length + 1) (hnone : t.uri.queryItem = none)
    (hnone' : t.uri.fragmentItem = none) (hend : (parseEnd t).queryItem = none)
    (hend' : (parseEnd t).fragmentItem = none) :
    ∃ q f, parseEnd (scan t (fromQuery query fragment)) =
        { (if query = none ∧ fragment = none then parseEnd t else closePath t) with
          queryItem := q, fragmentItem := f } ∧
      (q = query ∧ f = fragment ↔ NoQuestionMark query ∧ NoQuestionMark fragment) := by
  by_cases hempty : query = none ∧ fragment = none
  · obtain ⟨rfl, rfl⟩ := hempty
    refine ⟨none, none, ?_, fun _ => ⟨noQuestionMark_none, noQuestionMark_none⟩,
      fun _ => ⟨rfl, rfl⟩⟩
    rw [if_pos ⟨rfl, rfl⟩]
    exact (update_none hend hend').symm
  · rw [if_neg hempty]
    exact parseEnd_tail hstate hquery hfragment hfull hi hnone hnone' (by tauto)

/-- A path that is read as it is. -/
theorem components_of_done {t : Parsing} {before : List UInt8} {u : Uri} {path : List UInt8}
    {query fragment : Option (List UInt8)} (ht : PathDone u path t)
    (hquery : ∀ s ∈ query, numberSign ∉ s) (hfragment : ∀ s ∈ fragment, numberSign ∉ s)
    (hfull : u.fullReference = before ++ fromQuery query fragment)
    (hi : t.i = before.length + 1) (hnone : u.queryItem = none) (hnone' : u.fragmentItem = none) :
    ∃ u' q f, parseEnd (scan t (fromQuery query fragment)) =
        { u' with queryItem := q, fragmentItem := f } ∧ Described u u' path ∧
      (q = query ∧ f = fragment ↔ NoQuestionMark query ∧ NoQuestionMark fragment) := by
  obtain ⟨hstate, hreference, hq, hf, hend, hdescribed⟩ := ht
  obtain ⟨hclose, hclose'⟩ := closePath_tail t
  obtain ⟨q, f, hrun, hiff⟩ := parseEnd_fromQuery hstate hquery hfragment
    (hreference.trans hfull) hi (hq.trans hnone) (hf.trans hnone')
    (by rw [hend, hclose, hq, hnone]) (by rw [hend, hclose', hf, hnone'])
  rw [hend, ite_self] at hrun
  exact ⟨closePath t, q, f, hrun, hdescribed, hiff⟩

/-- What the characters that were passed over should have been: the item of an
earlier reference may be just them. -/
theorem spoiled_nil {before first skipped : List UInt8} {query fragment : Option (List UInt8)}
    (hitems : u.pathItems = []) (hrelative : u.hasAbsolutePath = false)
    (hauthority : u.authorityItem = none) (hnone : u.queryItem = none)
    (hnone' : u.fragmentItem = none) (hfirst : first = [slash] ∨ first = [])
    (hskipped : ∀ a ∈ skipped, IsSkipped a) (hne : skipped ≠ [])
    (hquery : ∀ s ∈ query, numberSign ∉ s) (hfragment : ∀ s ∈ fragment, numberSign ∉ s)
    (hfull : u.fullReference = before ++ (first ++ skipped) ++ fromQuery query fragment) :
    ∃ u', parseEnd (scan ⟨u, before.length + 1 + (first ++ skipped).length, before.length + 1,
        .authorityPrefix⟩ (fromQuery query fragment)) = u' ∧ u'.scheme = u.scheme ∧
      u'.authorityItem = none ∧
      (u'.path = first ++ skipped ∧ u'.queryItem = query ∧ u'.fragmentItem = fragment ↔
        NoQuestionMark query ∧ NoQuestionMark fragment ∧ u.pathBaseItem = some skipped ∧
          (first = [slash] ∨ query = none ∧ fragment = none)) := by
  have hpos := length_pos_iff.mpr hne
  have hlt : before.length + 1 < before.length + 1 + (first ++ skipped).length := by
    rw [length_append]
    omega
  generalize ht : (⟨u, before.length + 1 + (first ++ skipped).length, before.length + 1,
    .authorityPrefix⟩ : Parsing) = t
  have hclose : closePath t = { u with hasAbsolutePath := true } := by
    rw [← ht]
    change { u with hasAbsolutePath := decide (_ < _) } = _
    rw [decide_eq_true hlt]
  have hgo : ¬u.hasAbsolutePath = true := by
    rw [hrelative]
    exact Bool.false_ne_true
  have hhead : ∀ a ∈ skipped.head?, a ≠ slash := by
    rintro a ha rfl
    exact absurd (hskipped slash (mem_of_mem_head? ha)) (by decide)
  have hend : parseEnd t = if first = [slash] then { u with hasAbsolutePath := true } else u := by
    obtain ⟨a, rest, rfl⟩ := exists_cons_of_ne_nil hne
    rw [← ht]
    rcases hfirst with rfl | rfl
    · have hitem : item u.fullReference (before.length + 1) = some slash := by
        rw [hfull, append_assoc]
        exact item_append_cons before slash _
      rw [if_pos rfl]
      exact if_pos ⟨hgo, hlt, hitem⟩
    · have hitem : item u.fullReference (before.length + 1) = some a := by
        rw [hfull, append_assoc]
        exact item_append_cons before a _
      rw [if_neg (cons_ne_nil slash []).symm]
      refine if_neg fun h => hhead a rfl ?_
      exact Option.some.inj (hitem.symm.trans h.2.2)
  have hlength : t.i = (before ++ (first ++ skipped)).length + 1 := by
    rw [← ht]
    simp only [length_append]
    omega
  have hendTail : (parseEnd t).queryItem = none ∧ (parseEnd t).fragmentItem = none := by
    rw [hend]
    split_ifs <;> exact ⟨hnone, hnone'⟩
  have hbase : u.pathBaseItem.getD [] = skipped ↔ u.pathBaseItem = some skipped := by
    cases u.pathBaseItem with
    | none => exact ⟨fun h => absurd h.symm hne, nofun⟩
    | some base => exact ⟨congrArg some, Option.some.inj⟩
  obtain ⟨q, f, hrun, hiff⟩ := parseEnd_fromQuery (t := t) (ht ▸ nofun) hquery hfragment
    (ht ▸ hfull) hlength (ht ▸ hnone) (ht ▸ hnone') hendTail.1 hendTail.2
  rw [hrun, hend, hclose]
  by_cases habsolute : first = [slash] ∨ ¬(query = none ∧ fragment = none)
  · have hv : (if query = none ∧ fragment = none then
        if first = [slash] then { u with hasAbsolutePath := true } else u
        else { u with hasAbsolutePath := true } : Uri) = { u with hasAbsolutePath := true } := by
      rcases habsolute with h | h
      · rw [if_pos h, ite_self]
      · exact if_neg h
    rw [hv]
    refine ⟨_, rfl, rfl, hauthority, ?_⟩
    have hpath : Uri.path { u with hasAbsolutePath := true, queryItem := q, fragmentItem := f } =
        slash :: u.pathBaseItem.getD [] := by
      unfold Uri.path
      rw [hitems]
      rfl
    rw [hpath]
    rcases hfirst with rfl | rfl
    · rw [singleton_append, cons.injEq, hbase]
      constructor
      · rintro ⟨⟨-, hkept⟩, hq, hf⟩
        obtain ⟨hfreeQuery, hfreeFragment⟩ := hiff.mp ⟨hq, hf⟩
        exact ⟨hfreeQuery, hfreeFragment, hkept, Or.inl rfl⟩
      · rintro ⟨hfreeQuery, hfreeFragment, hkept, -⟩
        exact ⟨⟨rfl, hkept⟩, hiff.mpr ⟨hfreeQuery, hfreeFragment⟩⟩
    · have hsome : ¬(query = none ∧ fragment = none) :=
        habsolute.resolve_left (cons_ne_nil slash []).symm
      constructor
      · rintro ⟨heq, -⟩
        exact absurd rfl (hhead slash (congrArg head? heq).symm)
      · rintro ⟨-, -, -, h | h⟩
        · exact absurd h (cons_ne_nil slash []).symm
        · exact absurd h hsome
  · push Not at habsolute
    obtain ⟨hne', hempty⟩ := habsolute
    obtain rfl : first = [] := hfirst.resolve_left hne'
    rw [if_pos hempty, if_neg hne']
    refine ⟨_, rfl, rfl, hauthority, ?_⟩
    have hpath : Uri.path { u with queryItem := q, fragmentItem := f } =
        u.pathBaseItem.getD [] := by
      unfold Uri.path
      rw [hitems, hrelative]
      rfl
    rw [hpath, nil_append, hbase]
    constructor
    · rintro ⟨hkept, hq, hf⟩
      obtain ⟨hfreeQuery, hfreeFragment⟩ := hiff.mp ⟨hq, hf⟩
      exact ⟨hfreeQuery, hfreeFragment, hkept, Or.inr hempty⟩
    · rintro ⟨hfreeQuery, hfreeFragment, hkept, -⟩
      exact ⟨hkept, hiff.mpr ⟨hfreeQuery, hfreeFragment⟩⟩

/-- A path that something follows the skipped characters of is not read as it is. -/
theorem spoiled_cons {before first skipped rest : List UInt8} {a : UInt8}
    {query fragment : Option (List UInt8)} (hitems : u.pathItems = [])
    (hnone : u.queryItem = none) (hnone' : u.fragmentItem = none)
    (hfirst : first = [slash] ∨ first = []) (hskipped : ∀ b ∈ skipped, IsSkipped b)
    (hne : skipped ≠ []) (ha : ¬IsSkipped a)
    (hrest : questionMark ∉ a :: rest ∧ numberSign ∉ a :: rest)
    (hquery : ∀ s ∈ query, numberSign ∉ s) (hfragment : ∀ s ∈ fragment, numberSign ∉ s)
    (hfull : u.fullReference =
      before ++ (first ++ skipped) ++ (a :: rest ++ fromQuery query fragment)) :
    ∃ u', parseEnd (scan ⟨u, before.length + 1 + (first ++ skipped).length, before.length + 1,
        .authorityPrefix⟩ (a :: rest ++ fromQuery query fragment)) = u' ∧
      (u'.authorityItem ≠ none ∨ u'.path ≠ first ++ skipped ++ a :: rest) := by
  have hpos := length_pos_iff.mpr hne
  have hlt : before.length + 1 < before.length + 1 + (first ++ skipped).length := by
    rw [length_append]
    omega
  refine ⟨_, rfl, ?_⟩
  by_cases hslash : a = slash
  · have hclaims : ClaimsAuthority (advance ⟨u, before.length + 1 + (first ++ skipped).length,
        before.length + 1, .authorityPrefix⟩ a) := by
      subst hslash
      have hturn : advance ⟨u, before.length + 1 + (first ++ skipped).length,
          before.length + 1, .authorityPrefix⟩ slash =
          ⟨u, before.length + 1 + (first ++ skipped).length + 1, before.length + 1,
            .authority⟩ := by
        unfold advance parseCharacter
        rw [if_neg (by decide), if_pos rfl]
        rw [if_pos hlt]
      rw [hturn]
      exact Or.inr ⟨rfl, Nat.lt_succ_of_lt hlt⟩
    exact Or.inl (hclaims.scan _).parseEnd
  · refine Or.inr ?_
    have hq : a ≠ questionMark := fun h => hrest.1 (h ▸ mem_cons_self)
    have hn : a ≠ numberSign := fun h => hrest.2 (h ▸ mem_cons_self)
    have htail : questionMark ∉ rest ∧ numberSign ∉ rest :=
      ⟨fun h => hrest.1 (mem_cons_of_mem a h), fun h => hrest.2 (mem_cons_of_mem a h)⟩
    have hlength : before.length + 1 + (first ++ skipped).length =
        (before ++ (first ++ skipped)).length + 1 := by
      simp only [length_append]
      omega
    have hdone : PathDone u (slash :: a :: rest) _ := done_of_first hitems hlength hfull hslash
      htail ((decide_eq_true hlt).trans (decide_eq_true rfl).symm) rfl
    have hfull' : u.fullReference =
        before ++ (first ++ skipped) ++ (a :: rest) ++ fromQuery query fragment := by
      rw [hfull, append_assoc _ (a :: rest)]
    have hlength' : (scan ⟨{ u with hasAbsolutePath := decide (before.length + 1 <
        before.length + 1 + (first ++ skipped).length) },
        before.length + 1 + (first ++ skipped).length + 1,
        before.length + 1 + (first ++ skipped).length, .path⟩ rest).i =
          (before ++ (first ++ skipped) ++ (a :: rest)).length + 1 := by
      rw [scan_index]
      simp only [length_append, length_cons]
      omega
    obtain ⟨u', q, f, hrun, hdescribed, -⟩ :=
      components_of_done hdone hquery hfragment hfull' hlength' hnone hnone'
    rw [cons_append, scan_cons, advance_authorityPrefix hslash ha hq hn, scan_append, hrun]
    have hpath := hdescribed.path_eq
    intro heq
    rw [show Uri.path { u' with queryItem := q, fragmentItem := f } = u'.path from rfl, hpath]
      at heq
    obtain ⟨b, others, rfl⟩ := exists_cons_of_ne_nil hne
    have hb : IsSkipped b := hskipped b mem_cons_self
    rcases hfirst with rfl | rfl
    · have hsecond := cons.inj (cons.inj heq).2
      exact ha (hsecond.1 ▸ hb)
    · exact absurd ((cons.inj heq).1 ▸ hb) (by decide)

/-- Parsing the text of the components gives the components, and composing these
the text. -/
def ReadsAsComposed (u : Uri) (c : Components) : Prop :=
  ∃ u', u.make c.text = some u' ∧ u'.components = c ∧ u'.newFullReference = c.text

/-- The item that an earlier reference left is what was passed over. -/
def Coincides (base : Option (List UInt8)) (c : Components) : Prop :=
  ∃ skipped, (∀ a ∈ skipped, IsSkipped a) ∧ base = some skipped ∧
    (c.path = slash :: skipped ∨ c.path = skipped ∧ c.query = none ∧ c.fragment = none)

/-- An object about to parse a text. -/
def readyFor (u : Uri) (text : List UInt8) : Uri :=
  { u with fullReference := text }.reset

theorem readsAsComposed_iff (u : Uri) (c : Components) : ReadsAsComposed u c ↔
    (parseEnd (scan ⟨u.readyFor c.text, 1, 1, .scheme⟩ c.text)).components = c := by
  unfold ReadsAsComposed
  rw [make_eq]
  constructor
  · rintro ⟨u', hmake, hcomponents, -⟩
    exact Option.some.inj hmake ▸ hcomponents
  · intro hcomponents
    refine ⟨_, rfl, hcomponents, ?_⟩
    rw [newFullReference_eq]
    exact congrArg Components.text hcomponents

/-- Parsing a well-formed reference whose path is not passed over. -/
theorem parse_wellFormed (u : Uri) (hc : c.WellFormed) (hskip : ¬SkipsFirst c) :
    ∃ u' q f, parseEnd (scan ⟨u.readyFor c.text, 1, 1, .scheme⟩ c.text) =
        { u' with queryItem := q, fragmentItem := f } ∧
      Described { u.readyFor c.text with scheme := c.scheme, authorityItem := c.authority } u'
        c.path ∧
      (q = c.query ∧ f = c.fragment ↔ NoQuestionMark c.query ∧ NoQuestionMark c.fragment) := by
  have hfull : (u.readyFor c.text).fullReference = upToPath c ++ fromQuery c.query c.fragment :=
    text_eq c
  have hdone := done_of_wellFormed hc hskip (u := u.readyFor c.text) rfl rfl rfl rfl hfull
  have hlength : (scan ⟨u.readyFor c.text, 1, 1, .scheme⟩ (upToPath c)).i =
      (upToPath c).length + 1 := by
    rw [scan_index]
    exact Nat.add_comm _ _
  have hscan : scan ⟨u.readyFor c.text, 1, 1, .scheme⟩ c.text =
      scan (scan ⟨u.readyFor c.text, 1, 1, .scheme⟩ (upToPath c)) (fromQuery c.query c.fragment) :=
    (congrArg (scan _) (text_eq c)).trans (scan_append _ _ _)
  obtain ⟨u', q, f, hrun, hdescribed, hiff⟩ :=
    components_of_done hdone hc.query_free hc.fragment_free hfull hlength rfl rfl
  exact ⟨u', q, f, by rw [hscan, hrun], hdescribed, hiff⟩

/-- The path begins after the scheme, and what is passed over after a slash. -/
theorem scan_first (hc : c.WellFormed) {u : Uri} {first after : List UInt8}
    (hscheme : u.scheme = none) (hfirst : first = [slash] ∨ first = [] ∧ c.scheme ≠ none)
    (hfull : u.fullReference = c.schemeText ++ after) :
    scan ⟨u, 1, 1, .scheme⟩ (c.schemeText ++ first) =
      ⟨{ u with scheme := c.scheme }, c.schemeText.length + 1 + first.length,
        c.schemeText.length + 1, .authorityPrefix⟩ := by
  obtain ⟨scheme, authority, path, query, fragment⟩ := c
  obtain ⟨reference, scheme', authority', absolute, items, base, query', fragment'⟩ := u
  dsimp only at hscheme
  subst hscheme
  cases scheme with
  | none =>
      obtain rfl : first = [slash] := hfirst.resolve_right fun h => h.2 rfl
      rfl
  | some scheme =>
      have hfull' : reference = scheme ++ colon :: after := by
        refine Eq.trans hfull ?_
        exact append_assoc scheme [colon] after
      have hlength : (scheme ++ [colon]).length + 1 = scheme.length + 1 + 1 := by
        rw [length_append]
        rfl
      change scan _ (scheme ++ [colon] ++ first) = ⟨_, (scheme ++ [colon]).length + 1 + _,
        (scheme ++ [colon]).length + 1, _⟩
      rw [scan_append, scan_schemeText (hc.scheme_free scheme rfl) hfull', hlength]
      rcases hfirst with rfl | ⟨rfl, -⟩
      · rw [scan_cons, scan_nil]
        unfold advance parseCharacter
        rw [if_neg (by decide), if_pos rfl]
        rw [if_neg (Nat.lt_irrefl _)]
        rfl
      · rfl

theorem exists_skipped {a : UInt8} (ha : IsSkipped a) (text : List UInt8) :
    ∃ skipped rest, a :: text = skipped ++ rest ∧ (∀ b ∈ skipped, IsSkipped b) ∧ skipped ≠ [] ∧
      ∀ b ∈ rest.head?, ¬IsSkipped b := by
  refine ⟨(a :: text).takeWhile fun b => decide (IsSkipped b),
    (a :: text).dropWhile fun b => decide (IsSkipped b),
    takeWhile_append_dropWhile.symm, ?_, ?_, ?_⟩
  · exact fun b hb => by simpa using mem_takeWhile_imp hb
  · simp [ha]
  · intro b hb
    have hnot := head?_dropWhile_not (fun b => decide (IsSkipped b)) (a :: text)
    rw [Option.mem_def.mp hb] at hnot
    exact of_decide_eq_false hnot

theorem SkipsFirst.split (h : SkipsFirst c) : ∃ first skipped rest,
    c.path = first ++ skipped ++ rest ∧ (first = [slash] ∨ first = [] ∧ c.scheme ≠ none) ∧
      (∀ b ∈ skipped, IsSkipped b) ∧ skipped ≠ [] ∧ ∀ a ∈ rest.head?, ¬IsSkipped a := by
  rcases h with ⟨-, ⟨hscheme, a, hhead, ha⟩ | ⟨a, text, hpath, ha⟩⟩
  · obtain ⟨text, hpath⟩ := head?_eq_some_iff.mp hhead
    obtain ⟨skipped, rest, hsplit, hskipped, hne, hrest⟩ := exists_skipped ha text
    exact ⟨[], skipped, rest, hpath.trans hsplit, Or.inr ⟨rfl, hscheme⟩, hskipped, hne, hrest⟩
  · obtain ⟨skipped, rest, hsplit, hskipped, hne, hrest⟩ := exists_skipped ha text
    exact ⟨[slash], skipped, rest, hpath.trans (congrArg (cons slash) hsplit), Or.inl rfl,
      hskipped, hne, hrest⟩

/-- When the skipped characters coincide with the item that is there. -/
theorem coincides_iff {base : Option (List UInt8)} {first skipped rest : List UInt8}
    (hpath : c.path = first ++ skipped ++ rest)
    (hfirst : first = [slash] ∨ first = [] ∧ c.scheme ≠ none)
    (hskipped : ∀ b ∈ skipped, IsSkipped b) (hne : skipped ≠ [])
    (hrest : ∀ a ∈ rest.head?, ¬IsSkipped a) :
    Coincides base c ↔ rest = [] ∧ base = some skipped ∧
      (first = [slash] ∨ c.query = none ∧ c.fragment = none) := by
  have hslash : ¬IsSkipped slash := by decide
  constructor
  · rintro ⟨others, hothers, hbase, hcase⟩
    have hnil : ∀ text : List UInt8, (∀ b ∈ text, IsSkipped b) → (∀ b ∈ rest, b ∈ text) →
        rest = [] := by
      intro text htext hsub
      cases rest with
      | nil => rfl
      | cons a rest => exact absurd (htext a (hsub a mem_cons_self)) (hrest a rfl)
    rcases hfirst with rfl | ⟨rfl, -⟩
    · rcases hcase with heq | ⟨heq, -⟩
      · have htail : skipped ++ rest = others := (cons.inj (hpath.symm.trans heq)).2
        have hempty := hnil others hothers fun b hb => htail ▸ mem_append_right _ hb
        rw [hempty, append_nil] at htail
        exact ⟨hempty, htail ▸ hbase, Or.inl rfl⟩
      · have hmem : slash ∈ others := by
          rw [← heq, hpath]
          exact mem_cons_self
        exact absurd (hothers slash hmem) hslash
    · rw [nil_append] at hpath
      rcases hcase with heq | ⟨heq, hempty⟩
      · obtain ⟨b, text, rfl⟩ := exists_cons_of_ne_nil hne
        have hb : b = slash := (cons.inj (hpath.symm.trans heq)).1
        exact absurd (hb ▸ hskipped b mem_cons_self) hslash
      · rw [hpath] at heq
        have hempty' := hnil others hothers fun b hb => heq ▸ mem_append_right _ hb
        rw [hempty', append_nil] at heq
        exact ⟨hempty', heq ▸ hbase, Or.inr hempty⟩
  · rintro ⟨rfl, hbase, hcase⟩
    rw [append_nil] at hpath
    refine ⟨skipped, hskipped, hbase, ?_⟩
    rcases hfirst with rfl | ⟨rfl, -⟩
    · exact Or.inl hpath
    · exact Or.inr ⟨hpath, hcase.resolve_left (cons_ne_nil slash []).symm⟩

/-- A path that is passed over is as composed only by coincidence. -/
theorem skipsFirst_iff (u : Uri) (hc : c.WellFormed) (hskip : SkipsFirst c) :
    ReadsAsComposed u c ↔ NoQuestionMark c.query ∧ NoQuestionMark c.fragment ∧
      Coincides u.pathBaseItem c := by
  obtain ⟨first, skipped, rest, hpath, hfirst, hskipped, hne, hrest⟩ := hskip.split
  have hauthority : c.authority = none := hskip.1
  have hfirst' : first = [slash] ∨ first = [] := hfirst.imp_right And.left
  rw [readsAsComposed_iff, coincides_iff hpath hfirst hskipped hne hrest]
  let u₀ := u.readyFor c.text
  let u₁ : Uri := { u₀ with scheme := c.scheme }
  have htext : c.text = c.schemeText ++ first ++
      (skipped ++ (rest ++ fromQuery c.query c.fragment)) := by
    rw [text_eq, upToPath, hauthority, hpath]
    simp only [delimited, append_nil, append_assoc, fromQuery]
  have hfull : u₁.fullReference = c.schemeText ++ (first ++ skipped) ++
      (rest ++ fromQuery c.query c.fragment) := by
    refine Eq.trans htext ?_
    simp only [append_assoc]
  have hscan : scan ⟨u₀, 1, 1, .scheme⟩ c.text =
      scan ⟨u₁, c.schemeText.length + 1 + (first ++ skipped).length, c.schemeText.length + 1,
        .authorityPrefix⟩ (rest ++ fromQuery c.query c.fragment) := by
    have hbegin : u₀.fullReference = c.schemeText ++ (first ++
        (skipped ++ (rest ++ fromQuery c.query c.fragment))) :=
      htext.trans (append_assoc _ _ _)
    have hlength : c.schemeText.length + 1 + first.length + skipped.length =
        c.schemeText.length + 1 + (first ++ skipped).length := by
      rw [length_append, Nat.add_assoc]
    rw [congrArg (scan _) htext, scan_append, scan_first hc rfl hfirst hbegin, scan_append,
      scan_skipped hskipped, hlength]
  rw [show (⟨u.readyFor c.text, 1, 1, .scheme⟩ : Parsing) = ⟨u₀, 1, 1, .scheme⟩ from rfl, hscan]
  cases rest with
  | nil =>
      rw [nil_append] at hfull ⊢
      rw [append_nil] at hpath
      obtain ⟨u', hrun, hscheme, hnone, hiff⟩ := spoiled_nil (u := u₁) rfl rfl rfl rfl rfl hfirst'
        hskipped hne hc.query_free hc.fragment_free hfull
      rw [hrun]
      constructor
      · intro heq
        obtain ⟨hquery, hfragment, hbase, hcase⟩ := hiff.mp
          ⟨(congrArg Components.path heq).trans hpath, congrArg Components.query heq,
            congrArg Components.fragment heq⟩
        exact ⟨hquery, hfragment, rfl, hbase, hcase⟩
      · rintro ⟨hquery, hfragment, -, hbase, hcase⟩
        obtain ⟨hpath', hquery', hfragment'⟩ := hiff.mpr ⟨hquery, hfragment, hbase, hcase⟩
        obtain ⟨scheme, authority, path, query, fragment⟩ := c
        exact Components.mk.injEq .. ▸ ⟨hscheme, hnone.trans hauthority.symm,
          hpath'.trans hpath.symm, hquery', hfragment'⟩
  | cons a rest =>
      have hfree : questionMark ∉ a :: rest ∧ numberSign ∉ a :: rest := by
        have hfree := hc.path_free
        rw [hpath] at hfree
        exact ⟨fun h => hfree.1 (mem_append_right _ h),
          fun h => hfree.2 (mem_append_right _ h)⟩
      obtain ⟨u', hrun, hwrong⟩ := spoiled_cons (u := u₁) rfl rfl rfl hfirst' hskipped hne
        (hrest a rfl) hfree hc.query_free hc.fragment_free hfull
      rw [hrun]
      constructor
      · intro heq
        rcases hwrong with h | h
        · exact absurd ((congrArg Components.authority heq).trans hauthority) h
        · exact absurd ((congrArg Components.path heq).trans hpath) h
      · rintro ⟨-, -, h, -⟩
        exact absurd h (cons_ne_nil a rest)

/-- The path is read as it is: an open one without an item of an earlier
reference, none at all from its first character on. -/
def KeepsPath (base : Option (List UInt8)) (c : Components) : Prop :=
  ¬SkipsFirst c ∧ (¬IsOpen c.path ∨ base.getD [] = []) ∨ SkipsFirst c ∧ Coincides base c

/-- A well-formed reference is parsed into its components, whatever object does
it, exactly if its query and its fragment have no question mark and its path is
kept. -/
theorem readsAsComposed_iff_keepsPath (u : Uri) (hc : c.WellFormed) :
    ReadsAsComposed u c ↔ NoQuestionMark c.query ∧ NoQuestionMark c.fragment ∧
      KeepsPath u.pathBaseItem c := by
  unfold KeepsPath
  by_cases hskip : SkipsFirst c
  · rw [skipsFirst_iff u hc hskip, and_iff_right hskip, or_iff_right fun h => h.1 hskip]
  · obtain ⟨u', q, f, hrun, hdescribed, hiff⟩ := parse_wellFormed u hc hskip
    have hscheme : u'.scheme = c.scheme ∧ u'.authorityItem = c.authority := by
      obtain ⟨items, last, rfl, -⟩ := hdescribed
      exact ⟨rfl, rfl⟩
    have hpath : u'.path = c.path ↔ ¬IsOpen c.path ∨ u.pathBaseItem.getD [] = [] := by
      rw [hdescribed.path_eq, append_right_eq_self]
      split_ifs with hopen
      · exact ⟨Or.inr, fun h => h.resolve_left (not_not_intro hopen)⟩
      · exact ⟨fun _ => Or.inl hopen, fun _ => rfl⟩
    rw [readsAsComposed_iff, hrun, and_iff_right hskip, or_iff_left fun h => hskip h.1, ← hpath,
      ← and_assoc, ← hiff]
    constructor
    · intro heq
      exact ⟨⟨congrArg Components.query heq, congrArg Components.fragment heq⟩,
        congrArg Components.path heq⟩
    · rintro ⟨⟨hquery, hfragment⟩, hkept⟩
      obtain ⟨scheme, authority, path, query, fragment⟩ := c
      exact Components.mk.injEq .. ▸ ⟨hscheme.1, hscheme.2, hkept, hquery, hfragment⟩

/-- `s://a/b=?q#f`, by an object that parsed a reference before. -/
theorem readsAsComposed_whole :
    ReadsAsComposed { blank with pathBaseItem := some [120] }
      ⟨some [115], some [97], [47, 98, 61], some [113], some [102]⟩ :=
  (readsAsComposed_iff_keepsPath _
    ⟨by decide, by rintro s ⟨⟩; decide, by rintro s ⟨⟩; decide, by decide,
      by rintro s ⟨⟩; decide, by rintro s ⟨⟩; decide, by decide, by decide, by decide⟩).mpr
    ⟨by rintro s ⟨⟩; decide, by rintro s ⟨⟩; decide,
      Or.inl ⟨fun h => absurd h.1 (by decide), Or.inl (by decide)⟩⟩

/-- `a?b?c`, `a#b?c` and `s:=a` by a new object, `b/` by one that parsed `a`. -/
theorem readsAsComposed_slips :
    ∃ queries fragments skips opens : Components, queries.WellFormed ∧ fragments.WellFormed ∧
      skips.WellFormed ∧ opens.WellFormed ∧
      queries.text = [97, 63, 98, 63, 99] ∧ fragments.text = [97, 35, 98, 63, 99] ∧
      skips.text = [115, 58, 61, 97] ∧ opens.text = [98, 47] ∧
      ¬ReadsAsComposed blank queries ∧ ¬ReadsAsComposed blank fragments ∧
      ¬ReadsAsComposed blank skips ∧
      ∃ u, make blank [97] = some u ∧ ¬ReadsAsComposed u opens := by
  refine ⟨⟨none, none, [97], some [98, 63, 99], none⟩, ⟨none, none, [97], none, some [98, 63, 99]⟩,
    ⟨some [115], none, [61, 97], none, none⟩, ⟨none, none, [98, 47], none, none⟩,
    ⟨by decide, nofun, nofun, by decide, by rintro s ⟨⟩; decide, nofun, by decide, by decide,
      by decide⟩,
    ⟨by decide, nofun, nofun, by decide, nofun, by rintro s ⟨⟩; decide, by decide, by decide,
      by decide⟩,
    ⟨by decide, by rintro s ⟨⟩; decide, nofun, by decide, nofun, nofun, by decide, by decide,
      by decide⟩,
    ⟨by decide, nofun, nofun, by decide, nofun, nofun, by decide, by decide, by decide⟩,
    rfl, rfl, rfl, rfl, ?_, ?_, ?_,
    { blank with fullReference := [97], pathBaseItem := some [97] }, rfl, ?_⟩
  all_goals
    rw [readsAsComposed_iff]
    decide

end

end Uri

end Gobo
