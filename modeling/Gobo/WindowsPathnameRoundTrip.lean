/-
Which Windows pathnames are read back from their strings: those as they were parsed, and their
canonical forms unless a component has come to a place where it means something else.
-/
import Gobo.WindowsPathname

namespace Gobo

open Option List Text PathComponent LexicalPath FileSystem

namespace WindowsFileSystem

namespace Location

/-- What is written before the components. -/
def leading : Location → List Char
  | relative _ => []
  | absolute _ => rootDirectory
  | onDrive drive _ => drive ++ [directorySeparator]
  | onHost hostname none _ =>
      [directorySeparator, directorySeparator] ++ hostname ++ [directorySeparator]
  | onHost hostname (some sharename) l =>
      [directorySeparator, directorySeparator] ++ hostname ++ [directorySeparator] ++
        (sharename ++ if l.length > 0 then [directorySeparator] else [])

def text (loc : Location) : List Char := loc.leading ++ pathText directorySeparator loc.components

end Location

/-- A text without separators. -/
def Free (w : List Char) : Prop := FreeOf isDirectorySeparator w

/-- A word that is a name. -/
def IsName (w : List Char) : Prop := w ≠ [] ∧ Free w ∧ component w = name w

/-- The components after the place in front of them are not taken for something else: for a drive
if the path is relative, for a sharename if there is none. -/
def Location.WellPlaced : Location → Prop
  | .relative l => ∀ n, l.head? = some (name n) → n.getLast? ≠ some ':'
  | .absolute _ => True
  | .onDrive drive _ => IsName drive ∧ drive.getLast? = some ':'
  | .onHost hostname none l => IsName hostname ∧ ∀ n, l.head? ≠ some (name n)
  | .onHost hostname (some sharename) _ => IsName hostname ∧ IsName sharename

section

variable {s w a b : List Char} {ws : List (List Char)} {c : PathComponent (List Char)}
  {p q : WindowsPathname} {loc : Location} {l : List (PathComponent (List Char))}

theorem isDirectorySeparator_directorySeparator :
    isDirectorySeparator directorySeparator = true := rfl

theorem words_append_directorySeparator (hne : w ≠ []) (hw : Free w)
    (b : List Char) : words (w ++ directorySeparator :: b) = w :: words b := by
  rw [words, wordsBy_append_separator isDirectorySeparator_directorySeparator,
    wordsBy_of_free hne hw]
  rfl

theorem words_pathText (hl : ∀ c ∈ l, IsWord isDirectorySeparator c) :
    words (pathText directorySeparator l) = l.map componentText :=
  wordsBy_pathText isDirectorySeparator_directorySeparator hl

theorem startOf_of_head (hs : ∀ c ∈ s.head?, isDirectorySeparator c = false) :
    startOf s = .here := by
  match s with
  | [] => rfl
  | [c] => simp [startOf, hs c rfl]
  | [c, d] => simp [startOf, hs c rfl]
  | c :: d :: e :: s => simp [startOf, hs c rfl]

theorem startOf_absolute (hs : ∀ c ∈ s.head?, isDirectorySeparator c = false) :
    startOf (directorySeparator :: s) = .root := by
  match s with
  | [] => rfl
  | [c] => rfl
  | c :: d :: s =>
    have hc := hs c rfl
    simp [startOf, hc, isDirectorySeparator_directorySeparator]

theorem startOf_network (hs : s ≠ []) :
    startOf (directorySeparator :: directorySeparator :: s) = .network := by
  obtain ⟨c, s', rfl⟩ := exists_cons_of_ne_nil hs
  rfl

/-- The location that the text of another one leads to. -/
def Location.readBack (loc : Location) : Location := locate (startOf loc.text) (words loc.text)

theorem readBack_relative (hl : ∀ c ∈ l, IsWord isDirectorySeparator c)
    (h : ∀ n, l.head? = some (name n) → n.getLast? ≠ some ':') :
    (Location.relative l).readBack = .relative l := by
  have hmap := map_component_componentText hl
  have htext : (Location.relative l).text = pathText directorySeparator l := rfl
  rw [Location.readBack, htext, startOf_of_head (head_pathText hl), words_pathText hl]
  cases l with
  | nil => rfl
  | cons c l =>
    have hcons := cons.inj hmap
    rw [map_cons, locate, hcons.1, hcons.2]
    cases c with
    | current => rfl
    | parent => rfl
    | name n => exact if_neg (h n rfl)

theorem readBack_absolute (hl : ∀ c ∈ l, IsWord isDirectorySeparator c) :
    (Location.absolute l).readBack = .absolute l := by
  have hwords : words ([] ++ directorySeparator :: pathText directorySeparator l) =
      words (pathText directorySeparator l) :=
    wordsBy_separator_cons isDirectorySeparator_directorySeparator _
  have htext : (Location.absolute l).text =
      [] ++ directorySeparator :: pathText directorySeparator l := rfl
  have hstart : startOf ([] ++ directorySeparator :: pathText directorySeparator l) = .root :=
    startOf_absolute (head_pathText hl)
  rw [Location.readBack, htext, hstart, hwords, words_pathText hl,
    locate, map_component_componentText hl]

theorem readBack_onDrive {drive : List Char} (hl : ∀ c ∈ l, IsWord isDirectorySeparator c)
    (h : IsName drive) (hdrive : drive.getLast? = some ':') :
    (Location.onDrive drive l).readBack = .onDrive drive l := by
  obtain ⟨hne, hfree, hname⟩ := h
  have htext : (Location.onDrive drive l).text =
      drive ++ directorySeparator :: pathText directorySeparator l :=
    append_assoc _ _ _
  rw [Location.readBack, htext, startOf_of_head (head_append_of_free hne hfree _),
    words_append_directorySeparator hne hfree, words_pathText hl, locate, hname,
    map_component_componentText hl]
  exact if_pos hdrive

/-- A text that starts with two separators and a hostname. -/
theorem locate_host {hostname : List Char} (h : IsName hostname) (rest : List Char) :
    locate (startOf ([directorySeparator] ++ directorySeparator ::
        (hostname ++ directorySeparator :: rest)))
      (words ([directorySeparator] ++ directorySeparator ::
        (hostname ++ directorySeparator :: rest))) = locateOnHost hostname (words rest) := by
  obtain ⟨hne, hfree, hname⟩ := h
  have hstart : startOf ([directorySeparator] ++ directorySeparator ::
      (hostname ++ directorySeparator :: rest)) = .network := startOf_network (by simp)
  have hwords : words ([directorySeparator] ++ directorySeparator ::
      (hostname ++ directorySeparator :: rest)) = words (hostname ++ directorySeparator :: rest) :=
    wordsBy_separators_append (z := [directorySeparator, directorySeparator])
      (by simp [isDirectorySeparator_directorySeparator]) _
  rw [hstart, hwords, words_append_directorySeparator hne hfree, locate, hname]

theorem readBack_onHost_none {hostname : List Char} (hl : ∀ c ∈ l, IsWord isDirectorySeparator c)
    (h : IsName hostname) (hhead : ∀ n, l.head? ≠ some (name n)) :
    (Location.onHost hostname none l).readBack = .onHost hostname none l := by
  have hmap := map_component_componentText hl
  have htext : (Location.onHost hostname none l).text = [directorySeparator] ++
      directorySeparator :: (hostname ++ directorySeparator :: pathText directorySeparator l) := by
    simp [Location.text, Location.leading, Location.components]
  rw [Location.readBack, htext, locate_host h, words_pathText hl]
  cases l with
  | nil => rfl
  | cons c l =>
    have hcons := cons.inj hmap
    rw [map_cons, locateOnHost, hcons.1, hcons.2]
    cases c with
    | current => rfl
    | parent => rfl
    | name n => exact absurd rfl (hhead n)

theorem readBack_onHost_some {hostname sharename : List Char}
    (hl : ∀ c ∈ l, IsWord isDirectorySeparator c) (h : IsName hostname)
    (hshare : IsName sharename) :
    (Location.onHost hostname (some sharename) l).readBack =
      .onHost hostname (some sharename) l := by
  obtain ⟨hne, hfree, hname⟩ := hshare
  have htext : (Location.onHost hostname (some sharename) l).text = [directorySeparator] ++
      directorySeparator :: (hostname ++ directorySeparator :: (sharename ++
        ((if l.length > 0 then [directorySeparator] else []) ++
          pathText directorySeparator l))) := by
    simp [Location.text, Location.leading, Location.components]
  have hwords : words (sharename ++ ((if l.length > 0 then [directorySeparator] else []) ++
      pathText directorySeparator l)) = sharename :: l.map componentText := by
    rw [← words_pathText hl]
    cases l with
    | nil =>
      rw [if_neg (by simp)]
      exact (congrArg words (append_nil _)).trans (wordsBy_of_free hne hfree)
    | cons c l =>
      rw [if_pos (by simp)]
      exact words_append_directorySeparator hne hfree _
  rw [Location.readBack, htext, locate_host h, hwords, locateOnHost, hname,
    map_component_componentText hl]

/-- A location whose components are in place is found again from its text. -/
theorem Location.WellPlaced.readBack_eq (h : loc.WellPlaced)
    (hl : ∀ c ∈ loc.components, IsWord isDirectorySeparator c) : loc.readBack = loc := by
  cases loc with
  | relative l => exact readBack_relative hl h
  | absolute l => exact readBack_absolute hl
  | onDrive drive l => exact readBack_onDrive hl h.1 h.2
  | onHost hostname sharename l =>
    cases sharename with
    | none => exact readBack_onHost_none hl h.1 h.2
    | some sharename => exact readBack_onHost_some hl h.1 h.2

theorem isName_of_component {n : List Char} (hw : w ≠ [] ∧ Free w) (hn : component w = name n) :
    IsName n := by
  obtain rfl := eq_of_component hn
  exact ⟨hw.1, hw.2, hn⟩

theorem wellPlaced_locateOnHost {hostname : List Char} (h : IsName hostname)
    (hws : ∀ w ∈ ws, w ≠ [] ∧ Free w) : (locateOnHost hostname ws).WellPlaced ∧
      ∀ c ∈ (locateOnHost hostname ws).components, IsWord isDirectorySeparator c := by
  have hcomponents : ∀ c ∈ ws.map component, IsWord isDirectorySeparator c := by
    intro c hc
    obtain ⟨w, hw, rfl⟩ := mem_map.mp hc
    exact ⟨w, (hws w hw).1, (hws w hw).2, rfl⟩
  cases ws with
  | nil => exact ⟨⟨h, fun n hn => absurd hn (by simp)⟩, hcomponents⟩
  | cons w ws =>
    rw [map_cons] at hcomponents
    rw [locateOnHost]
    cases hw : component w with
    | current =>
      rw [hw] at hcomponents
      exact ⟨⟨h, fun n hn => absurd hn (by simp)⟩, hcomponents⟩
    | parent =>
      rw [hw] at hcomponents
      exact ⟨⟨h, fun n hn => absurd hn (by simp)⟩, hcomponents⟩
    | name n =>
      exact ⟨⟨h, isName_of_component (hws w mem_cons_self) hw⟩,
        fun c hc => hcomponents c (mem_cons_of_mem _ hc)⟩

/-- What was parsed is in its place. -/
theorem wellPlaced_locate (start : Start) (hws : ∀ w ∈ ws, w ≠ [] ∧ Free w) :
    (locate start ws).WellPlaced ∧
      ∀ c ∈ (locate start ws).components, IsWord isDirectorySeparator c := by
  have hcomponents : ∀ c ∈ ws.map component, IsWord isDirectorySeparator c := by
    intro c hc
    obtain ⟨w, hw, rfl⟩ := mem_map.mp hc
    exact ⟨w, (hws w hw).1, (hws w hw).2, rfl⟩
  cases start with
  | root => exact ⟨trivial, hcomponents⟩
  | network =>
    cases ws with
    | nil => exact ⟨trivial, hcomponents⟩
    | cons w ws =>
      rw [map_cons] at hcomponents
      rw [locate]
      cases hw : component w with
      | current =>
        rw [hw] at hcomponents
        exact ⟨trivial, hcomponents⟩
      | parent =>
        rw [hw] at hcomponents
        exact ⟨trivial, hcomponents⟩
      | name n =>
        exact wellPlaced_locateOnHost (isName_of_component (hws w mem_cons_self) hw)
          fun w hw => hws w (mem_cons_of_mem _ hw)
  | here =>
    cases ws with
    | nil => exact ⟨fun n hn => absurd hn (by simp), hcomponents⟩
    | cons w ws =>
      rw [map_cons] at hcomponents
      rw [locate]
      cases hw : component w with
      | current =>
        rw [hw] at hcomponents
        exact ⟨fun n hn => absurd hn (by simp), hcomponents⟩
      | parent =>
        rw [hw] at hcomponents
        exact ⟨fun n hn => absurd hn (by simp), hcomponents⟩
      | name n =>
        rw [hw] at hcomponents
        dsimp only
        split_ifs with hdrive
        · exact ⟨⟨isName_of_component (hws w mem_cons_self) hw, hdrive⟩,
            fun c hc => hcomponents c (mem_cons_of_mem _ hc)⟩
        · refine ⟨fun m hm => ?_, hcomponents⟩
          obtain rfl := PathComponent.name.inj (some.inj hm)
          exact hdrive

/-- The text leads back to a location exactly when its components are in place. -/
theorem readBack_eq_iff (hl : ∀ c ∈ loc.components, IsWord isDirectorySeparator c) :
    loc.readBack = loc ↔ loc.WellPlaced := by
  refine ⟨fun h => ?_, fun h => h.readBack_eq hl⟩
  rw [← h]
  exact (wellPlaced_locate _ fun w => mem_wordsBy).1

theorem leading_eq (h : LeadsTo p loc) : leading p = loc.leading := by
  obtain ⟨hrelative, hdrive, hhostname, hsharename, hhas⟩ := h
  have hcount := hhas.count_eq
  unfold leading
  rw [hrelative, hdrive, hhostname, hsharename, hcount]
  cases loc with
  | relative l => rfl
  | absolute l => rfl
  | onDrive drive l => rfl
  | onHost hostname sharename l =>
    cases sharename with
    | none => exact append_nil _
    | some sharename => rfl

/-- `pathname_to_string` writes the text of the location. -/
theorem pathnameToString_eq (h : LeadsTo p loc) : pathnameToString p = some loc.text := by
  rw [pathnameToString, appendComponents_eq h.has, leading_eq h, Location.text]

/-- A location is known from its parts. -/
theorem Location.eq_of_parts {loc loc' : Location} (hrelative : loc.isRelative = loc'.isRelative)
    (hdrive : loc.drive = loc'.drive) (hhostname : loc.hostname = loc'.hostname)
    (hsharename : loc.sharename = loc'.sharename) (hl : loc.components = loc'.components) :
    loc = loc' := by
  cases loc <;> cases loc' <;>
    simp_all [Location.isRelative, Location.drive, Location.hostname, Location.sharename,
      Location.components]

theorem take_components (h : p.toPathname.Has l) : p.components.take p.count = l.map some := by
  obtain ⟨hcount, rest, hcells⟩ := h
  rw [hcount, hcells]
  exact take_left' (length_map _)

/-- Two pathnames have the same parts exactly when they lead to the same location. -/
theorem LeadsTo.same_iff {loc' : Location} (hq : LeadsTo q loc') (hp : LeadsTo p loc) :
    q.Same p ↔ loc' = loc := by
  constructor
  · rintro ⟨hrelative, hdrive, hhostname, hsharename, -, hcomponents⟩
    rw [take_components hq.has, take_components hp.has] at hcomponents
    rw [hq.isRelative_eq, hp.isRelative_eq] at hrelative
    rw [hq.drive_eq, hp.drive_eq] at hdrive
    rw [hq.hostname_eq, hp.hostname_eq] at hhostname
    rw [hq.sharename_eq, hp.sharename_eq] at hsharename
    exact Location.eq_of_parts hrelative hdrive hhostname hsharename
      (map_injective_iff.mpr (some_injective _) hcomponents)
  · rintro rfl
    refine ⟨hq.isRelative_eq.trans hp.isRelative_eq.symm, hq.drive_eq.trans hp.drive_eq.symm,
      hq.hostname_eq.trans hp.hostname_eq.symm, hq.sharename_eq.trans hp.sharename_eq.symm,
      hq.has.count_eq.trans hp.has.count_eq.symm, ?_⟩
    rw [take_components hq.has, take_components hp.has]

/-- The location of the pathname of a string. -/
theorem exists_stringToPathname (s : List Char) : ∃ p, stringToPathname s = some p ∧
    LeadsTo p (locate (startOf s) (words s)) :=
  ⟨_, stringToPathname_eq s, leadsTo_locate (startOf s) (words s)⟩

/-- The string of the pathname leads back to a pathname with the same parts. -/
def RoundTrips (p : WindowsPathname) : Prop :=
  ∃ s q, pathnameToString p = some s ∧ stringToPathname s = some q ∧ q.Same p

theorem roundTrips_iff (h : LeadsTo p loc)
    (hl : ∀ c ∈ loc.components, IsWord isDirectorySeparator c) :
    RoundTrips p ↔ loc.WellPlaced := by
  obtain ⟨q, hq, hleads⟩ := exists_stringToPathname loc.text
  have hstring := pathnameToString_eq h
  rw [← readBack_eq_iff hl]
  constructor
  · rintro ⟨s, q', hs, hq', hsame⟩
    rw [hstring, some.injEq] at hs
    subst hs
    rw [hq, some.injEq] at hq'
    subst hq'
    exact (hleads.same_iff h).mp hsame
  · intro hback
    exact ⟨loc.text, q, hstring, hq, (hleads.same_iff h).mpr hback⟩

theorem exists_setCanonical (h : LeadsTo p loc) : ∃ q, p.setCanonical = some q ∧
    LeadsTo q loc.canonical := by
  obtain ⟨hrelative, hdrive, hhostname, hsharename, hhas⟩ := h
  obtain ⟨q, hq, hrelative', hhas', -⟩ := Pathname.exists_setCanonical hhas
  rw [hrelative] at hrelative' hhas'
  refine ⟨{ p with toPathname := q }, ?_, ?_⟩
  · rw [WindowsPathname.setCanonical, hq]
    rfl
  · cases loc <;> exact ⟨hrelative', hdrive, hhostname, hsharename, hhas'⟩

theorem Location.canonical_canonical (loc : Location) :
    loc.canonical.canonical = loc.canonical := by
  cases loc with
  | relative l => exact congrArg Location.relative (LexicalPath.canonical_canonical l)
  | absolute l => exact congrArg Location.absolute (LexicalPath.canonical_canonical l)
  | onDrive drive l => exact congrArg (Location.onDrive drive) (LexicalPath.canonical_canonical l)
  | onHost hostname sharename l =>
    exact congrArg (Location.onHost hostname sharename) (LexicalPath.canonical_canonical l)

theorem isWord_canonical (hl : ∀ c ∈ loc.components, IsWord isDirectorySeparator c) :
    ∀ c ∈ loc.canonical.components, IsWord isDirectorySeparator c := by
  intro c hc
  have hmem : c ∈ LexicalPath.canonical loc.isRelative loc.components := by
    cases loc <;> exact hc
  rcases mem_canonical hmem with hmem | rfl
  · exact hl c hmem
  · exact ⟨['.'], by decide, fun c hc => mem_singleton.mp hc ▸ rfl, rfl⟩

/-- A relative path of which a name that looks like a drive comes first: nothing is left of the
components before it, and it is not cancelled. -/
def UncoversDrive (l : List (PathComponent (List Char))) : Prop :=
  ∃ n front back, n.getLast? = some ':' ∧ l = front ++ name n :: back ∧ StaysBelow front ∧
    level front = 0 ∧ StaysBelow back

/-- An absolute path with a name that is not cancelled. -/
def LeavesName (l : List (PathComponent (List Char))) : Prop :=
  ∃ front n back, l = front ++ name n :: back ∧ StaysBelow back

theorem head_canonical_relative {n : List Char} : (canonical true l).head? = some (name n) ↔
    (normalize true l).head? = some (name n) := by
  rw [canonical]
  split_ifs with hempty
  · rw [hempty.2]
    simp
  · rfl

theorem wellPlaced_canonical_relative :
    (Location.relative l).canonical.WellPlaced ↔ ¬UncoversDrive l := by
  change (∀ n, (canonical true l).head? = some (name n) → n.getLast? ≠ some ':') ↔ _
  simp only [head_canonical_relative, head_normalize_iff]
  constructor
  · rintro h ⟨n, front, back, hlast, hl⟩
    exact h n ⟨front, back, hl⟩ hlast
  · rintro h n ⟨front, back, hl⟩ hlast
    exact h ⟨n, front, back, hlast, hl⟩

theorem wellPlaced_canonical_onHost {hostname : List Char} (h : IsName hostname) :
    (Location.onHost hostname none l).canonical.WellPlaced ↔ ¬LeavesName l := by
  have hcanonical : canonical false l = normalize false l := if_neg (by simp)
  have hnormal : ∃ names : List (List Char), normalize false l = names.map name := by
    obtain ⟨k, names, hnormal, hk⟩ : IsNormal false (normalize false l) := isNormal_normalize l
    rw [hk rfl] at hnormal
    exact ⟨names, hnormal⟩
  change IsName hostname ∧ (∀ n, (canonical false l).head? ≠ some (name n)) ↔ _
  rw [hcanonical, and_iff_right h, LeavesName, ← normalize_ne_nil_iff, not_not]
  obtain ⟨names, hnames⟩ := hnormal
  rw [hnames]
  cases names with
  | nil => simp
  | cons n names => exact iff_of_false (fun hhead => hhead n rfl) (cons_ne_nil _ _)

/-- The words start with no drive and uncover one: a name is taken for a drive when it has come to
the beginning. -/
def TakesNameForDrive (ws : List (List Char)) : Prop :=
  (∀ w ∈ ws.head?, w.getLast? ≠ some ':') ∧ UncoversDrive (ws.map component)

/-- The words have the current or the parent directory in the place of the sharename: a name is
taken for it when these have gone. -/
def TakesNameForShare (ws : List (List Char)) : Prop :=
  ∃ hostname w rest, ws = hostname :: w :: rest ∧ component hostname = name hostname ∧
    (component w = current ∨ component w = parent) ∧ LeavesName ((w :: rest).map component)

/-- A word that is not a name does not look like a drive. -/
theorem component_of_drive (hw : w.getLast? = some ':') : component w = name w := by
  have htext := componentText_component w
  cases hcomponent : component w with
  | current =>
    rw [hcomponent] at htext
    exact absurd (htext ▸ hw) (by decide)
  | parent =>
    rw [hcomponent] at htext
    exact absurd (htext ▸ hw) (by decide)
  | name n => rw [eq_of_component hcomponent]

theorem wellPlaced_canonical_here (hws : ∀ w ∈ ws, w ≠ [] ∧ Free w) :
    (locate .here ws).canonical.WellPlaced ↔ ¬TakesNameForDrive ws := by
  by_cases hdrive : ∀ w ∈ ws.head?, w.getLast? ≠ some ':'
  · have hlocate : locate .here ws = .relative (ws.map component) := by
      cases ws with
      | nil => rfl
      | cons w ws =>
        rw [locate, map_cons]
        cases hw : component w with
        | current => rfl
        | parent => rfl
        | name n =>
          obtain rfl := eq_of_component hw
          exact if_neg (hdrive w rfl)
    rw [hlocate, wellPlaced_canonical_relative, TakesNameForDrive, and_iff_right hdrive]
  · refine iff_of_true ?_ fun h => hdrive h.1
    cases ws with
    | nil => exact absurd (fun w hw => absurd hw (by simp)) hdrive
    | cons w ws =>
      have hlast : w.getLast? = some ':' := by simpa using hdrive
      obtain ⟨hne, hfree⟩ := hws w mem_cons_self
      have hlocate : locate .here (w :: ws) = .onDrive w (ws.map component) := by
        rw [locate, component_of_drive hlast]
        exact if_pos hlast
      rw [hlocate]
      exact ⟨⟨hne, hfree, component_of_drive hlast⟩, hlast⟩

theorem wellPlaced_canonical_network (hws : ∀ w ∈ ws, w ≠ [] ∧ Free w) :
    (locate .network ws).canonical.WellPlaced ↔ ¬TakesNameForShare ws := by
  cases ws with
  | nil =>
    refine iff_of_true trivial ?_
    rintro ⟨hostname, w, rest, hwords, -⟩
    exact absurd hwords (by simp)
  | cons hostname ws =>
    by_cases hhost : component hostname = name hostname
    · have hname : IsName hostname := ⟨(hws _ mem_cons_self).1, (hws _ mem_cons_self).2,
        hhost⟩
      have hlocate : locate .network (hostname :: ws) = locateOnHost hostname ws := by
        rw [locate, hhost]
      rw [hlocate]
      cases ws with
      | nil =>
        refine iff_of_true ⟨hname, fun n hn => ?_⟩ ?_
        · exact absurd (show none = some (name n) from hn) (by simp)
        · rintro ⟨hostname', w, rest, hwords, -⟩
          exact absurd hwords (by simp)
      | cons w ws =>
        have htakes : TakesNameForShare (hostname :: w :: ws) ↔
            (component w = current ∨ component w = parent) ∧
              LeavesName ((w :: ws).map component) := by
          constructor
          · rintro ⟨hostname', w', rest, hwords, -, hw, hleaves⟩
            obtain ⟨rfl, rfl⟩ := cons.inj (cons.inj hwords).2
            exact ⟨hw, hleaves⟩
          · rintro ⟨hw, hleaves⟩
            exact ⟨hostname, w, ws, rfl, hhost, hw, hleaves⟩
        rw [htakes, locateOnHost, map_cons]
        cases hw : component w with
        | current =>
          rw [and_iff_right (Or.inl rfl)]
          exact wellPlaced_canonical_onHost hname
        | parent =>
          rw [and_iff_right (Or.inr rfl)]
          exact wellPlaced_canonical_onHost hname
        | name n =>
          refine iff_of_true ⟨hname, isName_of_component (hws w (by simp)) hw⟩ ?_
          rintro ⟨hw | hw, -⟩
          · exact absurd hw (by simp)
          · exact absurd hw (by simp)
    · have hlocate : locate .network (hostname :: ws) =
          .absolute ((hostname :: ws).map component) := by
        rw [locate, map_cons]
        cases hw : component hostname with
        | current => rfl
        | parent => rfl
        | name n =>
          rw [eq_of_component hw] at hhost
          exact absurd hw (eq_of_component hw ▸ hhost)
      rw [hlocate]
      refine iff_of_true trivial ?_
      rintro ⟨hostname', w, rest, hwords, hname, -⟩
      obtain ⟨rfl, -⟩ := cons.inj hwords
      exact hhost hname

/-- Canonical strings are those of the canonical forms of their pathnames, and these stay as they
are when they are read again: no name has become a drive or a sharename. -/
def ReadsBackCanonically (s : List Char) : Prop :=
  ∃ p q t, stringToPathname s = some p ∧ RoundTrips p ∧ p.setCanonical = some q ∧ RoundTrips q ∧
    canonicalPathname s = some t ∧ canonicalPathname t = some t

/-- The pathname of a string and its canonical form are read back, unless the canonical form has a
name at the beginning that is taken for a drive, or behind the hostname. -/
theorem readsBackCanonically_iff (s : List Char) : ReadsBackCanonically s ↔
    ¬(startOf s = .here ∧ TakesNameForDrive (words s)) ∧
      ¬(startOf s = .network ∧ TakesNameForShare (words s)) := by
  have hws : ∀ w ∈ words s, w ≠ [] ∧ Free w := fun w => mem_wordsBy
  obtain ⟨p, hp, hleads⟩ := exists_stringToPathname s
  obtain ⟨hplaced, hl⟩ := wellPlaced_locate (startOf s) hws
  obtain ⟨q, hq, hcanonical⟩ := exists_setCanonical hleads
  have hround := roundTrips_iff hcanonical (isWord_canonical hl)
  have hiff : ReadsBackCanonically s ↔
      (locate (startOf s) (words s)).canonical.WellPlaced := by
    constructor
    · rintro ⟨p', q', t, hp', -, hq', hround', -⟩
      rw [hp, some.injEq] at hp'
      subst hp'
      rw [hq, some.injEq] at hq'
      subst hq'
      exact hround.mp hround'
    · intro hwell
      have ht : canonicalPathname s = some (locate (startOf s) (words s)).canonical.text := by
        unfold canonicalPathname
        rw [hp, some_bind, hq, some_bind, pathnameToString_eq hcanonical]
      refine ⟨p, q, _, hp, (roundTrips_iff hleads hl).mpr hplaced, hq, hround.mpr hwell, ht, ?_⟩
      obtain ⟨p', hp', hleads'⟩ :=
        exists_stringToPathname (locate (startOf s) (words s)).canonical.text
      have hback := hwell.readBack_eq (isWord_canonical hl)
      rw [Location.readBack] at hback
      rw [hback] at hleads'
      obtain ⟨q', hq', hcanonical'⟩ := exists_setCanonical hleads'
      rw [Location.canonical_canonical] at hcanonical'
      unfold canonicalPathname
      rw [hp', some_bind, hq', some_bind, pathnameToString_eq hcanonical']
  rw [hiff]
  cases startOf s with
  | root => exact iff_of_true trivial ⟨by simp, by simp⟩
  | network =>
    rw [wellPlaced_canonical_network hws]
    simp
  | here =>
    rw [wellPlaced_canonical_here hws]
    simp

end

/-- The name `c:` behind the current directory becomes a drive. -/
theorem not_readsBackCanonically_drive : ¬ReadsBackCanonically ['.', '\\', 'c', ':'] := by
  rintro ⟨p, q, t, hp, -, hq, ⟨t', q', ht', hq', hsame⟩, -⟩
  have hrun : ((stringToPathname ['.', '\\', 'c', ':']).bind WindowsPathname.setCanonical).bind
      (fun q => (pathnameToString q).bind fun t => (stringToPathname t).map
        fun q' => (q.drive, q'.drive)) = some (none, some ['c', ':']) := by
    decide
  rw [hp, bind_some, hq, bind_some, ht', bind_some, hq', map_some,
    some.injEq, Prod.mk.injEq] at hrun
  exact absurd (hrun.1.symm.trans (hsame.drive_eq.symm.trans hrun.2)) (by simp)

end WindowsFileSystem

end Gobo
