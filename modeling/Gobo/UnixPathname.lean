/-
Pathnames as Unix writes them (`KL_UNIX_FILE_SYSTEM`): between strings and pathnames, and the
directory and the last name of a string.
-/
import Gobo.FileSystem

namespace Gobo

open List Text PathComponent LexicalPath FileSystem

namespace UnixFileSystem

def directorySeparator : Char := '/'

def rootDirectory : List Char := ['/']

def isSeparator (c : Char) : Bool := decide (c = directorySeparator)

def isNotSeparator (c : Char) : Bool := decide (c ≠ directorySeparator)

/-- One turn of the loop of `string_to_pathname`. -/
def pathnameTurn (s : List Char) (t : Nat × Pathname (List Char)) :
    Option (Nat × Pathname (List Char)) := do
  let i ← scanUp isNotSeparator s t.1
  if i ≤ s.length then do
    let j := i
    let i ← scanUp isSeparator s j
    let k := i - 1
    some (i, t.2.append (component (substring s j k)))
  else some (i, t.2)

def stringToPathname (aPathname : List Char) : Option (Pathname (List Char)) :=
  let nb := aPathname.length
  let result : Pathname (List Char) :=
    { Pathname.make with
      isRelative := if 0 < nb then decide (item aPathname 1 ≠ some directorySeparator) else true }
  (loopUntil (fun t => some (decide (nb < t.1))) (pathnameTurn aPathname) (nb + 1) (1, result)).map
    Prod.snd

def pathnameToString (p : Pathname (List Char)) : Option (List Char) :=
  appendComponents directorySeparator p (if ¬p.isRelative then rootDirectory else [])

/-- One turn of the loop of `is_root_directory`. -/
def rootTurn (s : List Char) (t : Nat × Bool) : Option (Nat × Bool) := do
  let c ← item s t.1
  some (if c ≠ directorySeparator then (s.length + 1, false) else (t.1 + 1, t.2))

def isRootDirectory (s : List Char) : Option Bool :=
  if 0 < s.length then
    (loopUntil (fun t => some (decide (s.length < t.1))) (rootTurn s) (s.length + 1) (1, true)).map
      Prod.snd
  else some false

def basename (aPathname : List Char) : Option (List Char) := do
  let root ← isRootDirectory aPathname
  if root then some rootDirectory
  else do
    let nb ← scanDown isNotSeparator aPathname aPathname.length
    let i ← scanDown isSeparator aPathname nb
    if i < 1 ∧ nb = aPathname.length then some aPathname
    else some (substring aPathname (i + 1) nb)

def dirname (aPathname : List Char) : Option (List Char) := do
  let root ← isRootDirectory aPathname
  if root then some rootDirectory
  else do
    let i ← scanDown isNotSeparator aPathname aPathname.length
    let i ← scanDown isSeparator aPathname i
    if i < 1 then some relativeCurrentDirectory
    else do
      let i ← scanDown isNotSeparator aPathname i
      if i < 1 then some rootDirectory else some (substring aPathname 1 i)

def pathname (aDirname aPathname : List Char) : List Char :=
  if 0 < aPathname.length then
    (if 0 < aDirname.length ∧ item aDirname aDirname.length ≠ some directorySeparator then
      aDirname ++ [directorySeparator]
    else aDirname) ++ aPathname
  else aDirname

/-- The parts of a string between its separators, without those that are empty. -/
def words (s : List Char) : List (List Char) := wordsBy isSeparator s

section

variable {s w z a b : List Char} {i : Nat} {p q : Pathname (List Char)}
  {l : List (PathComponent (List Char))}

theorem isSeparator_eq_true (c : Char) : isSeparator c = true ↔ c = directorySeparator :=
  decide_eq_true_iff

theorem isNotSeparator_eq (c : Char) : isNotSeparator c = !isSeparator c := decide_not

theorem isNotSeparator_eq_false {c : Char} : isNotSeparator c = false ↔ isSeparator c = true := by
  rw [isNotSeparator_eq, Bool.not_eq_false']

/-- The words that are read already, and the rest of the string. -/
structure Reading (s : List Char) (relative : Bool) (t : Nat × Pathname (List Char)) : Prop where
  isRelative_eq : t.2.isRelative = relative
  exists_rest : ∃ pre rest done, s = pre ++ rest ∧ t.1 = pre.length + 1 ∧
    t.2.Has (done.map component) ∧ done ++ words rest = words s

theorem Reading.exists_turn {relative : Bool} {t : Nat × Pathname (List Char)}
    (h : Reading s relative t) (hle : t.1 ≤ s.length) :
    ∃ t', pathnameTurn s t = some t' ∧ t.1 < t'.1 ∧ Reading s relative t' := by
  obtain ⟨hrelative, pre, rest, done, rfl, hi, hhas, hdone⟩ := h
  rw [hi] at hle
  unfold pathnameTurn
  rcases exists_part isNotSeparator_eq hle with ⟨hscan, hnone⟩ |
    ⟨z, w, rest, rfl, hne, hwords, hscan, hle', hscan', hsubstring⟩
  · rw [hi, hscan, some_bind, if_neg (by omega)]
    refine ⟨_, rfl, by dsimp only; omega, hrelative, pre ++ rest, [], done, by simp, rfl, hhas, ?_⟩
    rw [← hdone, words, words, hnone]
    rfl
  · have hpos := length_pos_iff.mpr hne
    rw [hi, hscan, some_bind, if_pos hle']
    dsimp only
    rw [hscan', some_bind, Nat.add_sub_cancel, hsubstring]
    refine ⟨_, rfl, by dsimp only; omega, hrelative, pre ++ z ++ w, rest, done ++ [w], by simp, ?_,
      ?_, ?_⟩
    · rw [length_append, length_append]
    · rw [map_append]
      exact hhas.append (component w)
    · rw [← hdone, words, words, hwords, append_assoc]
      rfl

theorem item_one (s : List Char) : item s 1 = s.head? := by
  cases s with
  | nil => rfl
  | cons c s => rfl

/-- `string_to_pathname` reads the words of the string. -/
theorem exists_stringToPathname (s : List Char) : ∃ p, stringToPathname s = some p ∧
    p.isRelative = decide (s.head? ≠ some directorySeparator) ∧
      p.Has ((words s).map component) := by
  have hrelative : (if 0 < s.length then decide (item s 1 ≠ some directorySeparator) else true) =
      decide (s.head? ≠ some directorySeparator) := by
    rw [item_one]
    cases s with
    | nil => rfl
    | cons c s => exact if_pos (Nat.succ_pos _)
  have hstart : Reading s (decide (s.head? ≠ some directorySeparator)) (1, { Pathname.make with
      isRelative := decide (s.head? ≠ some directorySeparator) }) :=
    ⟨rfl, [], s, [], rfl, rfl, ⟨rfl, _, rfl⟩, rfl⟩
  have hfuel : s.length + 1 - 1 < s.length + 1 := by omega
  obtain ⟨t, hrun, hend, hisRelative, pre, rest, done, hs, hi, hhas, hdone⟩ :=
    loopUntil_index (Reading s _) (fun t => rfl) (fun t ht hle => ht.exists_turn hle) hstart hfuel
  have hrest : rest = [] := by
    rw [hs, hi, length_append] at hend
    exact length_eq_zero_iff.mp (by omega)
  rw [hrest, words, wordsBy_nil, append_nil] at hdone
  refine ⟨t.2, ?_, hisRelative, hdone ▸ hhas⟩
  rw [stringToPathname, hrelative]
  exact congrArg (Option.map Prod.snd) hrun

/-- The string of a pathname leads back to its components. -/
theorem exists_stringToPathname_pathText (h : p.Has l) (hl : ∀ c ∈ l, IsWord isSeparator c) :
    ∃ t q, pathnameToString p = some t ∧ stringToPathname t = some q ∧
      q.isRelative = p.isRelative ∧ q.Has l := by
  obtain ⟨q, hq, hrelative, hhas⟩ := exists_stringToPathname
    ((if ¬p.isRelative then rootDirectory else []) ++ pathText directorySeparator l)
  refine ⟨_, q, appendComponents_eq h _, hq, hrelative.trans ?_, ?_⟩
  · cases hp : p.isRelative with
    | true =>
      refine decide_eq_true fun hhead => ?_
      exact absurd (head_pathText hl _ hhead) (by decide)
    | false => rfl
  · have hwords : words ((if ¬p.isRelative then rootDirectory else []) ++
        pathText directorySeparator l) = l.map componentText := by
      rw [← wordsBy_pathText (show isSeparator directorySeparator = true from rfl) hl]
      apply wordsBy_separators_append
      intro c hc
      split_ifs at hc
      · exact absurd hc not_mem_nil
      · rw [mem_singleton.mp hc]
        rfl
    rw [hwords, map_component_componentText hl] at hhas
    exact hhas

/-- Separators only, so far, or another character. -/
def Rooted (s : List Char) (t : Nat × Bool) : Prop :=
  t.2 = true ∧ (∃ pre rest, s = pre ++ rest ∧ t.1 = pre.length + 1 ∧
      ∀ c ∈ pre, c = directorySeparator) ∨
    t.2 = false ∧ ∃ c ∈ s, c ≠ directorySeparator

theorem exists_item (hpos : 1 ≤ i) (hle : i ≤ s.length) : ∃ c, item s i = some c ∧ c ∈ s := by
  obtain ⟨k, rfl⟩ := Nat.exists_eq_add_of_le' hpos
  exact ⟨s[k], getElem?_eq_getElem hle, getElem_mem hle⟩

theorem Rooted.exists_turn {t : Nat × Bool} (h : Rooted s t) (hpos : 1 ≤ t.1)
    (hle : t.1 ≤ s.length) : ∃ t', rootTurn s t = some t' ∧ t.1 < t'.1 ∧ Rooted s t' := by
  obtain ⟨c, hitem, hmem⟩ := exists_item hpos hle
  unfold rootTurn
  rw [hitem, some_bind]
  split_ifs with hc
  · exact ⟨_, rfl, Nat.lt_succ_of_le hle, Or.inr ⟨rfl, c, hmem, hc⟩⟩
  · refine ⟨_, rfl, Nat.lt_succ_self _, ?_⟩
    rcases h with ⟨hresult, pre, rest, rfl, hi, hpre⟩ | ⟨hresult, hother⟩
    · cases rest with
      | nil =>
        rw [append_nil] at hle
        omega
      | cons d rest =>
        rw [hi, item_append_cons] at hitem
        refine Or.inl ⟨hresult, pre ++ [d], rest, by simp, by simp [hi], fun e he => ?_⟩
        rcases mem_append.mp he with hpre' | hlast
        · exact hpre e hpre'
        · rw [mem_singleton.mp hlast, Option.some.inj hitem, not_not.mp hc]
    · exact Or.inr ⟨hresult, hother⟩

/-- A root directory consists of separators. -/
theorem exists_isRootDirectory (s : List Char) : ∃ root, isRootDirectory s = some root ∧
    (root = true ↔ s ≠ [] ∧ ∀ c ∈ s, c = directorySeparator) := by
  unfold isRootDirectory
  split_ifs with hpos
  · have hfuel : s.length + 1 - ((1, true) : Nat × Bool).1 < s.length + 1 := by
      show s.length + 1 - 1 < s.length + 1
      omega
    have hstart : Rooted s (1, true) := Or.inl ⟨rfl, [], s, rfl, rfl, by simp⟩
    have hturn : ∀ t : Nat × Bool, 1 ≤ t.1 ∧ Rooted s t → t.1 ≤ s.length →
        ∃ t', rootTurn s t = some t' ∧ t.1 < t'.1 ∧ 1 ≤ t'.1 ∧ Rooted s t' := by
      rintro t ⟨hone, hrooted⟩ hle
      obtain ⟨t', hturn, hlt, hrooted'⟩ := hrooted.exists_turn hone hle
      exact ⟨t', hturn, hlt, by omega, hrooted'⟩
    obtain ⟨t, hrun, hend, -, hrooted⟩ := loopUntil_index (fun t => 1 ≤ t.1 ∧ Rooted s t)
      (fun t => rfl) hturn ⟨Nat.le_refl 1, hstart⟩ hfuel
    have hne : s ≠ [] := ne_nil_of_length_pos hpos
    rw [hrun, Option.map_some]
    refine ⟨t.2, rfl, ?_⟩
    rcases hrooted with ⟨hresult, pre, rest, hs, hi, hpre⟩ | ⟨hresult, c, hc, hother⟩
    · rw [hs, hi, length_append] at hend
      obtain rfl := length_eq_zero_iff.mp (show rest.length = 0 by omega)
      rw [append_nil] at hs
      exact iff_of_true hresult ⟨hne, hs ▸ hpre⟩
    · exact iff_of_false (by rw [hresult]; exact Bool.false_ne_true) fun h => hother (h.2 c hc)
  · obtain rfl := length_eq_zero_iff.mp (show s.length = 0 by omega)
    exact ⟨false, rfl, iff_of_false Bool.false_ne_true fun h => h.1 rfl⟩

/-- A string that is no root directory: its last word, what is before it and the separators at its
end. -/
theorem exists_lastWord (hs : ∃ c ∈ s, c ≠ directorySeparator) : ∃ d w z, s = d ++ (w ++ z) ∧
    w ≠ [] ∧ FreeOf isSeparator w ∧ (∀ c ∈ z, isSeparator c = true) ∧
    (∀ c ∈ d.getLast?, isSeparator c = true) ∧
    scanDown isNotSeparator s s.length = some (d.length + w.length) ∧
    scanDown isSeparator s (d.length + w.length) = some d.length := by
  obtain ⟨front, z, rfl, hz, hfront⟩ := exists_scanned_down isNotSeparator s
  obtain ⟨d, w, rfl, hw, hd⟩ := exists_scanned_down isSeparator front
  have hseparators : ∀ c ∈ z, isSeparator c = true := fun c hc =>
    isNotSeparator_eq_false.mp (hz c hc)
  have hscan := scanDown_eq (d ++ w) z [] hz hfront
  have hscan' := scanDown_eq d w z hw hd
  rw [append_nil, ← length_append] at hscan
  rw [append_assoc] at hscan ⊢
  have hne : w ≠ [] := by
    rintro rfl
    rcases eq_nil_or_concat d with rfl | ⟨d, c, rfl⟩
    · obtain ⟨c, hc, hother⟩ := hs
      exact hother ((isSeparator_eq_true c).mp (hseparators c hc))
    · have hc := hd c (by simp)
      have hc' := hfront c (by simp)
      rw [isNotSeparator_eq, hc] at hc'
      exact absurd hc' (by decide)
  refine ⟨d, w, z, rfl, hne, hw, hseparators, hd, ?_, hscan'⟩
  rw [← append_assoc, append_assoc, hscan, length_append]

theorem head_append (hne : a ≠ []) (b : List Char) : (a ++ b).head? = a.head? := by
  cases a with
  | nil => exact absurd rfl hne
  | cons c a => rfl

theorem pathname_eq (hlast : a.getLast? ≠ some directorySeparator) (hne : a ≠ []) (hb : b ≠ []) :
    pathname a b = a ++ directorySeparator :: b := by
  have hitem : item a a.length ≠ some directorySeparator := by
    rcases eq_nil_or_concat a with rfl | ⟨a, c, rfl⟩
    · exact absurd rfl hne
    · rw [concat_eq_append, length_append, length_singleton, item_append_cons]
      rw [concat_eq_append, getLast?_concat] at hlast
      exact hlast
  rw [pathname, if_pos (length_pos_iff.mpr hb), if_pos ⟨length_pos_iff.mpr hne, hitem⟩,
    append_assoc]
  rfl

theorem basename_eq {d : List Char} (hroot : isRootDirectory s = some false)
    (hs : s = d ++ (w ++ z))
    (hscan : scanDown isNotSeparator s s.length = some (d.length + w.length))
    (hscan' : scanDown isSeparator s (d.length + w.length) = some d.length) :
    basename s = some w := by
  unfold basename
  rw [hroot, some_bind, if_neg Bool.false_ne_true, hscan,
    some_bind, hscan', some_bind]
  split_ifs with hwhole
  · obtain rfl := length_eq_zero_iff.mp (show d.length = 0 by omega)
    have hlength := hwhole.2
    rw [hs, nil_append, length_append, length_nil] at hlength
    obtain rfl := length_eq_zero_iff.mp (show z.length = 0 by omega)
    rw [hs, nil_append, append_nil]
  · rw [hs, substring_middle]

/-- The directory is what is before the last word, without the separators at its end. -/
theorem dirname_eq {d : List Char} (hroot : isRootDirectory s = some false) (hs : s = d ++ (w ++ z))
    (hscan : scanDown isNotSeparator s s.length = some (d.length + w.length))
    (hscan' : scanDown isSeparator s (d.length + w.length) = some d.length) :
    ∃ d' y, d = d' ++ y ∧ (∀ c ∈ y, isSeparator c = true) ∧
      (∀ c ∈ d'.getLast?, isSeparator c = false) ∧ dirname s = some
        (if d = [] then relativeCurrentDirectory else if d' = [] then rootDirectory else d') := by
  obtain ⟨d', y, rfl, hy, hd'⟩ := exists_scanned_down isNotSeparator d
  refine ⟨d', y, rfl, fun c hc => isNotSeparator_eq_false.mp (hy c hc), fun c hc => ?_, ?_⟩
  · have hnot := hd' c hc
    rwa [isNotSeparator_eq, Bool.not_eq_true'] at hnot
  · have hscan₂ := scanDown_eq d' y (w ++ z) hy hd'
    rw [← append_assoc, ← hs, ← length_append] at hscan₂
    unfold dirname
    rw [hroot, some_bind, if_neg Bool.false_ne_true, hscan,
      some_bind, hscan', some_bind]
    by_cases hempty : d' ++ y = []
    · rw [if_pos hempty, hempty]
      rfl
    · have hpos := length_pos_iff.mpr hempty
      rw [if_neg hempty, if_neg (by omega), hscan₂, some_bind]
      by_cases hempty' : d' = []
      · rw [if_pos hempty', hempty']
        rfl
      · have hpos' := length_pos_iff.mpr hempty'
        rw [if_neg hempty', if_neg (by omega), substring_one, hs, append_assoc,
          take_left]

/-- The strings have the same relativity, and the same words, but perhaps for a current directory
that comes first. -/
def Agree (s t : List Char) : Prop :=
  (t.head? = some directorySeparator ↔ s.head? = some directorySeparator) ∧
    (words t = words s ∨ words t = relativeCurrentDirectory :: words s)

theorem agree_rootDirectory (hne : s ≠ []) (hs : ∀ c ∈ s, c = directorySeparator) :
    Agree s (pathname rootDirectory rootDirectory) := by
  have hwords := wordsBy_separators_append
    (fun c hc => (isSeparator_eq_true c).mpr (hs c hc)) []
  rw [append_nil, wordsBy_nil] at hwords
  refine ⟨?_, Or.inl ?_⟩
  · obtain ⟨c, s', rfl⟩ := exists_cons_of_ne_nil hne
    rw [hs c mem_cons_self]
    exact iff_of_true rfl rfl
  · rw [words, words, hwords]
    rfl

theorem head_of_free (hne : w ≠ []) (hw : FreeOf isSeparator w) (b : List Char) :
    (w ++ b).head? ≠ some directorySeparator := by
  intro hhead
  exact absurd (head_append_of_free hne hw b _ hhead) (by decide)

/-- The last word in the directory that `dirname` finds. -/
theorem agree_lastWord {d y : List Char} (hne : w ≠ []) (hw : FreeOf isSeparator w)
    (hz : ∀ c ∈ z, isSeparator c = true) (hy : ∀ c ∈ y, isSeparator c = true)
    (hd : ∀ c ∈ d.getLast?, isSeparator c = false)
    (hdy : ∀ c ∈ (d ++ y).getLast?, isSeparator c = true) :
    Agree (d ++ y ++ (w ++ z)) (pathname (if d ++ y = [] then relativeCurrentDirectory
      else if d = [] then rootDirectory else d) w) := by
  have hsep : isSeparator directorySeparator = true := rfl
  have hword : words (w ++ z) = [w] := by
    rw [words, wordsBy_append_of_free hne hw fun c hc => hz c (mem_of_mem_head? hc)]
    exact congrArg _ (append_nil z ▸ wordsBy_separators_append hz [])
  split_ifs with hempty hempty'
  · rw [hempty, nil_append]
    have hjoin : pathname relativeCurrentDirectory w =
        relativeCurrentDirectory ++ directorySeparator :: w :=
      pathname_eq (by decide) (by decide) hne
    refine ⟨iff_of_false ?_ (head_of_free hne hw z), Or.inr ?_⟩
    · rw [hjoin]
      exact Option.some_injective _ |>.ne (by decide)
    · rw [hjoin, hword, words, wordsBy_append_separator hsep, wordsBy_of_free hne hw]
      rfl
  · rw [hempty', nil_append] at hempty ⊢
    have hjoin : pathname rootDirectory w = directorySeparator :: w := by
      rw [pathname, if_pos (length_pos_iff.mpr hne)]
      rfl
    refine ⟨iff_of_true ?_ ?_, Or.inl ?_⟩
    · rw [hjoin]
      rfl
    · obtain ⟨c, y', rfl⟩ := exists_cons_of_ne_nil hempty
      rw [(isSeparator_eq_true c).mp (hy c mem_cons_self)]
      rfl
    · rw [hjoin, words, words, wordsBy_separators_append hy, wordsBy_separator_cons hsep,
        wordsBy_of_free hne hw]
      exact hword.symm
  · have hlast : d.getLast? ≠ some directorySeparator := fun h => absurd (hd _ h) (by decide)
    have hjoin := pathname_eq hlast hempty' hne
    cases y with
    | nil =>
      rw [append_nil] at hdy
      rcases eq_nil_or_concat d with rfl | ⟨d, c, rfl⟩
      · exact absurd rfl hempty'
      · exact absurd ((hdy c (by simp)).symm.trans (hd c (by simp))) (by decide)
    | cons c y =>
      have hy' : ∀ c ∈ y, isSeparator c = true := fun c hc => hy c (mem_cons_of_mem _ hc)
      rw [hjoin, append_assoc, cons_append]
      refine ⟨?_, Or.inl ?_⟩
      · rw [head_append hempty', head_append hempty']
      · rw [words, words, wordsBy_append_separator hsep,
          wordsBy_append_separator (hy c mem_cons_self), wordsBy_separators_append hy',
          wordsBy_of_free hne hw]
        exact congrArg _ hword.symm

/-- The directory and the last name make up the same components, perhaps after the current
directory, and the same relativity. -/
theorem exists_dirname_basename (s : List Char) : ∃ d b, dirname s = some d ∧ basename s = some b ∧
    Agree s (pathname d b) := by
  obtain ⟨root, hisRoot, hiff⟩ := exists_isRootDirectory s
  by_cases hroot : s ≠ [] ∧ ∀ c ∈ s, c = directorySeparator
  · rw [hiff.mpr hroot] at hisRoot
    refine ⟨rootDirectory, rootDirectory, ?_, ?_, agree_rootDirectory hroot.1 hroot.2⟩
    · rw [dirname, hisRoot]
      rfl
    · rw [basename, hisRoot]
      rfl
  · rw [Bool.eq_false_iff.mpr (mt hiff.mp hroot)] at hisRoot
    by_cases hother : ∃ c ∈ s, c ≠ directorySeparator
    · obtain ⟨d, w, z, hs, hne, hfree, hz, hd, hscan, hscan'⟩ := exists_lastWord hother
      have hbasename := basename_eq hisRoot hs hscan hscan'
      obtain ⟨d', y, rfl, hy, hd', hdirname⟩ := dirname_eq hisRoot hs hscan hscan'
      refine ⟨_, w, hdirname, hbasename, ?_⟩
      rw [hs]
      exact agree_lastWord hne hfree hz hy hd' hd
    · have hnil : s = [] := by
        by_contra hne
        exact hroot ⟨hne, fun c hc => by_contra fun hc' => hother ⟨c, hc, hc'⟩⟩
      rw [hnil]
      exact ⟨relativeCurrentDirectory, [], rfl, rfl, by decide, Or.inr rfl⟩

theorem isWord_current : IsWord isSeparator current :=
  ⟨relativeCurrentDirectory, by decide, fun c hc => mem_singleton.mp hc ▸ rfl, rfl⟩

/-- A pathname is read back from its string. -/
def ReadsBack (p : Pathname (List Char)) (l : List (PathComponent (List Char))) : Prop :=
  ∃ t q, pathnameToString p = some t ∧ stringToPathname t = some q ∧
    q.isRelative = p.isRelative ∧ q.Has l

theorem canonical_of_agree {relative : Bool} {t : List Char} (h : Agree s t) :
    canonical relative ((words t).map component) =
      canonical relative ((words s).map component) := by
  rcases h.2 with hwords | hwords
  · rw [hwords]
  · rw [hwords]
    exact canonical_congr rfl

/-- A canonical pathname is not changed, and is read back from its string. -/
theorem canonical_stays {relative : Bool} (hl : ∀ c ∈ l, IsWord isSeparator c)
    (hrelative : q.isRelative = relative) (h : q.Has (canonical relative l)) :
    q.setCanonical = some q ∧ ReadsBack q (canonical relative l) := by
  constructor
  · obtain ⟨r, hr, -, -, hsame⟩ := Pathname.exists_setCanonical h
    rw [hrelative, canonical_canonical] at hsame
    rw [hr, hsame rfl]
  · refine exists_stringToPathname_pathText h fun c hc => ?_
    rcases mem_canonical hc with hmem | rfl
    · exact hl c hmem
    · exact isWord_current

/-- The canonical form of the pathname of any string is the lexical normal form of its components.
It stays as it is, it is read back from its string, as the pathname before it is, and it is also
the one of the directory and the last name of the string. -/
theorem canonical_pathname (s : List Char) : ∃ p q l l', stringToPathname s = some p ∧ p.Has l ∧
    p.setCanonical = some q ∧ q.isRelative = p.isRelative ∧ q.Has l' ∧
    IsLexicalForm p.isRelative l l' ∧ q.setCanonical = some q ∧ ReadsBack p l ∧ ReadsBack q l' ∧
    ∃ d b p' q', dirname s = some d ∧ basename s = some b ∧
      stringToPathname (pathname d b) = some p' ∧ p'.setCanonical = some q' ∧
      q'.isRelative = q.isRelative ∧ q'.Has l' := by
  obtain ⟨p, hp, hprelative, hphas⟩ := exists_stringToPathname s
  obtain ⟨q, hq, hqrelative, hqhas, -⟩ := Pathname.exists_setCanonical hphas
  have hwords : ∀ c ∈ (words s).map component, IsWord isSeparator c := by
    intro c hc
    obtain ⟨w, hw, rfl⟩ := mem_map.mp hc
    exact isWord_component hw
  obtain ⟨hstays, hreads⟩ := canonical_stays hwords hqrelative hqhas
  refine ⟨p, q, _, _, hp, hphas, hq, hqrelative, hqhas, isLexicalForm_canonical _, hstays,
    exists_stringToPathname_pathText hphas hwords, hreads, ?_⟩
  obtain ⟨d, b, hd, hb, hagree⟩ := exists_dirname_basename s
  obtain ⟨p', hp', hprelative', hphas'⟩ := exists_stringToPathname (pathname d b)
  obtain ⟨q', hq', hqrelative', hqhas', -⟩ := Pathname.exists_setCanonical hphas'
  have hrelative : p'.isRelative = p.isRelative := by
    rw [hprelative, hprelative', decide_eq_decide]
    exact not_congr hagree.1
  rw [hrelative, canonical_of_agree hagree] at hqhas'
  exact ⟨d, b, p', q', hd, hb, hp', hq', (hqrelative'.trans hrelative).trans hqrelative.symm,
    hqhas'⟩

end

end UnixFileSystem

end Gobo
