/-
Pathnames as Windows writes them (`KL_WINDOWS_FILE_SYSTEM`): between strings and pathnames with a
drive, or with a hostname and perhaps a sharename.
-/
import Gobo.FileSystem

namespace Gobo

open List Text PathComponent LexicalPath FileSystem

/-- A pathname with the parts of it that only Windows has. -/
structure WindowsPathname extends Pathname (List Char) where
  drive : Option (List Char)
  hostname : Option (List Char)
  sharename : Option (List Char)
deriving DecidableEq

namespace WindowsPathname

def make : WindowsPathname :=
  { (Pathname.make : Pathname (List Char)) with drive := none, hostname := none, sharename := none }

/-- `append_name`, `append_current` and `append_parent`. -/
def append (p : WindowsPathname) (c : PathComponent (List Char)) : WindowsPathname :=
  { p with toPathname := p.toPathname.append c }

def setCanonical (p : WindowsPathname) : Option WindowsPathname :=
  p.toPathname.setCanonical.map fun q => { p with toPathname := q }

/-- The two have the same parts. -/
structure Same (p q : WindowsPathname) : Prop where
  isRelative_eq : p.isRelative = q.isRelative
  drive_eq : p.drive = q.drive
  hostname_eq : p.hostname = q.hostname
  sharename_eq : p.sharename = q.sharename
  count_eq : p.count = q.count
  components_eq : p.components.take p.count = q.components.take q.count

end WindowsPathname

namespace WindowsFileSystem

def directorySeparator : Char := '\\'

def secondaryDirectorySeparator : Char := '/'

def rootDirectory : List Char := ['\\']

def isDirectorySeparator (c : Char) : Bool :=
  decide (c = directorySeparator ∨ c = secondaryDirectorySeparator)

def isNotDirectorySeparator (c : Char) : Bool := !isDirectorySeparator c

/-- The locals of `string_to_pathname`. -/
structure Parsing where
  i : Nat
  result : WindowsPathname
  hasHostname : Bool
  hasSharename : Bool
  hasDrive : Bool

/-- What `string_to_pathname` does with a part of the string. -/
def place (t : Parsing) (str : List Char) : Option Parsing := do
  let t ← match component str with
    | name str =>
        if t.hasHostname then
          some { t with
            result := { t.result with hostname := some str }, hasSharename := true }
        else if t.hasSharename then
          some { t with
            result := { t.result with sharename := some str }, hasSharename := false }
        else if t.hasDrive then do
          let c ← item str str.length
          if c = ':' then
            some { t with result := { t.result with drive := some str, isRelative := false } }
          else some { t with result := t.result.append (name str) }
        else some { t with result := t.result.append (name str) }
    | c => some { t with result := t.result.append c, hasSharename := false }
  some { t with hasHostname := false, hasDrive := false }

/-- One turn of the loop of `string_to_pathname`. -/
def pathnameTurn (s : List Char) (t : Parsing) : Option Parsing := do
  let i ← scanUp isNotDirectorySeparator s t.i
  if i ≤ s.length then do
    let j := i
    let i ← scanUp isDirectorySeparator s j
    let k := i - 1
    let t ← place t (substring s j k)
    some { t with i := i }
  else some { t with i := i }

/-- `is_directory_separator (item (i))`. -/
def separatorAt (s : List Char) (i : Nat) : Option Bool := (item s i).map isDirectorySeparator

/-- What `string_to_pathname` finds at the beginning of the string. -/
def parsing (s : List Char) : Option Parsing := do
  let result : WindowsPathname :=
    { WindowsPathname.make with isRelative := true }
  let nb := s.length
  let unc ← if nb > 2 then do
      let first ← separatorAt s 1
      if first then separatorAt s 2 else some false
    else some false
  if unc then some ⟨3, { result with isRelative := false }, true, false, false⟩
  else do
    let absolute ← if nb > 0 then separatorAt s 1 else some false
    if absolute then some ⟨2, { result with isRelative := false }, false, false, false⟩
    else some ⟨1, result, false, false, true⟩

def stringToPathname (aPathname : List Char) : Option WindowsPathname := do
  let t ← parsing aPathname
  let t ← loopUntil (fun t => some (decide (aPathname.length < t.i))) (pathnameTurn aPathname)
    (aPathname.length + 2) t
  some t.result

/-- What `pathname_to_string` writes before the components. -/
def leading (p : WindowsPathname) : List Char :=
  match p.drive with
  | some drive => drive ++ [directorySeparator]
  | none =>
      match p.hostname with
      | some hostname =>
          [directorySeparator, directorySeparator] ++ hostname ++ [directorySeparator] ++
            match p.sharename with
            | some sharename =>
                sharename ++ if p.count > 0 then [directorySeparator] else []
            | none => []
      | none => if ¬p.isRelative then rootDirectory else []

def pathnameToString (p : WindowsPathname) : Option (List Char) :=
  appendComponents directorySeparator p.toPathname (leading p)

def canonicalPathname (aPathname : List Char) : Option (List Char) := do
  let p ← stringToPathname aPathname
  let p ← p.setCanonical
  pathnameToString p

/-- The parts of a string between its separators, without those that are empty. -/
def words (s : List Char) : List (List Char) := wordsBy isDirectorySeparator s

/-- What a pathname starts from. -/
inductive Start where
  | network
  | root
  | here
deriving DecidableEq

/-- Two separators with something after them lead to a host, one to the root directory. -/
def startOf : List Char → Start
  | c :: d :: _ :: _ =>
      if isDirectorySeparator c then if isDirectorySeparator d then .network else .root else .here
  | c :: _ => if isDirectorySeparator c then .root else .here
  | [] => .here

/-- Where a path leads to. -/
inductive Location where
  | relative (l : List (PathComponent (List Char)))
  | absolute (l : List (PathComponent (List Char)))
  | onDrive (drive : List Char) (l : List (PathComponent (List Char)))
  | onHost (hostname : List Char) (sharename : Option (List Char))
      (l : List (PathComponent (List Char)))
deriving DecidableEq

/-- The location on a host that words lead to: the first word is the sharename if it is a name. -/
def locateOnHost (hostname : List Char) : List (List Char) → Location
  | [] => .onHost hostname none []
  | w :: ws =>
      match component w with
      | name sharename => .onHost hostname (some sharename) (ws.map component)
      | c => .onHost hostname none (c :: ws.map component)

/-- The location that words lead to. -/
def locate : Start → List (List Char) → Location
  | .network, [] => .absolute []
  | .network, w :: ws =>
      match component w with
      | name hostname => locateOnHost hostname ws
      | c => .absolute (c :: ws.map component)
  | .root, ws => .absolute (ws.map component)
  | .here, [] => .relative []
  | .here, w :: ws =>
      match component w with
      | name w =>
          if w.getLast? = some ':' then .onDrive w (ws.map component)
          else .relative (name w :: ws.map component)
      | c => .relative (c :: ws.map component)

namespace Location

def isRelative : Location → Bool
  | relative _ => true
  | _ => false

def drive : Location → Option (List Char)
  | onDrive drive _ => some drive
  | _ => none

def hostname : Location → Option (List Char)
  | onHost hostname _ _ => some hostname
  | _ => none

def sharename : Location → Option (List Char)
  | onHost _ sharename _ => sharename
  | _ => none

def components : Location → List (PathComponent (List Char))
  | relative l => l
  | absolute l => l
  | onDrive _ l => l
  | onHost _ _ l => l

/-- The location with other components. -/
def withComponents : Location → List (PathComponent (List Char)) → Location
  | relative _, l => relative l
  | absolute _, l => absolute l
  | onDrive drive _, l => onDrive drive l
  | onHost hostname sharename _, l => onHost hostname sharename l

def canonical (loc : Location) : Location :=
  loc.withComponents (LexicalPath.canonical loc.isRelative loc.components)

end Location

/-- The pathname of a location. -/
structure LeadsTo (p : WindowsPathname) (loc : Location) : Prop where
  isRelative_eq : p.isRelative = loc.isRelative
  drive_eq : p.drive = loc.drive
  hostname_eq : p.hostname = loc.hostname
  sharename_eq : p.sharename = loc.sharename
  has : p.toPathname.Has loc.components

section

variable {s w z a b : List Char} {ws : List (List Char)} {c : Char} {t : Parsing}
  {p q : WindowsPathname} {loc : Location} {l : List (PathComponent (List Char))}

theorem isNotDirectorySeparator_eq (c : Char) :
    isNotDirectorySeparator c = !isDirectorySeparator c := rfl

/-- What `place` does with a part that is not empty. -/
def placed (t : Parsing) (str : List Char) : Parsing :=
  { (match component str with
    | name str =>
        if t.hasHostname then
          { t with result := { t.result with hostname := some str }, hasSharename := true }
        else if t.hasSharename then
          { t with result := { t.result with sharename := some str }, hasSharename := false }
        else if t.hasDrive then
          if str.getLast? = some ':' then
            { t with result := { t.result with drive := some str, isRelative := false } }
          else { t with result := t.result.append (name str) }
        else { t with result := t.result.append (name str) }
    | c => { t with result := t.result.append c, hasSharename := false }) with
    hasHostname := false, hasDrive := false }

/-- A part that is a name is this name. -/
theorem eq_of_component {n : List Char} (h : component w = name n) : w = n := by
  have htext := componentText_component w
  rw [h] at htext
  exact htext.symm

theorem item_length (hne : w ≠ []) : ∃ c, item w w.length = some c ∧ w.getLast? = some c := by
  rcases eq_nil_or_concat w with rfl | ⟨w, c, rfl⟩
  · exact absurd rfl hne
  · refine ⟨c, ?_, ?_⟩
    · rw [concat_eq_append, length_append]
      exact item_append_cons w c []
    · rw [concat_eq_append, getLast?_concat]

theorem place_eq (t : Parsing) (hne : w ≠ []) : place t w = some (placed t w) := by
  obtain ⟨c, hitem, hlast⟩ := item_length hne
  unfold place placed
  cases hcomponent : component w with
  | current => rfl
  | parent => rfl
  | name n =>
    obtain rfl := eq_of_component hcomponent
    dsimp only
    rw [hitem, hlast]
    simp only [some_bind, Option.some.injEq]
    split_ifs <;> rfl

/-- Where the parts go does not depend on the index. -/
theorem result_foldl_placed (t : Parsing) (i : Nat) (ws : List (List Char)) :
    (ws.foldl placed { t with i := i }).result = (ws.foldl placed t).result := by
  induction ws generalizing t with
  | nil => rfl
  | cons w ws ih =>
    have hplaced : placed { t with i := i } w = { placed t w with i := i } := by
      unfold placed
      cases component w with
      | current => rfl
      | parent => rfl
      | name n =>
        dsimp only
        split_ifs <;> rfl
    rw [foldl_cons, hplaced, ih, foldl_cons]

/-- A turn of the loop passes the separators and places the word after them. -/
theorem exists_pathnameTurn {pre rest : List Char} (hi : t.i = pre.length + 1)
    (hle : t.i ≤ (pre ++ rest).length) : ∃ t' pre' rest', pathnameTurn (pre ++ rest) t = some t' ∧
      t.i < t'.i ∧ pre ++ rest = pre' ++ rest' ∧ t'.i = pre'.length + 1 ∧
      ((words rest').foldl placed t').result = ((words rest).foldl placed t).result := by
  rw [hi] at hle ⊢
  unfold pathnameTurn
  rcases exists_part isNotDirectorySeparator_eq hle with ⟨hscan, hnone⟩ |
    ⟨z, w, rest, rfl, hne, hwords, hscan, hle', hscan', hsubstring⟩
  · rw [hi, hscan, some_bind, if_neg (by omega)]
    refine ⟨_, pre ++ rest, [], rfl, by dsimp only; omega, by simp, rfl, ?_⟩
    rw [words, words, hnone]
    rfl
  · have hpos := length_pos_iff.mpr hne
    rw [hi, hscan, some_bind, if_pos hle']
    dsimp only
    rw [hscan', some_bind, Nat.add_sub_cancel, hsubstring, place_eq t hne, some_bind]
    refine ⟨_, pre ++ z ++ w, rest, rfl, by dsimp only; omega, by simp, ?_, ?_⟩
    · rw [length_append, length_append]
    · rw [words, words, hwords, foldl_cons, result_foldl_placed]

/-- The locals before the loop of `string_to_pathname`. -/
def initial : Start → Parsing
  | .network => ⟨3, { WindowsPathname.make with isRelative := false }, true, false, false⟩
  | .root => ⟨2, { WindowsPathname.make with isRelative := false }, false, false, false⟩
  | .here => ⟨1, { WindowsPathname.make with isRelative := true }, false, false, true⟩

theorem parsing_eq (s : List Char) : parsing s = some (initial (startOf s)) := by
  unfold parsing
  match s with
  | [] => rfl
  | [c] =>
    cases hc : isDirectorySeparator c with
    | true => simp [separatorAt, item, startOf, initial, hc]
    | false => simp [separatorAt, item, startOf, initial, hc]
  | [c, d] =>
    cases hc : isDirectorySeparator c with
    | true => simp [separatorAt, item, startOf, initial, hc]
    | false => simp [separatorAt, item, startOf, initial, hc]
  | c :: d :: e :: s =>
    cases hc : isDirectorySeparator c with
    | true =>
      cases hd : isDirectorySeparator d with
      | true => simp [separatorAt, item, startOf, initial, hc, hd]
      | false => simp [separatorAt, item, startOf, initial, hc, hd]
    | false => simp [separatorAt, item, startOf, initial, hc]

/-- The loop starts behind separators. -/
theorem exists_initial (s : List Char) : ∃ pre rest, s = pre ++ rest ∧
    (∀ c ∈ pre, isDirectorySeparator c = true) ∧ (initial (startOf s)).i = pre.length + 1 := by
  match s with
  | [] => exact ⟨[], [], rfl, by simp, rfl⟩
  | [c] =>
    cases hc : isDirectorySeparator c with
    | true => exact ⟨[c], [], rfl, by simp [hc], by simp [startOf, initial, hc]⟩
    | false => exact ⟨[], [c], rfl, by simp, by simp [startOf, initial, hc]⟩
  | [c, d] =>
    cases hc : isDirectorySeparator c with
    | true => exact ⟨[c], [d], rfl, by simp [hc], by simp [startOf, initial, hc]⟩
    | false => exact ⟨[], [c, d], rfl, by simp, by simp [startOf, initial, hc]⟩
  | c :: d :: e :: s =>
    cases hc : isDirectorySeparator c with
    | true =>
      cases hd : isDirectorySeparator d with
      | true => exact ⟨[c, d], e :: s, rfl, by simp [hc, hd], by simp [startOf, initial, hc, hd]⟩
      | false => exact ⟨[c], d :: e :: s, rfl, by simp [hc], by simp [startOf, initial, hc, hd]⟩
    | false => exact ⟨[], c :: d :: e :: s, rfl, by simp, by simp [startOf, initial, hc]⟩

/-- The state of the loop of `string_to_pathname`: the words that are left lead to `result`. -/
def Reads (s : List Char) (result : WindowsPathname) (t : Parsing) : Prop :=
  ∃ pre rest, s = pre ++ rest ∧ t.i = pre.length + 1 ∧
    ((words rest).foldl placed t).result = result

theorem Reads.exists_turn {result : WindowsPathname} (h : Reads s result t) (hle : t.i ≤ s.length) :
    ∃ t', pathnameTurn s t = some t' ∧ t.i < t'.i ∧ Reads s result t' := by
  obtain ⟨pre, rest, rfl, hi, rfl⟩ := h
  obtain ⟨t', pre', rest', hturn, hlt, hs', hi', hsame⟩ := exists_pathnameTurn hi hle
  exact ⟨t', hturn, hlt, pre', rest', hs', hi', hsame⟩

/-- `string_to_pathname` places the words of the string one after the other. -/
theorem stringToPathname_eq (s : List Char) : stringToPathname s =
    some ((words s).foldl placed (initial (startOf s))).result := by
  obtain ⟨pre, rest, hs, hpre, hi⟩ := exists_initial s
  have hwords : words s = words rest := by rw [hs, words, words, wordsBy_separators_append hpre]
  have hreads : Reads s ((words s).foldl placed (initial (startOf s))).result
      (initial (startOf s)) := ⟨pre, rest, hs, hi, by rw [hwords]⟩
  obtain ⟨t, hrun, hend, pre', rest', hs', hi', hresult⟩ :=
    loopUntil_index _ (fun _ => rfl) (fun _ => Reads.exists_turn) hreads
      (show s.length + 1 - (initial (startOf s)).i < s.length + 2 by omega)
  have hnil : rest' = [] := by
    rw [hs', hi', length_append] at hend
    exact length_eq_zero_iff.mp (by omega)
  rw [hnil, words, wordsBy_nil, foldl_nil] at hresult
  unfold stringToPathname
  rw [parsing_eq, some_bind, hrun, some_bind, hresult]

/-- Once a component is read, all words are components. -/
def Parsing.Settled (t : Parsing) : Prop :=
  t.hasHostname = false ∧ t.hasSharename = false ∧ t.hasDrive = false

theorem Parsing.Settled.placed (ht : t.Settled) (w : List Char) :
    placed t w = { t with result := t.result.append (component w) } := by
  obtain ⟨i, result, hasHostname, hasSharename, hasDrive⟩ := t
  obtain ⟨rfl, rfl, rfl⟩ := ht
  unfold WindowsFileSystem.placed
  cases component w <;> rfl

theorem LeadsTo.append (h : LeadsTo p loc) (c : PathComponent (List Char)) :
    LeadsTo (p.append c) (loc.withComponents (loc.components ++ [c])) := by
  obtain ⟨hrelative, hdrive, hhostname, hsharename, hhas⟩ := h
  have happend := hhas.append c
  cases loc <;> exact ⟨hrelative, hdrive, hhostname, hsharename, happend⟩

/-- The location with more components. -/
def Location.more (loc : Location) (l : List (PathComponent (List Char))) : Location :=
  loc.withComponents (loc.components ++ l)

theorem Location.more_nil (loc : Location) : loc.more [] = loc := by
  cases loc <;> exact congrArg _ (append_nil _)

theorem Location.more_more (loc : Location) (l l' : List (PathComponent (List Char))) :
    (loc.more l).more l' = loc.more (l ++ l') := by
  cases loc <;> exact congrArg _ (append_assoc _ _ _)

theorem LeadsTo.foldl_placed (ht : t.Settled) (h : LeadsTo t.result loc)
    (ws : List (List Char)) : LeadsTo (ws.foldl placed t).result (loc.more (ws.map component)) := by
  induction ws generalizing t loc with
  | nil =>
    rw [map_nil, Location.more_nil]
    exact h
  | cons w ws ih =>
    rw [foldl_cons, ht.placed, map_cons, ← singleton_append, ← Location.more_more]
    exact ih ht (h.append (component w))

theorem leadsTo_relative :
    LeadsTo { WindowsPathname.make with isRelative := true } (.relative []) :=
  ⟨rfl, rfl, rfl, rfl, rfl, _, rfl⟩

theorem leadsTo_absolute :
    LeadsTo { WindowsPathname.make with isRelative := false } (.absolute []) :=
  ⟨rfl, rfl, rfl, rfl, rfl, _, rfl⟩

/-- A first word that is not a name settles how the others are read. -/
theorem placed_of_not_name (t : Parsing) (hw : ∀ n, component w ≠ name n) :
    (placed t w).Settled ∧ (placed t w).result = t.result.append (component w) := by
  unfold placed
  cases hcomponent : component w with
  | current => exact ⟨⟨rfl, rfl, rfl⟩, rfl⟩
  | parent => exact ⟨⟨rfl, rfl, rfl⟩, rfl⟩
  | name n => exact absurd hcomponent (hw n)

/-- A first component that is not a name, and the words after it. -/
theorem LeadsTo.foldl_placed_of_not_name (h : LeadsTo t.result loc)
    (hloc : loc.components = []) (hw : ∀ n, component w ≠ name n) (ws : List (List Char)) :
    LeadsTo ((w :: ws).foldl placed t).result
      (loc.withComponents (component w :: ws.map component)) := by
  obtain ⟨hsettled, hresult⟩ := placed_of_not_name t hw
  have happend := h.append (component w)
  rw [← hresult] at happend
  have hmore := happend.foldl_placed hsettled ws
  have hcomponents : (loc.withComponents (loc.components ++ [component w])).more
      (ws.map component) = loc.withComponents (component w :: ws.map component) := by
    rw [hloc]
    cases loc <;> rfl
  rw [hcomponents] at hmore
  exact hmore

/-- The words after the hostname. -/
theorem leadsTo_locateOnHost {hostname : List Char} (hhost : t.hasHostname = false)
    (hshare : t.hasSharename = true) (hdrive : t.hasDrive = false)
    (h : LeadsTo t.result (.onHost hostname none [])) (ws : List (List Char)) :
    LeadsTo (ws.foldl placed t).result (locateOnHost hostname ws) := by
  cases ws with
  | nil => exact h
  | cons w ws =>
    by_cases hname : ∃ n, component w = name n
    · obtain ⟨n, hn⟩ := hname
      obtain ⟨i, result, hasHostname, hasSharename, hasDrive⟩ := t
      obtain rfl : hasHostname = false := hhost
      obtain rfl : hasSharename = true := hshare
      obtain rfl : hasDrive = false := hdrive
      have hplaced : placed ⟨i, result, false, true, false⟩ w =
          ⟨i, { result with sharename := some n }, false, false, false⟩ := by
        rw [placed, hn]
        rfl
      have hlocate : locateOnHost hostname (w :: ws) =
          (Location.onHost hostname (some n) []).more (ws.map component) := by
        rw [locateOnHost, hn]
        rfl
      rw [foldl_cons, hplaced, hlocate]
      obtain ⟨hrelative, hdrive, hhostname, -, hhas⟩ := h
      have hleads : LeadsTo { result with sharename := some n } (.onHost hostname (some n) []) :=
        ⟨hrelative, hdrive, hhostname, rfl, hhas⟩
      exact LeadsTo.foldl_placed (t := ⟨i, _, false, false, false⟩) ⟨rfl, rfl, rfl⟩ hleads ws
    · have hlocate : locateOnHost hostname (w :: ws) =
          .onHost hostname none (component w :: ws.map component) := by
        rw [locateOnHost]
        cases hn : component w with
        | current => rfl
        | parent => rfl
        | name n => exact absurd ⟨n, hn⟩ hname
      rw [hlocate]
      exact h.foldl_placed_of_not_name rfl (fun n hn => hname ⟨n, hn⟩) ws

/-- The words of a string are placed where they lead to. -/
theorem leadsTo_locate (start : Start) (ws : List (List Char)) :
    LeadsTo (ws.foldl placed (initial start)).result (locate start ws) := by
  cases start with
  | root => exact LeadsTo.foldl_placed (t := initial .root) ⟨rfl, rfl, rfl⟩ leadsTo_absolute ws
  | network =>
    cases ws with
    | nil => exact leadsTo_absolute
    | cons w ws =>
      by_cases hname : ∃ n, component w = name n
      · obtain ⟨n, hn⟩ := hname
        have hlocate : locate .network (w :: ws) = locateOnHost n ws := by
          rw [locate, hn]
        have hplaced : placed (initial .network) w = ⟨3, { WindowsPathname.make with
            isRelative := false, hostname := some n }, false, true, false⟩ := by
          rw [placed, hn]
          rfl
        rw [foldl_cons, hlocate, hplaced]
        exact leadsTo_locateOnHost rfl rfl rfl ⟨rfl, rfl, rfl, rfl, rfl, _, rfl⟩ ws
      · have hlocate : locate .network (w :: ws) =
            .absolute (component w :: ws.map component) := by
          rw [locate]
          cases hn : component w with
          | current => rfl
          | parent => rfl
          | name n => exact absurd ⟨n, hn⟩ hname
        rw [hlocate]
        exact leadsTo_absolute.foldl_placed_of_not_name (t := initial .network) rfl
          (fun n hn => hname ⟨n, hn⟩) ws
  | here =>
    cases ws with
    | nil => exact leadsTo_relative
    | cons w ws =>
      by_cases hname : ∃ n, component w = name n
      · obtain ⟨n, hn⟩ := hname
        obtain rfl := eq_of_component hn
        by_cases hdrive : w.getLast? = some ':'
        · have hlocate : locate .here (w :: ws) = (Location.onDrive w []).more
              (ws.map component) := by
            rw [locate, hn]
            exact if_pos hdrive
          have hplaced : placed (initial .here) w = ⟨1, { WindowsPathname.make with
              isRelative := false, drive := some w }, false, false, false⟩ := by
            rw [placed, hn]
            simp [initial, hdrive]
          rw [foldl_cons, hlocate, hplaced]
          exact LeadsTo.foldl_placed ⟨rfl, rfl, rfl⟩ ⟨rfl, rfl, rfl, rfl, rfl, _, rfl⟩ ws
        · have hlocate : locate .here (w :: ws) = (Location.relative [name w]).more
              (ws.map component) := by
            rw [locate, hn]
            exact if_neg hdrive
          have hplaced : placed (initial .here) w = ⟨1, ({ WindowsPathname.make with
              isRelative := true } : WindowsPathname).append (name w), false, false, false⟩ := by
            rw [placed, hn]
            simp [initial, hdrive]
          rw [foldl_cons, hlocate, hplaced]
          exact LeadsTo.foldl_placed ⟨rfl, rfl, rfl⟩ (leadsTo_relative.append (name w)) ws
      · have hlocate : locate .here (w :: ws) = .relative (component w :: ws.map component) := by
          rw [locate]
          cases hn : component w with
          | current => rfl
          | parent => rfl
          | name n => exact absurd ⟨n, hn⟩ hname
        rw [hlocate]
        exact leadsTo_relative.foldl_placed_of_not_name (t := initial .here) rfl
          (fun n hn => hname ⟨n, hn⟩) ws

end

end WindowsFileSystem

end Gobo
