/-
The setters of a URI (`UT_URI`): the full reference is kept beside the components that it is made
of, and each setter has to keep the two in step.
-/
import Gobo.ExcludedCharacters
import Gobo.UriRoundTrip

namespace Gobo

open List Text UriReference

/-- `UT_HOST_PORT`. -/
structure HostPort where
  host : List UInt8
  port : ℤ
deriving DecidableEq

/-- A URI, with what `parse_authority` has found in the authority. -/
structure SettableUri extends Uri where
  userInfo : Option (List UInt8)
  hostPort : Option HostPort
deriving DecidableEq

namespace SettableUri

variable (u : SettableUri)

def isOpaque : Bool := u.scheme.isSome && (!u.authorityItem.isSome && !u.hasAbsolutePath)

def isHierarchical : Bool := !u.isOpaque

def hasParsedAuthority : Bool := u.hostPort.isSome

def fullUri : List UInt8 :=
  if u.fragmentItem.isSome then u.newFullUri else u.fullReference

/-- `full_reference := new_full_reference`. -/
def update : SettableUri := { u with fullReference := u.newFullReference }

def resetParsedAuthority : SettableUri := { u with userInfo := none, hostPort := none }

/-- `reset`, of the object as a whole. -/
def resetAll : SettableUri := { u.resetParsedAuthority with toUri := u.reset }

def setAuthority (aAuthority : Option (List UInt8)) : SettableUri :=
  ({ u with authorityItem := aAuthority }).resetParsedAuthority.update

/-- The position of the first `c` of `s` from the index `start` on, 0 if there is none. -/
def indexFrom (s : List UInt8) (c : UInt8) (start : Nat) : Nat :=
  if c ∈ s.drop (start - 1) then start + (s.drop (start - 1)).idxOf c else 0

/-- The variables of the loop of `set_path`, with `Current`. -/
structure PathScan where
  uri : SettableUri
  i : Nat
  j : Nat

/-- The loop runs over `path`, not over the argument `a_path`. -/
def pathTurn (t : PathScan) : Option PathScan :=
  let uri := { t.uri with pathItems := t.uri.pathItems ++ [substring t.uri.path t.i (t.j - 1)] }
  some ⟨uri, t.j + 1, indexFrom uri.path slash (t.j + 1)⟩

/-- `j = 0`. -/
def PathScan.isOver (t : PathScan) : Option Bool := some (decide (t.j = 0))

/-- The state before the loop. -/
def pathStart (absolute : Bool) : PathScan :=
  let uri := { u with hasAbsolutePath := absolute, pathItems := [] }
  let i := if absolute then 2 else 1
  ⟨uri, i, indexFrom uri.path slash i⟩

/-- `set_path (a_path)`, if the loop ends after less than `fuel` turns. -/
def setPath (fuel : Nat) (aPath : List UInt8) : Option SettableUri :=
  if aPath.isEmpty then some { u with hasAbsolutePath := false, pathItems := [] }.update
  else
    (loopUntil PathScan.isOver pathTurn fuel
      (u.pathStart (decide (item aPath 1 = some slash)))).map fun t => t.uri.update

def setPathItems (aHasAbsolute : Bool) (someItems : List (List UInt8)) : SettableUri :=
  { u with hasAbsolutePath := aHasAbsolute, pathItems := someItems }.update

def setPathBase (anItem : List UInt8) : SettableUri :=
  { u with pathBaseItem := some anItem }.update

def setPathFromUri (aUri : Uri) : SettableUri :=
  { u with
    hasAbsolutePath := aUri.hasAbsolutePath
    pathItems := aUri.pathItems
    pathBaseItem := aUri.pathBaseItem }.update

def setQuery (aQuery : Option (List UInt8)) : SettableUri :=
  { u with queryItem := aQuery }.update

/-- The full reference is not rebuilt. -/
def setFragment (aFragment : Option (List UInt8)) : SettableUri :=
  { u with fragmentItem := aFragment }

/-- `set_from_uri (a_uri)`, of another URI.  The full reference is rebuilt before the query and the
fragment are set. -/
def setFromUri (aUri : Uri) : SettableUri :=
  let u := u.resetAll
  let u := { u with scheme := aUri.scheme, authorityItem := aUri.authorityItem }
  let u := u.setPathFromUri aUri
  { u with queryItem := aUri.queryItem, fragmentItem := aUri.fragmentItem }

/-- `set_from_uri (Current)`: the components that are read have been reset before. -/
def setFromCurrent : SettableUri := u.resetAll.setPathFromUri u.resetAll.toUri

end SettableUri

/-- A call of a setter. -/
inductive UriSetter where
  | fromUri (aUri : Uri)
  | fromCurrent
  | authority (aAuthority : Option (List UInt8))
  | path (aPath : List UInt8)
  | pathItems (aHasAbsolute : Bool) (someItems : List (List UInt8))
  | pathBase (anItem : List UInt8)
  | pathFromUri (aUri : Uri)
  | query (aQuery : Option (List UInt8))
  | fragment (aFragment : Option (List UInt8))

/-- The components of a URI; the path has two parts. -/
inductive UriComponent where
  | scheme
  | authority
  | pathItems
  | pathBase
  | query
  | fragment
deriving DecidableEq

namespace UriSetter

open SettableUri UrlEncoding

/-- The call, with at most `fuel` turns of its loop. -/
def call (fuel : Nat) (u : SettableUri) : UriSetter → Option SettableUri
  | .fromUri aUri => some (u.setFromUri aUri)
  | .fromCurrent => some u.setFromCurrent
  | .authority aAuthority => some (u.setAuthority aAuthority)
  | .path aPath => u.setPath fuel aPath
  | .pathItems aHasAbsolute someItems => some (u.setPathItems aHasAbsolute someItems)
  | .pathBase anItem => some (u.setPathBase anItem)
  | .pathFromUri aUri => some (u.setPathFromUri aUri)
  | .query aQuery => some (u.setQuery aQuery)
  | .fragment aFragment => some (u.setFragment aFragment)

/-- The preconditions. -/
def Requires (u : SettableUri) : UriSetter → Prop
  | .authority aAuthority =>
      ∀ s ∈ aAuthority, slash ∉ s ∧ questionMark ∉ s ∧ numberSign ∉ s
  | .path aPath =>
      hasExcludedCharacters (aPath.length + 1) (aPath.map UInt8.toNat) = some false ∧
        u.isHierarchical = true
  | .query aQuery => ∀ s ∈ aQuery, numberSign ∉ s
  | _ => True

/-- The postconditions, of a call that leads to `v`.  The one of `set_from_uri (Current)` compares
the object with itself. -/
def Ensures (v : SettableUri) : UriSetter → Prop
  | .fromUri aUri => v.scheme = aUri.scheme ∧ v.authorityItem = aUri.authorityItem ∧
      v.path = aUri.path ∧ v.queryItem = aUri.queryItem ∧ v.fragmentItem = aUri.fragmentItem
  | .fromCurrent => True
  | .authority aAuthority => v.authorityItem = aAuthority ∧ v.hasParsedAuthority = false
  | .path aPath => v.path = aPath
  | .pathItems aHasAbsolute someItems =>
      v.hasAbsolutePath = aHasAbsolute ∧ v.pathItems = someItems
  | .pathBase anItem => v.pathBaseItem = some anItem
  | .pathFromUri aUri => v.path = aUri.path
  | .query aQuery => v.queryItem = aQuery
  | .fragment aFragment => v.fragmentItem = aFragment

/-- The components that the call sets. -/
def sets : UriSetter → List UriComponent
  | .fromUri _ => [.scheme, .authority, .pathItems, .pathBase, .query, .fragment]
  | .fromCurrent => [.scheme, .authority, .pathItems, .pathBase, .query, .fragment]
  | .authority _ => [.authority]
  | .path _ => [.pathItems, .pathBase]
  | .pathItems _ _ => [.pathItems]
  | .pathBase _ => [.pathBase]
  | .pathFromUri _ => [.pathItems, .pathBase]
  | .query _ => [.query]
  | .fragment _ => [.fragment]

end UriSetter

/-- A component is the same in two URIs. -/
def SettableUri.Shares (u v : SettableUri) : UriComponent → Prop
  | .scheme => v.scheme = u.scheme
  | .authority => v.authorityItem = u.authorityItem
  | .pathItems => v.hasAbsolutePath = u.hasAbsolutePath ∧ v.pathItems = u.pathItems
  | .pathBase => v.pathBaseItem = u.pathBaseItem
  | .query => v.queryItem = u.queryItem
  | .fragment => v.fragmentItem = u.fragmentItem

/-- The full reference is the one of the components, and so is the full URI. -/
def SettableUri.IsConsistent (u : SettableUri) : Prop :=
  u.fullReference = u.newFullReference ∧ u.fullUri = u.newFullUri

namespace SettableUri

section

variable {u v : SettableUri} {t : PathScan} {fuel : Nat}

/-- The path before the path base. -/
def beforeBase (u : SettableUri) : List UInt8 :=
  (if u.hasAbsolutePath then [slash] else []) ++ joined u.pathItems

def base (u : SettableUri) : List UInt8 := u.pathBaseItem.getD []

theorem path_eq (u : SettableUri) : u.path = u.beforeBase ++ u.base := rfl

/-- The full URI has no fragment if the full reference is that of the components. -/
theorem isConsistent_of_reference (h : u.fullReference = u.newFullReference) : u.IsConsistent := by
  refine ⟨h, ?_⟩
  rw [fullUri]
  split_ifs with hfragment
  · rfl
  · have hnone : u.fragmentItem = none := Option.not_isSome_iff_eq_none.mp hfragment
    rw [h, Uri.newFullReference, hnone]
    exact append_nil _

theorem isConsistent_update (u : SettableUri) : u.update.IsConsistent :=
  isConsistent_of_reference rfl

theorem indexFrom_append (pre rest : List UInt8) (c : UInt8) :
    indexFrom (pre ++ rest) c (pre.length + 1) =
      if c ∈ rest then pre.length + 1 + rest.idxOf c else 0 := by
  rw [indexFrom, Nat.add_sub_cancel, drop_left]

/-- The scan is at the beginning of the path base. -/
structure AtBase (t : PathScan) : Prop where
  i_eq : t.i = t.uri.beforeBase.length + 1
  j_eq : t.j = indexFrom t.uri.path slash t.i

theorem AtBase.j_eq_ite (h : AtBase t) : t.j =
    if slash ∈ t.uri.base then t.uri.beforeBase.length + 1 + t.uri.base.idxOf slash else 0 := by
  rw [h.j_eq, h.i_eq, path_eq, indexFrom_append]

/-- Each segment that the loop takes from the path base is put before it. -/
theorem AtBase.exists_turn (h : AtBase t) (hslash : slash ∈ t.uri.base) :
    ∃ t', pathTurn t = some t' ∧ AtBase t' ∧ t'.uri.base = t.uri.base := by
  refine ⟨_, rfl, ⟨?_, rfl⟩, rfl⟩
  have hj := h.j_eq_ite
  have hindex := idxOf_lt_length_iff.mpr hslash
  have hsegment : (substring t.uri.path t.i (t.j - 1)).length = t.uri.base.idxOf slash := by
    rw [if_pos hslash] at hj
    rw [substring, length_drop, length_take, path_eq, length_append, h.i_eq, hj]
    omega
  rw [if_pos hslash] at hj
  dsimp only [beforeBase]
  rw [joined_concat, ← append_assoc, ← append_assoc, length_append,
    length_append, ← beforeBase, hsegment, hj, length_singleton]
  omega

/-- The loop does not end if there is a slash in the path base. -/
theorem AtBase.diverges (h : AtBase t) (hslash : slash ∈ t.uri.base) :
    loopUntil PathScan.isOver pathTurn fuel t = none := by
  apply loopUntil_eq_none (fun s => AtBase s ∧ s.uri.base = t.uri.base)
  · rintro s ⟨hs, hbase⟩
    have hj := hs.j_eq_ite
    rw [hbase, if_pos hslash] at hj
    exact congrArg some (decide_eq_false (by omega))
  · rintro s ⟨hs, hbase⟩
    obtain ⟨s', hturn, hs', hbase'⟩ := hs.exists_turn (hbase.symm ▸ hslash)
    exact Or.inr ⟨s', hturn, hs', hbase'.trans hbase⟩
  · exact ⟨h, rfl⟩

/-- Without a slash in the path base, the loop has no turn. -/
theorem AtBase.ends (h : AtBase t) (hslash : slash ∉ t.uri.base) :
    loopUntil PathScan.isOver pathTurn (fuel + 1) t = some t := by
  have hj := h.j_eq_ite
  rw [if_neg hslash] at hj
  exact loopUntil_of_stop (congrArg some (decide_eq_true hj))

theorem atBase_pathStart (u : SettableUri) (absolute : Bool) : AtBase (u.pathStart absolute) := by
  refine ⟨?_, rfl⟩
  cases absolute
  · rfl
  · rfl

/-- What `set_path` makes: the items are gone, and the base stays. -/
def withoutItems (u : SettableUri) (absolute : Bool) : SettableUri :=
  { u with hasAbsolutePath := absolute, pathItems := [] }.update

theorem path_withoutItems (u : SettableUri) (absolute : Bool) :
    (u.withoutItems absolute).path = (if absolute then [slash] else []) ++ u.base := by
  rw [path_eq, beforeBase]
  exact congrArg (· ++ u.base) (append_nil _)

theorem setPath_eq (u : SettableUri) (fuel : Nat) (aPath : List UInt8) (hslash : slash ∉ u.base) :
    u.setPath (fuel + 1) aPath = some (u.withoutItems (decide (item aPath 1 = some slash))) := by
  rw [setPath, (u.atBase_pathStart _).ends hslash]
  cases aPath with
  | nil => rfl
  | cons head rest => rfl

/-- `set_path` ends only with an empty argument or without a slash in the path base. -/
theorem setPath_of_some {aPath : List UInt8} (h : u.setPath fuel aPath = some v) :
    v = u.withoutItems (decide (item aPath 1 = some slash)) ∧ (aPath = [] ∨ slash ∉ u.base) := by
  cases aPath with
  | nil => exact ⟨(Option.some.inj h).symm, Or.inl rfl⟩
  | cons head rest =>
    by_cases hslash : slash ∈ u.base
    · rw [setPath, (u.atBase_pathStart _).diverges hslash] at h
      exact absurd h (by simp)
    · cases fuel with
      | zero => exact absurd h (by simp [setPath, loopUntil])
      | succ fuel =>
        rw [setPath_eq u fuel _ hslash] at h
        exact ⟨(Option.some.inj h).symm, Or.inr hslash⟩

end

end SettableUri

namespace UriSetter

open SettableUri

/-- The call leads to a consistent URI that meets the postcondition, and leaves the components that
it does not set. -/
def Succeeds (call : UriSetter) (u v : SettableUri) : Prop :=
  (∃ fuel, call.call fuel u = some v) ∧ call.Ensures v ∧
    (∀ c, c ∉ call.sets → u.Shares v c) ∧ v.IsConsistent

/-- The calls of a sequence succeed one after another, as far as their preconditions hold. -/
def HoldsDuring : List UriSetter → SettableUri → Prop
  | [], u => u.IsConsistent
  | call :: calls, u => u.IsConsistent ∧
      (call.Requires u → ∃ v, call.Succeeds u v ∧ HoldsDuring calls v)

/-- When a call does what it should: `set_from_uri` copies from a URI without query and fragment,
`set_path` sets the path that is the path base already, after a slash or not, and `set_fragment`
does not change the fragment. -/
def KeepsReference (u : SettableUri) : UriSetter → Prop
  | .fromUri aUri => aUri.queryItem = none ∧ aUri.fragmentItem = none
  | .path aPath => slash ∉ u.pathBaseItem.getD [] ∧
      (aPath = u.pathBaseItem.getD [] ∨ aPath = slash :: u.pathBaseItem.getD [])
  | .fragment aFragment => aFragment = u.fragmentItem
  | _ => True

/-- Each call of a sequence does what it should, in the state before it. -/
def AllKeepReference : List UriSetter → SettableUri → Prop
  | [], _ => True
  | call :: calls, u => call.Requires u →
      call.KeepsReference u ∧ ∀ fuel v, call.call fuel u = some v → AllKeepReference calls v

section

variable {u v w : SettableUri} {fuel n : Nat} {call : UriSetter}

/-- A call has one result. -/
theorem call_unique (h : call.call fuel u = some v) (h' : call.call n u = some w) : v = w := by
  cases call with
  | path aPath => exact (setPath_of_some h).1.trans (setPath_of_some h').1.symm
  | _ => exact Option.some.inj (h.symm.trans h')

/-- A call leaves the components that it does not set. -/
theorem shares_of_call (h : call.call fuel u = some v) (c : UriComponent) (hc : c ∉ call.sets) :
    u.Shares v c := by
  cases call with
  | path aPath =>
    obtain ⟨rfl, -⟩ := setPath_of_some h
    cases c with
    | pathItems => exact absurd hc (by simp [sets])
    | _ => rfl
  | _ =>
    obtain rfl := Option.some.inj h
    cases c <;> first | rfl | exact ⟨rfl, rfl⟩ | exact absurd hc (by simp [sets])

/-- The condition is that of the postcondition and of the full reference. -/
theorem succeeds_of_call (n : Nat) (h : call.call n u = some v) (hensures : call.Ensures v)
    (hv : v.IsConsistent) : ∃ v, call.Succeeds u v :=
  ⟨v, ⟨n, h⟩, hensures, shares_of_call h, hv⟩

theorem delimited_inj {delimiter : List UInt8} (hdelimiter : delimiter ≠ [])
    {s s' : Option (List UInt8)} (h : delimited delimiter s = delimited delimiter s') : s = s' := by
  cases s with
  | none =>
    cases s' with
    | none => rfl
    | some b => exact absurd (append_eq_nil_iff.mp h.symm).1 hdelimiter
  | some a =>
    cases s' with
    | none => exact absurd (append_eq_nil_iff.mp h).1 hdelimiter
    | some b => exact congrArg some (append_cancel_left h)

theorem succeeds_fragment_iff (hu : u.IsConsistent) (aFragment : Option (List UInt8)) :
    (∃ v, (fragment aFragment).Succeeds u v) ↔ aFragment = u.fragmentItem := by
  constructor
  · rintro ⟨v, ⟨fuel, hcall⟩, -, -, hreference, -⟩
    obtain rfl : u.setFragment aFragment = v := Option.some.inj hcall
    have hold : u.fullReference = u.newFullUri ++ delimited [numberSign] u.fragmentItem := by
      rw [hu.1, Uri.newFullReference]
      cases u.fragmentItem with
      | none => rfl
      | some s => rfl
    have hnew : u.fullReference = u.newFullUri ++ delimited [numberSign] aFragment := by
      refine hreference.trans ?_
      cases aFragment with
      | none => rfl
      | some s => rfl
    exact delimited_inj (by decide) (append_cancel_left (hnew.symm.trans hold))
  · rintro rfl
    exact succeeds_of_call 0 rfl rfl hu

theorem succeeds_path_iff (aPath : List UInt8) :
    (∃ v, (path aPath).Succeeds u v) ↔ (path aPath).KeepsReference u := by
  constructor
  · rintro ⟨v, ⟨fuel, hcall⟩, hpath, -⟩
    obtain ⟨rfl, hslash⟩ := setPath_of_some hcall
    have hends := (path_withoutItems u _).symm.trans hpath
    by_cases hfirst : item aPath 1 = some slash
    · rw [decide_eq_true hfirst] at hends
      refine ⟨?_, Or.inr hends.symm⟩
      rcases hslash with rfl | hslash
      · exact absurd hfirst (by decide)
      · exact hslash
    · rw [decide_eq_false hfirst] at hends
      refine ⟨?_, Or.inl hends.symm⟩
      rcases hslash with rfl | hslash
      · intro hmem
        have hbase : u.pathBaseItem.getD [] = [] := hends
        rw [hbase] at hmem
        exact not_mem_nil hmem
      · exact hslash
  · rintro ⟨hslash, haPath⟩
    refine succeeds_of_call 1 (setPath_eq u 0 aPath hslash) ?_ (isConsistent_update _)
    refine (path_withoutItems u _).trans ?_
    rcases haPath with hbase | hbase
    · have hfirst : item aPath 1 ≠ some slash := fun h =>
        hslash (hbase ▸ mem_of_getElem? h)
      rw [decide_eq_false hfirst]
      exact hbase.symm
    · rw [hbase]
      rfl

/-- The full reference that is built before the query and the fragment are set. -/
theorem newFullReference_setFromUri (u : SettableUri) (aUri : Uri) :
    (u.setFromUri aUri).newFullReference = (u.setFromUri aUri).fullReference ++
      (delimited [questionMark] aUri.queryItem ++ delimited [numberSign] aUri.fragmentItem) := by
  have hbuilt : (u.setFromUri aUri).fullReference =
      { (u.setFromUri aUri).components with query := none, fragment := none }.text :=
    Uri.newFullReference_eq _
  rw [hbuilt, Uri.newFullReference_eq, Components.text, Components.text, append_assoc]
  exact congrArg (· ++ _) (by simp only [delimited, append_nil]; rfl)

theorem succeeds_fromUri_iff (aUri : Uri) :
    (∃ v, (fromUri aUri).Succeeds u v) ↔ aUri.queryItem = none ∧ aUri.fragmentItem = none := by
  have hbuilt := newFullReference_setFromUri u aUri
  constructor
  · rintro ⟨v, ⟨fuel, hcall⟩, -, -, hreference, -⟩
    obtain rfl : u.setFromUri aUri = v := Option.some.inj hcall
    rw [hreference] at hbuilt
    have hnil := append_eq_nil_iff.mp (append_right_eq_self.mp hbuilt.symm)
    have hquery : delimited [questionMark] aUri.queryItem = delimited [questionMark] none := hnil.1
    have hfragment : delimited [numberSign] aUri.fragmentItem = delimited [numberSign] none :=
      hnil.2
    exact ⟨delimited_inj (by decide) hquery, delimited_inj (by decide) hfragment⟩
  · rintro ⟨hquery, hfragment⟩
    refine succeeds_of_call 0 rfl ⟨rfl, rfl, rfl, rfl, rfl⟩ ?_
    rw [hquery, hfragment] at hbuilt
    exact isConsistent_of_reference (hbuilt.trans (append_nil _)).symm

/-- In a consistent state, a call succeeds under its condition. -/
theorem succeeds_iff (hu : u.IsConsistent) (call : UriSetter) :
    (∃ v, call.Succeeds u v) ↔ call.KeepsReference u := by
  have hrebuilt (w : SettableUri) (h : call.call 0 u = some w.update)
      (hensures : call.Ensures w.update) : ∃ v, call.Succeeds u v :=
    succeeds_of_call 0 h hensures (isConsistent_update w)
  cases call with
  | fromUri aUri => exact succeeds_fromUri_iff aUri
  | fromCurrent => exact iff_of_true (hrebuilt _ rfl trivial) trivial
  | authority aAuthority => exact iff_of_true (hrebuilt _ rfl ⟨rfl, rfl⟩) trivial
  | path aPath => exact succeeds_path_iff aPath
  | pathItems aHasAbsolute someItems => exact iff_of_true (hrebuilt _ rfl ⟨rfl, rfl⟩) trivial
  | pathBase anItem => exact iff_of_true (hrebuilt _ rfl rfl) trivial
  | pathFromUri aUri => exact iff_of_true (hrebuilt _ rfl rfl) trivial
  | query aQuery => exact iff_of_true (hrebuilt _ rfl rfl) trivial
  | fragment aFragment => exact succeeds_fragment_iff hu aFragment

/-- When the full reference stays in step with the components: the URI is consistent at the
beginning, and each call meets its condition. -/
theorem holdsDuring_iff (calls : List UriSetter) (u : SettableUri) :
    HoldsDuring calls u ↔ u.IsConsistent ∧ AllKeepReference calls u := by
  induction calls generalizing u with
  | nil => exact (and_iff_left trivial).symm
  | cons call calls ih =>
    refine and_congr_right fun hu => forall_congr' fun _ => ?_
    rw [← succeeds_iff hu call]
    constructor
    · rintro ⟨v, hsucceeds, hrest⟩
      obtain ⟨fuel, hcall⟩ := hsucceeds.1
      refine ⟨⟨v, hsucceeds⟩, fun n w hcall' => ?_⟩
      obtain rfl := call_unique hcall hcall'
      exact ((ih v).mp hrest).2
    · rintro ⟨⟨v, hsucceeds⟩, hall⟩
      obtain ⟨fuel, hcall⟩ := hsucceeds.1
      exact ⟨v, hsucceeds, (ih v).mpr ⟨hsucceeds.2.2.2, hall fuel v hcall⟩⟩

/-- The path of the URI s://h/a is set to /b, but it stays /a. -/
theorem not_holdsDuring_setPath :
    ¬∀ (calls : List UriSetter) (u : SettableUri), u.IsConsistent → HoldsDuring calls u := by
  intro hall
  let u : SettableUri :=
    { fullReference := [115, 58, 47, 47, 104, 47, 97], scheme := some [115],
      authorityItem := some [104], hasAbsolutePath := true, pathItems := [],
      pathBaseItem := some [97], queryItem := none, fragmentItem := none,
      userInfo := none, hostPort := none }
  have hu : u.IsConsistent := isConsistent_of_reference (by decide)
  obtain ⟨v, hsucceeds, -⟩ := (hall [path [47, 98]] u hu).2 ⟨by decide, by decide⟩
  exact absurd ((succeeds_path_iff _).mp ⟨v, hsucceeds⟩).2 (by decide)

end

end UriSetter

end Gobo
