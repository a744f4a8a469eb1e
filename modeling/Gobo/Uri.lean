/-
URIs parsed from references and resolved against a base (`UT_URI`). A component
is its percent-encoded text; the individual items of a query are not kept, for
nothing is made of them.
-/
import Gobo.Loop
import Gobo.Text
import Gobo.UriReference

namespace Gobo

open Text UriReference

def equalsSign : UInt8 := 61

def ampersand : UInt8 := 38

structure Uri where
  fullReference : List UInt8
  scheme : Option (List UInt8)
  authorityItem : Option (List UInt8)
  hasAbsolutePath : Bool
  pathItems : List (List UInt8)
  pathBaseItem : Option (List UInt8)
  queryItem : Option (List UInt8)
  fragmentItem : Option (List UInt8)
deriving DecidableEq

namespace Uri

/-- An object that is just created. -/
def blank : Uri where
  fullReference := []
  scheme := none
  authorityItem := none
  hasAbsolutePath := false
  pathItems := []
  pathBaseItem := none
  queryItem := none
  fragmentItem := none

/-- `path`, reconstructed from the items. -/
def path (u : Uri) : List UInt8 :=
  (if u.hasAbsolutePath then [slash] else []) ++ joined u.pathItems ++ u.pathBaseItem.getD []

def hasPath (u : Uri) : Bool :=
  u.hasAbsolutePath || u.pathBaseItem.isSome || !u.pathItems.isEmpty

def newFullUri (u : Uri) : List UInt8 := (match u.scheme with
    | none => []
    | some scheme => scheme ++ [colon]) ++
  (match u.authorityItem with
    | none => []
    | some authority => [slash, slash] ++ authority) ++
  u.path ++
  (match u.queryItem with
    | none => []
    | some query => [questionMark] ++ query)

def newFullReference (u : Uri) : List UInt8 := u.newFullUri ++
  (match u.fragmentItem with
    | none => []
    | some fragment => [numberSign] ++ fragment)

/-- `reset` keeps `path_base_item`. -/
def reset (u : Uri) : Uri :=
  { u with
    scheme := none
    authorityItem := none
    hasAbsolutePath := false
    pathItems := []
    queryItem := none
    fragmentItem := none }

section

variable (u : Uri) (start stop : Nat)

/-- The part of the reference from `start` to before `stop`. -/
def part : List UInt8 := substring u.fullReference start (stop - 1)

def stopScheme : Uri :=
  if start ≤ stop then { u with scheme := some (u.part start stop) } else u

def stopAuthority : Uri :=
  { u with authorityItem := some (u.part (start + 2) stop) }

def stopPathItem : Uri :=
  { u with pathItems := u.pathItems ++ [u.part start stop] }

def stopPathBase : Uri :=
  if start < stop then { u with pathBaseItem := some (u.part start stop) } else u

def stopQuery : Uri :=
  { u with queryItem := some (u.part (start + 1) stop) }

def stopFragment : Uri :=
  { u with fragmentItem := some (u.part (start + 1) stop) }

end

inductive State where
  | scheme
  | authorityPrefix
  | authority
  | path
  | query
  | fragment
deriving DecidableEq

/-- The variables of `parse_reference`. -/
structure Parsing where
  uri : Uri
  i : Nat
  start : Nat
  state : State
deriving DecidableEq

/-- What `parse_reference` does with the character `c` at the index `i`. -/
def parseCharacter (t : Parsing) (c : UInt8) : Parsing :=
  if c = colon then
    match t.state with
    | .scheme =>
        { t with
          uri := t.uri.stopScheme t.start t.i, start := t.i + 1, state := .authorityPrefix }
    | .authorityPrefix =>
        { t with
          uri := { t.uri with hasAbsolutePath := decide (t.start < t.i) }
          start := t.i
          state := .path }
    | _ => t
  else if c = slash then
    match t.state with
    | .scheme =>
        if t.i = t.start then { t with state := .authorityPrefix }
        else
          { t with uri := t.uri.stopPathItem t.start t.i, start := t.i + 1, state := .path }
    | .authorityPrefix => if t.start < t.i then { t with state := .authority } else t
    | .authority =>
        { t with
          uri := { t.uri.stopAuthority t.start t.i with hasAbsolutePath := true }
          start := t.i + 1
          state := .path }
    | .path => { t with uri := t.uri.stopPathItem t.start t.i, start := t.i + 1 }
    | _ => t
  else if c = questionMark then
    let uri := match t.state with
      | .scheme => t.uri.stopPathBase t.start t.i
      | .path => t.uri.stopPathBase t.start t.i
      | .authorityPrefix =>
          { t.uri with hasAbsolutePath := decide (t.start < t.i) }.stopPathBase t.i t.i
      | .authority => t.uri.stopAuthority t.start t.i
      | _ => t.uri
    { t with uri := uri, start := t.i, state := .query }
  else if c = equalsSign then t
  else if c = ampersand then t
  else if c = numberSign then
    let uri := match t.state with
      | .scheme => t.uri.stopPathBase t.start t.i
      | .path => t.uri.stopPathBase t.start t.i
      | .authorityPrefix =>
          { t.uri with hasAbsolutePath := decide (t.start < t.i) }.stopPathBase t.i t.i
      | .authority => t.uri.stopAuthority t.start t.i
      | .query => t.uri.stopQuery t.start t.i
      | .fragment => t.uri
    { t with uri := uri, start := t.i, state := .fragment }
  else
    match t.state with
    | .authorityPrefix =>
        { t with
          uri := { t.uri with hasAbsolutePath := decide (t.start < t.i) }
          start := t.i
          state := .path }
    | _ => t

/-- One turn of the loop of `parse_reference`. -/
def parseTurn (t : Parsing) : Option Parsing := do
  let c ← item t.uri.fullReference t.i
  some { parseCharacter t c with i := t.i + 1 }

/-- `i > full_reference.count`. -/
def Parsing.isAfter (t : Parsing) : Option Bool :=
  some (decide (t.uri.fullReference.length < t.i))

/-- The last part of the string. -/
def parseEnd (t : Parsing) : Uri :=
  match t.state with
  | .authority => if t.start < t.i then t.uri.stopAuthority t.start t.i else t.uri
  | .query => if t.start < t.i then t.uri.stopQuery t.start t.i else t.uri
  | .fragment => if t.start < t.i then t.uri.stopFragment t.start t.i else t.uri
  | state =>
      let uri := if state = .authorityPrefix then t.uri else t.uri.stopPathBase t.start t.i
      if ¬uri.hasAbsolutePath ∧ t.start < t.i ∧ item uri.fullReference t.start = some slash then
        { uri with hasAbsolutePath := true }
      else uri

def parseReference (u : Uri) : Option Uri := do
  let t ← loopUntil Parsing.isAfter parseTurn (u.fullReference.length + 1)
    { uri := u.reset, i := 1, start := 1, state := .scheme }
  some (parseEnd t)

/-- `make`, of an object that may have parsed a reference before. -/
def make (u : Uri) (reference : List UInt8) : Option Uri :=
  { u with fullReference := reference }.parseReference

def isDot (s : List UInt8) : Bool := decide (s.length = 1 ∧ item s 1 = some dot)

def isDotDot (s : List UInt8) : Bool :=
  decide (s.length = 2 ∧ item s 1 = some dot ∧ item s 2 = some dot)

/-- One turn of the loop of `build_query_items_from_query_item`: its `inspect` has
no branch for another character. -/
def queryTurn (s : List UInt8) (i : Nat) : Option Nat := do
  let c ← item s i
  if c = equalsSign then some (i + 1) else if c = ampersand then some (i + 1) else none

/-- `build_query_items_from_query_item`, without the items. -/
def buildQueryItems (u : Uri) : Option Uri :=
  match u.queryItem with
  | none => some u
  | some s => do
      let _ ← loopUntil (fun i => some (decide (s.length < i))) (queryTurn s) (s.length + 1) 2
      some u

/-- One turn of the first loop of `resolve_path`. -/
def resolveSegment (someItems : List (List UInt8)) (segment : List UInt8) : List (List UInt8) :=
  if isDot segment then someItems
  else if isDotDot segment then if someItems.isEmpty then someItems else someItems.dropLast
  else someItems ++ [segment]

/-- The variables of the second loop of `resolve_path`. -/
structure Sweep where
  someItems : List (List UInt8)
  i : Nat
  nb : Nat

/-- `i > nb`. -/
def Sweep.isAfter (t : Sweep) : Option Bool := some (decide (t.nb < t.i))

/-- One turn of that loop: an empty segment is removed. -/
def sweepTurn (t : Sweep) : Option Sweep := do
  let segment ← item t.someItems t.i
  some (if segment.isEmpty then
      { t with someItems := t.someItems.eraseIdx (t.i - 1), nb := t.nb - 1 }
    else { t with i := t.i + 1 })

/-- The base item, if it is relative, becomes an item. -/
def moveBaseItem (u : Uri) : Uri :=
  match u.pathBaseItem with
  | none => u
  | some base =>
      if isDot base ∨ isDotDot base then
        { u with pathItems := u.pathItems ++ [base], pathBaseItem := none }
      else u

def resolvePath (u base : Uri) : Option Uri := do
  let u := u.moveBaseItem
  let someItems ← forUp (fun i someItems => (item u.pathItems i).map (resolveSegment someItems))
    u.pathItems.length 1 base.pathItems
  let t ← loopUntil Sweep.isAfter sweepTurn (someItems.length + 1) ⟨someItems, 1, someItems.length⟩
  some { u with hasAbsolutePath := true, pathItems := t.someItems }

/-- A reference without a scheme and without an authority. -/
def resolveRelativePath (u base : Uri) : Option Uri :=
  if ¬u.hasPath then
    let u := { u with
      hasAbsolutePath := base.hasAbsolutePath
      pathItems := base.pathItems
      pathBaseItem := base.pathBaseItem }
    if u.queryItem.isSome then some u
    else
      let u := { u with queryItem := base.queryItem }
      if u.queryItem.isSome then u.buildQueryItems else some u
  else if u.hasAbsolutePath then some u
  else u.resolvePath base

/-- `resolve_relative_to`, before the full reference is built. -/
def resolveComponents (u base : Uri) : Option Uri :=
  if u.scheme.isSome then some u
  else if u.authorityItem.isSome then some { u with scheme := base.scheme }
  else do
    let u ← u.resolveRelativePath base
    some { u with authorityItem := base.authorityItem, scheme := base.scheme }

def resolveRelativeTo (u base : Uri) : Option Uri := do
  let u ← u.resolveComponents base
  some { u with fullReference := u.newFullReference }

/-- `make_resolve`. -/
def makeResolve (u base : Uri) (reference : List UInt8) : Option Uri := do
  let u ← u.make reference
  u.resolveRelativeTo base

end Uri

end Gobo
