/-
Pathnames (`KL_PATHNAME`): the components are in an array, which `set_canonical` compacts in place.
-/
import Gobo.LexicalPath
import Gobo.Loop
import Gobo.Text

namespace Gobo

open List Text PathComponent LexicalPath

/-- The components are compared as objects: the current and the parent directory are the strings
that `append_current` and `append_parent` append, whatever the names are.  `count` components are
at the beginning of the array. -/
structure Pathname (N : Type) where
  isRelative : Bool
  components : List (Option (PathComponent N))
  count : Nat
deriving DecidableEq

namespace Pathname

variable {N : Type}

/-- `make`. -/
def make : Pathname N where
  isRelative := false
  components := replicate 10 none
  count := 0

/-- `force (v, i)` of an array: it grows if it has to. -/
def forceItem {A : Type} (cells : List (Option A)) (v : A) (i : Nat) : List (Option A) :=
  if i ≤ cells.length then cells.set (i - 1) (some v)
  else cells ++ replicate (i - 1 - cells.length) none ++ [some v]

/-- `item (i)` of the components. -/
def itemOf (cells : List (Option (PathComponent N))) (i : Nat) : Option (PathComponent N) :=
  (item cells i).join

/-- `append_name`, `append_current` and `append_parent`. -/
def append (p : Pathname N) (c : PathComponent N) : Pathname N :=
  { p with components := forceItem p.components c (p.count + 1), count := p.count + 1 }

variable [DecidableEq N]

/-- `j = 1 or else is_parent (j - 1)`. -/
def isParentBefore (s : List (Option (PathComponent N)) × Nat) : Option Bool :=
  if s.2 = 1 then some true else (itemOf s.1 (s.2 - 1)).map fun d => decide (d = parent)

/-- One turn of the loop of `set_canonical`: the array and the index `j` of the next component. -/
def canonicalTurn (relative : Bool) (i : Nat) (s : List (Option (PathComponent N)) × Nat) :
    Option (List (Option (PathComponent N)) × Nat) := do
  let c ← itemOf s.1 i
  if c = current then some s
  else if c = parent then do
    let leading ← isParentBefore s
    if leading then
      if relative then (putItem s.1 (some c) s.2).map fun cells => (cells, s.2 + 1)
      else some s
    else some (s.1, s.2 - 1)
  else (putItem s.1 (some c) s.2).map fun cells => (cells, s.2 + 1)

/-- `nb = 1 and then is_current (1) and is_relative`. -/
def isCurrentOnly (p : Pathname N) : Option Bool :=
  if p.count = 1 then (itemOf p.components 1).map fun c => decide (c = current) && p.isRelative
  else some false

def setCanonical (p : Pathname N) : Option (Pathname N) := do
  let only ← p.isCurrentOnly
  if only then some p
  else do
    let (cells, j) ← forUp (canonicalTurn p.isRelative) p.count 1 (p.components, 1)
    let cells ← forUp (fun j cells => putItem cells none j) (p.count + 1 - j) j cells
    let q : Pathname N := { p with components := cells, count := j - 1 }
    if q.isRelative ∧ q.count = 0 then some (q.append current) else some q

/-- The pathname has these components. -/
structure Has (p : Pathname N) (l : List (PathComponent N)) : Prop where
  count_eq : p.count = l.length
  components_eq : ∃ rest, p.components = l.map some ++ rest

section

variable {p q : Pathname N} {l done todo written : List (PathComponent N)} {c : PathComponent N}
  {garbage rest cells : List (Option (PathComponent N))} {relative : Bool} {i j : Nat}

omit [DecidableEq N] in
theorem Has.append (h : Has p l) (c : PathComponent N) : Has (p.append c) (l ++ [c]) := by
  obtain ⟨hcount, rest, hcells⟩ := h
  refine ⟨by rw [length_append, ← hcount]; rfl, ?_⟩
  dsimp only [Pathname.append]
  rw [hcells, hcount, map_append, forceItem]
  cases rest with
  | nil =>
    refine ⟨[], ?_⟩
    rw [append_nil, length_map, if_neg (by omega), Nat.add_sub_cancel, Nat.sub_self]
    simp
  | cons cell rest =>
    refine ⟨rest, ?_⟩
    rw [if_pos (by rw [length_append, length_map, length_cons]; omega),
      Nat.add_sub_cancel, set_append_right _ _ (Nat.le_of_eq (length_map _)),
      length_map, Nat.sub_self, append_assoc]
    rfl

/-- The state of the loop of `set_canonical`: what is written already, components that are not
needed any more, and those that are still to come. -/
def compacted (w : List (PathComponent N)) (garbage : List (Option (PathComponent N)))
    (todo : List (PathComponent N)) (rest : List (Option (PathComponent N))) :
    List (Option (PathComponent N)) × Nat :=
  (w.map some ++ garbage ++ (todo.map some ++ rest), w.length + 1)

omit [DecidableEq N] in
theorem itemOf_append (pre : List (Option (PathComponent N))) (c : PathComponent N)
    (rest : List (Option (PathComponent N))) :
    itemOf (pre ++ some c :: rest) (pre.length + 1) = some c := by
  rw [itemOf, item_append_cons]
  rfl

omit [DecidableEq N] in
/-- A component that is moved to the end of what is written. -/
theorem exists_putItem (w garbage todo rest) (c : PathComponent N) :
    ∃ garbage', garbage'.length = garbage.length ∧
      (putItem (compacted w garbage (c :: todo) rest).1 (some c) (w.length + 1)).map
        (fun cells => (cells, w.length + 1 + 1)) =
          some (compacted (w ++ [c]) garbage' todo rest) := by
  cases garbage with
  | nil =>
    refine ⟨[], rfl, ?_⟩
    have hput := putItem_append_cons (w.map some) (some c) (some c) (todo.map some ++ rest)
    rw [length_map] at hput
    simp [compacted, hput]
  | cons g garbage =>
    refine ⟨garbage ++ [some c], by simp, ?_⟩
    have hput := putItem_append_cons (w.map some) g (some c)
      (garbage ++ (some c :: (todo.map some ++ rest)))
    rw [length_map] at hput
    simp [compacted, hput]

section

variable {w : List (PathComponent N)}

/-- `j = 1 or else is_parent (j - 1)`, after a name. -/
theorem isParentBefore_concat (w : List (PathComponent N)) (n : N) :
    isParentBefore (compacted (w ++ [name n]) garbage todo rest) = some false := by
  have hitem := itemOf_append (w.map some) (name n) (garbage ++ (todo.map some ++ rest))
  rw [length_map] at hitem
  simp [isParentBefore, compacted, hitem]

theorem isParentBefore_replicate (k : Nat) :
    isParentBefore (compacted (replicate k (parent : PathComponent N)) garbage todo rest) =
      some true := by
  cases k with
  | zero => rfl
  | succ k =>
    have hitem := itemOf_append (replicate k (some (parent : PathComponent N))) parent
      (garbage ++ (todo.map some ++ rest))
    rw [length_replicate] at hitem
    rw [replicate_succ']
    simp [isParentBefore, compacted, hitem]

/-- The turn for each kind of component. -/
theorem exists_canonicalTurn (hw : IsNormal relative w) (hi : i = w.length + garbage.length + 1)
    (c : PathComponent N) (todo : List (PathComponent N))
    (rest : List (Option (PathComponent N))) : ∃ garbage',
      canonicalTurn relative i (compacted w garbage (c :: todo) rest) =
        some (compacted (push relative w c) garbage' todo rest) ∧
      (push relative w c).length + garbage'.length = w.length + garbage.length + 1 := by
  have hitem : itemOf (compacted w garbage (c :: todo) rest).1 i = some c := by
    have hpre := itemOf_append (w.map some ++ garbage) c (todo.map some ++ rest)
    rw [length_append, length_map, ← hi] at hpre
    exact hpre
  obtain ⟨garbage', hgarbage, hput⟩ := exists_putItem w garbage todo rest c
  unfold canonicalTurn
  rw [hitem, some_bind]
  cases c with
  | current =>
    refine ⟨garbage ++ [some current], ?_, ?_⟩
    · rw [if_pos rfl]
      simp [compacted, push]
    · rw [length_append]
      rfl
  | name n =>
    refine ⟨garbage', ?_, ?_⟩
    · rw [if_neg (by simp), if_neg (by simp)]
      exact hput
    · rw [push, length_append, hgarbage]
      simp
      omega
  | parent =>
    rw [if_neg (by simp), if_pos rfl]
    rcases hw.cases with ⟨p', n, rfl, -⟩ | ⟨k, rfl, hk⟩
    · -- a name is consumed
      refine ⟨some (name n) :: garbage ++ [some parent], ?_, ?_⟩
      · rw [isParentBefore_concat, push_parent_name]
        simp [compacted]
      · rw [push_parent_name]
        simp
        omega
    · -- a leading parent directory
      rw [isParentBefore_replicate, push_parent_replicate]
      cases relative with
      | true =>
        refine ⟨garbage', hput, ?_⟩
        rw [if_pos rfl, length_append, hgarbage]
        simp
        omega
      | false =>
        refine ⟨garbage ++ [some parent], ?_, ?_⟩
        · simp [compacted]
        · simp
          omega

end

/-- The loop of `set_canonical` normalizes the components. -/
theorem exists_canonicalLoop (relative : Bool) (l : List (PathComponent N))
    (rest : List (Option (PathComponent N))) : ∃ garbage,
      forUp (canonicalTurn relative) l.length 1 (compacted [] [] l rest) =
        some (compacted (normalize relative l) garbage [] rest) ∧
      (normalize relative l).length + garbage.length = l.length := by
  have hrun : ∀ todo done garbage, (normalize relative done).length + garbage.length = done.length →
      ∃ garbage', forUp (canonicalTurn relative) todo.length (done.length + 1)
          (compacted (normalize relative done) garbage todo rest) =
          some (compacted (normalize relative (done ++ todo)) garbage' [] rest) ∧
        (normalize relative (done ++ todo)).length + garbage'.length = (done ++ todo).length := by
    intro todo
    induction todo with
    | nil =>
      intro done garbage hlength
      rw [append_nil]
      exact ⟨garbage, rfl, hlength⟩
    | cons c todo ih =>
      intro done garbage hlength
      obtain ⟨garbage', hturn, hlength'⟩ := exists_canonicalTurn (isNormal_normalize done)
        (congrArg (· + 1) hlength.symm) c todo rest
      rw [← normalize_concat] at hturn hlength'
      obtain ⟨garbage₂, hloop, hlength₂⟩ := ih (done ++ [c]) garbage'
        (by rw [hlength', hlength, length_append]; rfl)
      rw [append_assoc] at hloop hlength₂
      refine ⟨garbage₂, ?_, hlength₂⟩
      rw [length_cons, forUp, hturn]
      rw [length_append] at hloop
      exact hloop
  exact hrun l [] [] rfl

omit [DecidableEq N] in
/-- The cells behind the components are emptied. -/
theorem forUp_putItem (pre garbage rest : List (Option (PathComponent N))) :
    forUp (fun j cells => putItem cells none j) garbage.length (pre.length + 1)
      (pre ++ garbage ++ rest) = some (pre ++ replicate garbage.length none ++ rest) := by
  induction garbage generalizing pre with
  | nil => rfl
  | cons g garbage ih =>
    have hput := putItem_append_cons pre g none (garbage ++ rest)
    have hloop := ih (pre ++ [none])
    rw [length_append] at hloop
    rw [append_assoc, cons_append, length_cons, forUp, hput]
    simp only [append_assoc, cons_append, nil_append] at hloop
    simp only [append_assoc, replicate_succ, cons_append]
    exact hloop

theorem isCurrentOnly_eq (h : Has p l) :
    p.isCurrentOnly = some (decide (p.isRelative = true ∧ l = [current])) := by
  obtain ⟨hcount, rest, hcells⟩ := h
  unfold isCurrentOnly
  by_cases hone : p.count = 1
  · obtain ⟨c, rfl⟩ := length_eq_one_iff.mp (hcount.symm.trans hone)
    have hitem : itemOf p.components 1 = some c := by
      rw [hcells]
      rfl
    rw [if_pos hone, hitem, Option.map_some]
    cases p.isRelative
    · simp
    · simp
  · rw [if_neg hone, decide_eq_false]
    rintro ⟨-, rfl⟩
    exact hone hcount

/-- `set_canonical` leads to the canonical form of the components, and changes nothing if the
components are canonical. -/
theorem exists_setCanonical (h : Has p l) : ∃ q, p.setCanonical = some q ∧
    q.isRelative = p.isRelative ∧ Has q (canonical p.isRelative l) ∧
      (canonical p.isRelative l = l → q = p) := by
  have honly := isCurrentOnly_eq h
  obtain ⟨hcount, rest, hcells⟩ := id h
  unfold setCanonical
  rw [honly, some_bind]
  by_cases hcurrent : p.isRelative = true ∧ l = [current]
  · obtain ⟨hrelative, rfl⟩ := id hcurrent
    refine ⟨p, by rw [decide_eq_true hcurrent]; rfl, rfl, ?_, fun _ => rfl⟩
    rw [canonical, if_pos ⟨hrelative, rfl⟩]
    exact h
  · obtain ⟨garbage, hloop, hlength⟩ := exists_canonicalLoop p.isRelative l rest
    have hstart : ((p.components, 1) : List (Option (PathComponent N)) × Nat) =
        compacted [] [] l rest := by
      rw [hcells]
      rfl
    have hvoid := forUp_putItem ((normalize p.isRelative l).map some) garbage rest
    rw [length_map] at hvoid
    have hrun : l.length + 1 - ((normalize p.isRelative l).length + 1) = garbage.length := by
      omega
    rw [decide_eq_false hcurrent, hstart, hcount, hloop, if_neg Bool.false_ne_true,
      some_bind]
    dsimp only [compacted]
    rw [hrun, map_nil, nil_append, hvoid, some_bind, Nat.add_sub_cancel]
    by_cases hempty : p.isRelative = true ∧ (normalize p.isRelative l).length = 0
    · have hnil := length_eq_zero_iff.mp hempty.2
      have hcanonical : canonical p.isRelative l = [current] := if_pos ⟨hempty.1, hnil⟩
      rw [if_pos hempty]
      refine ⟨_, rfl, rfl, ?_, fun hl => absurd ⟨hempty.1, hl.symm.trans hcanonical⟩ hcurrent⟩
      rw [hcanonical, hnil]
      exact Has.append (l := []) ⟨rfl, _, append_assoc _ _ _⟩ current
    · have hcanonical : canonical p.isRelative l = normalize p.isRelative l :=
        if_neg fun h => hempty ⟨h.1, length_eq_zero_iff.mpr h.2⟩
      rw [if_neg hempty]
      refine ⟨_, rfl, rfl, ?_, fun hl => ?_⟩
      · rw [hcanonical]
        exact ⟨rfl, _, (append_assoc _ _ _)⟩
      · have hnormal := hcanonical.symm.trans hl
        have hgarbage : garbage.length = 0 := by
          rw [hnormal] at hlength
          omega
        rw [hgarbage, hnormal, replicate_zero, append_nil, ← hcells, ← hcount]

omit [DecidableEq N] in
theorem Has.unique (h : Has p l) {l' : List (PathComponent N)} (h' : Has p l') : l = l' := by
  obtain ⟨hcount, rest, hcells⟩ := h
  obtain ⟨hcount', rest', hcells'⟩ := h'
  have hlength : (l.map some).length = (l'.map some).length := by
    rw [length_map, length_map, ← hcount, ← hcount']
  have hmap := (append_inj (hcells.symm.trans hcells') hlength).1
  exact map_injective_iff.mpr (Option.some_injective _) hmap

/-- `set_canonical` tells which pathnames are the same place of any tree of directories: those that
simplifications, in either direction, lead from one to the other. -/
theorem setCanonical_same_iff {p' : Pathname N} {l' : List (PathComponent N)} (h : Has p l)
    (h' : Has p' l') (hrelative : p'.isRelative = p.isRelative) :
    (∃ q q' m, p.setCanonical = some q ∧ p'.setCanonical = some q' ∧ Has q m ∧ Has q' m) ↔
      Relation.EqvGen (Simplifies p.isRelative) l l' := by
  obtain ⟨q, hq, -, hqhas, -⟩ := exists_setCanonical h
  obtain ⟨q', hq', -, hqhas', -⟩ := exists_setCanonical h'
  rw [hrelative] at hqhas'
  rw [← canonical_eq_iff]
  constructor
  · rintro ⟨_, _, m, hrun, hrun', hm, hm'⟩
    obtain rfl := Option.some.inj (hq.symm.trans hrun)
    obtain rfl := Option.some.inj (hq'.symm.trans hrun')
    exact (hqhas.unique hm).trans (hm'.unique hqhas')
  · intro heq
    exact ⟨q, q', _, hq, hq', hqhas, heq ▸ hqhas'⟩

/-- `a/../b` and `./b`. -/
theorem setCanonical_same_dots :
    (∃ q q' m, (Pathname.mk true [some (name 1), some parent, some (name 2)] 3).setCanonical =
        some q ∧ (Pathname.mk true [some current, some (name 2)] 2).setCanonical = some q' ∧
        Has q m ∧ Has q' m) ↔
      Relation.EqvGen (Simplifies true) [name 1, parent, name 2] [current, name 2] :=
  setCanonical_same_iff ⟨rfl, [], rfl⟩ ⟨rfl, [], rfl⟩ rfl

end

end Pathname

end Gobo
