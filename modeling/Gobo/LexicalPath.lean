/-
Paths of names, with components for the current and for the parent directory, and their lexical
normal form: the one that no simplification changes.
-/
import Mathlib.Data.List.Induction
import Mathlib.Logic.Relation

namespace Gobo

open List

universe u

/-- A component of a path. -/
inductive PathComponent (N : Type u) where
  | current
  | parent
  | name (n : N)
deriving DecidableEq

namespace LexicalPath

open PathComponent Relation

variable {N : Type u}

/-- A simplification: the current directory is left out, a name and the parent directory after it
cancel, and there is no parent directory of the root. -/
inductive Simplifies (relative : Bool) : List (PathComponent N) → List (PathComponent N) → Prop
  | current (l r : List (PathComponent N)) : Simplifies relative (l ++ current :: r) (l ++ r)
  | cancel (l : List (PathComponent N)) (n : N) (r : List (PathComponent N)) :
      Simplifies relative (l ++ name n :: parent :: r) (l ++ r)
  | root (r : List (PathComponent N)) (h : relative = false) : Simplifies relative (parent :: r) r

/-- Any number of simplifications. -/
def Reduces (relative : Bool) : List (PathComponent N) → List (PathComponent N) → Prop :=
  ReflTransGen (Simplifies relative)

section

variable (relative : Bool) (p : List (PathComponent N))

/-- Parent directories, which only a relative path has, and names. -/
def IsNormal : Prop :=
  ∃ (k : Nat) (names : List N), p = replicate k parent ++ names.map name ∧
    (relative = false → k = 0)

/-- A normal path with one more component. -/
def push : PathComponent N → List (PathComponent N)
  | current => p
  | parent =>
      match p.getLast? with
      | some (name _) => p.dropLast
      | _ => if relative then p ++ [parent] else p
  | name n => p ++ [name n]

def normalize : List (PathComponent N) := p.foldl (push relative) []

end

/-- How far below its start a path ends. -/
def level : List (PathComponent N) → Int
  | [] => 0
  | current :: p => level p
  | parent :: p => level p - 1
  | name _ :: p => level p + 1

/-- The path does not go above its start anywhere. -/
def StaysBelow (p : List (PathComponent N)) : Prop :=
  ∀ front, front <+: p → 0 ≤ level front

/-- The normal form of a relative path without components is the current directory. -/
def canonical (relative : Bool) (p : List (PathComponent N)) : List (PathComponent N) :=
  if relative = true ∧ normalize relative p = [] then [current] else normalize relative p

/-- The path `q` is the lexical normal form of `p`: it has no current directory unless this is its
only component and it is relative, parent directories only at the beginning and if it is relative,
and it is what is left of `p` when names and parent directories have cancelled. -/
structure IsLexicalForm (relative : Bool) (p q : List (PathComponent N)) : Prop where
  ne_nil : relative = true → q ≠ []
  current_alone : current ∈ q → relative = true ∧ q = [current]
  normal : current ∉ q → IsNormal relative q
  reduces : Reduces relative p q ∨ q = [current] ∧ Reduces relative p []

section

variable {relative : Bool} {p q r : List (PathComponent N)} {c : PathComponent N}

theorem normalize_concat (p : List (PathComponent N)) (c : PathComponent N) :
    normalize relative (p ++ [c]) = push relative (normalize relative p) c := by
  rw [normalize, foldl_append]
  rfl

theorem isNormal_nil : IsNormal relative ([] : List (PathComponent N)) :=
  ⟨0, [], rfl, fun _ => rfl⟩

/-- A normal path ends with a name, or it consists of parent directories. -/
theorem IsNormal.cases (h : IsNormal relative p) :
    (∃ p' n, p = p' ++ [name n] ∧ IsNormal relative p') ∨
      ∃ k, p = replicate k parent ∧ (relative = false → k = 0) := by
  obtain ⟨k, names, rfl, hk⟩ := h
  rcases eq_nil_or_concat names with rfl | ⟨names, n, rfl⟩
  · exact Or.inr ⟨k, append_nil _, hk⟩
  · refine Or.inl ⟨replicate k parent ++ names.map name, n, ?_, k, names, rfl, hk⟩
    rw [concat_eq_append, map_append, append_assoc]
    rfl

theorem push_parent_name (p : List (PathComponent N)) (n : N) :
    push relative (p ++ [name n]) parent = p := by
  rw [push, getLast?_concat]
  exact dropLast_concat

theorem push_parent_replicate (k : Nat) :
    push relative (replicate k (parent : PathComponent N)) parent =
      if relative then replicate k parent ++ [parent] else replicate k parent := by
  cases k with
  | zero => rfl
  | succ k =>
    have hlast : (replicate (k + 1) (parent : PathComponent N)).getLast? = some parent := by
      rw [replicate_succ', getLast?_concat]
    rw [push, hlast]

theorem IsNormal.push (h : IsNormal relative p) (c : PathComponent N) :
    IsNormal relative (push relative p c) := by
  cases c with
  | current => exact h
  | name n =>
    obtain ⟨k, names, rfl, hk⟩ := h
    refine ⟨k, names ++ [n], ?_, hk⟩
    rw [LexicalPath.push, map_append, append_assoc]
    rfl
  | parent =>
    rcases h.cases with ⟨p', n, rfl, hp'⟩ | ⟨k, rfl, hk⟩
    · rw [push_parent_name]
      exact hp'
    · rw [push_parent_replicate]
      cases relative with
      | true => exact ⟨k + 1, [], by rw [replicate_succ']; simp, by simp⟩
      | false => exact ⟨k, [], (append_nil _).symm, hk⟩

theorem isNormal_normalize (p : List (PathComponent N)) :
    IsNormal relative (normalize relative p) := by
  induction p using reverseRecOn with
  | nil => exact isNormal_nil
  | append_singleton p c ih =>
    rw [normalize_concat]
    exact ih.push c

/-- Simplifications leave what comes after. -/
theorem Simplifies.append (h : Simplifies relative p q) (r : List (PathComponent N)) :
    Simplifies relative (p ++ r) (q ++ r) := by
  cases h with
  | current l r' =>
    rw [append_assoc, append_assoc]
    exact .current l (r' ++ r)
  | cancel l n r' =>
    rw [append_assoc, append_assoc]
    exact .cancel l n (r' ++ r)
  | root _ h => exact .root _ h

theorem Reduces.append (h : Reduces relative p q) (r : List (PathComponent N)) :
    Reduces relative (p ++ r) (q ++ r) := by
  induction h with
  | refl => exact .refl
  | tail _ hstep ih => exact ih.tail (hstep.append r)

/-- One more component of a normal path is simplified at once. -/
theorem IsNormal.reduces_push (h : IsNormal relative p) (c : PathComponent N) :
    Reduces relative (p ++ [c]) (LexicalPath.push relative p c) := by
  cases c with
  | current =>
    have hstep : Simplifies relative (p ++ [current]) (p ++ []) := .current p []
    rw [append_nil] at hstep
    exact .single hstep
  | name n => exact .refl
  | parent =>
    rcases h.cases with ⟨p', n, rfl, -⟩ | ⟨k, rfl, hk⟩
    · have hstep : Simplifies relative (p' ++ [name n, parent]) (p' ++ []) := .cancel p' n []
      rw [append_nil] at hstep
      rw [push_parent_name, append_assoc]
      exact .single hstep
    · rw [push_parent_replicate]
      cases relative with
      | true => exact .refl
      | false =>
        obtain rfl := hk rfl
        exact .single (.root [] rfl)

theorem reduces_normalize (p : List (PathComponent N)) :
    Reduces relative p (normalize relative p) := by
  induction p using reverseRecOn with
  | nil => exact .refl
  | append_singleton p c ih =>
    rw [normalize_concat]
    exact (ih.append [c]).trans ((isNormal_normalize p).reduces_push c)

theorem normalize_append (p q : List (PathComponent N)) :
    normalize relative (p ++ q) = q.foldl (LexicalPath.push relative) (normalize relative p) :=
  foldl_append

/-- Simplified paths have the same normal form. -/
theorem Simplifies.normalize_eq (h : Simplifies relative p q) :
    normalize relative p = normalize relative q := by
  cases h with
  | current l r =>
    rw [normalize_append, normalize_append]
    rfl
  | cancel l n r =>
    have hcancel : LexicalPath.push relative (LexicalPath.push relative (normalize relative l)
        (name n)) parent = normalize relative l := push_parent_name _ n
    rw [normalize_append, normalize_append, foldl_cons, foldl_cons, hcancel]
  | root r hrelative =>
    rw [normalize, foldl_cons, hrelative]
    rfl

/-- Paths have the same normal form if simplifications, in either direction, lead from one to the
other. -/
theorem normalize_eq_iff :
    normalize relative p = normalize relative q ↔ EqvGen (Simplifies relative) p q := by
  have hreduces : ∀ {p q : List (PathComponent N)}, Reduces relative p q →
      EqvGen (Simplifies relative) p q := by
    intro p q h
    induction h with
    | refl => exact .refl p
    | tail _ hstep ih => exact .trans _ _ _ ih (.rel _ _ hstep)
  constructor
  · intro heq
    exact .trans _ _ _ (hreduces (reduces_normalize p))
      (heq ▸ .symm _ _ (hreduces (reduces_normalize q)))
  · intro h
    induction h with
    | rel _ _ hstep => exact hstep.normalize_eq
    | refl => rfl
    | symm _ _ _ ih => exact ih.symm
    | trans _ _ _ _ _ ih ih' => exact ih.trans ih'

theorem foldl_push_names (p : List (PathComponent N)) (names : List N) :
    (names.map name).foldl (LexicalPath.push relative) p = p ++ names.map name := by
  induction names generalizing p with
  | nil => exact (append_nil p).symm
  | cons n names ih =>
    rw [map_cons, foldl_cons, ih, LexicalPath.push, append_assoc]
    rfl

theorem normalize_of_isNormal (h : IsNormal relative p) : normalize relative p = p := by
  obtain ⟨k, names, rfl, hk⟩ := h
  have hparents : normalize relative (replicate k (parent : PathComponent N)) =
      replicate k parent := by
    induction k with
    | zero => rfl
    | succ k ih =>
      have hrelative : relative = true := by
        by_contra hne
        exact absurd (hk (Bool.eq_false_iff.mpr hne)) (Nat.succ_ne_zero k)
      rw [replicate_succ', normalize_concat, ih (fun h => absurd hrelative (by simp [h])),
        push_parent_replicate, if_pos hrelative]
  rw [normalize_append, hparents, foldl_push_names]

theorem current_not_mem (h : IsNormal relative p) : current ∉ p := by
  obtain ⟨k, names, rfl, -⟩ := h
  intro hmem
  rcases mem_append.mp hmem with hparent | hname
  · exact absurd (eq_of_mem_replicate hparent) (by simp)
  · obtain ⟨n, -, hn⟩ := mem_map.mp hname
    exact absurd hn (by simp)

theorem isLexicalForm_canonical (p : List (PathComponent N)) :
    IsLexicalForm relative p (canonical relative p) := by
  have hnormal : IsNormal relative (normalize relative p) := isNormal_normalize p
  have hreduces : Reduces relative p (normalize relative p) := reduces_normalize p
  unfold canonical
  split_ifs with hempty
  · refine ⟨fun _ => cons_ne_nil _ _, fun _ => ⟨hempty.1, rfl⟩, ?_, Or.inr ⟨rfl, ?_⟩⟩
    · exact fun h => absurd (mem_singleton_self _) h
    · rw [← hempty.2]
      exact hreduces
  · refine ⟨fun hrelative hnil => hempty ⟨hrelative, hnil⟩, fun h => ?_, fun _ => hnormal,
      Or.inl hreduces⟩
    exact absurd h (current_not_mem hnormal)

theorem canonical_eq_iff :
    canonical relative p = canonical relative q ↔ EqvGen (Simplifies relative) p q := by
  have hnot : ∀ r : List (PathComponent N), normalize relative r ≠ [current] := by
    intro r heq
    have hnormal : IsNormal relative (normalize relative r) := isNormal_normalize r
    exact current_not_mem hnormal (heq ▸ mem_singleton_self _)
  rw [← normalize_eq_iff]
  unfold canonical
  split_ifs with hp hq hq
  · exact iff_of_true rfl (hp.2.trans hq.2.symm)
  · refine iff_of_false (hnot q).symm fun heq => hq ⟨hp.1, heq ▸ hp.2⟩
  · refine iff_of_false (hnot p) fun heq => hp ⟨hq.1, heq ▸ hq.2⟩
  · exact Iff.rfl

theorem canonical_congr (h : normalize relative p = normalize relative q) :
    canonical relative p = canonical relative q := by
  rw [canonical, canonical, h]

/-- A canonical path stays as it is. -/
theorem canonical_canonical (p : List (PathComponent N)) :
    canonical relative (canonical relative p) = canonical relative p := by
  apply canonical_congr
  rw [canonical]
  split_ifs with hempty
  · exact hempty.2.symm
  · exact normalize_of_isNormal (isNormal_normalize p)

/-- Nothing new comes into a normal form. -/
theorem mem_normalize (h : c ∈ normalize relative p) : c ∈ p := by
  induction p using reverseRecOn generalizing c with
  | nil => exact absurd h not_mem_nil
  | append_singleton p d ih =>
    rw [normalize_concat] at h
    have hnormal : IsNormal relative (normalize relative p) := isNormal_normalize p
    have hcases : c ∈ normalize relative p ∨ c = d := by
      cases d with
      | current => exact Or.inl h
      | name n =>
        rcases mem_append.mp h with hmem | hmem
        · exact Or.inl hmem
        · exact Or.inr (mem_singleton.mp hmem)
      | parent =>
        rcases hnormal.cases with ⟨p', n, hp', -⟩ | ⟨k, hk, -⟩
        · rw [hp', push_parent_name] at h
          rw [hp']
          exact Or.inl (mem_append_left _ h)
        · rw [hk, push_parent_replicate] at h
          refine Or.inr ?_
          split_ifs at h
          · rw [← replicate_succ'] at h
            exact eq_of_mem_replicate h
          · exact eq_of_mem_replicate h
    rcases hcases with hmem | rfl
    · exact mem_append_left _ (ih hmem)
    · exact mem_append_right _ (mem_singleton_self _)

theorem mem_canonical (h : c ∈ canonical relative p) : c ∈ p ∨ c = current := by
  rw [canonical] at h
  split_ifs at h
  · exact Or.inr (mem_singleton.mp h)
  · exact Or.inl (mem_normalize h)

theorem level_append (p q : List (PathComponent N)) : level (p ++ q) = level p + level q := by
  induction p with
  | nil => exact (Int.zero_add _).symm
  | cons c p ih =>
    cases c with
    | current => exact ih
    | parent =>
      rw [cons_append, level, level, ih]
      omega
    | name n =>
      rw [cons_append, level, level, ih]
      omega

theorem staysBelow_nil : StaysBelow ([] : List (PathComponent N)) := by
  intro front hfront
  rw [prefix_nil.mp hfront]
  exact Int.le_refl 0

theorem staysBelow_concat : StaysBelow (p ++ [c]) ↔ StaysBelow p ∧ 0 ≤ level (p ++ [c]) := by
  constructor
  · intro h
    exact ⟨fun front hfront => h front (hfront.trans (prefix_append p [c])),
      h _ (prefix_refl _)⟩
  · rintro ⟨hp, hc⟩ front hfront
    rcases prefix_concat_iff.mp hfront with rfl | hfront
    · exact hc
    · exact hp front hfront

/-- A path that stays below its start adds names to the normal form of what is before it. -/
theorem StaysBelow.exists_names (h : StaysBelow p) (relative : Bool) : ∃ names : List N,
    level p = names.length ∧
      ∀ q, p.foldl (LexicalPath.push relative) q = q ++ names.map name := by
  induction p using reverseRecOn with
  | nil => exact ⟨[], rfl, fun q => (append_nil q).symm⟩
  | append_singleton p c ih =>
    obtain ⟨hp, hlevel⟩ := staysBelow_concat.mp h
    obtain ⟨names, hcount, hpush⟩ := ih hp
    rw [level_append, hcount] at hlevel ⊢
    cases c with
    | current =>
      refine ⟨names, Int.add_zero _, fun q => ?_⟩
      rw [foldl_append, hpush]
      rfl
    | name n =>
      refine ⟨names ++ [n], by rw [length_append]; rfl, fun q => ?_⟩
      rw [foldl_append, hpush, map_append, ← append_assoc]
      rfl
    | parent =>
      have hparent : level [(parent : PathComponent N)] = -1 := rfl
      rw [hparent] at hlevel ⊢
      rcases eq_nil_or_concat names with rfl | ⟨names, n, rfl⟩
      · rw [length_nil] at hlevel
        omega
      · refine ⟨names, ?_, fun q => ?_⟩
        · rw [concat_eq_append, length_append, length_singleton]
          omega
        · rw [foldl_append, hpush, concat_eq_append, map_append, ← append_assoc]
          exact push_parent_name _ n

/-- A name of the normal form is one that nothing cancels. -/
theorem exists_name_of_normalize {q : List (PathComponent N)} {n : N} {names : List N}
    (h : normalize relative p = q ++ name n :: names.map name) :
    ∃ front back, p = front ++ name n :: back ∧ normalize relative front = q ∧
      StaysBelow back ∧ level back = names.length := by
  induction p using reverseRecOn generalizing names with
  | nil => exact absurd h.symm (by simp [normalize])
  | append_singleton p c ih =>
    rw [normalize_concat] at h
    cases c with
    | current =>
      obtain ⟨front, back, rfl, hfront, hback, hlevel⟩ := ih h
      have hcurrent : level (back ++ [current]) = level back := by
        rw [level_append]
        exact Int.add_zero _
      refine ⟨front, back ++ [current], by simp, hfront, staysBelow_concat.mpr ⟨hback, ?_⟩, ?_⟩
      · rw [hcurrent, hlevel]
        exact Int.natCast_nonneg _
      · rw [hcurrent, hlevel]
    | name m =>
      rw [LexicalPath.push] at h
      rcases eq_nil_or_concat names with rfl | ⟨names, n', rfl⟩
      · obtain ⟨hp, hn⟩ := append_inj' h rfl
        obtain rfl := PathComponent.name.inj (cons.inj hn).1
        exact ⟨p, [], rfl, hp, staysBelow_nil, rfl⟩
      · rw [concat_eq_append, map_append, ← cons_append, ← append_assoc] at h
        obtain ⟨hp, -⟩ := append_inj' h rfl
        obtain ⟨front, back, rfl, hfront, hback, hlevel⟩ := ih hp
        have hname : level (back ++ [name m]) = level back + 1 := level_append back [name m]
        refine ⟨front, back ++ [name m], by simp, hfront, staysBelow_concat.mpr ⟨hback, ?_⟩, ?_⟩
        · omega
        · rw [hname, hlevel, concat_eq_append, length_append]
          rfl
    | parent =>
      rcases (isNormal_normalize p).cases with ⟨p', m, hp', -⟩ | ⟨k, hk, -⟩
      · rw [hp', push_parent_name] at h
        rw [h] at hp'
        have hnames : normalize relative p = q ++ name n :: (names ++ [m]).map name := by
          rw [hp', map_append]
          simp
        obtain ⟨front, back, rfl, hfront, hback, hlevel⟩ := ih hnames
        rw [length_append, length_singleton] at hlevel
        have hparent : level (back ++ [parent]) = level back - 1 := level_append back [parent]
        refine ⟨front, back ++ [parent], by simp, hfront, staysBelow_concat.mpr ⟨hback, ?_⟩, ?_⟩
        · omega
        · omega
      · -- parent directories alone have no name
        rw [hk, push_parent_replicate] at h
        have hmem : name n ∈ q ++ name n :: names.map name := by simp
        rw [← h] at hmem
        split_ifs at hmem
        · rw [← replicate_succ'] at hmem
          exact absurd (eq_of_mem_replicate hmem) (by simp)
        · exact absurd (eq_of_mem_replicate hmem) (by simp)

/-- A relative path has a normal form of names only if it stays below its start. -/
theorem staysBelow_of_normalize {names : List N}
    (h : normalize true p = names.map name) : StaysBelow p ∧ level p = names.length := by
  induction p using reverseRecOn generalizing names with
  | nil =>
    obtain rfl := map_eq_nil_iff.mp h.symm
    exact ⟨staysBelow_nil, rfl⟩
  | append_singleton p c ih =>
    rw [normalize_concat] at h
    rw [staysBelow_concat, level_append]
    cases c with
    | current =>
      obtain ⟨hp, hlevel⟩ := ih h
      have hcurrent : level p + level [(current : PathComponent N)] = level p := Int.add_zero _
      exact ⟨⟨hp, by omega⟩, by omega⟩
    | name m =>
      rw [LexicalPath.push] at h
      rcases eq_nil_or_concat names with rfl | ⟨names, n', rfl⟩
      · exact absurd h (by simp)
      · rw [concat_eq_append, map_append] at h
        obtain ⟨hp, -⟩ := append_inj' h rfl
        obtain ⟨hbelow, hlevel⟩ := ih hp
        have hname : level [name m] = 1 := rfl
        rw [hname, concat_eq_append, length_append, length_singleton]
        exact ⟨⟨hbelow, by omega⟩, by omega⟩
    | parent =>
      have hparent : level [(parent : PathComponent N)] = -1 := rfl
      rcases (isNormal_normalize p).cases with ⟨p', m, hp', -⟩ | ⟨k, hk, -⟩
      · rw [hp', push_parent_name] at h
        have hnames : normalize true p = (names ++ [m]).map name := by
          rw [hp', h]
          simp
        obtain ⟨hbelow, hlevel⟩ := ih hnames
        rw [length_append, length_singleton] at hlevel
        rw [hparent]
        exact ⟨⟨hbelow, by omega⟩, by omega⟩
      · rw [hk, push_parent_replicate, if_pos rfl] at h
        have hmem : (parent : PathComponent N) ∈ names.map name := by
          rw [← h]
          simp
        obtain ⟨n, -, hn⟩ := mem_map.mp hmem
        exact absurd hn (by simp)

/-- The name that the normal form of a relative path starts with: nothing is left of what is
before it, and nothing after it cancels it. -/
theorem head_normalize_iff {n : N} : (normalize true p).head? = some (name n) ↔
    ∃ front back, p = front ++ name n :: back ∧ StaysBelow front ∧ level front = 0 ∧
      StaysBelow back := by
  constructor
  · intro hhead
    obtain ⟨k, names, hnormal, -⟩ : IsNormal true (normalize true p) := isNormal_normalize p
    rw [hnormal] at hhead
    cases k with
    | succ k => exact absurd hhead (by simp [replicate_succ])
    | zero =>
      cases names with
      | nil => exact absurd hhead (by simp)
      | cons m names =>
        obtain rfl := PathComponent.name.inj (Option.some.inj hhead)
        obtain ⟨front, back, hp, hfront, hback, -⟩ := exists_name_of_normalize (q := []) hnormal
        have hnames : normalize true front = ([] : List N).map name := hfront
        obtain ⟨hbelow, hlevel⟩ := staysBelow_of_normalize hnames
        exact ⟨front, back, hp, hbelow, hlevel, hback⟩
  · rintro ⟨front, back, rfl, hfront, hlevel, hback⟩
    obtain ⟨names, hcount, hnames⟩ := hfront.exists_names true
    obtain rfl := length_eq_zero_iff.mp (Int.natCast_eq_zero.mp (hcount.symm.trans hlevel))
    obtain ⟨names', -, hnames'⟩ := hback.exists_names true
    rw [normalize_append, foldl_cons, normalize, hnames, hnames']
    rfl

/-- Something is left of an absolute path if there is a name that nothing cancels. -/
theorem normalize_ne_nil_iff : normalize false p ≠ [] ↔
    ∃ front n back, p = front ++ name n :: back ∧ StaysBelow back := by
  constructor
  · intro hne
    obtain ⟨k, names, hnormal, hk⟩ : IsNormal false (normalize false p) := isNormal_normalize p
    rw [hk rfl] at hnormal
    cases names with
    | nil => exact absurd hnormal hne
    | cons n names =>
      obtain ⟨front, back, hp, -, hback, -⟩ := exists_name_of_normalize (q := []) hnormal
      exact ⟨front, n, back, hp, hback⟩
  · rintro ⟨front, n, back, rfl, hback⟩
    obtain ⟨names, -, hnames⟩ := hback.exists_names false
    rw [normalize_append, foldl_cons, hnames, LexicalPath.push]
    simp

end

end LexicalPath

end Gobo
