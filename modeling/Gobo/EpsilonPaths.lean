/-
The words of the paths between two states of an automaton with empty transitions, when parts of
it are linked together.
-/
import Mathlib.Computability.EpsilonNFA

namespace Gobo

open List

open scoped Computability

universe u v

variable {A : Type u} {X Y : Type v} {M M' : εNFA A X} {K : Set X} {p q s t x : X}

/-- The words of the paths from one state to another. -/
def pathLanguage (M : εNFA A X) (p t : X) : Language A :=
  {w | ∃ xs, M.IsPath p t xs ∧ xs.reduceOption = w}

theorem mem_pathLanguage {w : List A} :
    w ∈ pathLanguage M p t ↔ ∃ xs, M.IsPath p t xs ∧ xs.reduceOption = w := Iff.rfl

theorem accepts_eq (hs : M.start = {s}) (ht : M.accept = {t}) :
    M.accepts = pathLanguage M s t := by
  ext w
  rw [εNFA.mem_accepts_iff_exists_path, mem_pathLanguage, hs, ht]
  constructor
  · rintro ⟨p, q, xs, rfl, rfl, hw, hpath⟩
    exact ⟨xs, hpath, hw⟩
  · rintro ⟨xs, hpath, hw⟩
    exact ⟨s, t, xs, rfl, rfl, hw, hpath⟩

theorem isPath_cons {o : Option A} {xs : List (Option A)} :
    M.IsPath p t (o :: xs) ↔ ∃ q ∈ M.step p o, M.IsPath q t xs := by
  constructor
  · rintro (_ | ⟨q, _, _, _, _, hstep, hpath⟩)
    exact ⟨q, hstep, hpath⟩
  · rintro ⟨q, hstep, hpath⟩
    exact .cons q p t o xs hstep hpath

theorem reduceOption_cons (o : Option A) (xs : List (Option A)) :
    (o :: xs).reduceOption = o.toList ++ xs.reduceOption := by
  cases o <;> rfl

/-- The first step of a path. -/
theorem mem_pathLanguage_iff {w : List A} (hpt : p ≠ t) : w ∈ pathLanguage M p t ↔
      ∃ o, ∃ q ∈ M.step p o, ∃ w' ∈ pathLanguage M q t, w = o.toList ++ w' := by
  constructor
  · rintro ⟨_ | ⟨o, xs⟩, hpath, rfl⟩
    · exact absurd (M.isPath_nil.mp hpath) hpt
    · obtain ⟨q, hstep, hrest⟩ := isPath_cons.mp hpath
      exact ⟨o, q, hstep, _, ⟨xs, hrest, rfl⟩, reduceOption_cons o xs⟩
  · rintro ⟨o, q, hstep, _, ⟨xs, hpath, rfl⟩, rfl⟩
    exact ⟨o :: xs, isPath_cons.mpr ⟨q, hstep, hpath⟩, reduceOption_cons o xs⟩

/-- The empty path is the only one to a state without transitions, from itself. -/
theorem pathLanguage_self (hp : ∀ o, M.step p o = ∅) : pathLanguage M p p = 1 := by
  ext w
  rw [Language.mem_one]
  constructor
  · rintro ⟨_ | ⟨o, xs⟩, hpath, rfl⟩
    · rfl
    · obtain ⟨q, hstep, -⟩ := isPath_cons.mp hpath
      rw [hp o] at hstep
      exact absurd hstep (Set.notMem_empty q)
  · rintro rfl
    exact ⟨[], .nil p, rfl⟩

/-- Only empty transitions leave the state, to one of two states. -/
theorem pathLanguage_fork (hpt : p ≠ t)
    (hp : ∀ o r, r ∈ M.step p o ↔ o = none ∧ (r = q ∨ r = x)) :
    pathLanguage M p t = pathLanguage M q t + pathLanguage M x t := by
  ext w
  rw [mem_pathLanguage_iff hpt, Language.mem_add]
  constructor
  · rintro ⟨o, r, hstep, w', hw', rfl⟩
    obtain ⟨rfl, rfl | rfl⟩ := (hp o r).mp hstep
    · exact Or.inl hw'
    · exact Or.inr hw'
  · rintro (hw | hw)
    · exact ⟨none, q, (hp none q).mpr ⟨rfl, Or.inl rfl⟩, w, hw, rfl⟩
    · exact ⟨none, x, (hp none x).mpr ⟨rfl, Or.inr rfl⟩, w, hw, rfl⟩

theorem pathLanguage_jump (hpt : p ≠ t) (hp : ∀ o r, r ∈ M.step p o ↔ o = none ∧ r = q) :
    pathLanguage M p t = pathLanguage M q t := by
  rw [pathLanguage_fork (q := q) (x := q) hpt fun o r => by rw [hp, or_self], Language.add_self]

/-- A part of an automaton, which is left by the state `t` only. -/
structure IsPart (M : εNFA A X) (K : Set X) (t : X) : Prop where
  closed : ∀ p ∈ K, ∀ o, M.step p o ⊆ K
  exit : ∀ o, M.step t o = ∅

/-- A path out of a part goes through its exit. -/
theorem IsPart.isPath_iff (hK : IsPart M K t) (hsame : ∀ p ∈ K, p ≠ t → M'.step p = M.step p)
    (hp : p ∈ K) (hx : x ∈ K → x = t) (xs : List (Option A)) :
    M'.IsPath p x xs ↔ ∃ as bs, xs = as ++ bs ∧ M.IsPath p t as ∧ M'.IsPath t x bs := by
  constructor
  · intro hpath
    induction xs generalizing p with
    | nil =>
        obtain rfl := M'.isPath_nil.mp hpath
        obtain rfl := hx hp
        exact ⟨[], [], rfl, .nil p, .nil p⟩
    | cons o xs ih =>
        rcases eq_or_ne p t with rfl | hpt
        · exact ⟨[], o :: xs, rfl, .nil p, hpath⟩
        · obtain ⟨q, hstep, hrest⟩ := isPath_cons.mp hpath
          rw [hsame p hp hpt] at hstep
          obtain ⟨as, bs, rfl, has, hbs⟩ := ih (hK.closed p hp o hstep) hrest
          exact ⟨o :: as, bs, rfl, isPath_cons.mpr ⟨q, hstep, has⟩, hbs⟩
  · rintro ⟨as, bs, rfl, has, hbs⟩
    induction as generalizing p with
    | nil =>
        obtain rfl := M.isPath_nil.mp has
        exact hbs
    | cons o as ih =>
        obtain ⟨q, hstep, hrest⟩ := isPath_cons.mp has
        have hpt : p ≠ t := by
          rintro rfl
          rw [hK.exit o] at hstep
          exact hstep
        refine isPath_cons.mpr ⟨q, ?_, ih (hK.closed p hp o hstep) hrest⟩
        rw [hsame p hp hpt]
        exact hstep

theorem IsPart.pathLanguage_eq (hK : IsPart M K t)
    (hsame : ∀ p ∈ K, p ≠ t → M'.step p = M.step p) (hp : p ∈ K) (hx : x ∈ K → x = t) :
    pathLanguage M' p x = pathLanguage M p t * pathLanguage M' t x := by
  ext w
  rw [Language.mem_mul]
  constructor
  · rintro ⟨xs, hpath, rfl⟩
    obtain ⟨as, bs, rfl, has, hbs⟩ := (hK.isPath_iff hsame hp hx xs).mp hpath
    exact ⟨_, ⟨as, has, rfl⟩, _, ⟨bs, hbs, rfl⟩, (reduceOption_append as bs).symm⟩
  · rintro ⟨_, ⟨as, has, rfl⟩, _, ⟨bs, hbs, rfl⟩, rfl⟩
    exact ⟨as ++ bs, (hK.isPath_iff hsame hp hx _).mpr ⟨as, bs, rfl, has, hbs⟩,
      reduceOption_append as bs⟩

/-- The start of a part, which no transition enters, has another empty transition. -/
theorem IsPart.pathLanguage_add (hK : IsPart M K t) (hs : s ∈ K) (hst : s ≠ t)
    (hstart : ∀ p ∈ K, ∀ o, s ∉ M.step p o)
    (hsame : ∀ p ∈ K, p ≠ s → p ≠ t → M'.step p = M.step p)
    (hmore : ∀ o r, r ∈ M'.step s o ↔ r ∈ M.step s o ∨ o = none ∧ r = q)
    (hx : x ∈ K → x = t) :
    pathLanguage M' s x = pathLanguage M s t * pathLanguage M' t x + pathLanguage M' q x := by
  have hsx : s ≠ x := by
    rintro rfl
    exact hst (hx hs)
  have hpart : IsPart M (K \ {s}) t := by
    refine ⟨fun p hp o r hr => ⟨hK.closed p hp.1 o hr, ?_⟩, hK.exit⟩
    rintro rfl
    exact hstart p hp.1 o hr
  have hrest : ∀ o, ∀ r ∈ M.step s o,
      pathLanguage M' r x = pathLanguage M r t * pathLanguage M' t x := by
    intro o r hr
    refine hpart.pathLanguage_eq (fun p hp => hsame p hp.1 hp.2) ⟨hK.closed s hs o hr, ?_⟩
      fun hxK => hx hxK.1
    rintro rfl
    exact hstart r hs o hr
  ext w
  rw [mem_pathLanguage_iff hsx, Language.mem_add, Language.mem_mul]
  constructor
  · rintro ⟨o, r, hstep, w', hw', rfl⟩
    rcases (hmore o r).mp hstep with hr | ⟨rfl, rfl⟩
    · rw [hrest o r hr, Language.mem_mul] at hw'
      obtain ⟨a, ha, b, hb, rfl⟩ := hw'
      refine Or.inl ⟨o.toList ++ a, ?_, b, hb, append_assoc _ _ _⟩
      exact (mem_pathLanguage_iff hst).mpr ⟨o, r, hr, a, ha, rfl⟩
    · exact Or.inr hw'
  · rintro (⟨a, ha, b, hb, rfl⟩ | hw)
    · obtain ⟨o, r, hr, a', ha', rfl⟩ := (mem_pathLanguage_iff hst).mp ha
      refine ⟨o, r, (hmore o r).mpr (Or.inl hr), a' ++ b, ?_, append_assoc _ _ _⟩
      rw [hrest o r hr]
      exact Language.append_mem_mul ha' hb
    · exact ⟨none, q, (hmore none q).mpr (Or.inr ⟨rfl, rfl⟩), w, hw, rfl⟩

/-- The exit of a part leads to its start again, or out of it. -/
theorem IsPart.pathLanguage_loop (hK : IsPart M K t) (hs : s ∈ K) (hx : x ∉ K) (ht : t ∈ K)
    (hsame : ∀ p ∈ K, p ≠ t → M'.step p = M.step p)
    (hloop : ∀ o r, r ∈ M'.step t o ↔ o = none ∧ (r = s ∨ r = x))
    (hend : ∀ o, M'.step x o = ∅) : pathLanguage M' t x = (pathLanguage M s t)∗ := by
  have htx : t ≠ x := fun htx => hx (htx ▸ ht)
  have hstep : pathLanguage M' t x = pathLanguage M s t * pathLanguage M' t x + 1 := by
    have hfork := pathLanguage_fork htx hloop
    rwa [hK.pathLanguage_eq hsame hs fun h => absurd h hx, pathLanguage_self hend] at hfork
  refine le_antisymm ?_ ?_
  · have hpaths : ∀ n xs, xs.length = n → M'.IsPath t x xs →
        xs.reduceOption ∈ (pathLanguage M s t)∗ := by
      intro n
      induction n using Nat.strong_induction_on with
      | _ n ih =>
          rintro (_ | ⟨o, xs⟩) rfl hpath
          · exact absurd (M'.isPath_nil.mp hpath) htx
          · obtain ⟨r, hr, hrest⟩ := isPath_cons.mp hpath
            obtain ⟨rfl, rfl | rfl⟩ := (hloop o r).mp hr
            · obtain ⟨as, bs, rfl, has, hbs⟩ :=
                (hK.isPath_iff hsame hs (fun h => absurd h hx) xs).mp hrest
              have hmem := ih bs.length (by
                rw [length_cons, length_append]
                omega) bs rfl hbs
              rw [reduceOption_cons, reduceOption_append, Option.toList_none, nil_append,
                ← Language.one_add_self_mul_kstar_eq_kstar]
              exact Or.inr (Language.append_mem_mul ⟨as, has, rfl⟩ hmem)
            · rw [reduceOption_cons]
              cases xs with
              | nil => exact Language.nil_mem_kstar _
              | cons o xs =>
                  obtain ⟨r', hr', -⟩ := isPath_cons.mp hrest
                  rw [hend o] at hr'
                  exact absurd hr' (Set.notMem_empty r')
    rintro w ⟨xs, hpath, rfl⟩
    exact hpaths xs.length xs rfl hpath
  · have hle : pathLanguage M s t * pathLanguage M' t x ≤ pathLanguage M' t x := by
      conv_rhs => rw [hstep]
      exact le_sup_left
    have hone : 1 ≤ pathLanguage M' t x := by
      rw [hstep]
      exact le_sup_right
    exact kstar_le_of_mul_le_right hone hle

/-- A part and its image in another automaton. -/
theorem pathLanguage_image {N : εNFA A Y} {g : X → Y} (hinj : Set.InjOn g K)
    (hclosed : ∀ p ∈ K, ∀ o, M.step p o ⊆ K)
    (hstep : ∀ p ∈ K, ∀ o, N.step (g p) o = g '' M.step p o) (hp : p ∈ K) (ht : t ∈ K) :
    pathLanguage N (g p) (g t) = pathLanguage M p t := by
  have hpath : ∀ xs, ∀ p ∈ K, N.IsPath (g p) (g t) xs ↔ M.IsPath p t xs := by
    intro xs
    induction xs with
    | nil =>
        intro p hp
        rw [εNFA.isPath_nil, εNFA.isPath_nil]
        exact hinj.eq_iff hp ht
    | cons o xs ih =>
        intro p hp
        rw [isPath_cons, isPath_cons, hstep p hp]
        constructor
        · rintro ⟨-, ⟨q, hq, rfl⟩, hrest⟩
          exact ⟨q, hq, (ih q (hclosed p hp o hq)).mp hrest⟩
        · rintro ⟨q, hq, hrest⟩
          exact ⟨g q, ⟨q, hq, rfl⟩, (ih q (hclosed p hp o hq)).mpr hrest⟩
  ext w
  exact exists_congr fun xs => and_congr_left fun _ => hpath xs p hp

theorem pathLanguage_congr (hstep : M'.step = M.step) (p t : X) :
    pathLanguage M' p t = pathLanguage M p t :=
  pathLanguage_image (K := Set.univ) (g := id) (Set.injOn_id _) (fun p _ o => Set.subset_univ _)
    (fun p _ o => by rw [hstep, Set.image_id, id]) (Set.mem_univ p) (Set.mem_univ t)

end Gobo
