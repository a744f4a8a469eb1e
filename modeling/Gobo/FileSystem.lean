/-
What the file systems have in common (`KL_FILE_SYSTEM`): the parts of a string between its
separators, the components that they are, and the string of the components of a pathname.
-/
import Gobo.Pathname
import Gobo.Words

namespace Gobo

open List Text PathComponent

namespace FileSystem

def relativeCurrentDirectory : List Char := ['.']

def relativeParentDirectory : List Char := ['.', '.']

def indexUp (i : Nat) : Option Nat := some (i + 1)

def indexDown (i : Nat) : Option Nat := some (i - 1)

/-- `i > nb or else stop (item (i))`, with `i` going up. -/
def scanUp (stop : Char → Bool) (s : List Char) (i : Nat) : Option Nat :=
  loopUntil (fun i => if s.length < i then some true else (item s i).map stop)
    indexUp (s.length + 2) i

/-- `i < 1 or else stop (item (i))`, with `i` going down. -/
def scanDown (stop : Char → Bool) (s : List Char) (i : Nat) : Option Nat :=
  loopUntil (fun i => if i < 1 then some true else (item s i).map stop)
    indexDown (s.length + 2) i

/-- The component that a part of the string is. -/
def component (str : List Char) : PathComponent (List Char) :=
  if str = relativeCurrentDirectory then current
  else if str = relativeParentDirectory then parent
  else name str

def componentText : PathComponent (List Char) → List Char
  | current => relativeCurrentDirectory
  | parent => relativeParentDirectory
  | name n => n

/-- One turn of the loop of `pathname_to_string`. -/
def textTurn (separator : Char) (p : Pathname (List Char)) (t : Nat × List Char) :
    Option (Nat × List Char) := do
  let c ← Pathname.itemOf p.components t.1
  some (t.1 + 1, t.2 ++ componentText c ++ [separator])

/-- The components behind what `pathname_to_string` has written before them. -/
def appendComponents (separator : Char) (p : Pathname (List Char)) (result : List Char) :
    Option (List Char) := do
  let (i, result) ← loopUntil (fun t => some (decide (p.count ≤ t.1))) (textTurn separator p)
    (p.count + 1) (1, result)
  if i = p.count then do
    let c ← Pathname.itemOf p.components i
    some (result ++ componentText c)
  else some result

section

variable {s w a b pre rest start : List Char} {stop separates differs : Char → Bool}
  {separator : Char} {p : Pathname (List Char)} {l : List (PathComponent (List Char))}
  {c : PathComponent (List Char)} {t : Nat × List Char}

theorem scanUp_eq (pre w rest : List Char) (hw : ∀ c ∈ w, stop c = false)
    (hrest : ∀ c ∈ rest.head?, stop c = true) :
    scanUp stop (pre ++ (w ++ rest)) (pre.length + 1) = some (pre.length + w.length + 1) := by
  have hrun : ∀ w pre fuel, (∀ c ∈ w, stop c = false) → w.length < fuel →
      loopUntil (fun i => if (pre ++ (w ++ rest)).length < i then some true
          else (item (pre ++ (w ++ rest)) i).map stop) indexUp fuel
        (pre.length + 1) = some (pre.length + w.length + 1) := by
    intro w
    induction w with
    | nil =>
      intro pre fuel _ hfuel
      obtain ⟨fuel, rfl⟩ := Nat.exists_eq_add_of_lt hfuel
      refine loopUntil_of_stop ?_
      cases rest with
      | nil => simp
      | cons c rest =>
        have hitem := item_append_cons pre c rest
        have hc := hrest c rfl
        simp [hitem, hc]
    | cons c w ih =>
      intro pre fuel hw hfuel
      cases fuel with
      | zero => omega
      | succ fuel =>
        have hitem := item_append_cons pre c (w ++ rest)
        have hc := hw c mem_cons_self
        have hnext := ih (pre ++ [c]) fuel (fun d hd => hw d (mem_cons_of_mem _ hd))
          (Nat.lt_of_succ_lt_succ hfuel)
        have hbody : indexUp (pre.length + 1) = some ((pre ++ [c]).length + 1) :=
          congrArg some (by rw [length_append, length_singleton])
        have hend : (pre ++ [c]).length + w.length + 1 = pre.length + (c :: w).length + 1 := by
          rw [length_append, length_singleton, length_cons]
          omega
        rw [append_assoc, hend] at hnext
        refine (loopUntil_of_go ?_ hbody).trans hnext
        simp [hitem, hc]
  exact hrun w pre _ hw (by simp; omega)

theorem scanDown_eq (pre w rest : List Char) (hw : ∀ c ∈ w, stop c = false)
    (hpre : ∀ c ∈ pre.getLast?, stop c = true) :
    scanDown stop (pre ++ (w ++ rest)) (pre.length + w.length) = some pre.length := by
  have hrun : ∀ n w rest fuel, w.length = n → (∀ c ∈ w, stop c = false) → n < fuel →
      loopUntil (fun i => if i < 1 then some true else (item (pre ++ (w ++ rest)) i).map stop)
        indexDown fuel (pre.length + n) = some pre.length := by
    intro n
    induction n with
    | zero =>
      intro w rest fuel hn _ hfuel
      obtain rfl := length_eq_zero_iff.mp hn
      obtain ⟨fuel, rfl⟩ := Nat.exists_eq_add_of_lt hfuel
      refine loopUntil_of_stop ?_
      rcases eq_nil_or_concat pre with rfl | ⟨pre', c, rfl⟩
      · rfl
      · have hitem := item_append_cons pre' c rest
        have hc := hpre c (by simp)
        simp [hitem, hc]
    | succ n ih =>
      intro w rest fuel hn hw hfuel
      rcases eq_nil_or_concat w with rfl | ⟨w', c, rfl⟩
      · exact absurd hn (by simp)
      · rw [concat_eq_append] at hn hw ⊢
        rw [length_append, length_singleton] at hn
        obtain rfl := Nat.succ_inj.mp hn
        cases fuel with
        | zero => omega
        | succ fuel =>
          have hitem := item_append_cons (pre ++ w') c rest
          have hc := hw c (by simp)
          have hnext := ih w' (c :: rest) fuel rfl (fun d hd => hw d (by simp [hd]))
            (Nat.lt_of_succ_lt_succ hfuel)
          have hbody : indexDown (pre.length + (w'.length + 1)) = some (pre.length + w'.length) :=
            rfl
          rw [length_append] at hitem
          simp only [append_assoc, cons_append, nil_append] at hitem ⊢
          refine (loopUntil_of_go ?_ hbody).trans hnext
          rw [if_neg (by omega), ← Nat.add_assoc, hitem, Option.map_some, hc]
  exact hrun w.length w rest _ rfl hw (by simp; omega)

/-- The next part of a string that is not empty, if there is one. -/
theorem exists_part (hnot : ∀ c, differs c = !separates c)
    (hle : pre.length + 1 ≤ (pre ++ rest).length) :
    (scanUp differs (pre ++ rest) (pre.length + 1) = some ((pre ++ rest).length + 1) ∧
        wordsBy separates rest = []) ∨
      ∃ z w rest', rest = z ++ (w ++ rest') ∧ w ≠ [] ∧
        wordsBy separates rest = w :: wordsBy separates rest' ∧
        scanUp differs (pre ++ rest) (pre.length + 1) = some (pre.length + z.length + 1) ∧
        pre.length + z.length + 1 ≤ (pre ++ rest).length ∧
        scanUp separates (pre ++ rest) (pre.length + z.length + 1) =
          some (pre.length + z.length + w.length + 1) ∧
        substring (pre ++ rest) (pre.length + z.length + 1) (pre.length + z.length + w.length) =
          w := by
  obtain ⟨z, after, rfl, hz, hafter⟩ := exists_scanned differs rest
  have hseparators : ∀ c ∈ z, separates c = true := by
    intro c hc
    have hdiffers := hz c hc
    rwa [hnot, Bool.not_eq_false'] at hdiffers
  rw [wordsBy_separators_append hseparators, scanUp_eq pre z after hz hafter]
  cases after with
  | nil =>
    refine Or.inl ⟨?_, rfl⟩
    rw [append_nil, length_append]
  | cons c after =>
    obtain ⟨w, rest, hrest, hw, hstop⟩ := exists_scanned separates (c :: after)
    have hne : w ≠ [] := by
      rintro rfl
      have hc := hstop c (by rw [← nil_append rest, ← hrest]; rfl)
      have hnotc := hafter c rfl
      rw [hnot, hc] at hnotc
      exact absurd hnotc (by decide)
    rw [hrest]
    have hpos := length_pos_iff.mpr hne
    have hscan := scanUp_eq (pre ++ z) w rest hw hstop
    have hsubstring := substring_middle (pre ++ z) w rest
    rw [length_append, append_assoc] at hscan hsubstring
    refine Or.inr ⟨z, w, rest, rfl, hne, wordsBy_append_of_free hne hw hstop, rfl, ?_, hscan,
      hsubstring⟩
    simp only [length_append]
    omega

theorem componentText_component (w : List Char) : componentText (component w) = w := by
  unfold component
  split_ifs with hcurrent hparent
  · exact hcurrent.symm
  · exact hparent.symm
  · rfl

/-- The component of a word of a string. -/
def IsWord (separates : Char → Bool) (c : PathComponent (List Char)) : Prop :=
  ∃ w, w ≠ [] ∧ FreeOf separates w ∧ component w = c

theorem isWord_component (hw : w ∈ wordsBy separates s) : IsWord separates (component w) :=
  ⟨w, (mem_wordsBy hw).1, (mem_wordsBy hw).2, rfl⟩

theorem IsWord.text (h : IsWord separates c) :
    componentText c ≠ [] ∧ FreeOf separates (componentText c) ∧
      component (componentText c) = c := by
  obtain ⟨w, hne, hfree, rfl⟩ := h
  rw [componentText_component]
  exact ⟨hne, hfree, rfl⟩

theorem map_component_componentText (hl : ∀ c ∈ l, IsWord separates c) :
    (l.map componentText).map component = l := by
  rw [map_map]
  exact (map_congr_left fun c hc => (hl c hc).text.2.2).trans (map_id l)

/-- Components with separators between them. -/
def pathText (separator : Char) : List (PathComponent (List Char)) → List Char
  | [] => []
  | [c] => componentText c
  | c :: d :: l => componentText c ++ separator :: pathText separator (d :: l)

theorem pathText_cons (c : PathComponent (List Char)) (hl : l ≠ []) :
    pathText separator (c :: l) = componentText c ++ separator :: pathText separator l := by
  cases l with
  | nil => exact absurd rfl hl
  | cons d l => rfl

theorem wordsBy_pathText (hsep : separates separator = true)
    (hl : ∀ c ∈ l, IsWord separates c) :
    wordsBy separates (pathText separator l) = l.map componentText := by
  induction l with
  | nil => rfl
  | cons c l ih =>
    obtain ⟨hne, hfree, -⟩ := (hl c mem_cons_self).text
    cases l with
    | nil => exact wordsBy_of_free hne hfree
    | cons d l =>
      rw [pathText_cons c (cons_ne_nil _ _), wordsBy_append_separator hsep,
        wordsBy_of_free hne hfree, ih fun c hc => hl c (mem_cons_of_mem _ hc)]
      rfl

/-- A text that starts with a word does not start with a separator. -/
theorem head_append_of_free (hne : w ≠ []) (hw : FreeOf separates w) (b : List Char) :
    ∀ c ∈ (w ++ b).head?, separates c = false := by
  obtain ⟨c, w', rfl⟩ := exists_cons_of_ne_nil hne
  rintro d hd
  obtain rfl := Option.some.inj hd
  exact hw _ mem_cons_self

theorem head_pathText (hl : ∀ c ∈ l, IsWord separates c) :
    ∀ c ∈ (pathText separator l).head?, separates c = false := by
  cases l with
  | nil => exact fun c hc => absurd hc (by simp [pathText])
  | cons c l =>
    obtain ⟨hne, hfree, -⟩ := (hl c mem_cons_self).text
    cases l with
    | nil =>
      have hhead := head_append_of_free hne hfree []
      rwa [append_nil] at hhead
    | cons d l => exact head_append_of_free hne hfree _

/-- What is appended before the last component. -/
def leadingText (separator : Char) (l : List (PathComponent (List Char))) : List Char :=
  l.flatMap fun c => componentText c ++ [separator]

theorem pathText_concat (l : List (PathComponent (List Char))) (c : PathComponent (List Char)) :
    pathText separator (l ++ [c]) = leadingText separator l ++ componentText c := by
  induction l with
  | nil => rfl
  | cons d l ih =>
    rw [cons_append, pathText_cons d (by simp), ih]
    simp [leadingText]

theorem leadingText_concat (l : List (PathComponent (List Char)))
    (c : PathComponent (List Char)) : leadingText separator (l ++ [c]) =
      leadingText separator l ++ componentText c ++ [separator] := by
  simp [leadingText]

theorem itemOf_components {done todo : List (PathComponent (List Char))}
    (h : p.Has (done ++ c :: todo)) :
    Pathname.itemOf p.components (done.length + 1) = some c := by
  obtain ⟨-, rest, hcells⟩ := h
  have hitem := Pathname.itemOf_append (done.map some) c (todo.map some ++ rest)
  rw [length_map] at hitem
  rw [hcells, map_append, append_assoc]
  exact hitem

/-- The state of the loop of `pathname_to_string`. -/
def Writes (separator : Char) (start : List Char) (l : List (PathComponent (List Char)))
    (t : Nat × List Char) : Prop :=
  ∃ done todo, l = done ++ todo ∧ (todo = [] → l = []) ∧
    t = (done.length + 1, start ++ leadingText separator done)

theorem Writes.exists_turn (hhas : p.Has l) (h : Writes separator start l t)
    (hmore : ¬p.count ≤ t.1) : ∃ t', textTurn separator p t = some t' ∧
      p.count - t'.1 < p.count - t.1 ∧ Writes separator start l t' := by
  obtain ⟨done, todo, rfl, hlast, rfl⟩ := h
  have hcount := hhas.count_eq
  dsimp only at hmore
  rw [hcount, length_append] at hmore
  cases todo with
  | nil => simp at hmore
  | cons c todo =>
    rw [length_cons] at hmore
    refine ⟨_, ?_, ?_, done ++ [c], todo, by simp, ?_, rfl⟩
    · rw [textTurn, itemOf_components hhas, leadingText_concat]
      simp
    · rw [hcount, length_append, length_append, length_cons, length_singleton]
      omega
    · rintro rfl
      simp at hmore

/-- The loop puts a separator between the components. -/
theorem appendComponents_eq (h : p.Has l) (start : List Char) :
    appendComponents separator p start = some (start ++ pathText separator l) := by
  have hcount := h.count_eq
  have hstart : Writes separator start l (1, start) :=
    ⟨[], l, rfl, id, congrArg (Prod.mk 1) (append_nil _).symm⟩
  obtain ⟨t, hrun, ⟨done, todo, hl, hlast, rfl⟩, hend⟩ := loopUntil_decide _
    (fun t : Nat × List Char => p.count - t.1) (fun t => Writes.exists_turn h) hstart
    (show p.count - 1 < p.count + 1 by omega)
  unfold appendComponents
  rw [hrun, some_bind]
  dsimp only at hend ⊢
  cases todo with
  | nil =>
    have hempty := hlast rfl
    rw [hempty] at hl hcount
    obtain ⟨rfl, -⟩ := append_eq_nil_iff.mp hl.symm
    rw [if_neg (by rw [hcount]; decide), hempty]
    rfl
  | cons c todo =>
    obtain rfl := hl
    rw [hcount, length_append, length_cons] at hend
    obtain rfl := length_eq_zero_iff.mp (show todo.length = 0 by omega)
    rw [if_pos (by rw [hcount, length_append]; rfl), itemOf_components h,
      Option.bind_eq_bind, Option.bind_some, pathText_concat, append_assoc]

end

end FileSystem

end Gobo
