/-
Resolution of a reference against a base by RFC 3986, section 5.2: the removal of
dot segments with its two buffers, and what is left of the segments of a path.
-/
import Gobo.UriReference
import Mathlib.Data.List.Destutter
import Mathlib.Data.List.DropRight
import Mathlib.Logic.Function.Iterate

namespace Gobo

open List

namespace UriReference

/-- The two buffers of the removal of dot segments. -/
structure Buffers where
  input : List UInt8
  output : List UInt8
deriving DecidableEq

/-- Remove the last segment, with the slash before it if there is one. -/
def removeLast (output : List UInt8) : List UInt8 :=
  (output.rdropWhile fun a => a ≠ slash).dropLast

/-- The first segment, with a slash before it, up to the next slash. -/
def firstSegment : List UInt8 → List UInt8
  | [] => []
  | a :: rest => a :: rest.takeWhile fun b => b ≠ slash

/-- One turn of `remove_dot_segments`. -/
def removeStep (b : Buffers) : Buffers :=
  if [dot, dot, slash] <+: b.input then { b with input := b.input.drop 3 }
  else if [dot, slash] <+: b.input then { b with input := b.input.drop 2 }
  else if [slash, dot, slash] <+: b.input then { b with input := b.input.drop 2 }
  else if b.input = [slash, dot] then { b with input := [slash] }
  else if [slash, dot, dot, slash] <+: b.input then
    ⟨b.input.drop 3, removeLast b.output⟩
  else if b.input = [slash, dot, dot] then ⟨[slash], removeLast b.output⟩
  else if b.input = [dot] ∨ b.input = [dot, dot] then { b with input := [] }
  else
    ⟨b.input.drop (firstSegment b.input).length, b.output ++ firstSegment b.input⟩

/-- `remove_dot_segments`: a turn shortens the input. -/
def removeDotSegments (path : List UInt8) : List UInt8 :=
  (removeStep^[path.length] ⟨path, []⟩).output

/-- `merge`: the path of the base up to its last slash, then that of the reference. -/
def merge (base : Components) (path : List UInt8) : List UInt8 :=
  if base.authority ≠ none ∧ base.path = [] then slash :: path
  else (base.path.rdropWhile fun a => a ≠ slash) ++ path

/-- The components of the target.  `clean` is what is made of a path of the
reference, and `cleanMerged` of a merged one. -/
def transform (clean cleanMerged : List UInt8 → List UInt8) (base c : Components) : Components :=
  if c.scheme ≠ none then { c with path := clean c.path }
  else if c.authority ≠ none then { c with scheme := base.scheme, path := clean c.path }
  else
    { scheme := base.scheme
      authority := base.authority
      path :=
        if c.path = [] then base.path
        else if c.path.head? = some slash then clean c.path
        else cleanMerged (merge base c.path)
      query := if c.path = [] ∧ c.query = none then base.query else c.query
      fragment := c.fragment }

/-- The components of the target as they are in the RFC. -/
def target : Components → Components → Components :=
  transform removeDotSegments removeDotSegments

/-- Not two slashes. -/
def MayFollow (a b : UInt8) : Prop := a ≠ slash ∨ b ≠ slash

instance : DecidableRel MayFollow :=
  fun _ _ => inferInstanceAs (Decidable (_ ∨ _))

/-- With a slash in front, and no slash after a slash. -/
def singleSlashed (path : List UInt8) : List UInt8 := path.destutter' MayFollow slash

/-- Another segment for those that are left: a dot segment is not one of them. -/
def pushSegment (left : List (List UInt8)) (segment : List UInt8) : List (List UInt8) :=
  if segment = [dot] then left
  else if segment = [dot, dot] then left.dropLast
  else left ++ [segment]

def IsDotSegment (segment : List UInt8) : Prop :=
  segment = [dot] ∨ segment = [dot, dot]

instance (segment : List UInt8) : Decidable (IsDotSegment segment) :=
  inferInstanceAs (Decidable (_ ∨ _))

/-- The segments, each with a slash before it. -/
def rooted (segments : List (List UInt8)) : List UInt8 :=
  segments.flatMap fun segment => slash :: segment

/-- The output holds the segments that are left; the first slash may be missing. -/
def Holds (output : List UInt8) (left : List (List UInt8)) : Prop :=
  output = rooted left ∨ slash :: output = rooted left

/-- The removal ends with an output, in no more turns than the input is long. -/
def Reduces (b : Buffers) (output : List UInt8) : Prop :=
  ∃ n ≤ b.input.length, removeStep^[n] b = ⟨[], output⟩

/-- The last segment of a path that a dot segment may end. -/
def lastLeft (last : List UInt8) : List UInt8 :=
  if IsDotSegment last then [] else last

/-- The segments that the removal handles before the last one that it leaves. -/
def withDotSegment (items : List (List UInt8)) (last : List UInt8) : List (List UInt8) :=
  if IsDotSegment last then items ++ [last] else items

section

variable {segment last rest output : List UInt8} {items left : List (List UInt8)}
  {b b' : Buffers}

theorem takeWhile_segment (hsegment : slash ∉ segment) (rest : List UInt8) :
    (segment ++ slash :: rest).takeWhile (fun a => a ≠ slash) = segment := by
  have hall : ∀ a ∈ segment, decide (a ≠ slash) = true := by
    intro a ha
    exact decide_eq_true fun h => hsegment (h ▸ ha)
  rw [takeWhile_append_of_pos hall, takeWhile_cons_of_neg (by simp), append_nil]

/-- What is before the first slash is the first segment. -/
theorem prefix_segment_iff {found : List UInt8} (hfound : slash ∉ found)
    (hsegment : slash ∉ segment) :
    found ++ [slash] <+: segment ++ slash :: rest ↔ found = segment := by
  constructor
  · rintro ⟨after, heq⟩
    rw [append_assoc, singleton_append] at heq
    rw [← takeWhile_segment hfound after, heq, takeWhile_segment hsegment]
  · rintro rfl
    rw [append_cons found slash rest]
    exact prefix_append _ _

theorem rooted_append (left : List (List UInt8)) (last : List UInt8) :
    rooted left ++ slash :: last = slash :: (joined left ++ last) := by
  induction left with
  | nil => rfl
  | cons segment left ih =>
      rw [rooted, flatMap_cons, ← rooted, append_assoc, ih, joined_cons, append_assoc]
      rfl

theorem rooted_concat (left : List (List UInt8)) (segment : List UInt8) :
    rooted (left ++ [segment]) = rooted left ++ slash :: segment := by
  rw [rooted, flatMap_append, flatMap_singleton]
  rfl

theorem removeLast_append (hsegment : slash ∉ segment) (output : List UInt8) :
    removeLast (output ++ slash :: segment) = output := by
  have hall : ∀ a ∈ segment.reverse, decide (a ≠ slash) = true := by
    intro a ha
    exact decide_eq_true fun h => hsegment (h ▸ mem_reverse.mp ha)
  rw [removeLast, rdropWhile, reverse_append, reverse_cons, append_assoc,
    dropWhile_append_of_pos hall, singleton_append,
    dropWhile_cons_of_neg (by simp), reverse_cons, reverse_reverse,
    dropLast_concat]

theorem removeLast_segment (hsegment : slash ∉ segment) : removeLast segment = [] := by
  have hall : ∀ a ∈ segment, decide (a ≠ slash) = true := by
    intro a ha
    exact decide_eq_true fun h => hsegment (h ▸ ha)
  rw [removeLast, rdropWhile_eq_nil_iff.mpr hall]
  rfl

/-- One segment less leaves the output without it. -/
theorem Holds.removeLast (hleft : ∀ s ∈ left, slash ∉ s) (h : Holds output left) :
    Holds (removeLast output) left.dropLast := by
  rcases eq_nil_or_concat left with rfl | ⟨before, segment, rfl⟩
  · rcases h with rfl | h
    · exact Or.inl rfl
    · exact absurd h (cons_ne_nil _ _)
  · rw [concat_eq_append] at h hleft ⊢
    have hsegment : slash ∉ segment := hleft segment (mem_append_right _ mem_cons_self)
    unfold Holds at h ⊢
    rw [rooted_concat] at h
    rw [dropLast_concat]
    rcases h with rfl | h
    · exact Or.inl (removeLast_append hsegment _)
    · cases before with
      | nil =>
          have houtput : output = segment := (cons.inj h).2
          exact Or.inl (houtput ▸ removeLast_segment hsegment)
      | cons first before =>
          have houtput : output = first ++ rooted before ++ slash :: segment :=
            (cons.inj h).2
          rw [houtput, removeLast_append hsegment]
          exact Or.inr rfl

theorem Holds.append (h : Holds output left) (segment : List UInt8) :
    Holds (output ++ slash :: segment) (left ++ [segment]) := by
  unfold Holds at h ⊢
  rw [rooted_concat]
  rcases h with rfl | h
  · exact Or.inl rfl
  · exact Or.inr (congrArg (· ++ slash :: segment) h)

/-- One turn, at a slash, for the segment that another slash is after. -/
theorem Holds.step (h : Holds output left) (hleft : ∀ s ∈ left, slash ∉ s)
    (hsegment : slash ∉ segment) (rest : List UInt8) : ∃ output',
      removeStep ⟨slash :: (segment ++ slash :: rest), output⟩ = ⟨slash :: rest, output'⟩ ∧
      Holds output' (pushSegment left segment) := by
  unfold pushSegment
  by_cases hdot : segment = [dot]
  · rw [hdot, if_pos rfl]
    exact ⟨output, rfl, h⟩
  · rw [if_neg hdot]
    by_cases hdotDot : segment = [dot, dot]
    · rw [hdotDot, if_pos rfl]
      exact ⟨UriReference.removeLast output, rfl, h.removeLast hleft⟩
    · rw [if_neg hdotDot]
      refine ⟨output ++ slash :: segment, ?_, h.append segment⟩
      have hfirst : firstSegment (slash :: (segment ++ slash :: rest)) = slash :: segment :=
        congrArg (cons slash) (takeWhile_segment hsegment rest)
      have hslash : ∀ text : List UInt8, slash ∉ text → segment ++ slash :: rest ≠ text := by
        rintro text htext rfl
        exact htext (mem_append_right _ mem_cons_self)
      have hpast : ∀ found : List UInt8, slash ∉ found → segment ≠ found →
          ¬slash :: (found ++ [slash]) <+: slash :: (segment ++ slash :: rest) := by
        intro found hfound hne hbegins
        have htail := (cons_prefix_cons.mp hbegins).2
        exact hne ((prefix_segment_iff hfound hsegment).mp htail).symm
      have hnot : ∀ found : List UInt8, slash ∉ found →
          slash :: (segment ++ slash :: rest) ≠ slash :: found := by
        intro found hfound heq
        exact hslash found hfound (cons.inj heq).2
      have hpastDot : ¬[slash, dot, slash] <+: slash :: (segment ++ slash :: rest) :=
        hpast [dot] (by decide) hdot
      have hpastDots : ¬[slash, dot, dot, slash] <+: slash :: (segment ++ slash :: rest) :=
        hpast [dot, dot] (by decide) hdotDot
      unfold removeStep
      rw [if_neg (by simp [dot, slash]), if_neg (by simp [dot, slash]), if_neg hpastDot,
        if_neg (hnot [dot] (by decide)), if_neg hpastDots, if_neg (hnot [dot, dot] (by decide)),
        if_neg (by simp [dot, slash]), hfirst]
      rw [length_cons, drop_succ_cons, drop_left]

/-- The last segment is put out. -/
theorem removeStep_last (hlast : slash ∉ last) (hdots : ¬IsDotSegment last)
    (output : List UInt8) :
    removeStep ⟨slash :: last, output⟩ = ⟨[], output ++ slash :: last⟩ := by
  have hall : ∀ a ∈ last, decide (a ≠ slash) = true := by
    intro a ha
    exact decide_eq_true fun h => hlast (h ▸ ha)
  have hfirst : firstSegment (slash :: last) = slash :: last :=
    congrArg (cons slash) (takeWhile_eq_self_iff.mpr hall)
  have hpast : ∀ found : List UInt8, ¬slash :: (found ++ [slash]) <+: slash :: last := by
    intro found hbegins
    have hmem := (cons_prefix_cons.mp hbegins).2.subset
      (mem_append_right found mem_cons_self)
    exact hlast hmem
  have hnot : ∀ found : List UInt8, last ≠ found → slash :: last ≠ slash :: found :=
    fun found hne heq => hne (cons.inj heq).2
  have hpastDot : ¬[slash, dot, slash] <+: slash :: last := hpast [dot]
  have hpastDots : ¬[slash, dot, dot, slash] <+: slash :: last := hpast [dot, dot]
  have hdot : last ≠ [dot] := fun h => hdots (Or.inl h)
  have hdotDot : last ≠ [dot, dot] := fun h => hdots (Or.inr h)
  unfold removeStep
  rw [if_neg (by simp [dot, slash]), if_neg (by simp [dot, slash]), if_neg hpastDot,
    if_neg (hnot [dot] hdot), if_neg hpastDots, if_neg (hnot [dot, dot] hdotDot),
    if_neg (by simp [dot, slash]), hfirst]
  rw [drop_length]

theorem Reduces.refl (output : List UInt8) : Reduces ⟨[], output⟩ output :=
  ⟨0, Nat.le_refl 0, rfl⟩

theorem Reduces.step (hturn : removeStep b = b') (hlt : b'.input.length < b.input.length)
    (h : Reduces b' output) : Reduces b output := by
  obtain ⟨n, hn, hrun⟩ := h
  refine ⟨n + 1, Nat.lt_of_le_of_lt hn hlt, ?_⟩
  rw [Function.iterate_succ_apply, hturn, hrun]

/-- Turns that are left over do nothing. -/
theorem Reduces.removeDotSegments_eq {path : List UInt8} (h : Reduces ⟨path, []⟩ output) :
    removeDotSegments path = output := by
  obtain ⟨n, hn, hrun⟩ := h
  have hfixed : removeStep ⟨[], output⟩ = ⟨[], output⟩ := by
    change Buffers.mk [] (output ++ []) = _
    rw [append_nil]
  obtain ⟨m, hm⟩ := Nat.exists_eq_add_of_le' hn
  rw [removeDotSegments, show path.length = m + n from hm, Function.iterate_add_apply, hrun,
    Function.iterate_fixed hfixed]

theorem pushSegment_free (hleft : ∀ s ∈ left, slash ∉ s) (hsegment : slash ∉ segment) :
    ∀ s ∈ pushSegment left segment, slash ∉ s := by
  intro s hs
  unfold pushSegment at hs
  split_ifs at hs
  · exact hleft s hs
  · exact hleft s (dropLast_subset left hs)
  · rcases mem_append.mp hs with hmem | hmem
    · exact hleft s hmem
    · exact mem_singleton.mp hmem ▸ hsegment

/-- The removal from a slash on. -/
theorem Holds.reduces (h : Holds output left) (hleft : ∀ s ∈ left, slash ∉ s)
    (hitems : ∀ s ∈ items, slash ∉ s) (hlast : slash ∉ last) : ∃ output',
      Reduces ⟨slash :: (joined items ++ last), output⟩ (output' ++ slash :: lastLeft last) ∧
      Holds output' ((withDotSegment items last).foldl pushSegment left) := by
  induction items generalizing output left with
  | nil =>
      unfold lastLeft withDotSegment
      by_cases hdots : IsDotSegment last
      · rw [if_pos hdots, if_pos hdots]
        have hend : ∀ out, removeStep ⟨[slash], out⟩ = ⟨[], out ++ [slash]⟩ := fun out => rfl
        rcases hdots with rfl | rfl
        · have hturn : removeStep ⟨slash :: (joined [] ++ [dot]), output⟩ = ⟨[slash], output⟩ :=
            rfl
          exact ⟨output, .step hturn (Nat.lt_succ_self 1)
            (.step (hend _) Nat.zero_lt_one (.refl _)), h⟩
        · have hturn : removeStep ⟨slash :: (joined [] ++ [dot, dot]), output⟩ =
            ⟨[slash], UriReference.removeLast output⟩ := rfl
          exact ⟨UriReference.removeLast output, .step hturn (by decide : 1 < 3)
            (.step (hend _) Nat.zero_lt_one (.refl _)), h.removeLast hleft⟩
      · rw [if_neg hdots, if_neg hdots]
        exact ⟨output, .step (removeStep_last hlast hdots output) (Nat.zero_lt_succ _) (.refl _), h⟩
  | cons segment items ih =>
      have hsegment : slash ∉ segment := hitems segment mem_cons_self
      obtain ⟨output', hturn, hholds⟩ := h.step hleft hsegment (joined items ++ last)
      obtain ⟨output'', hreduces, hend⟩ := ih hholds (pushSegment_free hleft hsegment)
        fun s hs => hitems s (mem_cons_of_mem segment hs)
      refine ⟨output'', ?_, ?_⟩
      · rw [joined_cons, append_assoc]
        refine .step hturn ?_ hreduces
        simp only [length_cons, length_append]
        omega
      · unfold withDotSegment at hend ⊢
        split_ifs at hend ⊢ <;> exact hend

/-- What a path without a slash in front begins with. -/
theorem removeStep_relative (hsegment : slash ∉ segment) (hne : segment ≠ [])
    (hdots : ¬IsDotSegment segment) (hrest : rest = [] ∨ rest.head? = some slash) :
    removeStep ⟨segment ++ rest, []⟩ = ⟨rest, segment⟩ := by
  obtain ⟨a, others, rfl⟩ := exists_cons_of_ne_nil hne
  have ha : a ≠ slash := fun h => hsegment (h ▸ mem_cons_self)
  have hothers : slash ∉ others := fun h => hsegment (mem_cons_of_mem a h)
  have hall : ∀ b ∈ others, decide (b ≠ slash) = true := by
    intro b hb
    exact decide_eq_true fun h => hothers (h ▸ hb)
  have hfirst : firstSegment (a :: others ++ rest) = a :: others := by
    refine congrArg (cons a) ?_
    change (others ++ rest).takeWhile _ = others
    rcases hrest with rfl | hhead
    · rw [append_nil]
      exact takeWhile_eq_self_iff.mpr hall
    · obtain ⟨tail, rfl⟩ := head?_eq_some_iff.mp hhead
      exact takeWhile_segment hothers tail
  have hpast : ∀ found : List UInt8, slash ∉ found → a :: others ≠ found →
      ¬found ++ [slash] <+: a :: others ++ rest := by
    intro found hfound hfoundNe hbegins
    rcases hrest with rfl | hhead
    · rw [append_nil] at hbegins
      exact hsegment (hbegins.subset (mem_append_right found mem_cons_self))
    · obtain ⟨tail, rfl⟩ := head?_eq_some_iff.mp hhead
      exact hfoundNe ((prefix_segment_iff hfound hsegment).mp hbegins).symm
  have hslash : ∀ found : List UInt8, ¬slash :: found <+: a :: others ++ rest := by
    intro found hbegins
    exact ha (cons_prefix_cons.mp hbegins).1.symm
  have hnot : ∀ found : List UInt8, a :: others ++ rest ≠ slash :: found :=
    fun found heq => ha (cons.inj heq).1
  have hwhole : ∀ found : List UInt8, slash ∉ found → a :: others ≠ found →
      a :: others ++ rest ≠ found := by
    intro found hfound hfoundNe heq
    rcases hrest with rfl | hhead
    · exact hfoundNe ((append_nil _).symm.trans heq)
    · exact hfound (heq ▸ mem_append_right _ (mem_of_mem_head? hhead))
  have hdot : a :: others ≠ [dot] := fun h => hdots (Or.inl h)
  have hdotDot : a :: others ≠ [dot, dot] := fun h => hdots (Or.inr h)
  have hpastDots : ¬[dot, dot, slash] <+: a :: others ++ rest :=
    hpast [dot, dot] (by decide) hdotDot
  have hpastDot : ¬[dot, slash] <+: a :: others ++ rest := hpast [dot] (by decide) hdot
  unfold removeStep
  rw [if_neg hpastDots, if_neg hpastDot, if_neg (hslash _), if_neg (hnot _), if_neg (hslash _),
    if_neg (hnot _),
    if_neg (not_or.mpr ⟨hwhole _ (by decide) hdot, hwhole _ (by decide) hdotDot⟩), hfirst]
  rw [drop_left, nil_append]

/-- The removal of a path without a slash in front: nothing may be left before its
last segment. -/
theorem reduces_relative (hitems : ∀ s ∈ items, slash ∉ s) (hlast : slash ∉ last) :
    (∃ output', Reduces ⟨joined items ++ last, []⟩ (output' ++ slash :: lastLeft last) ∧
      Holds output' ((withDotSegment items last).foldl pushSegment [])) ∨
    (withDotSegment items last).foldl pushSegment [] = [] ∧
      Reduces ⟨joined items ++ last, []⟩ (lastLeft last) := by
  induction items with
  | nil =>
      refine Or.inr ?_
      unfold lastLeft withDotSegment
      by_cases hdots : IsDotSegment last
      · rw [if_pos hdots, if_pos hdots]
        rcases hdots with rfl | rfl
        · have hdrop : removeStep ⟨joined [] ++ [dot], []⟩ = ⟨[], []⟩ := rfl
          exact ⟨rfl, .step hdrop (Nat.zero_lt_succ _) (.refl _)⟩
        · have hdrop : removeStep ⟨joined [] ++ [dot, dot], []⟩ = ⟨[], []⟩ := rfl
          exact ⟨rfl, .step hdrop (Nat.zero_lt_succ _) (.refl _)⟩
      · rw [if_neg hdots, if_neg hdots]
        refine ⟨rfl, ?_⟩
        by_cases hnil : last = []
        · rw [hnil]
          exact .refl _
        · have hturn := removeStep_relative hlast hnil hdots (Or.inl rfl)
          rw [append_nil] at hturn
          exact .step hturn (length_pos_iff.mpr hnil) (.refl _)
  | cons segment items ih =>
      have hsegment : slash ∉ segment := hitems segment mem_cons_self
      have hrest : ∀ s ∈ items, slash ∉ s := fun s hs => hitems s (mem_cons_of_mem segment hs)
      have hwith : (withDotSegment (segment :: items) last).foldl pushSegment [] =
          (withDotSegment items last).foldl pushSegment (pushSegment [] segment) := by
        unfold withDotSegment
        split_ifs <;> rfl
      have hshorter : (joined items ++ last).length <
          (joined (segment :: items) ++ last).length := by
        rw [joined_cons]
        simp only [length_append, length_cons]
        omega
      by_cases hdots : IsDotSegment segment
      · -- the segment and its slash are dropped
        have hpush : pushSegment [] segment = [] := by
          rcases hdots with rfl | rfl <;> rfl
        have hturn : removeStep ⟨joined (segment :: items) ++ last, []⟩ =
            ⟨joined items ++ last, []⟩ := by
          rcases hdots with rfl | rfl <;> rfl
        rw [hwith, hpush]
        rcases ih hrest with ⟨output', hreduces, hholds⟩ | ⟨hnil, hreduces⟩
        · exact Or.inl ⟨output', .step hturn hshorter hreduces, hholds⟩
        · exact Or.inr ⟨hnil, .step hturn hshorter hreduces⟩
      · have hpush : pushSegment [] segment = [segment] := by
          unfold pushSegment
          rw [if_neg fun h => hdots (Or.inl h), if_neg fun h => hdots (Or.inr h), nil_append]
        rw [hwith, hpush]
        have hholds : Holds segment [segment] := by
          refine Or.inr ?_
          rw [rooted, flatMap_singleton]
        have hfree : ∀ s ∈ [segment], slash ∉ s := by
          intro s hs
          exact mem_singleton.mp hs ▸ hsegment
        obtain ⟨output', hreduces, hend⟩ := hholds.reduces hfree hrest hlast
        refine Or.inl ⟨output', ?_, hend⟩
        rw [joined_cons, append_assoc]
        by_cases hnil : segment = []
        · rw [hnil] at hreduces ⊢
          exact hreduces
        · refine .step (removeStep_relative hsegment hnil hdots (Or.inr rfl)) ?_ hreduces
          have hpos := length_pos_iff.mpr hnil
          have hlength : (segment ++ (slash :: joined items ++ last)).length =
              segment.length + (slash :: joined items ++ last).length := length_append
          exact Nat.lt_of_lt_of_eq (Nat.lt_add_of_pos_left hpos) hlength.symm

/-- A segment is kept, and the slash after it. -/
theorem singleSlashed_segment {a : UInt8} (hsegment : slash ∉ segment)
    (ha : a ≠ slash ∨ segment ≠ []) (rest : List UInt8) :
    (segment ++ slash :: rest).destutter' MayFollow a =
      a :: (segment ++ singleSlashed rest) := by
  induction segment generalizing a with
  | nil =>
      have hkept : MayFollow a slash := Or.inl (ha.resolve_right fun h => h rfl)
      rw [nil_append, destutter'_cons_pos rest hkept]
      rfl
  | cons b segment ih =>
      have hb : b ≠ slash := fun h => hsegment (h ▸ mem_cons_self)
      have hkept : MayFollow a b := Or.inr hb
      rw [cons_append, destutter'_cons_pos _ hkept,
        ih (fun h => hsegment (mem_cons_of_mem b h)) (Or.inl hb)]
      rfl

theorem singleSlashed_last (hlast : slash ∉ last) : singleSlashed last = slash :: last := by
  unfold singleSlashed
  refine destutter'_of_isChain_cons last MayFollow ?_
  refine isChain_iff_getElem.mpr fun i hi => Or.inr ?_
  rw [getElem_cons_succ]
  exact fun h => hlast (h ▸ getElem_mem _)

/-- Empty segments are left out. -/
theorem singleSlashed_joined (hitems : ∀ s ∈ items, slash ∉ s) (hlast : slash ∉ last) :
    singleSlashed (joined items ++ last) =
      slash :: (joined (items.filter fun s => s ≠ []) ++ last) := by
  induction items with
  | nil => exact singleSlashed_last hlast
  | cons segment items ih =>
      have hrest := ih fun s hs => hitems s (mem_cons_of_mem segment hs)
      rw [joined_cons, append_assoc]
      by_cases hnil : segment = []
      · rw [hnil, filter_cons_of_neg (by simp), ← hrest]
        exact destutter'_cons_neg _ (by decide : ¬MayFollow slash slash)
      · rw [filter_cons_of_pos (by simpa using hnil), joined_cons, append_assoc]
        have hsegment := singleSlashed_segment (hitems segment mem_cons_self)
          (Or.inr hnil) (joined items ++ last) (a := slash)
        rw [hrest] at hsegment
        exact hsegment

theorem lastLeft_free (hlast : slash ∉ last) : slash ∉ lastLeft last := by
  unfold lastLeft
  split_ifs
  · exact not_mem_nil
  · exact hlast

theorem foldl_pushSegment_free (hleft : ∀ s ∈ left, slash ∉ s) (hitems : ∀ s ∈ items, slash ∉ s) :
    ∀ s ∈ items.foldl pushSegment left, slash ∉ s := by
  induction items generalizing left with
  | nil => exact hleft
  | cons segment items ih =>
      exact ih (pushSegment_free hleft (hitems segment mem_cons_self))
        fun s hs => hitems s (mem_cons_of_mem segment hs)

theorem withDotSegment_free (hitems : ∀ s ∈ items, slash ∉ s) (hlast : slash ∉ last) :
    ∀ s ∈ withDotSegment items last, slash ∉ s := by
  intro s hs
  unfold withDotSegment at hs
  split_ifs at hs
  · rcases mem_append.mp hs with hmem | hmem
    · exact hitems s hmem
    · exact mem_singleton.mp hmem ▸ hlast
  · exact hitems s hs

/-- The segments of an output, the first slash of which may be missing. -/
theorem Holds.singleSlashed_eq (h : Holds output left) (hleft : ∀ s ∈ left, slash ∉ s)
    (hlast : slash ∉ last) : singleSlashed (output ++ slash :: last) =
      slash :: (joined (left.filter fun s => s ≠ []) ++ last) := by
  rcases h with rfl | h
  · have hfirst : ∀ s ∈ [] :: left, slash ∉ s := by
      intro s hs
      rcases mem_cons.mp hs with rfl | hmem
      · exact not_mem_nil
      · exact hleft s hmem
    have hall := singleSlashed_joined hfirst hlast
    rw [filter_cons_of_neg (by simp)] at hall
    rw [rooted_append]
    exact hall
  · have htext : output ++ slash :: last = joined left ++ last := by
      have hcons : slash :: (output ++ slash :: last) = slash :: (joined left ++ last) := by
        rw [← cons_append, h, rooted_append]
      exact (cons.inj hcons).2
    rw [htext]
    exact singleSlashed_joined hleft hlast

/-- What is left of a path with a slash in front. -/
theorem singleSlashed_rooted (hitems : ∀ s ∈ items, slash ∉ s) (hlast : slash ∉ last) :
    singleSlashed (removeDotSegments (slash :: (joined items ++ last))) =
      slash :: (joined (((withDotSegment items last).foldl pushSegment []).filter
        fun s => s ≠ []) ++ lastLeft last) := by
  have hfree : ∀ s ∈ (withDotSegment items last).foldl pushSegment [], slash ∉ s :=
    foldl_pushSegment_free nofun (withDotSegment_free hitems hlast)
  have hholds : Holds [] [] := Or.inl rfl
  obtain ⟨output', hreduces, hend⟩ := hholds.reduces nofun hitems hlast
  rw [hreduces.removeDotSegments_eq]
  exact hend.singleSlashed_eq hfree (lastLeft_free hlast)

/-- What is left of a path without a slash in front. -/
theorem singleSlashed_relative (hitems : ∀ s ∈ items, slash ∉ s) (hlast : slash ∉ last) :
    singleSlashed (removeDotSegments (joined items ++ last)) =
      slash :: (joined (((withDotSegment items last).foldl pushSegment []).filter
        fun s => s ≠ []) ++ lastLeft last) := by
  have hfree : ∀ s ∈ (withDotSegment items last).foldl pushSegment [], slash ∉ s :=
    foldl_pushSegment_free nofun (withDotSegment_free hitems hlast)
  rcases reduces_relative hitems hlast with ⟨output', hreduces, hend⟩ | ⟨hnil, hreduces⟩
  · rw [hreduces.removeDotSegments_eq]
    exact hend.singleSlashed_eq hfree (lastLeft_free hlast)
  · rw [hreduces.removeDotSegments_eq, hnil]
    exact singleSlashed_last (lastLeft_free hlast)

theorem rdropWhile_of_isOpen {path : List UInt8} (hopen : IsOpen path) (hlast : slash ∉ last) :
    (path ++ last).rdropWhile (fun a => a ≠ slash) = path := by
  have hall : ∀ a ∈ last, decide (a ≠ slash) = true := by
    intro a ha
    exact decide_eq_true fun h => hlast (h ▸ ha)
  rcases hopen with rfl | hslash
  · rw [nil_append]
    exact rdropWhile_eq_nil_iff.mpr hall
  · obtain ⟨before, rfl⟩ := getLast?_eq_some_iff.mp hslash
    have hall' : ∀ a ∈ last.reverse, decide (a ≠ slash) = true :=
      fun a ha => hall a (mem_reverse.mp ha)
    rw [rdropWhile, reverse_append, dropWhile_append_of_pos hall',
      reverse_append, reverse_singleton, singleton_append,
      dropWhile_cons_of_neg (by simp), reverse_cons, reverse_reverse]

/-- Segments none of which is a dot segment are left. -/
theorem foldl_pushSegment_eq (hitems : ∀ s ∈ items, ¬IsDotSegment s) :
    items.foldl pushSegment left = left ++ items := by
  induction items generalizing left with
  | nil => exact (append_nil left).symm
  | cons segment items ih =>
      have hsegment : ¬IsDotSegment segment := hitems segment mem_cons_self
      have hpush : pushSegment left segment = left ++ [segment] := by
        unfold pushSegment
        rw [if_neg fun h => hsegment (Or.inl h), if_neg fun h => hsegment (Or.inr h)]
      rw [foldl_cons, hpush, ih fun s hs => hitems s (mem_cons_of_mem segment hs),
        ← append_cons]

/-- A merged path, when the base has no dot segments before its last segment. -/
theorem singleSlashed_merge {base : Components} {root before : List UInt8}
    {items' : List (List UInt8)} (hroot : root = [slash] ∨ root = [])
    (hpath : base.path = root ++ (joined items ++ before)) (hitems : ∀ s ∈ items, slash ∉ s)
    (hbefore : slash ∉ before) (hdots : ∀ s ∈ items, ¬IsDotSegment s)
    (hitems' : ∀ s ∈ items', slash ∉ s) (hlast : slash ∉ last) :
    singleSlashed (removeDotSegments (merge base (joined items' ++ last))) =
      slash :: (joined (((withDotSegment items' last).foldl pushSegment items).filter
        fun s => s ≠ []) ++ lastLeft last) := by
  have hfree : ∀ s ∈ items ++ items', slash ∉ s := by
    intro s hs
    exact (mem_append.mp hs).elim (hitems s) (hitems' s)
  have hfold : (withDotSegment (items ++ items') last).foldl pushSegment [] =
      (withDotSegment items' last).foldl pushSegment items := by
    have hwith : withDotSegment (items ++ items') last = items ++ withDotSegment items' last := by
      unfold withDotSegment
      split_ifs
      · exact append_assoc items items' [last]
      · rfl
    rw [hwith, foldl_append, foldl_pushSegment_eq hdots, nil_append]
  have htext : joined items ++ (joined items' ++ last) = joined (items ++ items') ++ last := by
    rw [joined_append, append_assoc]
  unfold merge
  split_ifs with hempty
  · have hnil : joined items = [] :=
      (append_eq_nil_iff.mp (append_eq_nil_iff.mp (hpath.symm.trans hempty.2)).2).1
    have htext' : joined items' ++ last = joined (items ++ items') ++ last := by
      rw [← htext, hnil, nil_append]
    rw [htext', singleSlashed_rooted hfree hlast, hfold]
  · have hopen : IsOpen (root ++ joined items) := by
      rcases hroot with rfl | rfl
      · have h : IsOpen (joined ([] :: items) ++ []) :=
          (isOpen_joined_iff not_mem_nil).mpr rfl
        rw [append_nil] at h
        exact h
      · have h : IsOpen (joined items ++ []) := (isOpen_joined_iff not_mem_nil).mpr rfl
        rw [append_nil] at h
        exact h
    have hbase : base.path = root ++ joined items ++ before :=
      hpath.trans (append_assoc _ _ _).symm
    rw [hbase, rdropWhile_of_isOpen hopen hbefore, append_assoc, htext]
    rcases hroot with rfl | rfl
    · rw [singleton_append, singleSlashed_rooted hfree hlast, hfold]
    · rw [nil_append, singleSlashed_relative hfree hlast, hfold]

end

end UriReference

end Gobo
