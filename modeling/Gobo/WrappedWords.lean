/-
The words of a wrapped text: which of them are in several pieces, and when a word is broken that
would have fitted on a line.
-/
import Gobo.WordWrapper

namespace Gobo

open List Text

namespace WordWrapper

/-- The words on the lines, with the widths of these. -/
def pathWords (path : List (ℕ × List Char × List Char)) : List (ℕ × List Char) :=
  (path.map fun x => (wordsBy isSpace x.2.2).map (x.1, ·)).flatten

/-- The word is longer than the lines are wide at whose ends it is broken. -/
def Overlong (word : List (ℕ × List Char)) : Prop :=
  ∀ piece ∈ word.dropLast, piece.1 < (joined word).length

/-- What is left of a text starts with a space that hides the word behind it: this is as long as
the line is wide, and no longer, or the line is as wide as the space. -/
def Hides (width : ℕ) (rest : List Char) : Prop :=
  ∃ word more, rest = ' ' :: (word ++ more) ∧ word.length = width ∧ ' ' ∉ word ∧
    (width = 1 ∨ ∀ c ∈ more.head?, c = ' ')

/-- A text whose white space is spaces. -/
def Plain (s : List Char) : Prop := ∀ c ∈ s, isSpace c = true → c = ' '

section

variable {rest line rest' word more u : List Char} {c d : Char} {width k b next : ℕ}
  {path : List (ℕ × List Char × List Char)} {words words' : List (List (ℕ × List Char))}

theorem isSpace_space : isSpace ' ' = true := rfl

theorem Plain.free (h : Plain rest) (hword : ' ' ∉ word) (hsub : word ⊆ rest) :
    FreeOf isSpace word := by
  intro c hc
  refine Bool.eq_false_iff.mpr fun hspace => hword ?_
  exact h c (hsub hc) hspace ▸ hc

theorem Plain.subset (h : Plain rest) (hsub : word ⊆ rest) : Plain word :=
  fun c hc => h c (hsub hc)

/-- The first word of what is left, with and without characters in front of it. -/
theorem exists_firstWord (hu : FreeOf isSpace u) (hd : isSpace d = false) (more : List Char) :
    ∃ v b, d :: more = v ++ b ∧ v ≠ [] ∧ (∀ c ∈ b.head?, isSpace c = true) ∧
      FreeOf isSpace v ∧ wordsBy isSpace (d :: more) = v :: wordsBy isSpace b ∧
      wordsBy isSpace (u ++ d :: more) = (u ++ v) :: wordsBy isSpace b := by
  obtain ⟨v, b, heq, hne, hfree, hb, hwords⟩ := exists_wordsBy_cons hd more
  refine ⟨v, b, heq, hne, hb, hfree, hwords, ?_⟩
  rw [heq, ← append_assoc]
  refine wordsBy_append_of_free (by simp [hne]) (fun c hc => ?_) hb
  rcases mem_append.mp hc with hc | hc
  · exact hu c hc
  · exact hfree c hc

/-- A word with one more piece in front of it. -/
theorem overlong_cons {word : List (ℕ × List Char)} (hne : word ≠ []) (hword : Overlong word) :
    Overlong ((width, u) :: word) ↔ width < u.length + (joined word).length := by
  have hjoined : (joined ((width, u) :: word)).length = u.length + (joined word).length :=
    length_append
  unfold Overlong at hword ⊢
  rw [hjoined, dropLast_cons_of_ne_nil hne]
  constructor
  · exact fun h => h _ mem_cons_self
  · intro hlt piece hpiece
    rcases mem_cons.mp hpiece with rfl | hpiece
    · exact hlt
    · exact Nat.lt_of_lt_of_le (hword piece hpiece) (Nat.le_add_left _ _)

theorem overlong_singleton (piece : ℕ × List Char) : Overlong [piece] :=
  fun _ hpiece => absurd hpiece not_mem_nil

section

variable (width : ℕ) (ws : List (List Char))

/-- Words that are each in one piece. -/
def singles : List (List (ℕ × List Char)) := ws.map fun u => [(width, u)]

theorem map_joined_singles : (singles width ws).map joined = ws := by
  rw [singles, map_map]
  exact (map_congr_left fun u _ => append_nil u).trans (map_id ws)

theorem flatten_singles : (singles width ws).flatten = ws.map (width, ·) := by
  induction ws with
  | nil => rfl
  | cons u ws ih => exact congrArg ((width, u) :: ·) ih

theorem sum_singles :
    ((singles width ws).map fun word => word.length - 1).sum = 0 := by
  induction ws with
  | nil => rfl
  | cons u ws ih => exact (Nat.zero_add _).trans ih

end

theorem mem_singles {word : List (ℕ × List Char)} {ws : List (List Char)}
    (h : word ∈ singles width ws) : word ≠ [] ∧ Overlong word := by
  obtain ⟨u, -, rfl⟩ := mem_map.mp h
  exact ⟨cons_ne_nil _ _, overlong_singleton _⟩

/-- Whether a line that has no space behind its first character hides a word. -/
theorem hides_iff (hlength : word.length = width) (hword : ' ' ∉ word) :
    Hides width (c :: (word ++ more)) ↔ c = ' ' ∧ (width = 1 ∨ ∀ c ∈ more.head?, c = ' ') := by
  constructor
  · rintro ⟨word', more', heq, hlength', -, hor⟩
    obtain ⟨rfl, htail⟩ := cons.inj heq
    obtain ⟨-, rfl⟩ := append_inj htail (hlength.trans hlength'.symm)
    exact ⟨rfl, hor⟩
  · rintro ⟨rfl, hor⟩
    exact ⟨word, more, rfl, hlength, hword, hor⟩

/-- The words of a text in pieces, as they are on the lines; `lost` breaks have broken no word. -/
structure Pieced (rest : List Char) (path : List (ℕ × List Char × List Char)) (b : ℕ)
    (words : List (List (ℕ × List Char))) (lost : ℕ) : Prop where
  ne_nil : ∀ word ∈ words, word ≠ []
  words_eq : wordsBy isSpace rest = words.map joined
  path_eq : pathWords path = words.flatten
  count_eq : b = (words.map fun word => word.length - 1).sum + lost
  head_overlong : ∀ d ∈ rest.head?, isSpace d = false → ∀ word ∈ words.head?, Overlong word
  overlong_iff : (lost = 0 ∧ ∀ word ∈ words, Overlong word) ↔ ∀ x ∈ path, ¬Hides x.1 x.2.1

theorem pieced_nil : Pieced [] [] 0 [] 0 := ⟨by simp, rfl, rfl, rfl, by simp, by simp⟩

/-- The last line has its words in one piece each. -/
theorem pieced_last (hle : rest.length ≤ width) :
    Pieced rest [(width, rest, rest)] 0 (singles width (wordsBy isSpace rest)) 0 := by
  refine ⟨fun word hword => (mem_singles hword).1, (map_joined_singles width _).symm, ?_, ?_,
    fun d _ _ word hword => (mem_singles (mem_of_mem_head? hword)).2, ?_⟩
  · rw [flatten_singles]
    exact append_nil _
  · rw [sum_singles]
  · refine iff_of_true ⟨rfl, fun word hword => (mem_singles hword).2⟩ fun x hx => ?_
    rw [mem_singleton.mp hx]
    rintro ⟨word, more, heq, hlength, -⟩
    have hlonger := congrArg length heq
    rw [length_cons, length_append] at hlonger
    dsimp only at hlength hlonger
    omega

/-- A line that ends before a space has its words in one piece each. -/
theorem Pieced.space {lost : ℕ} (h : Pieced rest' path b words lost)
    (hline : line ≠ []) (hwidth : line.length ≤ width) (hrest : Plain (line ++ ' ' :: rest')) :
    Pieced (line ++ ' ' :: rest') ((width, line ++ ' ' :: rest', line) :: path) (0 + b)
      (singles width (wordsBy isSpace line) ++ words) lost := by
  refine ⟨fun word hword => ?_, ?_, ?_, ?_, ?_, ?_⟩
  · rcases mem_append.mp hword with hword | hword
    · exact (mem_singles hword).1
    · exact h.ne_nil word hword
  · rw [wordsBy_append_separator isSpace_space, map_append, map_joined_singles, h.words_eq]
  · rw [flatten_append, flatten_singles, ← h.path_eq]
    rfl
  · rw [map_append, sum_append, sum_singles, h.count_eq, Nat.add_assoc]
  · -- The first word is on this line.
    obtain ⟨c, line', rfl⟩ := exists_cons_of_ne_nil hline
    rintro d hd hspace word hword
    obtain rfl := Option.some.inj hd
    obtain ⟨v, b', -, -, -, -, hwords⟩ := exists_wordsBy_cons hspace line'
    rw [hwords] at hword
    obtain rfl := Option.some.inj hword
    exact overlong_singleton _
  · have hhides : ¬Hides width (line ++ ' ' :: rest') := by
      rintro ⟨word, more, heq, hlength, hword, -⟩
      obtain ⟨c, line', rfl⟩ := exists_cons_of_ne_nil hline
      have htail : line' ++ ' ' :: rest' = word ++ more := (cons.inj heq).2
      rw [length_cons] at hwidth
      have hitem : (line' ++ ' ' :: rest')[line'.length]? = (word ++ more)[line'.length]? := by
        rw [htail]
      rw [getElem?_append_right (Nat.le_refl _), Nat.sub_self,
        getElem?_append_left (by omega)] at hitem
      exact hword (mem_of_getElem? hitem.symm)
    constructor
    · rintro ⟨hlost, hall⟩ x hx
      rcases mem_cons.mp hx with rfl | hx
      · exact hhides
      · exact h.overlong_iff.mp ⟨hlost, fun word hword =>
          hall word (mem_append_right _ hword)⟩ x hx
    · intro hall
      obtain ⟨hlost, hwords⟩ := h.overlong_iff.mpr fun x hx => hall x (mem_cons_of_mem _ hx)
      refine ⟨hlost, fun word hword => ?_⟩
      rcases mem_append.mp hword with hword | hword
      · exact (mem_singles hword).2
      · exact hwords word hword

/-- The first word of what is left gets one more piece. -/
theorem Pieced.exists_broken {lost : ℕ} (h : Pieced (d :: more) path b words lost)
    (hd : isSpace d = false) (hu : FreeOf isSpace u) (hline : wordsBy isSpace line = [u])
    (hrest : wordsBy isSpace rest = wordsBy isSpace (u ++ d :: more))
    (hhides : ∀ v b', more = v ++ b' → (∀ c ∈ b'.head?, isSpace c = true) →
      FreeOf isSpace v → (width < u.length + (v.length + 1) ↔ ¬Hides width rest))
    (hhead : ∀ c ∈ rest.head?, isSpace c = false → ¬Hides width rest) :
    ∃ words', Pieced rest ((width, rest, line) :: path) (1 + b) words' lost := by
  obtain ⟨v, b', heq, hne, hb', hfree, hwords, hwords'⟩ := exists_firstWord hu hd more
  obtain ⟨c, v, rfl⟩ := exists_cons_of_ne_nil hne
  obtain ⟨rfl, hmore⟩ := cons.inj heq
  have hmap := h.words_eq
  rw [hwords] at hmap
  cases words with
  | nil => exact absurd hmap (cons_ne_nil _ _)
  | cons ps words =>
    obtain ⟨hjoined, htail⟩ := cons.inj hmap
    have hps : ps ≠ [] := h.ne_nil ps mem_cons_self
    have hover : Overlong ps := h.head_overlong d rfl hd ps rfl
    have hiff : Overlong ((width, u) :: ps) ↔ ¬Hides width rest := by
      rw [overlong_cons hps hover, ← hjoined]
      exact hhides v b' hmore hb' fun c hc => hfree c (mem_cons_of_mem _ hc)
    refine ⟨((width, u) :: ps) :: words, fun word hword => ?_, ?_, ?_, ?_, ?_, ?_⟩
    · rcases mem_cons.mp hword with rfl | hword
      · exact cons_ne_nil _ _
      · exact h.ne_nil word (mem_cons_of_mem _ hword)
    · rw [hrest, hwords', htail, map_cons, hjoined]
      rfl
    · have hpath := h.path_eq
      rw [pathWords, map_cons, flatten_cons, hline, ← pathWords, hpath]
      rfl
    · have hpos := length_pos_iff.mpr hps
      rw [h.count_eq]
      simp only [map_cons, sum_cons, length_cons]
      omega
    · intro c hc hspace word hword
      obtain rfl := Option.some.inj hword
      exact hiff.mpr (hhead c hc hspace)
    · constructor
      · rintro ⟨hlost, hall⟩ x hx
        rcases mem_cons.mp hx with rfl | hx
        · exact hiff.mp (hall _ mem_cons_self)
        · refine h.overlong_iff.mp ⟨hlost, fun word hword => ?_⟩ x hx
          rcases mem_cons.mp hword with rfl | hword
          · exact hover
          · exact hall word (mem_cons_of_mem _ hword)
      · intro hall
        obtain ⟨hlost, hwords⟩ := h.overlong_iff.mpr fun x hx =>
          hall x (mem_cons_of_mem _ hx)
        refine ⟨hlost, fun word hword => ?_⟩
        rcases mem_cons.mp hword with rfl | hword
        · exact hiff.mpr (hall _ mem_cons_self)
        · exact hwords word (mem_cons_of_mem _ hword)

/-- A line with nothing but a space on it is counted, but no word is broken. -/
theorem Pieced.lost {lost : ℕ} (h : Pieced (d :: more) path b words lost)
    (hd : isSpace d = false) :
    Pieced (' ' :: d :: more) ((1, ' ' :: d :: more, [' ']) :: path) (1 + b) words (lost + 1) := by
  have hhides : Hides 1 (' ' :: d :: more) := by
    refine ⟨[d], more, rfl, rfl, ?_, Or.inl rfl⟩
    rw [mem_singleton]
    rintro rfl
    exact absurd hd (by decide)
  refine ⟨h.ne_nil, (wordsBy_separator_cons isSpace_space _).trans h.words_eq, h.path_eq, ?_,
    fun c hc hspace => ?_, ?_⟩
  · rw [h.count_eq]
    omega
  · obtain rfl := Option.some.inj hc
    exact absurd hspace (by decide)
  · exact iff_of_false (fun hall => absurd hall.1 (Nat.succ_ne_zero _))
      fun hall => hall _ mem_cons_self hhides

/-- A break that cuts a line without a space behind its first character. -/
theorem exists_pieced_broken {lost : ℕ} (hrest : Plain (c :: (word ++ d :: more)))
    (hword : ' ' ∉ word ++ [d]) (h : Pieced (d :: more) path b words lost) :
    ∃ words' lost', Pieced (c :: (word ++ d :: more))
      ((word.length + 1, c :: (word ++ d :: more), c :: word) :: path) (1 + b) words' lost' := by
  rw [mem_append, not_or, mem_singleton] at hword
  have hd : isSpace d = false := by
    refine Bool.eq_false_iff.mpr fun hspace => hword.2 (Eq.symm (hrest d (by simp) hspace))
  have hfree : FreeOf isSpace word := hrest.free hword.1 fun e he => by simp [he]
  have hiff : Hides (word.length + 1) (c :: (word ++ d :: more)) ↔
      c = ' ' ∧ (word.length + 1 = 1 ∨ ∀ e ∈ more.head?, e = ' ') := by
    have hcut : Hides (word.length + 1) (c :: ((word ++ [d]) ++ more)) ↔
        c = ' ' ∧ (word.length + 1 = 1 ∨ ∀ e ∈ more.head?, e = ' ') :=
      hides_iff length_append (by rw [mem_append, not_or, mem_singleton]; exact hword)
    rwa [append_assoc] at hcut
  by_cases hc : c = ' '
  · subst hc
    cases word with
    | nil => exact ⟨words, lost + 1, h.lost hd⟩
    | cons e word =>
      have hne : e :: word ≠ [] := cons_ne_nil _ _
      refine h.exists_broken hd hfree ?_ ?_ ?_ ?_ |>.imp fun words' h' => ⟨lost, h'⟩
      · rw [wordsBy_separator_cons isSpace_space, wordsBy_of_free hne hfree]
      · rw [wordsBy_separator_cons isSpace_space]
      · intro v b' hmore hb' hv
        rw [hiff, and_iff_right rfl, or_iff_right (by rw [length_cons]; omega)]
        cases v with
        | nil =>
          refine iff_of_false (by rw [length_nil]; omega) (not_not_intro fun e he => ?_)
          have hmem : e ∈ more := mem_of_mem_head? he
          rw [hmore] at he
          exact hrest e (by simp [hmem]) (hb' e he)
        | cons f v =>
          refine iff_of_true (by rw [length_cons, length_cons]; omega) fun hall => ?_
          have hf := hall f (by rw [hmore]; rfl)
          have hspace := hv f mem_cons_self
          rw [hf] at hspace
          exact absurd hspace (by decide)
      · intro e he hspace
        obtain rfl := Option.some.inj he
        exact absurd hspace (by decide)
  · have hspace : isSpace c = false :=
      Bool.eq_false_iff.mpr fun hspace => hc (hrest c mem_cons_self hspace)
    have hfree' : FreeOf isSpace (c :: word) := forall_mem_cons.mpr ⟨hspace, hfree⟩
    have hnot : ¬Hides (word.length + 1) (c :: (word ++ d :: more)) := fun hides =>
      hc (hiff.mp hides).1
    refine h.exists_broken hd hfree' ?_ rfl ?_ ?_ |>.imp fun words' h' => ⟨lost, h'⟩
    · exact wordsBy_of_free (cons_ne_nil _ _) hfree'
    · exact fun v b' _ _ _ => iff_of_true (by rw [length_cons]; omega) hnot
    · exact fun _ _ _ => hnot

/-- The pieces of the words, after one more line. -/
theorem Breaks.exists_pieced {lost : ℕ} (hbreaks : Breaks width rest line rest' k)
    (hwidth : 0 < width) (hrest : Plain rest) (h : Pieced rest' path b words lost)
    (hnil : rest' = [] → path = [] ∧ b = 0) :
    ∃ words' lost', Pieced rest ((width, rest, line) :: path) (k + b) words' lost' := by
  cases hbreaks with
  | last rest hle =>
    obtain ⟨rfl, rfl⟩ := hnil rfl
    exact ⟨_, _, pieced_last hle⟩
  | space line after more hline hlength hafter =>
    exact ⟨_, _, h.space hline (by omega) hrest⟩
  | broken c word more hlength hword =>
    rcases eq_nil_or_concat word with rfl | ⟨word, d, rfl⟩
    · exact absurd hlength (Nat.ne_of_lt hwidth)
    · rw [concat_eq_append] at hlength hword hrest h hnil ⊢
      rw [length_append, length_singleton] at hlength
      subst hlength
      have htake : (c :: (word ++ [d])).take (word.length + 1) = c :: word := by
        simp
      have hdrop : (c :: (word ++ [d])).drop (word.length + 1) ++ more = d :: more := by
        simp
      rw [hdrop] at h
      rw [append_assoc] at hrest ⊢
      rw [htake]
      exact exists_pieced_broken hrest hword h

/-- The lines of a text hold its words in pieces. -/
theorem Wraps.exists_pieced {n : ℕ} (h : Wraps n width rest path b) (hn : 0 < n)
    (hwidth : 0 < width) (hrest : Plain rest) : ∃ words lost, Pieced rest path b words lost := by
  induction h with
  | done width => exact ⟨[], 0, pieced_nil⟩
  | @line width k b rest line rest' path hne hbreaks hwraps ih =>
    obtain ⟨-, -, hparts⟩ := hbreaks.exists_pre hwidth hne
    have hrest' : Plain rest' := by
      refine hrest.subset fun c hc => ?_
      rcases hparts with ⟨rfl, -⟩ | rfl | rfl
      · exact absurd hc not_mem_nil
      · simp [hc]
      · simp [hc]
    obtain ⟨words, lost, hpieced⟩ := ih hn hrest'
    refine hbreaks.exists_pieced hwidth hrest hpieced fun hnil => ?_
    subst hnil
    cases hwraps with
    | done => exact ⟨rfl, rfl⟩
    | line hne => exact absurd rfl hne

/-- The lines are as wide as they should be, and parts of the text. -/
theorem Wraps.line_spec {n : ℕ} (h : Wraps n width rest path b) (hn : 0 < n) (hwidth : 0 < width) :
    ∀ x ∈ path, x.2.2.length ≤ x.1 ∧ x.2.2 ⊆ rest := by
  induction h with
  | done width => exact fun x hx => absurd hx not_mem_nil
  | @line width k b rest line rest' path hne hbreaks hwraps ih =>
    obtain ⟨-, hle, hparts⟩ := hbreaks.exists_pre hwidth hne
    intro x hx
    rcases mem_cons.mp hx with rfl | hx
    · refine ⟨hle, fun c hc => ?_⟩
      rcases hparts with ⟨-, heq⟩ | heq | heq
      · exact heq ▸ hc
      · exact heq ▸ mem_append_left _ hc
      · exact heq ▸ mem_append_left _ hc
    · obtain ⟨hle', hsub⟩ := ih hn x hx
      refine ⟨hle', fun c hc => ?_⟩
      rcases hparts with ⟨hnil, -⟩ | heq | heq
      · rw [hnil] at hsub
        exact absurd (hsub hc) not_mem_nil
      · exact heq ▸ mem_append_right _ (mem_cons_of_mem _ (hsub hc))
      · exact heq ▸ mem_append_right _ (hsub hc)

theorem Wraps.width_eq {n : ℕ} (h : Wraps n width rest path b) :
    (∀ x ∈ path.head?, x.1 = width) ∧ ∀ x ∈ path.tail, x.1 = n := by
  induction h with
  | done width => exact ⟨by simp, by simp⟩
  | @line width k b rest line rest' path hne hbreaks hwraps ih =>
    refine ⟨fun x hx => Option.some.inj hx ▸ rfl, fun x hx => ?_⟩
    cases path with
    | nil => exact absurd hx not_mem_nil
    | cons y path =>
      rcases mem_cons.mp hx with rfl | hx
      · exact ih.1 x rfl
      · exact ih.2 x hx

theorem Wraps.same_text {w : WordWrapper} {n : ℕ} (h : Wraps n width rest path b)
    (hwidth : 0 < width) (hn : 0 < n) :
    (w.pathText path).filter (!isSpace ·) = rest.filter (!isSpace ·) := by
  have hfill : (replicate w.newLineIndentation ' ').filter (!isSpace ·) = [] := by
    rw [filter_eq_nil_iff]
    intro c hc
    rw [eq_of_mem_replicate hc]
    decide
  have hseparator : (if path = [] then [] else
      '\n' :: replicate w.newLineIndentation ' ').filter (!isSpace ·) = [] := by
    split_ifs
    · rfl
    · exact hfill
  induction h with
  | done width => rfl
  | @line width k b rest line rest' path hne hbreaks hwraps ih =>
    obtain ⟨-, -, hparts⟩ := hbreaks.exists_pre hwidth hne
    have hblank : (if path = [] then [] else
        '\n' :: replicate w.newLineIndentation ' ').filter (!isSpace ·) = [] := by
      split_ifs
      · rfl
      · exact hfill
    have hrest := ih hn hblank
    rw [pathText, filter_append, filter_append, hblank, append_nil, hrest]
    rcases hparts with ⟨rfl, rfl⟩ | rfl | rfl
    · exact append_nil _
    · rw [filter_append]
      rfl
    · rw [filter_append]

/-- The lines of the result. -/
theorem lines_pathText (w : WordWrapper) (pre : List Char) (hpre : '\n' ∉ pre)
    (y : ℕ × List Char × List Char) (hpath : ∀ x ∈ y :: path, '\n' ∉ x.2.2) :
    lines (pre ++ w.pathText (y :: path)) = (pre ++ y.2.2) ::
      path.map fun x => replicate w.newLineIndentation ' ' ++ x.2.2 := by
  induction path generalizing pre y with
  | nil =>
    have hfree : '\n' ∉ pre ++ y.2.2 := by
      rw [mem_append, not_or]
      exact ⟨hpre, hpath y mem_cons_self⟩
    have htext : w.pathText [y] = y.2.2 := by
      rw [pathText, pathText, if_pos rfl, append_nil, append_nil]
    rw [htext, lines, splitOn_eq_singleton hfree]
    rfl
  | cons z path ih =>
    have hfree : '\n' ∉ pre ++ y.2.2 := by
      rw [mem_append, not_or]
      exact ⟨hpre, hpath y mem_cons_self⟩
    have hfill : '\n' ∉ replicate w.newLineIndentation ' ' := fun h =>
      absurd (eq_of_mem_replicate h) (by decide)
    have hnext := ih _ hfill z fun x hx => hpath x (mem_cons_of_mem _ hx)
    have htext : pre ++ w.pathText (y :: z :: path) = (pre ++ y.2.2) ++ '\n' ::
        (replicate w.newLineIndentation ' ' ++ w.pathText (z :: path)) := by
      rw [pathText, if_neg (cons_ne_nil _ _)]
      simp
    rw [htext, lines, splitOn_append_cons_self, splitOn_eq_singleton hfree]
    exact congrArg ((pre ++ y.2.2) :: ·) hnext

theorem wordsBy_indented (w : WordWrapper) (line : List Char) :
    wordsBy isSpace (replicate w.newLineIndentation ' ' ++ line) = wordsBy isSpace line :=
  wordsBy_separators_append (fun _ hc => eq_of_mem_replicate hc ▸ isSpace_space) line

/-- The lines after the first one have the same width. -/
theorem flatten_zipIdx (w : WordWrapper) (hpath : ∀ x ∈ path, x.1 = w.available 1) (i : ℕ) :
    (((path.map fun x => replicate w.newLineIndentation ' ' ++ x.2.2).zipIdx (i + 1)).map
      fun line => (wordsBy isSpace line.1).map (w.available line.2, ·)).flatten =
        pathWords path := by
  induction path generalizing i with
  | nil => rfl
  | cons x path ih =>
    have hnext := ih (fun y hy => hpath y (mem_cons_of_mem _ hy)) (i + 1)
    have hwidth : w.available (i + 1) = x.1 := (hpath x mem_cons_self).symm
    rw [map_cons, zipIdx_cons, map_cons, flatten_cons, hnext, hwidth,
      wordsBy_indented]
    rfl

theorem Plain.newline (h : Plain rest) (hsub : line ⊆ rest) : '\n' ∉ line := fun hmem =>
  absurd (h '\n' (hsub hmem) rfl) (by decide)

/-- The words on the lines of the result. -/
theorem Wraps.wordsOnLines_eq {w : WordWrapper}
    (h : Wraps (w.available 1) w.maximumTextWidth rest path b) (hrest : Plain rest) :
    w.wordsOnLines (w.pathText path) = pathWords path := by
  have hlines := h.line_spec (w.available_pos 1) (w.available_pos 0)
  have hwidths := h.width_eq
  cases path with
  | nil => rfl
  | cons y path =>
    have hfree : ∀ x ∈ y :: path, '\n' ∉ x.2.2 := fun x hx => hrest.newline (hlines x hx).2
    have htext := lines_pathText w [] not_mem_nil y hfree
    rw [nil_append, nil_append] at htext
    have hwidth : w.available 0 = y.1 := (hwidths.1 y rfl).symm
    have htail : ∀ x ∈ path, x.1 = w.available 1 := hwidths.2
    have hmore := flatten_zipIdx w htail 0
    rw [wordsOnLines, htext, zipIdx_cons, map_cons, flatten_cons, hmore, hwidth]
    rfl

theorem Wraps.width_le {w : WordWrapper}
    (h : Wraps (w.available 1) w.maximumTextWidth rest path b) (hrest : Plain rest) :
    ∀ line ∈ lines (w.pathText path), line.length ≤ w.maximumTextWidth := by
  have hlines := h.line_spec (w.available_pos 1) (w.available_pos 0)
  have hwidths := h.width_eq
  have hindentation := w.indentation_lt
  cases path with
  | nil =>
    intro line hline
    rw [pathText, lines, splitOn_eq_singleton not_mem_nil] at hline
    rw [mem_singleton.mp hline]
    exact Nat.zero_le _
  | cons y path =>
    have hfree : ∀ x ∈ y :: path, '\n' ∉ x.2.2 := fun x hx => hrest.newline (hlines x hx).2
    have htext := lines_pathText w [] not_mem_nil y hfree
    rw [nil_append, nil_append] at htext
    rw [htext]
    intro line hline
    rcases mem_cons.mp hline with rfl | hline
    · have hle := (hlines y mem_cons_self).1
      rwa [hwidths.1 y rfl] at hle
    · obtain ⟨x, hx, rfl⟩ := mem_map.mp hline
      have hle := (hlines x (mem_cons_of_mem _ hx)).1
      rw [hwidths.2 x hx] at hle
      have havailable : w.available 1 = w.maximumTextWidth - w.newLineIndentation := rfl
      rw [length_append, length_replicate]
      omega

/-- There is one way only to put the words together. -/
theorem words_unique (hmap : words.map joined = words'.map joined)
    (hflat : words.flatten = words'.flatten) (hpieces : ∀ piece ∈ words.flatten, piece.2 ≠ []) :
    words = words' := by
  have hempty : ∀ a : List (ℕ × List Char), (∀ piece ∈ a, piece.2 ≠ []) → joined a = [] →
      a = [] := by
    intro a ha hjoined
    cases a with
    | nil => rfl
    | cons piece a =>
      exact absurd (append_eq_nil_iff.mp hjoined).1 (ha piece mem_cons_self)
  have happend : ∀ a c : List (ℕ × List Char), joined (a ++ c) = joined a ++ joined c := by
    intro a c
    rw [joined, map_append, flatten_append]
    rfl
  induction words generalizing words' with
  | nil => exact (map_eq_nil_iff.mp hmap.symm).symm
  | cons ps words ih =>
    cases words' with
    | nil => exact absurd hmap (cons_ne_nil _ _)
    | cons ps' words' =>
      obtain ⟨hjoined, htail⟩ := cons.inj hmap
      rw [flatten_cons, flatten_cons] at hflat
      rw [flatten_cons] at hpieces
      have hps : ps = ps' := by
        rcases append_eq_append_iff.mp hflat with ⟨a, rfl, hrest⟩ | ⟨a, rfl, hrest⟩
        · rw [happend, self_eq_append_right] at hjoined
          rw [hempty a (fun piece hpiece => hpieces piece ?_) hjoined, append_nil]
          rw [hrest]
          simp [hpiece]
        · rw [happend, append_right_eq_self] at hjoined
          rw [hempty a (fun piece hpiece => hpieces piece (by simp [hpiece])) hjoined,
            append_nil]
      subst hps
      rw [ih htail (append_cancel_left hflat) fun piece hpiece =>
        hpieces piece (mem_append_right _ hpiece)]

theorem isSpace_blank (c : Char) : isSpace (blank c) = isSpace c := by
  unfold blank
  split_ifs with hc
  · exact hc.symm
  · rfl

theorem plain_blank (text : List Char) : Plain (text.map blank) := by
  intro c hc hspace
  obtain ⟨e, -, rfl⟩ := mem_map.mp hc
  rw [isSpace_blank] at hspace
  rw [blank, if_pos hspace]

theorem blank_of_not_isSpace (hc : isSpace c = false) : blank c = c := by
  rw [blank, hc]
  exact if_neg Bool.false_ne_true

theorem filter_blank (text : List Char) :
    (text.map blank).filter (!isSpace ·) = text.filter (!isSpace ·) := by
  induction text with
  | nil => rfl
  | cons c text ih =>
    rw [map_cons]
    cases hc : isSpace c with
    | true =>
      rw [filter_cons_of_neg (by rw [isSpace_blank, hc]; decide),
        filter_cons_of_neg (by rw [hc]; decide), ih]
    | false =>
      rw [filter_cons_of_pos (by rw [isSpace_blank, hc]; decide),
        filter_cons_of_pos (by rw [hc]; decide), ih, blank_of_not_isSpace hc]

/-- The words are the same with spaces for all white space. -/
theorem wordsBy_blank (text : List Char) :
    wordsBy isSpace (text.map blank) = wordsBy isSpace text := by
  induction hn : text.length using Nat.strongRecOn generalizing text with
  | _ n ih =>
    subst hn
    cases text with
    | nil => rfl
    | cons c text =>
      cases hc : isSpace c with
      | true =>
        have hblank : isSpace (blank c) = true := (isSpace_blank c).trans hc
        rw [map_cons, wordsBy_separator_cons hblank, wordsBy_separator_cons hc]
        exact ih text.length (Nat.lt_succ_self _) text rfl
      | false =>
        obtain ⟨v, b, heq, hne, hv, hb, hwords⟩ := exists_wordsBy_cons hc text
        have hmap : v.map blank = v :=
          (map_congr_left fun e he => blank_of_not_isSpace (hv e he)).trans (map_id v)
        have hb' : ∀ e ∈ (b.map blank).head?, isSpace e = true := by
          intro e he
          rw [head?_map] at he
          obtain ⟨f, hf, rfl⟩ := Option.map_eq_some_iff.mp he
          exact (isSpace_blank f).trans (hb f hf)
        have hpos := length_pos_iff.mpr hne
        have hlength := congrArg length heq
        rw [length_append] at hlength
        rw [hwords, heq, map_append, hmap, wordsBy_append_of_free hne hv hb',
          ih b.length (by omega) b rfl]

/-- Every line start is followed by a line. -/
theorem LineStart.exists_wraps {n width' : ℕ} {r : List Char}
    (h : LineStart n width rest width' r) (hn : 0 < n) (hwidth : 0 < width) (hr : r ≠ []) :
    ∃ path b line, Wraps n width rest path b ∧ (width', r, line) ∈ path := by
  induction h with
  | first width rest =>
    obtain ⟨line, rest', k, hbreaks⟩ := exists_breaks width hr
    obtain ⟨path, b, hwraps⟩ := WordWrapper.exists_wraps hn hn rest'
    exact ⟨_, _, line, .line hr hbreaks hwraps, mem_cons_self⟩
  | next hrest hbreaks _ ih =>
    obtain ⟨path, b, line, hwraps, hmem⟩ := ih hn hr
    exact ⟨_, _, line, .line hrest hbreaks hwraps, mem_cons_of_mem _ hmem⟩

theorem Wraps.lineStart {n : ℕ} (h : Wraps n width rest path b) :
    ∀ x ∈ path, x.2.1 ≠ [] ∧ LineStart n width rest x.1 x.2.1 := by
  induction h with
  | done width => exact fun x hx => absurd hx not_mem_nil
  | @line width k b rest line rest' path hne hbreaks hwraps ih =>
    intro x hx
    rcases mem_cons.mp hx with rfl | hx
    · exact ⟨hne, .first width rest⟩
    · exact ⟨(ih x hx).1, .next hne hbreaks (ih x hx).2⟩

/-- What `wrapped_string` returns, if the ends of the lines are numbers. -/
theorem Wraps.wrappedString_eq {w : WordWrapper} {text : List Char}
    (h : Wraps (w.available 1) w.maximumTextWidth (text.map blank) path b)
    (hfits : ∀ x ∈ path, Fits text.length x.1 x.2.1) :
    w.wrappedString text = some (w.pathText path, b) := by
  have hlength : (text.map blank).length = text.length := length_map _
  rw [← hlength] at hfits
  have hat : At (text.map blank) 1 (text.map blank) := by
    by_cases hnil : text.map blank = []
    · refine Or.inl ⟨hnil, ?_⟩
      rw [hnil, length_nil]
      omega
    · exact Or.inr ⟨hnil, [], rfl, rfl⟩
  obtain ⟨t, hrun, hresult, hbroken⟩ := h.exists_wrapLoop (w.available_pos 0) hat hfits
    (Nat.lt_succ_self _) [] 0
  unfold wrappedString
  rw [canonifyWhitespace_eq, some_bind]
  rw [wrapLoop] at hrun
  rw [hrun, some_bind, hresult, hbroken, nil_append, Nat.zero_add]

theorem LineStart.wrappedString_eq_none {w : WordWrapper} {text r : List Char} {width' : ℕ}
    (h : LineStart (w.available 1) w.maximumTextWidth (text.map blank) width' r)
    (htext : text.length < maximumInteger) (hr : r ≠ []) (hfits : ¬Fits text.length width' r) :
    w.wrappedString text = none := by
  have hlength : (text.map blank).length = text.length := length_map _
  rw [← hlength] at hfits htext
  have hat : At (text.map blank) 1 (text.map blank) := by
    by_cases hnil : text.map blank = []
    · refine Or.inl ⟨hnil, ?_⟩
      rw [hnil, length_nil]
      omega
    · exact Or.inr ⟨hnil, [], rfl, rfl⟩
  have hrun : w.wrapLoop (text.map blank) ((text.map blank).length + 1)
      ⟨[], 0, 1, (w.maximumTextWidth : ℕ)⟩ = none :=
    h.wrapLoop_eq_none (w.available_pos 0) w.width_le hat htext hr hfits [] 0
  unfold wrappedString
  rw [canonifyWhitespace_eq, some_bind]
  rw [wrapLoop] at hrun
  rw [hrun]
  rfl

/-- The result on given lines is as expected exactly when no line hides a word. -/
theorem Wraps.isWrapped_iff {w : WordWrapper} {text : List Char}
    (h : Wraps (w.available 1) w.maximumTextWidth (text.map blank) path b) :
    IsWrapped w text (w.pathText path) b ↔ ∀ x ∈ path, ¬Hides x.1 x.2.1 := by
  have hplain := plain_blank text
  obtain ⟨words, lost, hpieced⟩ := h.exists_pieced (w.available_pos 1) (w.available_pos 0) hplain
  have hwords := hpieced.words_eq
  rw [wordsBy_blank] at hwords
  have hlines := h.wordsOnLines_eq hplain
  rw [hpieced.path_eq] at hlines
  rw [← hpieced.overlong_iff]
  constructor
  · rintro ⟨-, -, words', -, hmap, hflat, hover, hcount⟩
    have hpieces : ∀ piece ∈ words.flatten, piece.2 ≠ [] := by
      rw [← hpieced.path_eq]
      intro piece hpiece
      obtain ⟨l, hl, hmem⟩ := mem_flatten.mp hpiece
      obtain ⟨x, -, rfl⟩ := mem_map.mp hl
      obtain ⟨u, hu, rfl⟩ := mem_map.mp hmem
      exact (mem_wordsBy hu).1
    obtain rfl := words_unique (hwords.symm.trans hmap) (hlines.symm.trans hflat) hpieces
    have hlost := hpieced.count_eq
    rw [← hcount] at hlost
    exact ⟨by omega, hover⟩
  · rintro ⟨rfl, hover⟩
    refine ⟨h.width_le hplain, ?_, words, hpieced.ne_nil, hwords, hlines, hover,
      hpieced.count_eq⟩
    rw [h.same_text (w.available_pos 0) (w.available_pos 1), filter_blank]

/-- `wrapped_string` wraps a text as expected exactly when the end of every line is a number, no
line starts with a space that hides a word which just fits on it, and the lines are a `STRING`. -/
theorem exists_isWrapped_iff (w : WordWrapper) (text : List Char)
    (htext : text.length + 1 < maximumInteger) :
    (∃ result brokenWords, w.wrappedString text = some (result, brokenWords) ∧
      result.length < maximumInteger ∧ IsWrapped w text result brokenWords) ↔
    (∀ width rest, LineStart (w.available 1) w.maximumTextWidth (text.map blank) width rest →
      rest ≠ [] → Fits text.length width rest ∧ ¬Hides width rest) ∧ w.HasString text := by
  constructor
  · rintro ⟨result, brokenWords, hrun, hstring, hwrapped⟩
    have hfits : ∀ width rest, LineStart (w.available 1) w.maximumTextWidth (text.map blank)
        width rest → rest ≠ [] → Fits text.length width rest := by
      intro width rest hstart hrest
      by_contra hnot
      rw [hstart.wrappedString_eq_none (Nat.lt_of_succ_lt htext) hrest hnot] at hrun
      exact absurd hrun (by simp)
    have hresult : ∀ {path b}, Wraps (w.available 1) w.maximumTextWidth (text.map blank) path b →
        result = w.pathText path ∧ brokenWords = b := by
      intro path b hwraps
      have hresult := hwraps.wrappedString_eq fun x hx =>
        hfits x.1 x.2.1 (hwraps.lineStart x hx).2 (hwraps.lineStart x hx).1
      rwa [hrun, Option.some.injEq, Prod.mk.injEq] at hresult
    refine ⟨fun width rest hstart hrest => ⟨hfits width rest hstart hrest, ?_⟩, ?_⟩
    · obtain ⟨path, b, line, hwraps, hmem⟩ :=
        hstart.exists_wraps (w.available_pos 1) (w.available_pos 0) hrest
      obtain ⟨rfl, rfl⟩ := hresult hwraps
      exact hwraps.isWrapped_iff.mp hwrapped _ hmem
    · obtain ⟨path, b, hwraps⟩ := WordWrapper.exists_wraps (w.available_pos 1) (w.available_pos 0)
        (text.map blank)
      obtain ⟨rfl, rfl⟩ := hresult hwraps
      exact ⟨path, _, hwraps, hstring⟩
  · rintro ⟨hall, path, b, hwraps, hstring⟩
    have hpath : ∀ x ∈ path, Fits text.length x.1 x.2.1 ∧ ¬Hides x.1 x.2.1 := fun x hx =>
      hall x.1 x.2.1 (hwraps.lineStart x hx).2 (hwraps.lineStart x hx).1
    exact ⟨_, b, hwraps.wrappedString_eq fun x hx => (hpath x hx).1, hstring,
      hwraps.isWrapped_iff.mpr fun x hx => (hpath x hx).2⟩

/-- Two lines, the second one indented. -/
theorem exists_isWrapped_iff_cut : (∀ width rest,
      LineStart (available ⟨5, 1, by decide, by decide⟩ 1) 5 ("ab cd ef".toList.map blank) width
        rest → rest ≠ [] → Fits 8 width rest ∧ ¬Hides width rest) ∧
      HasString ⟨5, 1, by decide, by decide⟩ "ab cd ef".toList :=
  (exists_isWrapped_iff ⟨5, 1, by decide, by decide⟩ "ab cd ef".toList (by decide)).mp
    ⟨"ab cd\n ef".toList, 0, by decide, by decide, by decide, by decide,
      [[(5, ['a', 'b'])], [(5, ['c', 'd'])], [(4, ['e', 'f'])]], by decide, by decide, by decide,
      by decide, by decide⟩

/-- A word as long as a line is broken if a space comes before it. -/
theorem not_exists_isWrapped_leadingSpace : ¬∃ result brokenWords,
      (⟨5, 0, by decide, by decide⟩ : WordWrapper).wrappedString
        [' ', 'a', 'b', 'c', 'd', 'e'] = some (result, brokenWords) ∧
      IsWrapped ⟨5, 0, by decide, by decide⟩ [' ', 'a', 'b', 'c', 'd', 'e'] result
        brokenWords := by
  rintro ⟨result, brokenWords, hrun, hwrapped⟩
  have hresult : (⟨5, 0, by decide, by decide⟩ : WordWrapper).wrappedString
      [' ', 'a', 'b', 'c', 'd', 'e'] = some ([' ', 'a', 'b', 'c', 'd', '\n', 'e'], 1) := by
    decide
  rw [hresult, Option.some.injEq, Prod.mk.injEq] at hrun
  obtain ⟨rfl, rfl⟩ := hrun
  obtain ⟨words, -, hmap, hflat, hover, -⟩ := hwrapped.exists_pieces
  have hwords : wordsBy isSpace [' ', 'a', 'b', 'c', 'd', 'e'] = [['a', 'b', 'c', 'd', 'e']] := by
    decide
  rw [hwords] at hmap
  obtain ⟨word, rfl, hword⟩ : ∃ word, words = [word] ∧ ['a', 'b', 'c', 'd', 'e'] = joined word := by
    cases words with
    | nil => cases hmap
    | cons word words =>
      cases words with
      | nil => exact ⟨word, rfl, (cons.inj hmap).1⟩
      | cons _ _ => cases (cons.inj hmap).2
  have hpieces : wordsOnLines ⟨5, 0, by decide, by decide⟩ [' ', 'a', 'b', 'c', 'd', '\n', 'e'] =
      [(5, ['a', 'b', 'c', 'd']), (5, ['e'])] := by
    decide
  rw [hpieces, flatten_singleton] at hflat
  have hlt := hover word mem_cons_self (5, ['a', 'b', 'c', 'd']) (by rw [← hflat]; decide)
  rw [← hword] at hlt
  exact absurd hlt (by decide)

end

end WordWrapper

end Gobo
