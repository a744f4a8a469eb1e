/-
How `parse_reference` reads the components of a reference.
-/
import Gobo.Uri

namespace Gobo

open List Text UriReference

namespace Uri

/-- One turn, with the character it reads. -/
def advance (t : Parsing) (c : UInt8) : Parsing :=
  { parseCharacter t c with i := t.i + 1 }

/-- The turns that read `text`. -/
def scan (t : Parsing) (text : List UInt8) : Parsing := text.foldl advance t

@[simp] theorem scan_nil (t : Parsing) : scan t [] = t := rfl

@[simp] theorem scan_cons (t : Parsing) (c : UInt8) (text : List UInt8) :
    scan t (c :: text) = scan (advance t c) text := rfl

theorem scan_append (t : Parsing) (text text' : List UInt8) :
    scan t (text ++ text') = scan (scan t text) text' :=
  foldl_append

theorem stopScheme_fullReference (u : Uri) (start stop : Nat) :
    (u.stopScheme start stop).fullReference = u.fullReference := by
  unfold stopScheme
  split_ifs <;> rfl

theorem stopPathBase_fullReference (u : Uri) (start stop : Nat) :
    (u.stopPathBase start stop).fullReference = u.fullReference := by
  unfold stopPathBase
  split_ifs <;> rfl

/-- A turn changes components only. -/
theorem advance_fullReference (t : Parsing) (c : UInt8) :
    (advance t c).uri.fullReference = t.uri.fullReference := by
  unfold advance parseCharacter
  split_ifs <;> (try split) <;> first
      | rfl
      | exact stopScheme_fullReference _ _ _
      | exact stopPathBase_fullReference _ _ _

theorem loop_eq_scan (text : List UInt8) {t : Parsing} {before : List UInt8}
    (hfull : t.uri.fullReference = before ++ text) (hi : t.i = before.length + 1) :
    loopUntil Parsing.isAfter parseTurn (text.length + 1) t = some (scan t text) := by
  induction text generalizing t before with
  | nil =>
      refine loopUntil_of_stop (congrArg some (decide_eq_true ?_))
      rw [hfull, hi, append_nil]
      exact Nat.lt_succ_self _
  | cons c text ih =>
      have hgo : t.isAfter = some false := by
        refine congrArg some (decide_eq_false ?_)
        rw [hfull, hi, length_append, length_cons]
        omega
      have hturn : parseTurn t = some (advance t c) := by
        unfold parseTurn
        rw [hfull, hi, item_append_cons, some_bind, ← hi]
        rfl
      rw [length_cons, loopUntil_of_go hgo hturn]
      have hfull' : (advance t c).uri.fullReference = before ++ [c] ++ text := by
        rw [advance_fullReference, hfull, append_assoc, singleton_append]
      have hi' : (advance t c).i = (before ++ [c]).length + 1 := by
        rw [length_append]
        exact congrArg Nat.succ hi
      exact ih hfull' hi'

/-- The reference is read from its first character to its last. -/
theorem make_eq (u : Uri) (reference : List UInt8) :
    u.make reference = some (parseEnd (scan
      ⟨{ u with fullReference := reference }.reset, 1, 1, .scheme⟩ reference)) := by
  unfold make parseReference
  rw [loop_eq_scan reference (nil_append reference).symm rfl, some_bind]

/-- Characters that change nothing are passed. -/
theorem scan_idle {state : State} {text : List UInt8}
    (hidle : ∀ c ∈ text, ∀ u i start, parseCharacter ⟨u, i, start, state⟩ c = ⟨u, i, start, state⟩)
    (u : Uri) (i start : Nat) :
    scan ⟨u, i, start, state⟩ text = ⟨u, i + text.length, start, state⟩ := by
  induction text generalizing i with
  | nil => rfl
  | cons c text ih =>
      obtain ⟨hc, htext⟩ := forall_mem_cons.mp hidle
      have hturn : advance ⟨u, i, start, state⟩ c = ⟨u, i + 1, start, state⟩ := by
        unfold advance
        rw [hc]
      rw [scan_cons, hturn, ih htext, length_cons, Nat.add_assoc, Nat.add_comm 1]

section

variable {c : UInt8} {text : List UInt8}

theorem scan_scheme (htext : colon ∉ text ∧ slash ∉ text ∧ questionMark ∉ text ∧ numberSign ∉ text)
    (u : Uri) (i start : Nat) :
    scan ⟨u, i, start, .scheme⟩ text = ⟨u, i + text.length, start, .scheme⟩ := by
  refine scan_idle (fun c hc u i start => ?_) u i start
  unfold parseCharacter
  rw [if_neg (ne_of_mem_of_not_mem hc htext.1), if_neg (ne_of_mem_of_not_mem hc htext.2.1),
    if_neg (ne_of_mem_of_not_mem hc htext.2.2.1), if_neg (ne_of_mem_of_not_mem hc htext.2.2.2)]
  simp only [ite_self]

theorem scan_authority (htext : slash ∉ text ∧ questionMark ∉ text ∧ numberSign ∉ text)
    (u : Uri) (i start : Nat) :
    scan ⟨u, i, start, .authority⟩ text = ⟨u, i + text.length, start, .authority⟩ := by
  refine scan_idle (fun c hc u i start => ?_) u i start
  unfold parseCharacter
  rw [if_neg (ne_of_mem_of_not_mem hc htext.1), if_neg (ne_of_mem_of_not_mem hc htext.2.1),
    if_neg (ne_of_mem_of_not_mem hc htext.2.2)]
  simp only [ite_self]

/-- The end of the path: what a question mark or a number sign stops. -/
def closePath (t : Parsing) : Uri :=
  match t.state with
  | .scheme => t.uri.stopPathBase t.start t.i
  | .path => t.uri.stopPathBase t.start t.i
  | .authorityPrefix => { t.uri with hasAbsolutePath := decide (t.start < t.i) }
  | .authority => t.uri.stopAuthority t.start t.i
  | _ => t.uri

theorem stopPathBase_self (u : Uri) (i : Nat) : u.stopPathBase i i = u :=
  if_neg (Nat.lt_irrefl i)

theorem advance_questionMark (t : Parsing) :
    advance t questionMark = ⟨closePath t, t.i + 1, t.i, .query⟩ := by
  obtain ⟨u, i, start, state⟩ := t
  cases state <;> simp [advance, parseCharacter, closePath, stopPathBase_self, colon, slash,
    questionMark]

theorem advance_numberSign {t : Parsing} (ht : t.state ≠ .query) :
    advance t numberSign = ⟨closePath t, t.i + 1, t.i, .fragment⟩ := by
  obtain ⟨u, i, start, state⟩ := t
  cases state <;> first
    | exact absurd rfl ht
    | simp [advance, parseCharacter, closePath, stopPathBase_self, colon, slash, questionMark,
        numberSign, equalsSign, ampersand]

/-- A query is read to its end; a question mark within it begins it anew. -/
theorem scan_query (htext : numberSign ∉ text) (u : Uri) {i start : Nat} (hi : start < i) :
    ∃ start', scan ⟨u, i, start, .query⟩ text = ⟨u, i + text.length, start', .query⟩ ∧
      start ≤ start' ∧ start' < i + text.length ∧ (start' = start ↔ questionMark ∉ text) := by
  induction text generalizing i start with
  | nil => exact ⟨start, rfl, Nat.le_refl _, hi, by simp⟩
  | cons c text ih =>
      have htail : numberSign ∉ text := fun h => htext (mem_cons_of_mem c h)
      have hc : c ≠ numberSign := fun h => htext (h ▸ mem_cons_self)
      have hlength : i + 1 + text.length = i + (c :: text).length := by
        rw [length_cons]
        omega
      rw [scan_cons, ← hlength]
      by_cases hq : c = questionMark
      · obtain ⟨start', hscan, hle, hlt, -⟩ := ih htail (Nat.lt_succ_self i)
        rw [hq, advance_questionMark]
        refine ⟨start', hscan, by omega, hlt, ?_⟩
        simp only [mem_cons, true_or, not_true_eq_false, iff_false]
        omega
      · have hturn : advance ⟨u, i, start, .query⟩ c = ⟨u, i + 1, start, .query⟩ := by
          unfold advance parseCharacter
          rw [if_neg hq, if_neg hc]
          simp only [ite_self]
        obtain ⟨start', hscan, hle, hlt, hiff⟩ := ih htail (Nat.lt_succ_of_lt hi)
        rw [hturn]
        refine ⟨start', hscan, hle, hlt, ?_⟩
        rw [hiff, mem_cons, or_iff_right (Ne.symm hq)]

/-- A fragment is read to its end, but a question mark makes it a query. -/
theorem scan_fragment (htext : numberSign ∉ text) (u : Uri) {i start : Nat} (hi : start < i) :
    (questionMark ∉ text →
      scan ⟨u, i, start, .fragment⟩ text = ⟨u, i + text.length, start, .fragment⟩) ∧
    (questionMark ∈ text → ∃ start',
      scan ⟨u, i, start, .fragment⟩ text = ⟨u, i + text.length, start', .query⟩ ∧
        start' < i + text.length) := by
  induction text generalizing i with
  | nil => exact ⟨fun _ => rfl, fun h => absurd h not_mem_nil⟩
  | cons c text ih =>
      have htail : numberSign ∉ text := fun h => htext (mem_cons_of_mem c h)
      have hc : c ≠ numberSign := fun h => htext (h ▸ mem_cons_self)
      have hlength : i + 1 + text.length = i + (c :: text).length := by
        rw [length_cons]
        omega
      rw [scan_cons, ← hlength]
      by_cases hq : c = questionMark
      · obtain ⟨start', hscan, -, hlt, -⟩ := scan_query htail u (Nat.lt_succ_self i)
        rw [hq, advance_questionMark]
        exact ⟨fun h => absurd mem_cons_self h, fun _ => ⟨start', hscan, hlt⟩⟩
      · have hturn : advance ⟨u, i, start, .fragment⟩ c = ⟨u, i + 1, start, .fragment⟩ := by
          unfold advance parseCharacter
          rw [if_neg hq, if_neg hc]
          simp only [ite_self]
        rw [hturn, mem_cons, or_iff_right (Ne.symm hq)]
        exact ih htail (Nat.lt_succ_of_lt hi)

end

section

variable {u : Uri} {before text after : List UInt8}

theorem part_eq (hfull : u.fullReference = before ++ (text ++ after)) :
    u.part (before.length + 1) (before.length + 1 + text.length) = text := by
  unfold part substring
  rw [hfull, ← append_assoc, Nat.add_sub_cancel, Nat.add_right_comm, Nat.add_sub_cancel,
    take_append_of_le_length (Nat.le_of_eq length_append.symm),
    take_of_length_le (Nat.le_of_eq length_append), drop_left]

theorem length_part {start stop : Nat} (hstart : 1 ≤ start)
    (hstop : stop ≤ u.fullReference.length + 1) : (u.part start stop).length = stop - start := by
  unfold part substring
  rw [length_drop, length_take]
  omega

/-- What is kept of a query begins after its last question mark. -/
theorem part_eq_iff {start : Nat} (hfull : u.fullReference = before ++ (text ++ after))
    (hle : before.length ≤ start) :
    u.part (start + 1) (before.length + 1 + text.length) = text ↔
      start = before.length ∨ text = [] := by
  constructor
  · intro heq
    have hlength := congrArg length heq
    have hfit : before.length + 1 + text.length ≤ u.fullReference.length + 1 := by
      rw [hfull, length_append, length_append]
      omega
    rw [length_part (Nat.le_add_left 1 start) hfit] at hlength
    rw [← length_eq_zero_iff]
    omega
  · rintro (rfl | rfl)
    · exact part_eq hfull
    · have hlength : (u.part (start + 1) (before.length + 1)).length = 0 := by
        unfold part substring
        rw [length_drop, length_take]
        omega
      exact length_eq_zero_iff.mp hlength

end

theorem closePath_fullReference (t : Parsing) :
    (closePath t).fullReference = t.uri.fullReference := by
  unfold closePath
  split
  · exact stopPathBase_fullReference _ _ _
  · exact stopPathBase_fullReference _ _ _
  all_goals rfl

theorem stopPathBase_tail (u : Uri) (start stop : Nat) :
    (u.stopPathBase start stop).queryItem = u.queryItem ∧
      (u.stopPathBase start stop).fragmentItem = u.fragmentItem := by
  unfold stopPathBase
  split_ifs <;> exact ⟨rfl, rfl⟩

theorem closePath_tail (t : Parsing) : (closePath t).queryItem = t.uri.queryItem ∧
      (closePath t).fragmentItem = t.uri.fragmentItem := by
  unfold closePath
  split
  · exact stopPathBase_tail _ _ _
  · exact stopPathBase_tail _ _ _
  all_goals exact ⟨rfl, rfl⟩

/-- No question mark within a component. -/
def NoQuestionMark (component : Option (List UInt8)) : Prop :=
  ∀ s ∈ component, questionMark ∉ s

theorem noQuestionMark_none : NoQuestionMark none := fun _ hs => absurd hs (by simp)

theorem noQuestionMark_some {s : List UInt8} : NoQuestionMark (some s) ↔ questionMark ∉ s :=
  ⟨fun h => h s rfl, fun h _ hs => Option.some.inj hs ▸ h⟩

/-- The query and the fragment are read as they are if there is no question
mark in them. -/
theorem parseEnd_fragment {u : Uri} {before s : List UInt8} (hfree : numberSign ∉ s)
    (hfull : u.fullReference = before ++ s) (hfragment : u.fragmentItem = none) {i : Nat}
    (hi : i = before.length) :
    ∃ q f, parseEnd (scan ⟨u, i + 1, i, .fragment⟩ s) =
        { u with queryItem := q, fragmentItem := f } ∧
      (f = some s ↔ questionMark ∉ s) ∧ (questionMark ∉ s → q = u.queryItem) := by
  obtain ⟨hgood, hbad⟩ := scan_fragment hfree u (Nat.lt_succ_self i)
  by_cases hq : questionMark ∈ s
  · obtain ⟨start', hscan, hlt⟩ := hbad hq
    have hend : parseEnd ⟨u, i + 1 + s.length, start', .query⟩ =
        u.stopQuery start' (i + 1 + s.length) := if_pos hlt
    rw [hscan, hend, stopQuery]
    have hne : u.fragmentItem ≠ some s := by
      rw [hfragment]
      exact nofun
    exact ⟨_, _, rfl, ⟨fun h => absurd h hne, fun h => absurd hq h⟩, fun h => absurd hq h⟩
  · have hpart : u.part (i + 1) (i + 1 + s.length) = s := by
      rw [hi]
      exact part_eq (hfull.trans (congrArg _ (append_nil s).symm))
    have hend : parseEnd ⟨u, i + 1 + s.length, i, .fragment⟩ =
        u.stopFragment i (i + 1 + s.length) := if_pos (by dsimp only; omega)
    rw [hgood hq, hend, stopFragment, hpart]
    exact ⟨u.queryItem, some s, rfl, ⟨fun _ => hq, fun _ => rfl⟩, fun _ => rfl⟩

/-- What follows the path: `u` is what the path was closed to, and no question
mark within the query and the fragment is what has them read as they are. -/
theorem parseEnd_tail {t : Parsing} {before : List UInt8} {query fragment : Option (List UInt8)}
    (hstate : t.state ≠ .query) (hquery : ∀ s ∈ query, numberSign ∉ s)
    (hfragment : ∀ s ∈ fragment, numberSign ∉ s)
    (hfull : t.uri.fullReference =
      before ++ (delimited [questionMark] query ++ delimited [numberSign] fragment))
    (hi : t.i = before.length + 1) (hnone : t.uri.queryItem = none)
    (hnone' : t.uri.fragmentItem = none) (hsome : query ≠ none ∨ fragment ≠ none) :
    ∃ q f, parseEnd (scan t (delimited [questionMark] query ++ delimited [numberSign] fragment)) =
        { closePath t with queryItem := q, fragmentItem := f } ∧
      (q = query ∧ f = fragment ↔ NoQuestionMark query ∧ NoQuestionMark fragment) := by
  obtain ⟨hclose, hclose'⟩ := closePath_tail t
  rw [hnone] at hclose
  rw [hnone'] at hclose'
  have hreference := closePath_fullReference t
  rw [hfull] at hreference
  cases query with
  | none =>
      cases fragment with
      | none => exact absurd hsome (by simp)
      | some s =>
          have hfull' : (closePath t).fullReference = before ++ [numberSign] ++ s := by
            rw [hreference, append_assoc]
            rfl
          have hlength : t.i = (before ++ [numberSign]).length := by
            rw [hi, length_append]
            rfl
          obtain ⟨q, f, hend, hf, hq⟩ :=
            parseEnd_fragment (hfragment s rfl) hfull' hclose' hlength
          have hscan : scan t (delimited [questionMark] none ++ delimited [numberSign] (some s)) =
              scan ⟨closePath t, t.i + 1, t.i, .fragment⟩ s := by
            rw [← advance_numberSign hstate]
            rfl
          rw [hscan]
          refine ⟨q, f, hend, ?_⟩
          rw [hf, noQuestionMark_some]
          constructor
          · exact fun h => ⟨noQuestionMark_none, h.2⟩
          · exact fun h => ⟨(hq h.2).trans hclose, h.2⟩
  | some r =>
      let rest := delimited [numberSign] fragment
      have hindex : (before ++ [questionMark]).length = t.i := by
        rw [hi, length_append]
        rfl
      have hreference' : (closePath t).fullReference = before ++ [questionMark] ++ (r ++ rest) := by
        rw [hreference, append_assoc]
        rfl
      obtain ⟨start', hscan, hle, hlt, hiff⟩ :=
        scan_query (hquery r rfl) (closePath t) (Nat.lt_succ_self t.i)
      have hkept : (closePath t).part (start' + 1) (t.i + 1 + r.length) = r ↔
          questionMark ∉ r := by
        rw [← hindex, part_eq_iff hreference' (hindex ▸ hle), hindex, hiff]
        refine ⟨fun h => h.elim id fun hnil => ?_, Or.inl⟩
        rw [hnil]
        exact not_mem_nil
      have hread : scan t (delimited [questionMark] (some r) ++ rest) =
          scan ⟨closePath t, t.i + 1 + r.length, start', .query⟩ rest := by
        rw [← hscan, ← scan_append, ← advance_questionMark]
        rfl
      rw [hread, noQuestionMark_some]
      cases fragment with
      | none =>
          have hend : parseEnd ⟨closePath t, t.i + 1 + r.length, start', .query⟩ =
              (closePath t).stopQuery start' (t.i + 1 + r.length) := if_pos hlt
          refine ⟨some ((closePath t).part (start' + 1) (t.i + 1 + r.length)), none, ?_, ?_⟩
          · rw [show rest = [] from rfl, scan_nil, hend, stopQuery, ← hclose']
          · rw [Option.some.injEq, hkept]
            exact ⟨fun h => ⟨h.1, noQuestionMark_none⟩, fun h => ⟨h.1, rfl⟩⟩
      | some s =>
          let u' := (closePath t).stopQuery start' (t.i + 1 + r.length)
          have hfull' : u'.fullReference = before ++ [questionMark] ++ r ++ [numberSign] ++ s := by
            change (closePath t).fullReference = _
            rw [hreference', append_assoc _ [numberSign], append_assoc _ r]
            rfl
          have hlength : t.i + 1 + r.length =
              (before ++ [questionMark] ++ r ++ [numberSign]).length := by
            rw [length_append, length_append, hindex]
            exact Nat.add_right_comm _ _ _
          obtain ⟨q, f, hend, hf, hq⟩ := parseEnd_fragment (u := u') (hfragment s rfl) hfull'
            hclose' hlength
          refine ⟨q, f, hend, ?_⟩
          rw [hf, noQuestionMark_some]
          constructor
          · rintro ⟨heq, hs⟩
            rw [hq hs] at heq
            exact ⟨hkept.mp (Option.some.inj heq), hs⟩
          · rintro ⟨hr, hs⟩
            exact ⟨(hq hs).trans (congrArg some (hkept.mpr hr)), hs⟩

end Uri

end Gobo
