/-
Splitting undoes joining.
-/
import Gobo.Splitter

namespace Gobo

open List Text

universe u

variable {A : Type u} [DecidableEq A]

namespace Splitter

variable (sp : Splitter A)

/-- What `escape_appended_string` makes of a character. -/
def escapedCharacter (c : A) : List A :=
  if c = sp.escapeCharacter ∨ sp.isSeparator c = true then [sp.escapeCharacter, c] else [c]

def escaped (s : List A) : List A := s.flatMap sp.escapedCharacter

/-- What is escaped of `s`, with the part that is not appended yet. -/
structure Copied (result s : List A) (t : Copy A) : Prop where
  index_pos : 1 ≤ t.i
  lastAfter_pos : 1 ≤ t.lastAfter
  lastAfter_le : t.lastAfter ≤ t.i
  text_eq : t.result ++ substring s t.lastAfter (t.i - 1) =
    result ++ sp.escaped (s.take (t.i - 1))

section

variable {sp} {s result : List A}

theorem escaped_take_succ {j : Nat} (hlt : j < s.length) : sp.escaped (s.take (j + 1)) =
    sp.escaped (s.take j) ++ sp.escapedCharacter s[j] := by
  unfold escaped
  rw [take_add_one, getElem?_eq_getElem hlt, Option.toList_some, flatMap_append,
    flatMap_singleton]

/-- One turn escapes one character. -/
theorem Copied.escape {t : Copy A} (ht : sp.Copied result s t) (hle : t.i ≤ s.length) :
    ∃ t', sp.escape s t = some t' ∧ t'.i = t.i + 1 ∧ sp.Copied result s t' := by
  obtain ⟨i, last, text⟩ := t
  obtain ⟨hi, hpos, hlast, htext⟩ := ht
  obtain ⟨j, rfl⟩ := Nat.exists_eq_add_of_le' hi
  have hlt : j < s.length := hle
  have hitem : item s (j + 1) = some s[j] := getElem?_eq_getElem hlt
  dsimp only at hpos hlast htext
  rw [Nat.add_sub_cancel] at htext
  unfold Splitter.escape
  rw [hitem, some_bind]
  by_cases hspecial : s[j] = sp.escapeCharacter ∨ sp.isSeparator s[j] = true
  · refine ⟨_, if_pos hspecial, rfl, ⟨Nat.succ_pos _, hi, Nat.le_succ _, ?_⟩⟩
    rw [Nat.add_sub_cancel, Nat.add_sub_cancel, substring_succ (Nat.le_refl _) hitem,
      substring_self, nil_append, htext, escaped_take_succ hlt, escapedCharacter,
      if_pos hspecial, append_assoc, append_assoc]
    rfl
  · refine ⟨_, if_neg hspecial, rfl, ⟨Nat.succ_pos _, hpos, Nat.le_succ_of_le hlast, ?_⟩⟩
    rw [Nat.add_sub_cancel, substring_succ hlast hitem, ← append_assoc, htext,
      escaped_take_succ hlt, escapedCharacter, if_neg hspecial, append_assoc]

theorem escapeAppendedString_eq (result s : List A) :
    sp.escapeAppendedString result s = some (result ++ sp.escaped s) := by
  have hstart : sp.Copied result s { i := 1, lastAfter := 1, result := result } := by
    refine ⟨Nat.le_refl 1, Nat.le_refl 1, Nat.le_refl 1, ?_⟩
    rw [Nat.sub_self, substring_self, take_zero]
    rfl
  have hturn : ∀ (n : Nat) (t : Copy A), n + t.i = s.length + 1 ∧ sp.Copied result s t →
      Copy.isAfter s t = some true ∨ Copy.isAfter s t = some false ∧
        ∃ t' m, sp.escape s t = some t' ∧ m < n ∧ m + t'.i = s.length + 1 ∧
          sp.Copied result s t' := by
    rintro n t ⟨hn, ht⟩
    by_cases hle : t.i ≤ s.length
    · obtain ⟨t', hbody, hi, ht'⟩ := ht.escape hle
      exact Or.inr ⟨congrArg some (decide_eq_false (by omega)), t', n - 1, hbody, by omega,
        by omega, ht'⟩
    · exact Or.inl (congrArg some (decide_eq_true (by omega)))
  obtain ⟨t, m, hrun, ⟨hm, ht⟩, hstop⟩ :=
    loopUntil_spec _ hturn (Nat.lt_succ_self s.length) ⟨rfl, hstart⟩
  have hend : t.i = s.length + 1 := by
    have hlt := of_decide_eq_true (Option.some.inj hstop)
    omega
  have htext := ht.text_eq
  rw [hend, Nat.add_sub_cancel, take_length] at htext
  unfold escapeAppendedString
  rw [hrun, some_bind]
  split_ifs with hlast
  · rw [hlast, substring_one_length] at htext
    rw [htext]
  · rw [htext]

/-- The text of the items, with the separator between them. -/
def joined (sp : Splitter A) : List (List A) → List A
  | [] => []
  | [x] => sp.escaped x
  | x :: y :: items => sp.escaped x ++ (substring sp.separators 1 1 ++ sp.joined (y :: items))

theorem joinFrom_eq (result : List A) (items : List (List A)) :
    sp.joinFrom result items = some (result ++ sp.joined items) := by
  induction items generalizing result with
  | nil => exact congrArg some (append_nil result).symm
  | cons x items ih =>
      cases items with
      | nil => exact escapeAppendedString_eq result x
      | cons y items =>
          rw [joinFrom, escapeAppendedString_eq, some_bind, ih, joined,
            append_assoc, append_assoc]

end

/-- `doSplit` is reading an item that begins after the index `start`: `cur` was
found of it before the index `i`. -/
structure Reading (s : List A) (i start : Nat) (cur : List A) (items : List (List A))
    (t : Scan A) : Prop where
  index_eq : t.i = i
  lastSeparator_eq : t.lastSeparator = start
  result_eq : t.result = items
  lastEscaped_le : t.lastEscaped ≤ i
  item_eq : appendedSubstring t.anItem s t.lastEscaped (i - 1) = cur
  of_none : t.anItem = none → t.lastEscaped = start + 1

section

variable {sp} {s pre rest x cur : List A} {items : List (List A)} {t : Scan A} {start : Nat}
  {greedy : Bool} {c : A}

omit [DecidableEq A] in
theorem appendedSubstring_succ (anItem : Option (List A)) {i j : Nat} (hi : i ≤ j + 1)
    (hc : item s (j + 1) = some c) :
    appendedSubstring anItem s i (j + 1) = appendedSubstring anItem s i j ++ [c] := by
  cases anItem with
  | none => exact substring_succ hi hc
  | some item =>
      unfold appendedSubstring
      rw [substring_succ hi hc, append_assoc]

/-- Where there is an item, the loop goes on. -/
theorem isAfter_of_scan {t' : Scan A} (h : sp.scan s greedy t = some t') :
    Scan.isAfter s t = some false := by
  obtain ⟨code, hcode, -⟩ := Option.bind_eq_some_iff.mp h
  refine congrArg some (decide_eq_false ?_)
  cases hi : t.i with
  | zero => exact Nat.not_lt_zero _
  | succ i =>
      rw [hi] at hcode
      have hlt := (List.getElem?_eq_some_iff.mp hcode).1
      omega

/-- One turn reads one character of an item, escaped or not. -/
theorem Reading.character (greedy : Bool) (hescape : sp.hasEscapeCharacter = true)
    (ht : Reading (pre ++ (sp.escapedCharacter c ++ rest)) (pre.length + 1) start cur items t) :
    ∃ t', sp.scan (pre ++ (sp.escapedCharacter c ++ rest)) greedy t = some t' ∧
      Reading (pre ++ (sp.escapedCharacter c ++ rest))
        (pre.length + 1 + (sp.escapedCharacter c).length) start (cur ++ [c]) items t' := by
  obtain ⟨i, last, lastEscaped, anItem, result⟩ := t
  obtain ⟨rfl, rfl, rfl, hle, hcur, hnone⟩ := ht
  dsimp only at hle hcur hnone
  rw [Nat.add_sub_cancel] at hcur
  unfold scan
  by_cases hspecial : c = sp.escapeCharacter ∨ sp.isSeparator c = true
  · have htext : sp.escapedCharacter c = [sp.escapeCharacter, c] := if_pos hspecial
    rw [htext] at hcur ⊢
    have hfirst : item (pre ++ ([sp.escapeCharacter, c] ++ rest)) (pre.length + 1) =
        some sp.escapeCharacter := item_append_cons pre _ _
    have hsecond : item (pre ++ ([sp.escapeCharacter, c] ++ rest)) (pre.length + 1 + 1) =
        some c := item_append pre _ 1
    have hlt : pre.length + 1 < (pre ++ ([sp.escapeCharacter, c] ++ rest)).length := by
      rw [length_append, length_append, length_cons, length_singleton]
      omega
    rw [hfirst, some_bind]
    refine ⟨_, if_pos ⟨hescape, rfl, hlt⟩, rfl, rfl, rfl, Nat.le_succ _, ?_,
      fun h => absurd h (by simp)⟩
    dsimp only [length_cons, length_nil]
    rw [Nat.add_sub_cancel, hcur, show pre.length + 1 + (0 + 1 + 1) - 1 =
      pre.length + 1 + 1 by omega]
    unfold appendedSubstring
    rw [substring_succ (Nat.le_refl _) hsecond, substring_self, nil_append]
  · have htext : sp.escapedCharacter c = [c] := if_neg hspecial
    rw [htext] at hcur ⊢
    have hfirst : item (pre ++ ([c] ++ rest)) (pre.length + 1) = some c :=
      item_append_cons pre _ _
    rw [hfirst, some_bind,
      if_neg (fun h => hspecial (Or.inl h.2.1)), if_neg (fun h => hspecial (Or.inr h))]
    refine ⟨_, rfl, rfl, rfl, rfl, Nat.le_succ_of_le hle, ?_, hnone⟩
    rw [length_singleton, Nat.add_sub_cancel, appendedSubstring_succ anItem hle hfirst, hcur]

/-- One turn reads all of an item's characters. -/
theorem Reading.word (greedy : Bool) (hescape : sp.hasEscapeCharacter = true)
    (ht : Reading (pre ++ (sp.escaped x ++ rest)) (pre.length + 1) start cur items t) :
    ∃ t', Turns (Scan.isAfter (pre ++ (sp.escaped x ++ rest)))
        (sp.scan (pre ++ (sp.escaped x ++ rest)) greedy) x.length t t' ∧
      Reading (pre ++ (sp.escaped x ++ rest)) (pre.length + 1 + (sp.escaped x).length) start
        (cur ++ x) items t' := by
  induction x generalizing pre cur t with
  | nil =>
      refine ⟨t, Turns.refl t, ?_⟩
      rw [append_nil]
      exact ht
  | cons c x ih =>
      have hsplit : sp.escaped (c :: x) = sp.escapedCharacter c ++ sp.escaped x := rfl
      rw [hsplit, append_assoc] at ht ⊢
      obtain ⟨t₁, hbody, ht₁⟩ := ht.character greedy hescape
      rw [← length_append_succ, ← append_assoc] at ht₁
      obtain ⟨t', hturns, ht'⟩ := ih ht₁
      rw [append_assoc] at hturns ht'
      have hgo := isAfter_of_scan hbody
      refine ⟨t', ?_, ?_⟩
      · rw [length_cons, Nat.add_comm]
        exact (Turns.one hgo hbody).trans hturns
      · rw [length_append_succ, Nat.add_assoc, ← length_append, append_assoc] at ht'
        exact ht'

/-- The separator ends an item, which is dropped if it is empty and `greedy` is not set. -/
theorem Reading.separator (greedy : Bool) (hc : c ∈ sp.separators)
    (hescape : sp.hasEscapeCharacter = true) (hx : greedy = true ∨ x ≠ [])
    (hstart : x = [] ↔ start = pre.length)
    (ht : Reading (pre ++ c :: rest) (pre.length + 1) start x items t) :
    ∃ t', sp.scan (pre ++ c :: rest) greedy t = some t' ∧
      Reading (pre ++ c :: rest) (pre.length + 1 + 1) (pre.length + 1) [] (items ++ [x]) t' := by
  obtain ⟨i, last, lastEscaped, anItem, result⟩ := t
  obtain ⟨rfl, rfl, rfl, hle, hcur, hnone⟩ := ht
  dsimp only at hle hcur hnone hstart
  rw [Nat.add_sub_cancel] at hcur
  have hne : c ≠ sp.escapeCharacter := fun h => sp.escape_not_separator hescape (h ▸ hc)
  have hitem : item (pre ++ c :: rest) (pre.length + 1) = some c := item_append_cons pre _ _
  unfold scan
  rw [hitem, some_bind, if_neg (fun h => hne h.2.1),
    if_pos (show sp.isSeparator c = true from decide_eq_true hc)]
  refine ⟨_, rfl, rfl, rfl, ?_, Nat.le_refl _, substring_self _ _, fun _ => rfl⟩
  rw [Nat.add_sub_cancel, hcur]
  by_cases hempty : x = []
  · rw [if_pos (hstart.mp hempty), if_pos (hx.resolve_right fun h => h hempty), hempty]
  · rw [if_neg (fun h => hempty (hstart.mpr h))]

omit [DecidableEq A] in
/-- After the last item. -/
theorem Reading.lastItem_eq (greedy : Bool) (hx : greedy = true ∨ x ≠ [])
    (hstart : start ≤ s.length) (hempty : x = [] ↔ start = s.length)
    (ht : Reading s (s.length + 1) start x items t) : lastItem s greedy t = items ++ [x] := by
  obtain ⟨i, last, lastEscaped, anItem, result⟩ := t
  obtain ⟨rfl, rfl, rfl, hle, hcur, hnone⟩ := ht
  dsimp only at hcur hnone hempty hstart
  rw [Nat.add_sub_cancel] at hcur
  unfold lastItem
  dsimp only
  split_ifs with hzero hlt hgreedy
  · cases anItem with
    | none =>
        rw [hnone rfl, hzero] at hcur
        rw [← hcur]
        exact congrArg (fun w => result ++ [w]) (substring_one_length s).symm
    | some item => rw [← hcur]
  · rw [hcur]
  · rw [hempty.mpr (by omega)]
  · exact absurd (hempty.mpr (by omega)) (hx.resolve_left hgreedy)

theorem length_le_escaped (sp : Splitter A) (x : List A) : x.length ≤ (sp.escaped x).length := by
  induction x with
  | nil => exact Nat.le_refl 0
  | cons c x ih =>
      have hone : 1 ≤ (sp.escapedCharacter c).length := by
        unfold escapedCharacter
        split_ifs <;> exact Nat.succ_pos _
      have hsplit : sp.escaped (c :: x) = sp.escapedCharacter c ++ sp.escaped x := rfl
      rw [hsplit, length_append, length_cons]
      omega

theorem escaped_eq_nil_iff (sp : Splitter A) : sp.escaped x = [] ↔ x = [] := by
  constructor
  · intro h
    have hle := sp.length_le_escaped x
    rw [h, length_nil] at hle
    exact length_eq_zero_iff.mp (Nat.le_zero.mp hle)
  · rintro rfl
    rfl

/-- The loop reads all the items that are joined. -/
theorem Reading.words (greedy : Bool) (hescape : sp.hasEscapeCharacter = true)
    {next : List (List A)} (hne : next ≠ []) (hnext : ∀ x ∈ next, greedy = true ∨ x ≠ [])
    (hs : 0 < (pre ++ sp.joined next).length)
    (ht : Reading (pre ++ sp.joined next) (pre.length + 1) pre.length [] items t) :
    ∃ t' n, Turns (Scan.isAfter (pre ++ sp.joined next))
        (sp.scan (pre ++ sp.joined next) greedy) n t t' ∧ n ≤ (sp.joined next).length ∧
      t'.i = (pre ++ sp.joined next).length + 1 ∧
      lastItem (pre ++ sp.joined next) greedy t' = items ++ next := by
  induction next generalizing pre items t with
  | nil => exact absurd rfl hne
  | cons x next ih =>
      obtain ⟨hx, hnext⟩ := forall_mem_cons.mp hnext
      cases next with
      | nil =>
          have hjoined : sp.joined [x] = sp.escaped x ++ [] := (append_nil _).symm
          rw [hjoined] at ht hs ⊢
          obtain ⟨t', hturns, ht'⟩ := ht.word greedy hescape
          rw [append_nil] at hturns ht' ⊢
          rw [← length_append_succ] at ht'
          refine ⟨t', x.length, hturns, sp.length_le_escaped x, ht'.index_eq, ?_⟩
          refine ht'.lastItem_eq greedy hx ?_ ?_
          · rw [length_append]
            exact Nat.le_add_right _ _
          · show x = [] ↔ pre.length = (pre ++ sp.escaped x).length
            rw [← sp.escaped_eq_nil_iff, ← length_eq_zero_iff, length_append]
            omega
      | cons y next =>
          obtain ⟨c, separators, hseparators⟩ := exists_cons_of_ne_nil sp.separators_ne_nil
          have hfirst : substring sp.separators 1 1 = [c] := by rw [hseparators]; rfl
          have hc : c ∈ sp.separators := by rw [hseparators]; exact mem_cons_self
          have hjoined : sp.joined (x :: y :: next) =
              sp.escaped x ++ c :: sp.joined (y :: next) := by
            rw [joined, hfirst]
            rfl
          rw [hjoined] at ht hs ⊢
          obtain ⟨t₁, hturns₁, ht₁⟩ := ht.word greedy hescape
          rw [← length_append_succ, ← append_assoc] at ht₁
          have hempty : [] ++ x = [] ↔ pre.length = (pre ++ sp.escaped x).length := by
            rw [nil_append, ← sp.escaped_eq_nil_iff, ← length_eq_zero_iff,
              length_append]
            omega
          obtain ⟨t₂, hbody, ht₂⟩ := ht₁.separator greedy hc hescape hx hempty
          have hlast : (pre ++ sp.escaped x ++ [c]).length = (pre ++ sp.escaped x).length + 1 :=
            length_append
          rw [append_cons, ← hlast] at ht₂
          rw [← append_assoc, append_cons] at hs
          obtain ⟨t', n, hturns, hn, hi, hitems⟩ := ih (cons_ne_nil y next) hnext hs ht₂
          rw [← append_cons, append_assoc] at hturns hi hitems
          rw [append_assoc] at hbody
          refine ⟨t', x.length + (1 + n),
            hturns₁.trans ((Turns.one (isAfter_of_scan hbody) hbody).trans hturns), ?_, hi, ?_⟩
          · have hle := sp.length_le_escaped x
            rw [length_append, length_cons]
            omega
          · rw [hitems, append_assoc]
            rfl

theorem doSplit_joined (greedy : Bool) (hescape : sp.hasEscapeCharacter = true)
    {next : List (List A)} (hnext : ∀ x ∈ next, greedy = true ∨ x ≠ []) (hone : next ≠ [[]]) :
    sp.doSplit (sp.joined next) greedy = some next := by
  unfold doSplit
  by_cases hs : 0 < (sp.joined next).length
  · have hne : next ≠ [] := by
      rintro rfl
      exact absurd hs (Nat.lt_irrefl 0)
    have hstart : Reading ([] ++ sp.joined next) (([] : List A).length + 1) ([] : List A).length
        [] [] { i := 1, lastSeparator := 0, lastEscaped := 1, anItem := none, result := [] } :=
      ⟨rfl, rfl, rfl, Nat.le_refl 1, substring_self _ 0, fun _ => rfl⟩
    obtain ⟨t', n, hturns, hn, hi, hitems⟩ := hstart.words greedy hescape hne hnext hs
    rw [nil_append] at hturns hi hitems
    have hstop : Scan.isAfter (sp.joined next) t' = some true :=
      congrArg some (decide_eq_true (by omega))
    rw [if_pos hs, hturns.loopUntil_eq hstop (by omega), some_bind, hitems]
    rfl
  · rw [if_neg hs]
    match next with
    | [] => rfl
    | [x] =>
      have hempty : sp.escaped x = [] := length_eq_zero_iff.mp (Nat.eq_zero_of_not_pos hs)
      exact absurd (congrArg (fun x => [x]) (sp.escaped_eq_nil_iff.mp hempty)) hone
    | x :: y :: next =>
      obtain ⟨c, separators, hseparators⟩ := exists_cons_of_ne_nil sp.separators_ne_nil
      refine absurd ?_ hs
      rw [joined, hseparators, length_append]
      exact Nat.lt_of_lt_of_le (Nat.succ_pos _) (Nat.le_add_left _ _)

/-- Splitting gives the items back that were joined, but for a single empty one. -/
theorem split_join_iff (hescape : sp.hasEscapeCharacter = true) (next : List (List A)) :
    (((∀ x ∈ next, x ≠ []) → ∃ s, sp.join next = some s ∧ sp.split s = some next) ∧
        ∃ s, sp.joinGreedy next = some s ∧ sp.splitGreedy s = some next) ↔ next ≠ [[]] := by
  have hjoin : sp.doJoin next = some (sp.joined next) := joinFrom_eq [] next
  constructor
  · rintro ⟨-, s, hs, hsplit⟩ rfl
    obtain rfl : [] = s := Option.some.inj (hjoin.symm.trans hs)
    exact absurd (Option.some.inj hsplit) (by simp)
  · intro hone
    refine ⟨fun hnext => ⟨sp.joined next, hjoin, ?_⟩, sp.joined next, hjoin, ?_⟩
    · exact doSplit_joined false hescape (fun x hx => Or.inr (hnext x hx)) hone
    · exact doSplit_joined true hescape (fun x hx => Or.inl rfl) hone

theorem split_join_slash :
    ∃ s, (⟨[47], true, 92, by decide, by decide⟩ : Splitter Nat).joinGreedy [[], [47, 92], []] =
        some s ∧
      (⟨[47], true, 92, by decide, by decide⟩ : Splitter Nat).splitGreedy s =
        some [[], [47, 92], []] :=
  ((split_join_iff rfl _).mpr (by decide)).2

/-- A single empty item is lost: nothing is written of it. -/
theorem split_join_empty : ¬∀ (sp : Splitter Nat) (next : List (List Nat)),
    sp.hasEscapeCharacter = true →
    ((∀ x ∈ next, x ≠ []) → ∃ s, sp.join next = some s ∧ sp.split s = some next) ∧
      ∃ s, sp.joinGreedy next = some s ∧ sp.splitGreedy s = some next := by
  intro h
  obtain ⟨s, hs, hsplit⟩ := (h ⟨[47], true, 92, by decide, by decide⟩ [[]] rfl).2
  obtain rfl : [] = s := Option.some.inj hs
  exact absurd (Option.some.inj hsplit) (by decide)

end

end Splitter

end Gobo
