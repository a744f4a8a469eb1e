/-
The reductions of a state, as they are reported (`print_reductions`) and as the tables do
them.
-/
import Gobo.DefaultReduction

namespace Gobo

open List

namespace Machine

variable {T V R Q : Type}

/-- A line of the report. -/
inductive ReportLine (T R : Type)
  | reduce (t : T) (r : R)
  /-- A reduction that is not done, between brackets. -/
  | discarded (t : T) (r : R)
  | default (r : R)
  | blank

theorem reduce_notMem_discarded {t t' : T} {r : R} {rs : List (Reduction T R)} :
    ReportLine.reduce t' r ∉ rs.map fun r => ReportLine.discarded t r.rule := by
  intro h
  obtain ⟨_, -, h⟩ := mem_map.mp h
  exact nomatch h

variable [DecidableEq T]

/-- A turn of the loop that looks for the default, on the tokens found and their number. -/
def collectToken : List T × Nat → T → List T × Nat
  | (tokens, count), t => if t ∈ tokens then (tokens, count) else (tokens ++ [t], count + 1)

/-- A turn of the loop over the reductions for one token, on `count`, the rule of
`defaulted_reduction` and the lines; `default` is the index of the default reduction. -/
def reportReduction (default : Option Nat) (t : T) :
    Nat × Option R × List (ReportLine T R) → Reduction T R × Nat →
      Nat × Option R × List (ReportLine T R)
  | (count, defaulted, lines), (r, j) =>
      if t ∈ r.lookaheads then
        if count = 0 then
          if some j ≠ default then (count + 1, defaulted, lines ++ [.reduce t r.rule])
          else (count + 1, some r.rule, lines)
        else
          match defaulted with
          | some rule => (count, none, lines ++ [.reduce t rule, .discarded t r.rule])
          | none => (count, none, lines ++ [.discarded t r.rule])
      else (count, defaulted, lines)

/-- The lines for a token. -/
def reportToken (shiftTokens : List T) (reductions : List (Reduction T R))
    (default : Option Nat) (t : T) : List (ReportLine T R) :=
  (reductions.zipIdx.foldl (reportReduction default t)
    (if t ∈ shiftTokens then 1 else 0, none, [])).2.2

/-- The tokens of the report, and the index of the default reduction: the loops leave
`a_reduction` on the first one. -/
def reportedTokens (tokens : List T) (reductions : List (Reduction T R)) (noDefault : Bool) :
    List T × Option Nat :=
  if noDefault then (tokens, none)
  else
    let (tokens, count) := reductions.reverse.foldl
      (fun c r => r.lookaheads.reverse.foldl collectToken c) (tokens, 0)
    (tokens, if count > 0 then some 0 else none)

/-- The lines for the tokens, the last one first, and for the default reduction. -/
def reportTokens (shiftTokens : List T) (first : Reduction T R) (rest : List (Reduction T R)) :
    List T × Option Nat → List (ReportLine T R)
  | (tokens, default) =>
      tokens.reverse.flatMap (reportToken shiftTokens (first :: rest) default) ++
        (default.toList.map fun _ => .default first.rule) ++ [.blank]

/-- `print_reductions`. -/
def printReductions (m : Machine T V R Q) (s : MachineState T R Q) : List (ReportLine T R) :=
  let shiftTokens := m.shiftTokens s.shifts
  let noDefault := shiftTokens.any fun t => m.tokenId t == 1
  match s.reductions, noDefault with
  | [], _ => []
  | [r], false =>
      ((r.lookaheads.reverse.filter fun t => t ∈ shiftTokens || t ∈ s.errors).map
        fun t => .discarded t r.rule) ++ [.default r.rule, .blank]
  | first :: rest, noDefault =>
      reportTokens shiftTokens first rest
        (reportedTokens (shiftTokens ++ s.errors) (first :: rest) noDefault)

/-- The reductions that like a token. -/
def likers (reductions : List (Reduction T R)) (t : T) : List (Reduction T R) :=
  reductions.filter fun r => t ∈ r.lookaheads

section

variable {default : Option Nat} {t t' : T} {r : R} {reductions : List (Reduction T R)}
  {lines : List (ReportLine T R)} {k : Nat}

theorem likers_cons_of_mem {r : Reduction T R} (ht : t ∈ r.lookaheads) :
    likers (r :: reductions) t = r :: likers reductions t :=
  filter_cons_of_pos (decide_eq_true ht)

theorem likers_cons_of_notMem {r : Reduction T R} (ht : t ∉ r.lookaheads) :
    likers (r :: reductions) t = likers reductions t :=
  filter_cons_of_neg (by rw [decide_eq_true_eq]; exact ht)

theorem mem_likers {r : Reduction T R} :
    r ∈ likers reductions t ↔ r ∈ reductions ∧ t ∈ r.lookaheads := by
  rw [likers, mem_filter, decide_eq_true_eq]

theorem head?_likers (reductions : List (Reduction T R)) (t : T) :
    (likers reductions t).head? = handler reductions t :=
  head?_filter

/-- The reductions of a token after the first one are discarded. -/
theorem foldl_reportReduction_of_none (count : Nat) :
    ((reductions.zipIdx k).foldl (reportReduction default t) (count + 1, none, lines)).2.2 =
      lines ++ (likers reductions t).map fun r => .discarded t r.rule := by
  induction reductions generalizing k lines with
  | nil => exact (append_nil lines).symm
  | cons r reductions ih =>
      rw [zipIdx_cons, foldl_cons, reportReduction]
      by_cases ht : t ∈ r.lookaheads
      · rw [if_pos ht, if_neg (Nat.succ_ne_zero count), ih,
          likers_cons_of_mem ht, append_assoc]
        rfl
      · rw [if_neg ht, ih, likers_cons_of_notMem ht]

/-- The default reduction of a token is reported with the first one that is discarded. -/
theorem foldl_reportReduction_of_some (count : Nat) :
    ((reductions.zipIdx k).foldl (reportReduction default t) (count + 1, some r, lines)).2.2 =
      lines ++ match likers reductions t with
        | [] => []
        | rs => .reduce t r :: rs.map fun r => .discarded t r.rule := by
  induction reductions generalizing k lines with
  | nil => exact (append_nil lines).symm
  | cons r' reductions ih =>
      rw [zipIdx_cons, foldl_cons, reportReduction]
      by_cases ht : t ∈ r'.lookaheads
      · rw [if_pos ht, if_neg (Nat.succ_ne_zero count), foldl_reportReduction_of_none,
          likers_cons_of_mem ht, append_assoc]
        rfl
      · rw [if_neg ht, ih, likers_cons_of_notMem ht]

/-- The first reduction of a token, when it is not the default, is reported. -/
theorem foldl_reportReduction_zero (hdefault : ∀ j, k ≤ j → some j ≠ default) :
    ((reductions.zipIdx k).foldl (reportReduction default t) (0, none, lines)).2.2 =
      lines ++ match likers reductions t with
        | [] => []
        | r :: rs => .reduce t r.rule :: rs.map fun r => .discarded t r.rule := by
  induction reductions generalizing k lines with
  | nil => exact (append_nil lines).symm
  | cons r' reductions ih =>
      rw [zipIdx_cons, foldl_cons, reportReduction]
      by_cases ht : t ∈ r'.lookaheads
      · rw [if_pos ht, if_pos rfl, if_pos (hdefault k (Nat.le_refl k)),
          foldl_reportReduction_of_none, likers_cons_of_mem ht,
          append_assoc]
        rfl
      · rw [if_neg ht, ih fun j hj => hdefault j (Nat.le_of_succ_le hj),
          likers_cons_of_notMem ht]

variable {shiftTokens : List T} {first : Reduction T R}

/-- Only bracketed reductions are reported for a token that is shifted. -/
theorem reduce_notMem_reportToken (ht : t ∈ shiftTokens) :
    .reduce t' r ∉ reportToken shiftTokens reductions default t := by
  rw [reportToken, if_pos ht, foldl_reportReduction_of_none 0]
  exact reduce_notMem_discarded

/-- Without a default, the first reduction of a token is reported. -/
theorem reduce_mem_reportToken_none (ht : t ∉ shiftTokens) :
    .reduce t' r ∈ reportToken shiftTokens reductions none t ↔
      t' = t ∧ ∃ r', handler reductions t = some r' ∧ r'.rule = r := by
  rw [reportToken, if_neg ht, foldl_reportReduction_zero (fun j _ => Option.some_ne_none j),
    nil_append,
    ← head?_likers]
  cases likers reductions t with
  | nil =>
      refine iff_of_false not_mem_nil ?_
      rintro ⟨-, r', h, -⟩
      cases h
  | cons r' rs =>
      rw [mem_cons, or_iff_left reduce_notMem_discarded]
      constructor
      · intro h
        obtain ⟨rfl, rfl⟩ := ReportLine.reduce.inj h
        exact ⟨rfl, r', rfl, rfl⟩
      · rintro ⟨rfl, r'', hr'', rfl⟩
        rw [Option.some.inj hr'']

/-- With a default, the first reduction of a token is reported when it is not the default
or it is not alone. -/
theorem reduce_mem_reportToken_first (ht : t ∉ shiftTokens) :
    .reduce t' r ∈ reportToken shiftTokens (first :: reductions) (some 0) t ↔
      t' = t ∧ (∃ r', handler (first :: reductions) t = some r' ∧ r'.rule = r) ∧
        ∃ r' ∈ reductions, t ∈ r'.lookaheads := by
  have hdefault : ∀ j, 0 + 1 ≤ j → some j ≠ some 0 :=
    fun j hj h => Nat.ne_of_gt hj (Option.some.inj h)
  rw [reportToken, if_neg ht, zipIdx_cons, foldl_cons, reportReduction]
  by_cases hfirst : t ∈ first.lookaheads
  · rw [if_pos hfirst, if_pos rfl, if_neg (not_not.mpr rfl), foldl_reportReduction_of_some 0,
      nil_append, handler_cons_of_mem hfirst]
    cases hrs : likers reductions t with
    | nil =>
        refine iff_of_false not_mem_nil ?_
        rintro ⟨-, -, r', hr', ht'⟩
        have hmem := mem_likers.mpr ⟨hr', ht'⟩
        exact not_mem_nil (hrs ▸ hmem)
    | cons r' rs =>
        have hr' : r' ∈ likers reductions t := hrs ▸ mem_cons_self
        rw [mem_cons, or_iff_left reduce_notMem_discarded]
        constructor
        · intro h
          obtain ⟨rfl, rfl⟩ := ReportLine.reduce.inj h
          exact ⟨rfl, ⟨first, rfl, rfl⟩, r', mem_likers.mp hr'⟩
        · rintro ⟨rfl, ⟨r'', hr'', rfl⟩, -⟩
          rw [Option.some.inj hr'']
  · rw [if_neg hfirst, foldl_reportReduction_zero hdefault, nil_append,
      handler_cons_of_notMem hfirst, ← head?_likers]
    cases hrs : likers reductions t with
    | nil =>
        refine iff_of_false not_mem_nil ?_
        rintro ⟨-, ⟨r', h, -⟩, -⟩
        cases h
    | cons r' rs =>
        have hr' : r' ∈ likers reductions t := hrs ▸ mem_cons_self
        rw [mem_cons, or_iff_left reduce_notMem_discarded]
        constructor
        · intro h
          obtain ⟨rfl, rfl⟩ := ReportLine.reduce.inj h
          exact ⟨rfl, ⟨r', rfl, rfl⟩, r', mem_likers.mp hr'⟩
        · rintro ⟨rfl, ⟨r'', hr'', rfl⟩, -⟩
          rw [Option.some.inj hr'']

/-- The default is not reported with the tokens. -/
theorem default_notMem_foldl (l : List (Reduction T R × Nat))
    (c : Nat × Option R × List (ReportLine T R)) (hc : .default r ∉ c.2.2) :
    .default r ∉ (l.foldl (reportReduction default t) c).2.2 := by
  refine foldl_spec (fun _ (c : Nat × Option R × List (ReportLine T R)) => .default r ∉ c.2.2) ?_ hc
  rintro - ⟨r', j⟩ - ⟨count, defaulted, lines⟩ - hlines
  have happend : ∀ extra :
      List (ReportLine T R), .default r ∉ extra → .default r ∉ lines ++ extra :=
    fun extra hextra => mem_append.not.mpr (not_or.mpr ⟨hlines, hextra⟩)
  by_cases ht : t ∈ r'.lookaheads
  · rcases Nat.eq_zero_or_pos count with rfl | hcount
    · by_cases hj : some j ≠ default
      · simp only [reportReduction, if_pos ht, if_pos hj, if_true]
        exact happend _ (by simp)
      · simp only [reportReduction, if_pos ht, if_neg hj, if_true]
        exact hlines
    · cases defaulted with
      | none =>
          simp only [reportReduction, if_pos ht, if_neg (Nat.ne_of_gt hcount)]
          exact happend _ (by simp)
      | some rule =>
          simp only [reportReduction, if_pos ht, if_neg (Nat.ne_of_gt hcount)]
          exact happend _ (by simp)
  · simp only [reportReduction, if_neg ht]
    exact hlines

theorem default_notMem_reportToken :
    .default r ∉ reportToken shiftTokens reductions default t :=
  default_notMem_foldl _ _ not_mem_nil

/-- The loop that collects the tokens. -/
theorem foldl_collectToken (tokens lookaheads : List T) :
    (∀ t, t ∈ (lookaheads.foldl collectToken (tokens, 0)).1 ↔ t ∈ tokens ∨ t ∈ lookaheads) ∧
      (0 < (lookaheads.foldl collectToken (tokens, 0)).2 ↔ ∃ t ∈ lookaheads, t ∉ tokens) := by
  refine foldl_spec (fun done (c : List T × Nat) => (∀ t, t ∈ c.1 ↔ t ∈ tokens ∨ t ∈ done) ∧
    (0 < c.2 ↔ ∃ t ∈ done, t ∉ tokens)) ?_
    ⟨fun t => (or_iff_left not_mem_nil).symm, iff_of_false (Nat.lt_irrefl 0) fun h => nomatch h⟩
  rintro done t rest ⟨found, count⟩ - ⟨hfound, hcount⟩
  rw [collectToken]
  by_cases ht : t ∈ found
  · rw [if_pos ht]
    have htokens := (hfound t).mp ht
    constructor
    · intro t'
      rw [hfound t', mem_append, mem_singleton, ← or_assoc]
      exact (or_iff_left_of_imp fun h => h ▸ htokens).symm
    · rw [hcount]
      constructor
      · rintro ⟨t', ht', hnot⟩
        exact ⟨t', mem_append_left [t] ht', hnot⟩
      · rintro ⟨t', ht', hnot⟩
        rcases mem_append.mp ht' with ht' | ht'
        · exact ⟨t', ht', hnot⟩
        · have heq := mem_singleton.mp ht'
          exact ⟨t, (htokens.resolve_left (heq ▸ hnot)), heq ▸ hnot⟩
  · rw [if_neg ht]
    constructor
    · intro t'
      rw [mem_append, hfound t', mem_append, or_assoc]
    · exact iff_of_true (Nat.succ_pos count) ⟨t, mem_append_right done
        (mem_singleton.mpr rfl), fun h => ht ((hfound t).mpr (Or.inl h))⟩

/-- The tokens of the report, and its default. -/
theorem reportedTokens_false (tokens : List T) (reductions : List (Reduction T R)) :
    ∃ found default, reportedTokens tokens reductions false = (found, default) ∧
      (∀ t, t ∈ found ↔ t ∈ tokens ∨ ∃ r ∈ reductions, t ∈ r.lookaheads) ∧
      (default = none ∧ (∀ r ∈ reductions, ∀ t ∈ r.lookaheads, t ∈ tokens) ∨
        default = some 0 ∧ ∃ r ∈ reductions, ∃ t ∈ r.lookaheads, t ∉ tokens) := by
  have hflat : ∀ t, t ∈ reductions.reverse.flatMap (fun r => r.lookaheads.reverse) ↔
      ∃ r ∈ reductions, t ∈ r.lookaheads := by
    intro t
    simp only [mem_flatMap, mem_reverse]
  obtain ⟨hfound, hcount⟩ := foldl_collectToken tokens
    (reductions.reverse.flatMap fun r => r.lookaheads.reverse)
  rw [foldl_flatMap] at hfound hcount
  simp only [hflat] at hfound hcount
  refine ⟨_, _, rfl, hfound, ?_⟩
  by_cases hpos : 0 < (reductions.reverse.foldl
      (fun c r => r.lookaheads.reverse.foldl collectToken c) (tokens, 0)).2
  · obtain ⟨t, ⟨r, hr, ht⟩, hnot⟩ := hcount.mp hpos
    exact Or.inr ⟨if_pos hpos, r, hr, t, ht, hnot⟩
  · refine Or.inl ⟨if_neg hpos, fun r hr t ht => ?_⟩
    by_contra hnot
    exact hpos (hcount.mpr ⟨t, ⟨r, hr, ht⟩, hnot⟩)

end

/-- The default is the rule of a reduction with the most actions of the row, and there is
none when "error" is shifted or the row has no reduction. -/
def IsMostCommon (m : Machine T V R Q) (nbTokens : Nat) (s : MachineState T R Q)
    (row : Nat → Int) (d : Int) : Prop :=
  ((m.shiftTokens s.shifts).any (fun t => m.tokenId t == 1) = true ∨
      ∀ r ∈ s.reductions, countActions nbTokens row (-m.ruleId r.rule) = 0) ∧ d = 0 ∨
    (m.shiftTokens s.shifts).any (fun t => m.tokenId t == 1) = false ∧
      ∃ r ∈ s.reductions, 0 < countActions nbTokens row (-m.ruleId r.rule) ∧
        d = m.ruleId r.rule ∧ ∀ r' ∈ s.reductions,
          countActions nbTokens row (-m.ruleId r'.rule) ≤
            countActions nbTokens row (-m.ruleId r.rule)

/-- The lines report the reductions that the tables do. -/
structure Reports (m : Machine T V R Q) (table : StateTable) (lines : List (ReportLine T R)) :
    Prop where
  default : ∀ d, table.defaultRule = d ∧ d ≠ 0 ↔ ∃ r, .default r ∈ lines ∧ m.ruleId r = d
  sound : ∀ t r, .reduce t r ∈ lines → table.perform (m.tokenId t) = .reduce (m.ruleId r)
  complete : ∀ t d, table.perform (m.tokenId t) = .reduce d → ∃ r, m.ruleId r = d ∧
    (.reduce t r ∈ lines ∨ .default r ∈ lines ∧ ∀ r', .reduce t r' ∉ lines)

/-- The token is neither shifted nor an error. -/
def Free (m : Machine T V R Q) (s : MachineState T R Q) (t : T) : Prop :=
  t ∉ s.errors ∧ t ∉ m.shiftTokens s.shifts

/-- The states for which the report and the tables agree: they do not look for the same
default reduction. -/
def ReportFits (m : Machine T V R Q) (s : MachineState T R Q) : Prop :=
  if (m.shiftTokens s.shifts).any (fun t => m.tokenId t == 1) then
    ∀ r ∈ s.reductions, ∀ t ∈ r.lookaheads, t ∈ m.shiftTokens s.shifts
  else
    match s.reductions with
    | [] => True
    | [r] => ∃ t ∈ r.lookaheads, m.Free s t
    | first :: rest =>
        (∀ r ∈ rest, ∀ t ∈ r.lookaheads, m.Free s t → t ∈ first.lookaheads) ∧
          ∀ t ∈ s.errors, t ∉ m.shiftTokens s.shifts →
            (∀ r ∈ first :: rest, t ∉ r.lookaheads) ∨
              (∃ t' ∈ first.lookaheads, m.Free s t') ∧ ∀ r ∈ rest, t ∉ r.lookaheads

section

variable {m : Machine T V R Q} {s : MachineState T R Q} {first : Reduction T R}
  {rest : List (Reduction T R)}

theorem exists_handler {reductions : List (Reduction T R)} {r : Reduction T R} {t : T}
    (hr : r ∈ reductions) (ht : t ∈ r.lookaheads) : ∃ r', handler reductions t = some r' :=
  Option.isSome_iff_exists.mp (find?_isSome.mpr ⟨r, hr, decide_eq_true ht⟩)

/-- The lines that are printed when there is no default. -/
def NoDefaultLines (m : Machine T V R Q) (s : MachineState T R Q)
    (lines : List (ReportLine T R)) : Prop :=
  (∀ r, .default r ∉ lines) ∧ ∀ t r, .reduce t r ∈ lines ↔
    t ∈ s.errors ∧ t ∉ m.shiftTokens s.shifts ∧ ∃ r', handler s.reductions t = some r' ∧ r'.rule = r

/-- The lines that are printed when the first reduction is the default. -/
def FirstDefaultLines (m : Machine T V R Q) (s : MachineState T R Q) (first : Reduction T R)
    (rest : List (Reduction T R)) (lines : List (ReportLine T R)) : Prop :=
  (∀ r, .default r ∈ lines ↔ r = first.rule) ∧ ∀ t r, .reduce t r ∈ lines ↔
    t ∉ m.shiftTokens s.shifts ∧ (∃ r', handler s.reductions t = some r' ∧ r'.rule = r) ∧
      ∃ r' ∈ rest, t ∈ r'.lookaheads

theorem printReductions_eq (hreductions : s.reductions = first :: rest)
    (hcase : (m.shiftTokens s.shifts).any (fun t => m.tokenId t == 1) = true ∨ rest ≠ []) :
    m.printReductions s = reportTokens (m.shiftTokens s.shifts) first rest
      (reportedTokens (m.shiftTokens s.shifts ++ s.errors) (first :: rest)
        ((m.shiftTokens s.shifts).any fun t => m.tokenId t == 1)) := by
  unfold printReductions
  rw [hreductions]
  cases rest with
  | nil => simp only [hcase.resolve_right (fun h => h rfl)]
  | cons second rest => rfl

section

variable {tokens shiftTokens : List T} {default : Option Nat} {t : T} {r : R}

theorem reduce_mem_reportTokens :
    .reduce t r ∈ reportTokens shiftTokens first rest (tokens, default) ↔
      ∃ t' ∈ tokens, .reduce t r ∈ reportToken shiftTokens (first :: rest) default t' := by
  rw [reportTokens]
  simp only [mem_append, mem_flatMap, mem_reverse]
  cases default <;> simp

theorem default_mem_reportTokens :
    .default r ∈ reportTokens shiftTokens first rest (tokens, default) ↔
      default.isSome = true ∧ r = first.rule := by
  rw [reportTokens]
  simp only [mem_append, mem_flatMap, default_notMem_reportToken]
  cases default <;> simp

end

/-- The lines when the report has no default: the tokens are shifted or errors. -/
theorem noDefaultLines_of_tokens {tokens : List T} (hreductions : s.reductions = first :: rest)
    (htokens : ∀ t, t ∈ tokens ↔ t ∈ m.shiftTokens s.shifts ∨ t ∈ s.errors) :
    m.NoDefaultLines s (reportTokens (m.shiftTokens s.shifts) first rest (tokens, none)) := by
  constructor
  · intro r hr
    exact Bool.false_ne_true (default_mem_reportTokens.mp hr).1
  · intro t r
    rw [reduce_mem_reportTokens, hreductions]
    constructor
    · rintro ⟨t', ht', hline⟩
      by_cases hshift : t' ∈ m.shiftTokens s.shifts
      · exact absurd hline (reduce_notMem_reportToken hshift)
      · obtain ⟨rfl, hr⟩ := (reduce_mem_reportToken_none hshift).mp hline
        exact ⟨((htokens t).mp ht').resolve_left hshift, hshift, hr⟩
    · rintro ⟨herror, hshift, hr⟩
      exact ⟨t, (htokens t).mpr (Or.inr herror),
        (reduce_mem_reportToken_none hshift).mpr ⟨rfl, hr⟩⟩

theorem printReductions_of_nil (hreductions : s.reductions = []) :
    m.NoDefaultLines s (m.printReductions s) := by
  unfold printReductions
  rw [hreductions]
  refine ⟨fun r => not_mem_nil, fun t r => iff_of_false not_mem_nil ?_⟩
  rintro ⟨-, -, r', hr', -⟩
  exact not_mem_nil (hreductions ▸ (handler_mem hr').1)

theorem printReductions_of_no_default
    (hshift : (m.shiftTokens s.shifts).any (fun t => m.tokenId t == 1) = true) :
    m.NoDefaultLines s (m.printReductions s) := by
  cases hreductions : s.reductions with
  | nil => exact printReductions_of_nil hreductions
  | cons first rest =>
      have htokens : reportedTokens (m.shiftTokens s.shifts ++ s.errors) (first :: rest)
          ((m.shiftTokens s.shifts).any fun t => m.tokenId t == 1) =
          (m.shiftTokens s.shifts ++ s.errors, none) := by
        rw [hshift]
        rfl
      rw [printReductions_eq hreductions (Or.inl hshift), htokens]
      exact noDefaultLines_of_tokens hreductions fun t => mem_append

/-- The report of several reductions, when "error" is not shifted. -/
theorem printReductions_of_cons (hreductions : s.reductions = first :: rest) (hrest : rest ≠ [])
    (hshift : (m.shiftTokens s.shifts).any (fun t => m.tokenId t == 1) = false) :
    (∀ r ∈ s.reductions, ∀ t ∈ r.lookaheads, ¬m.Free s t) ∧
        m.NoDefaultLines s (m.printReductions s) ∨
      (∃ r ∈ s.reductions, ∃ t ∈ r.lookaheads, m.Free s t) ∧
        m.FirstDefaultLines s first rest (m.printReductions s) := by
  have hmem : ∀ t, t ∈ m.shiftTokens s.shifts ++ s.errors ↔ ¬m.Free s t := by
    intro t
    rw [Free, not_and_or, not_not, not_not, mem_append, or_comm]
  obtain ⟨found, default, htokens, hfound, ⟨rfl, hnone⟩ | ⟨rfl, r, hr, t, ht, hfree⟩⟩ :=
    reportedTokens_false (m.shiftTokens s.shifts ++ s.errors) (first :: rest)
  · rw [← hshift] at htokens
    rw [printReductions_eq hreductions (Or.inr hrest), htokens]
    refine Or.inl ⟨fun r hr t ht => (hmem t).mp (hnone r (hreductions ▸ hr) t ht),
      noDefaultLines_of_tokens hreductions fun t => ?_⟩
    rw [hfound t, ← mem_append, or_iff_left_of_imp]
    rintro ⟨r, hr, ht⟩
    exact hnone r hr t ht
  · rw [← hshift] at htokens
    rw [printReductions_eq hreductions (Or.inr hrest), htokens]
    refine Or.inr ⟨⟨r, hreductions ▸ hr, t, ht, not_not.mp ((hmem t).not.mp hfree)⟩,
      fun r => default_mem_reportTokens.trans (and_iff_right rfl), fun t r => ?_⟩
    rw [reduce_mem_reportTokens, hreductions]
    constructor
    · rintro ⟨t', ht', hline⟩
      by_cases hshift : t' ∈ m.shiftTokens s.shifts
      · exact absurd hline (reduce_notMem_reportToken hshift)
      · obtain ⟨rfl, hr⟩ := (reduce_mem_reportToken_first hshift).mp hline
        exact ⟨hshift, hr⟩
    · rintro ⟨hshift, hr⟩
      obtain ⟨r', hr', ht'⟩ := hr.2
      exact ⟨t, (hfound t).mpr (Or.inr ⟨r', mem_cons_of_mem first hr', ht'⟩),
        (reduce_mem_reportToken_first hshift).mpr ⟨rfl, hr⟩⟩

/-- The report of one reduction, when "error" is not shifted. -/
theorem printReductions_of_singleton (hreductions : s.reductions = [first])
    (hshift : (m.shiftTokens s.shifts).any (fun t => m.tokenId t == 1) = false) :
    m.FirstDefaultLines s first [] (m.printReductions s) := by
  unfold printReductions
  rw [hreductions]
  simp only [hshift]
  constructor
  · intro r
    simp
  · intro t r
    simp

section

variable {nbTokens : Nat} {row : Nat → Int} {table : StateTable} {lines : List (ReportLine T R)}

/-- Without a default, a reduction is not reported and done at once. -/
theorem reports_iff_of_no_default (hlines : m.NoDefaultLines s lines)
    (hzero : table.defaultRule = 0)
    (hperform : ∀ t e, table.perform (m.tokenId t) = .reduce e ↔
      (∃ r, m.Handles s r t ∧ m.ruleId r.rule = e) ∨
        m.tokenAction s t = 0 ∧ table.defaultRule ≠ 0 ∧ table.defaultRule = e) :
    m.Reports table lines ↔
      ∀ r ∈ s.reductions, ∀ t ∈ r.lookaheads, t ∈ m.shiftTokens s.shifts := by
  have hreduce : ∀ t e, table.perform (m.tokenId t) = .reduce e →
      ∃ r, m.Handles s r t ∧ m.ruleId r.rule = e := by
    intro t e he
    exact ((hperform t e).mp he).resolve_right fun h => h.2.1 hzero
  constructor
  · intro hreports r hr t ht
    by_contra hshift
    obtain ⟨r', hr'⟩ := exists_handler hr ht
    by_cases herror : t ∈ s.errors
    · have hline := (hlines.2 t r'.rule).mpr ⟨herror, hshift, r', hr', rfl⟩
      obtain ⟨r'', hr'', -⟩ := hreduce t _ (hreports.sound t _ hline)
      exact hr''.1 herror
    · have hdone := (hperform t _).mpr (Or.inl ⟨r', ⟨herror, hshift, hr'⟩, rfl⟩)
      obtain ⟨rule, -, hline | ⟨hline, -⟩⟩ := hreports.complete t _ hdone
      · exact herror ((hlines.2 t rule).mp hline).1
      · exact hlines.1 rule hline
  · intro hshifted
    refine ⟨fun d => ?_, fun t r hline => ?_, fun t d hdone => ?_⟩
    · refine iff_of_false (fun h => h.2 (h.1.symm.trans hzero)) ?_
      rintro ⟨r, hline, -⟩
      exact hlines.1 r hline
    · obtain ⟨-, hshift, r', hr', -⟩ := (hlines.2 t r).mp hline
      exact absurd (hshifted r' (handler_mem hr').1 t (handler_mem hr').2) hshift
    · obtain ⟨r, hr, -⟩ := hreduce t d hdone
      exact absurd (hshifted r (handler_mem hr.2.2).1 t (handler_mem hr.2.2).2) hr.2.1

/-- The first reduction is the last one that handles a token when it likes all their tokens. -/
theorem lastHandler_eq_first (hs : m.IsNumbered nbTokens s)
    (hreductions : s.reductions = first :: rest) {r : Reduction T R} (hlast : m.LastHandler s r) :
    r = first ↔ ∀ r' ∈ rest, ∀ t ∈ r'.lookaheads, m.Free s t → t ∈ first.lookaheads := by
  obtain ⟨before, after, hlist, ⟨t, ht⟩, hafter⟩ := hlast
  have hnodup := hs.ruleId_nodup
  rw [hreductions, map_cons, nodup_cons] at hnodup
  have hnotRest : first ∉ rest := fun h => hnodup.1 (mem_map_of_mem h)
  rw [hreductions] at hlist
  constructor
  · rintro rfl r' hr' t' ht' hfree
    cases before with
    | cons first' before =>
        obtain ⟨-, hrest⟩ := cons.inj hlist
        exact absurd (hrest ▸ mem_append_right _ mem_cons_self) hnotRest
    | nil =>
        obtain ⟨-, rfl⟩ := cons.inj hlist
        obtain ⟨r'', hr''⟩ := exists_handler (mem_cons_of_mem r hr') ht'
        rcases mem_cons.mp (handler_mem hr'').1 with rfl | hmem
        · exact (handler_mem hr'').2
        · exact absurd ⟨hfree.1, hfree.2, hreductions ▸ hr''⟩ (hafter r'' hmem t')
  · intro hfirst
    have hr := handler_mem ht.2.2
    rw [hreductions] at hr
    rcases mem_cons.mp hr.1 with heq | hmem
    · exact heq
    · have hlike := hfirst r hmem t hr.2 ⟨ht.1, ht.2.1⟩
      have hhandler := ht.2.2
      rw [hreductions, handler_cons_of_mem hlike] at hhandler
      exact (Option.some.inj hhandler).symm

/-- With the first reduction as the default of the report, it has to be that of the table, and
the later ones are not those of an error. -/
theorem reports_iff_of_first_default (hs : m.IsNumbered nbTokens s)
    (hreductions : s.reductions = first :: rest)
    (hlines : m.FirstDefaultLines s first rest lines) {last : Reduction T R}
    (hlast : m.LastHandler s last) (hdefault : table.defaultRule = m.ruleId last.rule)
    (hperform : ∀ t e, table.perform (m.tokenId t) = .reduce e ↔
      (∃ r, m.Handles s r t ∧ m.ruleId r.rule = e) ∨
        m.tokenAction s t = 0 ∧ table.defaultRule ≠ 0 ∧ table.defaultRule = e) :
    m.Reports table lines ↔ last = first ∧
      ∀ t ∈ s.errors, t ∉ m.shiftTokens s.shifts → ∀ r ∈ rest, t ∉ r.lookaheads := by
  have hlastMem : last ∈ s.reductions := by
    obtain ⟨before, after, hlist, -⟩ := hlast
    exact hlist ▸ mem_append_right _ mem_cons_self
  have hfirstMem : first ∈ s.reductions := hreductions ▸ mem_cons_self
  have hne : table.defaultRule ≠ 0 := by
    rw [hdefault]
    exact Int.ne_of_gt (hs.ruleId_pos last hlastMem)
  constructor
  · intro hreports
    constructor
    · obtain ⟨rule, hline, hid⟩ := (hreports.default table.defaultRule).mp ⟨rfl, hne⟩
      rw [(hlines.1 rule).mp hline, hdefault] at hid
      exact hs.ruleId_inj hlastMem hfirstMem hid.symm
    · intro t herror hshift r hr ht
      obtain ⟨r', hr'⟩ := exists_handler (hreductions ▸ mem_cons_of_mem first hr) ht
      have hline := (hlines.2 t r'.rule).mpr ⟨hshift, ⟨r', hr', rfl⟩, r, hr, ht⟩
      rcases (hperform t _).mp (hreports.sound t _ hline) with ⟨r'', hr'', -⟩ | ⟨hzero, -⟩
      · exact hr''.1 herror
      · rw [tokenAction_of_error herror] at hzero
        exact absurd hzero (by decide)
  · rintro ⟨rfl, herrors⟩
    have hlikes := (lastHandler_eq_first hs hreductions hlast).mp rfl
    have hsound : ∀ t r, .reduce t r ∈ lines →
        table.perform (m.tokenId t) = .reduce (m.ruleId r) := by
      intro t r hline
      obtain ⟨hshift, ⟨r', hr', rfl⟩, r'', hr'', ht⟩ := (hlines.2 t r).mp hline
      have herror : t ∉ s.errors := fun herror => herrors t herror hshift r'' hr'' ht
      exact (hperform t _).mpr (Or.inl ⟨r', ⟨herror, hshift, hr'⟩, rfl⟩)
    refine ⟨fun d => ?_, hsound, fun t d hdone => ?_⟩
    · rw [hdefault]
      constructor
      · rintro ⟨rfl, -⟩
        exact ⟨last.rule, (hlines.1 _).mpr rfl, rfl⟩
      · rintro ⟨rule, hline, rfl⟩
        rw [(hlines.1 rule).mp hline]
        exact ⟨rfl, hdefault ▸ hne⟩
    · by_cases hline : ∃ r', .reduce t r' ∈ lines
      · obtain ⟨r', hr'⟩ := hline
        exact ⟨r', ParserAction.reduce.inj ((hsound t r' hr').symm.trans hdone), Or.inl hr'⟩
      · refine ⟨last.rule, ?_, Or.inr ⟨(hlines.1 _).mpr rfl, fun r' hr' => hline ⟨r', hr'⟩⟩⟩
        rcases (hperform t d).mp hdone with ⟨r, hr, rfl⟩ | ⟨-, -, rfl⟩
        · have hmem := handler_mem hr.2.2
          rw [hreductions] at hmem
          rcases mem_cons.mp hmem.1 with rfl | hrest
          · rfl
          · have hlike := hlikes r hrest t hmem.2 ⟨hr.1, hr.2.1⟩
            have hhandler := hr.2.2
            rw [hreductions, handler_cons_of_mem hlike] at hhandler
            rw [Option.some.inj hhandler]
        · exact hdefault.symm

theorem isMostCommon_zero (hs : m.IsNumbered nbTokens s) (hrow : m.RowOf row (m.tokenAction s))
    (h : (m.shiftTokens s.shifts).any (fun t => m.tokenId t == 1) = true ∨
      ∀ r ∈ s.reductions, ∀ t, ¬m.Handles s r t) : m.IsMostCommon nbTokens s row 0 := by
  refine Or.inl ⟨h.imp_right fun hnone r hr => ?_, rfl⟩
  by_contra hcount
  obtain ⟨t, ht⟩ := (countActions_pos hs hrow hr).mp (Nat.pos_of_ne_zero hcount)
  exact hnone r hr t ht

/-- The first reduction is the most common one when it is the last one that handles a token. -/
theorem isMostCommon_first (hs : m.IsNumbered nbTokens s) (hrow : m.RowOf row (m.tokenAction s))
    (hreductions : s.reductions = first :: rest)
    (hshift : (m.shiftTokens s.shifts).any (fun t => m.tokenId t == 1) = false)
    (hlast : m.LastHandler s first) : m.IsMostCommon nbTokens s row (m.ruleId first.rule) := by
  have hmem : first ∈ s.reductions := hreductions ▸ mem_cons_self
  have hlikes := (lastHandler_eq_first hs hreductions hlast).mp rfl
  obtain ⟨-, -, -, hhandles, -⟩ := hlast
  refine Or.inr ⟨hshift, first, hmem, (countActions_pos hs hrow hmem).mpr hhandles, rfl,
    fun r hr => ?_⟩
  rw [hreductions] at hr
  rcases mem_cons.mp hr with rfl | hrest
  · exact Nat.le_refl _
  · by_contra hlt
    have hmem' : r ∈ s.reductions := hreductions ▸ hr
    obtain ⟨t, ht⟩ := (countActions_pos hs hrow hmem').mp (by omega)
    have hlike := hlikes r hrest t (handler_mem ht.2.2).2 ⟨ht.1, ht.2.1⟩
    have hhandler := ht.2.2
    rw [hreductions, handler_cons_of_mem hlike] at hhandler
    rw [Option.some.inj hhandler] at hlt
    exact hlt (Nat.le_refl _)

theorem handles_free {r : Reduction T R} {t : T} (h : m.Handles s r t) :
    r ∈ s.reductions ∧ t ∈ r.lookaheads ∧ m.Free s t :=
  ⟨(handler_mem h.2.2).1, (handler_mem h.2.2).2, h.1, h.2.1⟩

theorem exists_handles {r : Reduction T R} {t : T} (hr : r ∈ s.reductions)
    (ht : t ∈ r.lookaheads) (hfree : m.Free s t) : ∃ r' ∈ s.reductions, ∃ t, m.Handles s r' t := by
  obtain ⟨r', hr'⟩ := exists_handler hr ht
  exact ⟨r', (handler_mem hr').1, t, hfree.1, hfree.2, hr'⟩

/-- One reduction: its rule is reported as the default. -/
theorem fits_of_singleton (hs : m.IsNumbered nbTokens s) (hrow : m.RowOf row (m.tokenAction s))
    (hreductions : s.reductions = [first])
    (hshift : (m.shiftTokens s.shifts).any (fun t => m.tokenId t == 1) = false)
    (hdefault : (∀ r ∈ s.reductions, ∀ t, ¬m.Handles s r t) ∧ table.defaultRule = 0 ∨
      ∃ r, m.LastHandler s r ∧ table.defaultRule = m.ruleId r.rule)
    (hperform : ∀ t e, table.perform (m.tokenId t) = .reduce e ↔
      (∃ r, m.Handles s r t ∧ m.ruleId r.rule = e) ∨
        m.tokenAction s t = 0 ∧ table.defaultRule ≠ 0 ∧ table.defaultRule = e) :
    m.IsMostCommon nbTokens s row table.defaultRule ∧ m.Reports table (m.printReductions s) ↔
      ∃ t ∈ first.lookaheads, m.Free s t := by
  have hlines := printReductions_of_singleton hreductions hshift
  have hmem : first ∈ s.reductions := hreductions ▸ mem_cons_self
  rcases hdefault with ⟨hnone, hzero⟩ | ⟨last, hlast, hlastDefault⟩
  · refine iff_of_false ?_ ?_
    · rintro ⟨-, hreports⟩
      have hdefault := (hreports.default _).mpr ⟨first.rule, (hlines.1 _).mpr rfl, rfl⟩
      exact hdefault.2 (hdefault.1.symm.trans hzero)
    · rintro ⟨t, ht, hfree⟩
      obtain ⟨r', hr', t', ht'⟩ := exists_handles hmem ht hfree
      exact hnone r' hr' t' ht'
  · obtain rfl : last = first := (lastHandler_eq_first hs hreductions hlast).mpr nofun
    obtain ⟨-, -, -, ⟨t, ht⟩, -⟩ := id hlast
    refine iff_of_true ⟨?_, ?_⟩ ⟨t, (handles_free ht).2⟩
    · rw [hlastDefault]
      exact isMostCommon_first hs hrow hreductions hshift hlast
    · exact (reports_iff_of_first_default hs hreductions hlines hlast hlastDefault hperform).mpr
        ⟨rfl, fun _ _ _ => nofun⟩

/-- Several reductions. -/
theorem fits_of_cons (hs : m.IsNumbered nbTokens s) (hrow : m.RowOf row (m.tokenAction s))
    (hreductions : s.reductions = first :: rest) (hrest : rest ≠ [])
    (hshift : (m.shiftTokens s.shifts).any (fun t => m.tokenId t == 1) = false)
    (hdefault : (∀ r ∈ s.reductions, ∀ t, ¬m.Handles s r t) ∧ table.defaultRule = 0 ∨
      ∃ r, m.LastHandler s r ∧ table.defaultRule = m.ruleId r.rule)
    (hperform : ∀ t e, table.perform (m.tokenId t) = .reduce e ↔
      (∃ r, m.Handles s r t ∧ m.ruleId r.rule = e) ∨
        m.tokenAction s t = 0 ∧ table.defaultRule ≠ 0 ∧ table.defaultRule = e) :
    m.IsMostCommon nbTokens s row table.defaultRule ∧ m.Reports table (m.printReductions s) ↔
      (∀ r ∈ rest, ∀ t ∈ r.lookaheads, m.Free s t → t ∈ first.lookaheads) ∧
        ∀ t ∈ s.errors, t ∉ m.shiftTokens s.shifts →
          (∀ r ∈ first :: rest, t ∉ r.lookaheads) ∨
            (∃ t' ∈ first.lookaheads, m.Free s t') ∧ ∀ r ∈ rest, t ∉ r.lookaheads := by
  rcases printReductions_of_cons hreductions hrest hshift with
    ⟨hfree, hlines⟩ | ⟨⟨r, hr, t, ht, hfree⟩, hlines⟩
  · have hnone : ∀ r ∈ s.reductions, ∀ t, ¬m.Handles s r t :=
      fun r hr t ht => hfree r hr t (handles_free ht).2.1 (handles_free ht).2.2
    rcases hdefault with ⟨-, hzero⟩ | ⟨last, ⟨-, -, -, ⟨t, ht⟩, -⟩, -⟩
    · have hcommon := isMostCommon_zero hs hrow (Or.inr hnone)
      rw [reports_iff_of_no_default hlines hzero hperform, hzero, and_iff_right hcommon,
        hreductions]
      constructor
      · intro hshifted
        refine ⟨fun r hr t ht hfree' => ?_, fun t _ hnot => Or.inl fun r hr ht => ?_⟩
        · exact absurd (hshifted r (mem_cons_of_mem first hr) t ht) hfree'.2
        · exact hnot (hshifted r hr t ht)
      · rintro ⟨-, herrors⟩ r hr t ht
        by_contra hnot
        have herror : t ∈ s.errors := by
          by_contra herror
          exact hfree r (hreductions ▸ hr) t ht ⟨herror, hnot⟩
        rcases herrors t herror hnot with hno | ⟨⟨t', ht', hfree'⟩, -⟩
        · exact hno r hr ht
        · exact hfree first (hreductions ▸ mem_cons_self) t' ht' hfree'
    · exact absurd ht (hnone last (handles_free ht).1 t)
  · obtain ⟨r', hr', t', ht'⟩ := exists_handles hr ht hfree
    rcases hdefault with ⟨hnone, -⟩ | ⟨last, hlast, hlastDefault⟩
    · exact absurd ht' (hnone r' hr' t')
    · rw [reports_iff_of_first_default hs hreductions hlines hlast hlastDefault hperform,
        ← lastHandler_eq_first hs hreductions hlast]
      constructor
      · rintro ⟨-, rfl, herrors⟩
        obtain ⟨-, -, -, ⟨t, ht⟩, -⟩ := hlast
        exact ⟨rfl, fun t' herror hnot =>
          Or.inr ⟨⟨t, (handles_free ht).2⟩, herrors t' herror hnot⟩⟩
      · rintro ⟨rfl, herrors⟩
        refine ⟨?_, rfl, fun t herror hnot r hr => ?_⟩
        · rw [hlastDefault]
          exact isMostCommon_first hs hrow hreductions hshift hlast
        · rcases herrors t herror hnot with hno | ⟨-, hno⟩
          · exact hno r (mem_cons_of_mem last hr)
          · exact hno r hr

end

/-- The default of a state is its most common reduction, and the report agrees with the
tables, exactly when `ReportFits`. -/
theorem putYydefact_reported_iff {nbTokens : Nat} (hs : m.IsNumbered nbTokens s)
    (hneeded : s.lookaheadNeeded = true) :
    (∃ row noDefault table, m.actionRow nbTokens s = some (row, noDefault) ∧
      m.putYydefact nbTokens s = some table ∧
      m.IsMostCommon nbTokens s row table.defaultRule ∧
      m.Reports table (m.printReductions s)) ↔ m.ReportFits s := by
  obtain ⟨row, table, hrun, hrow, hput, hdefault, hperform⟩ := exists_putYydefact hs hneeded
  have hiff : (∃ row noDefault table, m.actionRow nbTokens s = some (row, noDefault) ∧
      m.putYydefact nbTokens s = some table ∧
      m.IsMostCommon nbTokens s row table.defaultRule ∧ m.Reports table (m.printReductions s)) ↔
      m.IsMostCommon nbTokens s row table.defaultRule ∧ m.Reports table (m.printReductions s) := by
    constructor
    · rintro ⟨row', noDefault, table', hrun', hput', h⟩
      obtain ⟨rfl, -⟩ := Prod.mk.inj (Option.some.inj (hrun.symm.trans hrun'))
      obtain rfl := Option.some.inj (hput.symm.trans hput')
      exact h
    · intro h
      exact ⟨row, _, table, hrun, hput, h⟩
  rw [hiff, ReportFits]
  cases hshift : (m.shiftTokens s.shifts).any fun t => m.tokenId t == 1 with
  | true =>
      have hzero : table.defaultRule = 0 := by
        rcases hdefault with ⟨-, hzero⟩ | ⟨hfalse, -⟩
        · exact hzero
        · exact absurd (hshift.symm.trans hfalse) Bool.true_eq_false.mp
      rw [if_pos rfl, hzero, and_iff_right (isMostCommon_zero hs hrow (Or.inl hshift))]
      exact reports_iff_of_no_default (printReductions_of_no_default hshift) hzero hperform
  | false =>
      rw [if_neg Bool.false_ne_true]
      have hdefault : (∀ r ∈ s.reductions, ∀ t, ¬m.Handles s r t) ∧ table.defaultRule = 0 ∨
          ∃ r, m.LastHandler s r ∧ table.defaultRule = m.ruleId r.rule := by
        rcases hdefault with ⟨htrue | hnone, hzero⟩ | ⟨-, hlast⟩
        · exact absurd (hshift.symm.trans htrue) Bool.false_ne_true
        · exact Or.inl ⟨hnone, hzero⟩
        · exact Or.inr hlast
      cases hreductions : s.reductions with
      | nil =>
          rcases hdefault with ⟨hnone, hzero⟩ | ⟨r, ⟨before, after, hlist, -⟩, -⟩
          · have hreports := reports_iff_of_no_default (printReductions_of_nil hreductions) hzero
              hperform
            rw [hzero]
            refine iff_of_true ⟨isMostCommon_zero hs hrow (Or.inr hnone), hreports.mpr ?_⟩ trivial
            exact fun r hr => absurd (hreductions ▸ hr) not_mem_nil
          · rw [hreductions] at hlist
            exact absurd hlist (by simp)
      | cons first rest =>
          cases rest with
          | nil => exact fits_of_singleton hs hrow hreductions hshift hdefault hperform
          | cons second rest =>
              exact fits_of_cons hs hrow hreductions (cons_ne_nil second rest) hshift hdefault
                hperform

end

/-- A state with two reductions after the resolution of its conflicts: the first one likes
the tokens of the second one. -/
def agreedState : MachineState Nat Nat Nat :=
  { expressionState with shifts := [], reductions := [⟨1, [0, 2, 3]⟩, ⟨2, [3]⟩] }

theorem putYydefact_reported_iff_agreed :
    ∃ row noDefault table, expressionMachine.actionRow 4 agreedState = some (row, noDefault) ∧
      expressionMachine.putYydefact 4 agreedState = some table ∧
      expressionMachine.IsMostCommon 4 agreedState row table.defaultRule ∧
      expressionMachine.Reports table (expressionMachine.printReductions agreedState) :=
  (putYydefact_reported_iff
    { tokenId_inj := fun _ _ h => h
      lookaheads_le := by decide
      shifts_le := nofun
      errors_le := nofun
      stateId_pos := nofun
      ruleId_pos := by decide
      ruleId_ne := by decide
      ruleId_nodup := by decide } rfl).mpr
    ⟨fun r hr t ht _ => by
      obtain rfl := mem_singleton.mp hr
      obtain rfl := mem_singleton.mp ht
      decide, nofun⟩

/-- The first reduction handles two tokens, and the second one a token of its own. -/
def disagreedState : MachineState Nat Nat Nat :=
  { expressionState with shifts := [], reductions := [⟨1, [2, 3]⟩, ⟨2, [4]⟩] }

/-- The loops do not reset `count`: the tables get the last reduction as the default, and the
report the first one. -/
theorem putYydefact_disagreed :
    expressionMachine.resolveConflicts disagreedState = some (disagreedState, []) ∧
      expressionMachine.IsNumbered 4 disagreedState ∧ disagreedState.lookaheadNeeded = true ∧
      ∃ row table, expressionMachine.actionRow 4 disagreedState = some (row, false) ∧
        expressionMachine.putYydefact 4 disagreedState = some table ∧
        table.defaultRule = 2 ∧ countActions 4 row (-2) = 1 ∧ countActions 4 row (-1) = 2 ∧
        ¬expressionMachine.IsMostCommon 4 disagreedState row table.defaultRule ∧
        .default 1 ∈ expressionMachine.printReductions disagreedState ∧
        ¬expressionMachine.Reports table (expressionMachine.printReductions disagreedState) := by
  refine ⟨rfl, ?_, rfl, _, ⟨2, _⟩, rfl, rfl, rfl, rfl, rfl, ?_, ?_, ?_⟩
  · exact
      { tokenId_inj := fun _ _ h => h
        lookaheads_le := by decide
        shifts_le := nofun
        errors_le := nofun
        stateId_pos := nofun
        ruleId_pos := by decide
        ruleId_ne := by decide
        ruleId_nodup := by decide }
  · rintro (⟨-, h⟩ | ⟨-, r, hr, -, hid, hmax⟩)
    · exact absurd h (by decide)
    · have hle := hmax ⟨1, [2, 3]⟩ mem_cons_self
      rcases mem_cons.mp hr with rfl | hr
      · exact absurd hid (by decide)
      · obtain rfl := mem_singleton.mp hr
        exact absurd hle (by decide)
  · exact mem_of_getElem? (i := 1) rfl
  · intro hreports
    obtain ⟨hdefault, -⟩ := (hreports.default 1).mpr ⟨1, mem_of_getElem? (i := 1) rfl, rfl⟩
    exact absurd hdefault (by decide)

end Machine

end Gobo
