/-
The strings that are read as decimal numbers: their grammar, and the strings in which the automaton
ends in a state that is no error.
-/
import Gobo.DecimalParser

namespace Gobo

open List

/-- A small letter stands for itself and the capital one. -/
theorem toLower_eq_iff {c l u : Char} (hu : u.toLower = l) (hl : l.toLower = l)
    (hsum : u.val + 32 = l.val) : c.toLower = l ↔ c = l ∨ c = u := by
  constructor
  · intro h
    change dite _ _ _ = l at h
    split at h
    · have hval : c.val + 32 = u.val + 32 := (congrArg Char.val h).trans hsum.symm
      exact Or.inr (Char.ext (by simpa using hval))
    · exact Or.inl h
  · rintro (rfl | rfl)
    · exact hl
    · exact hu

/-- The text of a sign, which may be absent. -/
def IsSign (sign : Option Char) : Prop := ∀ c ∈ sign, c = '+' ∨ c = '-'

theorem isSign_none : IsSign none := fun c h => absurd h (Option.not_mem_none c)

/-- A row of digits. -/
def AreDigits (ds : List Char) : Prop := ∀ c ∈ ds, c.isDigit = true

instance (ds : List Char) : Decidable (AreDigits ds) :=
  decidableBAll (fun c : Char => c.isDigit = true) ds

/-- An exponent as it is written. -/
structure WrittenExponent where
  indicator : Char
  sign : Option Char
  digits : List Char

namespace WrittenExponent

variable (x : WrittenExponent)

def text : List Char := x.indicator :: (x.sign.toList ++ x.digits)

structure WellFormed : Prop where
  indicator_eq : x.indicator = 'e' ∨ x.indicator = 'E'
  sign : IsSign x.sign
  digits : AreDigits x.digits
  digits_ne : x.digits ≠ []

end WrittenExponent

/-- A number as it is written. -/
structure WrittenNumber where
  sign : Option Char
  integer : List Char
  point : Option Char
  fraction : List Char
  exponent : Option WrittenExponent

namespace WrittenNumber

variable (w : WrittenNumber)

def mantissa : List Char := w.integer ++ (w.point.toList ++ w.fraction)

/-- The exponent, which may be absent. -/
def exponentText (x : Option WrittenExponent) : List Char := x.elim [] WrittenExponent.text

def text : List Char := w.sign.toList ++ (w.mantissa ++ exponentText w.exponent)

/-- `[sign] digits [point digits?]` or `[sign] point digits`, with an optional exponent. -/
structure WellFormed (isCommaAllowed : Bool) : Prop where
  sign : IsSign w.sign
  integer : AreDigits w.integer
  fraction : AreDigits w.fraction
  point_eq : ∀ c ∈ w.point, c = '.' ∨ c = ',' ∧ isCommaAllowed = true
  digits_ne : w.integer ≠ [] ∨ w.fraction ≠ []
  fraction_eq : w.point = none → w.fraction = []
  exponent : ∀ x ∈ w.exponent, x.WellFormed

/-- The automaton only reads a comma between two digits. -/
def CommaBetween : Prop := w.point = some ',' → w.integer ≠ [] ∧ w.fraction ≠ []

end WrittenNumber

/-- `[sign] Inf` or `[sign] Infinity` in any case; `isNegative` is the sign. -/
def IsInfinityText (isNegative : Bool) (s : List Char) : Prop :=
  ∃ sign t, IsSign sign ∧ s = sign.toList ++ t ∧ isNegative = decide (sign = some '-') ∧
    (t.map Char.toLower = ['i', 'n', 'f'] ∨
      t.map Char.toLower = ['i', 'n', 'f', 'i', 'n', 'i', 't', 'y'])

/-- `NaN` in any case. -/
def IsNanText (s : List Char) : Prop := s.map Char.toLower = ['n', 'a', 'n']

/-- `sNaN` in any case. -/
def IsSnanText (s : List Char) : Prop := s.map Char.toLower = ['s', 'n', 'a', 'n']

/-- The strings that should be accepted. -/
def IsDecimalText (isCommaAllowed : Bool) (s : List Char) : Prop :=
  (∃ w : WrittenNumber, w.WellFormed isCommaAllowed ∧ w.text = s) ∨
    (∃ isNegative, IsInfinityText isNegative s) ∨ IsNanText s ∨ IsSnanText s

namespace TextParser

/-- The states in which a string may end. -/
def Accepting (state : TextParserState) : Prop :=
  state = .integerPart ∨ state = .point ∨ state = .fractionalPart ∨ state = .exponent ∨
    state = .infinity ∨ state = .nan ∨ state = .snan

instance (state : TextParserState) : Decidable (Accepting state) :=
  inferInstanceAs (Decidable (_ ∨ _))

/-- The states in which the loop ends. -/
def Stopped (state : TextParserState) : Prop :=
  state = .error ∨ state = .infinity ∨ state = .snan ∨ state = .nan

instance (state : TextParserState) : Decidable (Stopped state) :=
  inferInstanceAs (Decidable (_ ∨ _))

section

variable {p : TextParser} {s rest : List Char} {i : ℕ} {c : Char}

theorem processFrom_of_stopped (h : Stopped p.state) : processFrom s i rest p = p := by
  cases rest with
  | nil => rfl
  | cons c rest =>
      rcases h with h | h | h | h
      · rw [processFrom, h]
      · rw [processFrom, h]
      · rw [processFrom, h]
      · rw [processFrom, h]

theorem processFrom_cons (h : ¬Stopped p.state) :
    processFrom s i (c :: rest) p = processFrom s (i + 1) rest (p.process c i s) := by
  rw [processFrom]
  cases hstate : p.state <;> first | rfl | exact absurd (by rw [hstate]; decide) h

theorem processFrom_append (l : List Char) : processFrom s i (l ++ rest) p =
    processFrom s (i + l.length) rest (processFrom s i l p) := by
  induction l generalizing i p with
  | nil => rfl
  | cons c l ih =>
      by_cases h : Stopped p.state
      · rw [processFrom_of_stopped h, processFrom_of_stopped h, processFrom_of_stopped h]
      · rw [cons_append, processFrom_cons h, processFrom_cons h, ih, length_cons,
          Nat.add_assoc, Nat.add_comm 1]

/-- A failure is the end. -/
theorem not_accepting_fail (code : ℕ) : ¬Accepting (processFrom s i rest (p.fail code)).state := by
  rw [processFrom_of_stopped (Or.inl rfl)]
  exact (by decide : ¬Accepting .error)

/-- What follows the mantissa. -/
def IsTail (rest : List Char) : Prop :=
  ∃ x : Option WrittenExponent, (∀ y ∈ x, y.WellFormed) ∧ rest = WrittenNumber.exponentText x

theorem areDigits_cons {ds : List Char} (hc : c.isDigit = true) (hds : AreDigits ds) :
    AreDigits (c :: ds) := by
  intro a ha
  rcases mem_cons.mp ha with rfl | ha
  · exact hc
  · exact hds a ha

theorem areDigits_nil : AreDigits [] := fun _ h => absurd h not_mem_nil

theorem tail_nil : IsTail [] := ⟨none, fun x h => absurd h (Option.not_mem_none x), rfl⟩

theorem rest_of_exponent (hstate : p.state = .exponent)
    (h : Accepting (processFrom s i rest p).state) : AreDigits rest := by
  induction rest generalizing i p with
  | nil => exact areDigits_nil
  | cons c rest ih =>
      rw [processFrom_cons (by rw [hstate]; decide), process, hstate] at h
      dsimp only [processExponent] at h
      by_cases hc : c.isDigit = true
      · rw [if_pos hc] at h
        exact areDigits_cons hc (ih (by exact hstate) h)
      · rw [if_neg hc] at h
        exact absurd h (not_accepting_fail _)

theorem rest_of_exponentSign (hstate : p.state = .exponentSign)
    (h : Accepting (processFrom s i rest p).state) : AreDigits rest ∧ rest ≠ [] := by
  cases rest with
  | nil =>
      rw [processFrom, hstate] at h
      exact absurd h (by decide)
  | cons c rest =>
      rw [processFrom_cons (by rw [hstate]; decide), process, hstate] at h
      dsimp only [processExponentSign] at h
      split_ifs at h with hc
      · exact ⟨areDigits_cons hc (rest_of_exponent rfl h), cons_ne_nil _ _⟩
      · exact absurd h (not_accepting_fail _)

theorem rest_of_startExponent (hstate : p.state = .startExponent)
    (h : Accepting (processFrom s i rest p).state) :
    ∃ sign ds, IsSign sign ∧ AreDigits ds ∧ ds ≠ [] ∧ rest = sign.toList ++ ds := by
  cases rest with
  | nil =>
      rw [processFrom, hstate] at h
      exact absurd h (by decide)
  | cons c rest =>
      rw [processFrom_cons (by rw [hstate]; decide), process, hstate] at h
      dsimp only [processStartExponent] at h
      by_cases hc : c.isDigit = true
      · rw [if_pos hc] at h
        exact ⟨none, c :: rest, isSign_none, areDigits_cons hc (rest_of_exponent rfl h),
          cons_ne_nil _ _, rfl⟩
      rw [if_neg hc] at h
      by_cases hsign : c = '+' ∨ c = '-'
      · rw [if_pos hsign] at h
        have hrest := rest_of_exponentSign (by rfl) h
        refine ⟨some c, rest, ?_, hrest.1, hrest.2, rfl⟩
        rintro a ⟨⟩
        exact hsign
      · rw [if_neg hsign] at h
        exact absurd h (not_accepting_fail _)

theorem tail_of_startExponent (hc : c = 'e' ∨ c = 'E') (hstate : p.state = .startExponent)
    (h : Accepting (processFrom s i rest p).state) : IsTail (c :: rest) := by
  obtain ⟨sign, ds, hsign, hds, hne, rfl⟩ := rest_of_startExponent hstate h
  refine ⟨some ⟨c, sign, ds⟩, ?_, rfl⟩
  rintro a ⟨⟩
  exact ⟨hc, hsign, hds, hne⟩

theorem rest_of_fractionalPart (hstate : p.state = .fractionalPart)
    (h : Accepting (processFrom s i rest p).state) :
    ∃ fs tail, AreDigits fs ∧ IsTail tail ∧ rest = fs ++ tail := by
  induction rest generalizing i p with
  | nil => exact ⟨[], [], areDigits_nil, tail_nil, rfl⟩
  | cons c rest ih =>
      rw [processFrom_cons (by rw [hstate]; decide), process, hstate] at h
      dsimp only [processFractionalPart] at h
      split_ifs at h with hc he
      · obtain ⟨fs, tail, hfs, htail, rfl⟩ := ih (by exact hstate) h
        exact ⟨c :: fs, tail, areDigits_cons hc hfs, htail, rfl⟩
      · exact ⟨[], _, areDigits_nil, tail_of_startExponent he rfl h, rfl⟩
      · exact absurd h (not_accepting_fail _)

theorem rest_of_comma (hstate : p.state = .comma)
    (h : Accepting (processFrom s i rest p).state) :
    ∃ fs tail, AreDigits fs ∧ fs ≠ [] ∧ IsTail tail ∧ rest = fs ++ tail := by
  cases rest with
  | nil =>
      rw [processFrom, hstate] at h
      exact absurd h (by decide)
  | cons c rest =>
      rw [processFrom_cons (by rw [hstate]; decide), process, hstate] at h
      dsimp only [processComma] at h
      split_ifs at h with hc
      · obtain ⟨fs, tail, hfs, htail, rfl⟩ := rest_of_fractionalPart (by rfl) h
        exact ⟨c :: fs, tail, areDigits_cons hc hfs, cons_ne_nil _ _, htail, rfl⟩
      · exact absurd h (not_accepting_fail _)

theorem rest_of_startingPoint (hstate : p.state = .startingPoint)
    (h : Accepting (processFrom s i rest p).state) :
    ∃ fs tail, AreDigits fs ∧ fs ≠ [] ∧ IsTail tail ∧ rest = fs ++ tail := by
  cases rest with
  | nil =>
      rw [processFrom, hstate] at h
      exact absurd h (by decide)
  | cons c rest =>
      rw [processFrom_cons (by rw [hstate]; decide), process, hstate] at h
      dsimp only [processStartingPoint] at h
      split_ifs at h with hc
      · obtain ⟨fs, tail, hfs, htail, rfl⟩ := rest_of_fractionalPart (by rfl) h
        exact ⟨c :: fs, tail, areDigits_cons hc hfs, cons_ne_nil _ _, htail, rfl⟩
      · exact absurd h (not_accepting_fail _)

theorem rest_of_point (hstate : p.state = .point) (h : Accepting (processFrom s i rest p).state) :
    ∃ fs tail, AreDigits fs ∧ IsTail tail ∧ rest = fs ++ tail := by
  cases rest with
  | nil => exact ⟨[], [], areDigits_nil, tail_nil, rfl⟩
  | cons c rest =>
      rw [processFrom_cons (by rw [hstate]; decide), process, hstate] at h
      dsimp only [processPoint] at h
      split_ifs at h with hc he
      · obtain ⟨fs, tail, hfs, htail, rfl⟩ := rest_of_fractionalPart (by rfl) h
        exact ⟨c :: fs, tail, areDigits_cons hc hfs, htail, rfl⟩
      · exact ⟨[], _, areDigits_nil, tail_of_startExponent he rfl h, rfl⟩
      · exact absurd h (not_accepting_fail _)

/-- The rest of a number, with or without a point. -/
theorem rest_of_integerPart (hstate : p.state = .integerPart)
    (h : Accepting (processFrom s i rest p).state) :
    ∃ ds point fs tail, AreDigits ds ∧ AreDigits fs ∧ IsTail tail ∧
      (∀ c ∈ point, c = '.' ∨ c = ',') ∧ (point = none → fs = []) ∧
      (point = some ',' → fs ≠ []) ∧ rest = ds ++ (point.toList ++ (fs ++ tail)) := by
  induction rest generalizing i p with
  | nil =>
      exact ⟨[], none, [], [], areDigits_nil, areDigits_nil, tail_nil,
        fun c h => absurd h (Option.not_mem_none c), fun _ => rfl, fun h => (nomatch h), rfl⟩
  | cons c rest ih =>
      rw [processFrom_cons (by rw [hstate]; decide), process, hstate] at h
      dsimp only [processIntegerPart] at h
      split_ifs at h with hc he hpoint hcomma
      · obtain ⟨ds, point, fs, tail, hds, hfs, htail, hpoint, hnone, hcomma, rfl⟩ :=
          ih (by exact hstate) h
        exact ⟨c :: ds, point, fs, tail, areDigits_cons hc hds, hfs, htail, hpoint, hnone, hcomma,
          rfl⟩
      · exact ⟨[], none, [], _, areDigits_nil, areDigits_nil, tail_of_startExponent he rfl h,
          fun c h => absurd h (Option.not_mem_none c), fun _ => rfl, fun h => (nomatch h), rfl⟩
      · obtain ⟨fs, tail, hfs, htail, rfl⟩ := rest_of_point (by rfl) h
        refine ⟨[], some c, fs, tail, areDigits_nil, hfs, htail, ?_, fun h => (nomatch h), ?_, rfl⟩
        · rintro a ⟨⟩
          exact Or.inl hpoint
        · rintro ⟨⟩
          exact absurd hpoint (by decide)
      · obtain ⟨fs, tail, hfs, hne, htail, rfl⟩ := rest_of_comma (by rfl) h
        refine ⟨[], some c, fs, tail, areDigits_nil, hfs, htail, ?_, fun h => (nomatch h),
          fun _ => hne, rfl⟩
        rintro a ⟨⟩
        exact Or.inr hcomma
      · exact absurd h (not_accepting_fail _)

/-- What follows the sign of a number. -/
def IsUnsigned (rest : List Char) : Prop :=
  ∃ ds point fs tail, AreDigits ds ∧ AreDigits fs ∧ IsTail tail ∧
    (∀ c ∈ point, c = '.' ∨ c = ',') ∧ (point = none → fs = []) ∧ (ds ≠ [] ∨ fs ≠ []) ∧
    (point = some ',' → ds ≠ [] ∧ fs ≠ []) ∧ rest = ds ++ (point.toList ++ (fs ++ tail))

theorem isUnsigned_of_integerPart (hc : c.isDigit = true) (hstate : p.state = .integerPart)
    (h : Accepting (processFrom s i rest p).state) : IsUnsigned (c :: rest) := by
  obtain ⟨ds, point, fs, tail, hds, hfs, htail, hpoint, hnone, hcomma, rfl⟩ :=
    rest_of_integerPart hstate h
  exact ⟨c :: ds, point, fs, tail, areDigits_cons hc hds, hfs, htail, hpoint, hnone,
    Or.inl (cons_ne_nil _ _), fun h => ⟨cons_ne_nil _ _, hcomma h⟩, rfl⟩

theorem isUnsigned_of_startingPoint (hc : c = '.') (hstate : p.state = .startingPoint)
    (h : Accepting (processFrom s i rest p).state) : IsUnsigned (c :: rest) := by
  obtain ⟨fs, tail, hfs, hne, htail, rfl⟩ := rest_of_startingPoint hstate h
  subst hc
  refine ⟨[], some '.', fs, tail, areDigits_nil, hfs, htail, ?_, fun h => (nomatch h), Or.inr hne,
    fun h => absurd h (by decide), rfl⟩
  rintro a ⟨⟩
  exact Or.inl rfl

theorem substringEqual_eq {pre mid post t : List Char} {b e : ℕ} (hs : s = pre ++ (mid ++ post))
    (hb : b = pre.length + 1) (he : e = pre.length + mid.length) :
    substringEqual s b e t = (mid.map Char.toLower == t) := by
  have hle : e ≤ s.length := by
    rw [hs, he, length_append, length_append]
    omega
  rw [substringEqual, decide_eq_true hle, Bool.and_true, hb, he, Nat.add_sub_cancel, hs,
    drop_take, drop_left, Nat.add_sub_cancel_left, take_left]

theorem substringEqual_of_lt {t : List Char} {b e : ℕ} (he : s.length < e) :
    substringEqual s b e t = false := by
  rw [substringEqual, decide_eq_false (not_le_of_gt he), Bool.and_false]

/-- The texts that `handle_i` reads after its letter. -/
def IsInfinityRest (rest : List Char) : Prop := rest.map Char.toLower = ['n', 'f'] ∨
    rest.map Char.toLower = ['n', 'f', 'i', 'n', 'i', 't', 'y']

instance (rest : List Char) : Decidable (IsInfinityRest rest) :=
  inferInstanceAs (Decidable (_ ∨ _))

theorem handleI_eq {pre : List Char} (hs : s = pre ++ c :: rest) (hi : i = pre.length + 1) :
    p.handleI s i = if IsInfinityRest rest then { p with state := .infinity }
      else p.fail errorInvalidValue := by
  subst hi
  have hlength : s.length = pre.length + rest.length + 1 := by
    rw [hs, length_append, length_cons]
    omega
  have hs' : s = (pre ++ [c]) ++ rest := by rw [hs, append_assoc]; rfl
  have hpre : (pre ++ [c]).length = pre.length + 1 := by rw [length_append]; rfl
  match rest, hlength, hs' with
  | [], hlength, _ =>
      rw [handleI, substringEqual_of_lt (by rw [hlength, length_nil]; omega)]
      rfl
  | [a], hlength, _ =>
      rw [handleI, substringEqual_of_lt (by rw [hlength, length_singleton]; omega)]
      simp [IsInfinityRest]
  | a :: b :: r, hlength, hs' =>
      have hmid : s = (pre ++ [c]) ++ ([a, b] ++ r) := hs'
      have hfirst := substringEqual_eq (t := ['n', 'f']) hmid
        (b := pre.length + 1 + 1) (by rw [hpre]) (e := pre.length + 1 + 2) (by rw [hpre]; rfl)
      have hs'' : s = (pre ++ [c, a, b]) ++ (r ++ []) := by
        rw [hs', append_nil, append_assoc, append_assoc]
        rfl
      have hpre' : (pre ++ [c, a, b]).length = pre.length + 3 := by rw [length_append]; rfl
      have hsecond := substringEqual_eq (t := ['i', 'n', 'i', 't', 'y']) hs''
        (b := pre.length + 1 + 3) (by rw [hpre'])
        (e := s.length) (by
          rw [hpre', hlength, length_cons, length_cons]
          omega)
      have hcount : s.length - (pre.length + 1) + 1 = 3 ↔ r = [] := by
        rw [hlength, length_cons, length_cons, ← length_eq_zero_iff]
        omega
      rw [handleI, hfirst, hsecond]
      simp only [hcount, beq_iff_eq, IsInfinityRest, map_cons, cons.injEq]
      by_cases ha : a.toLower = 'n' <;> by_cases hb : b.toLower = 'f' <;> simp [ha, hb]

/-- What the automaton reads after a sign. -/
theorem rest_of_sign {pre : List Char} (hs : s = pre ++ rest) (hi : i = pre.length + 1)
    (hstate : p.state = .sign) (h : Accepting (processFrom s i rest p).state) :
    IsUnsigned rest ∨ ∃ c r, rest = c :: r ∧ (c = 'i' ∨ c = 'I') ∧ IsInfinityRest r := by
  cases rest with
  | nil =>
      rw [processFrom, hstate] at h
      exact absurd h (by decide)
  | cons c rest =>
      rw [processFrom_cons (by rw [hstate]; decide), process, hstate] at h
      dsimp only [processSign] at h
      rw [handleI_eq hs hi] at h
      split_ifs at h with hI hinf hc hpoint
      · exact Or.inr ⟨c, rest, rfl, hI, hinf⟩
      · exact absurd h (not_accepting_fail _)
      · exact Or.inl (isUnsigned_of_integerPart hc rfl h)
      · exact Or.inl (isUnsigned_of_startingPoint hpoint rfl h)
      · exact absurd h (not_accepting_fail _)

/-- A sign and what may follow it. -/
theorem isDecimalText_of_rest {sign : Option Char} (hsign : IsSign sign)
    (h : IsUnsigned rest ∨ ∃ c r, rest = c :: r ∧ (c = 'i' ∨ c = 'I') ∧ IsInfinityRest r) :
    (∃ w : WrittenNumber, w.WellFormed true ∧ w.CommaBetween ∧ w.text = sign.toList ++ rest) ∨
      ∃ isNegative, IsInfinityText isNegative (sign.toList ++ rest) := by
  rcases h with ⟨ds, point, fs, tail, hds, hfs, ⟨x, hx, rfl⟩, hpoint, hnone, hne, hcomma, rfl⟩ |
    ⟨c, r, rfl, hc, hr⟩
  · refine Or.inl ⟨⟨sign, ds, point, fs, x⟩, ⟨hsign, hds, hfs, fun c hc => ?_, hne, hnone, hx⟩,
      hcomma, ?_⟩
    · exact (hpoint c hc).imp id fun h => ⟨h, rfl⟩
    · simp only [WrittenNumber.text, WrittenNumber.mantissa, append_assoc]
  · have hlower : c.toLower = 'i' :=
      (toLower_eq_iff (by decide) (by decide) (by decide)).mpr hc
    refine Or.inr ⟨_, sign, c :: r, hsign, rfl, rfl, ?_⟩
    rw [map_cons, hlower]
    exact hr.imp (fun h => by rw [h]) fun h => by rw [h]

/-- The strings after which the automaton is in a state that is no error, a comma aside. -/
theorem text_of_accepting (hstate : p.state = .start)
    (h : Accepting (processFrom s 1 s p).state) :
    (∃ w : WrittenNumber, w.WellFormed true ∧ w.CommaBetween ∧ w.text = s) ∨
      (∃ isNegative, IsInfinityText isNegative s) ∨ IsNanText s ∨ IsSnanText s := by
  rcases s with _ | ⟨c, rest⟩
  · rw [processFrom, hstate] at h
    exact absurd h (by decide)
  have hs : c :: rest = [c] ++ (rest ++ []) := by rw [append_nil]; rfl
  have hrest : ∀ {t}, substringEqual (c :: rest) (1 + 1) (c :: rest).length t =
      (rest.map Char.toLower == t) := fun {t} =>
    substringEqual_eq hs rfl (by rw [length_cons, Nat.add_comm]; rfl)
  have hplain : IsUnsigned (c :: rest) ∨
      (∃ a r, c :: rest = a :: r ∧ (a = 'i' ∨ a = 'I') ∧ IsInfinityRest r) →
      (∃ w : WrittenNumber, w.WellFormed true ∧ w.CommaBetween ∧ w.text = c :: rest) ∨
        (∃ isNegative, IsInfinityText isNegative (c :: rest)) ∨ IsNanText (c :: rest) ∨
          IsSnanText (c :: rest) := fun h =>
    (isDecimalText_of_rest isSign_none h).imp id Or.inl
  rw [processFrom_cons (by rw [hstate]; decide), process, hstate] at h
  dsimp only [processStart] at h
  by_cases hc : c.isDigit = true
  · rw [if_pos hc] at h
    exact hplain (Or.inl (isUnsigned_of_integerPart hc rfl h))
  rw [if_neg hc] at h
  by_cases hsign : c = '+' ∨ c = '-'
  · rw [if_pos hsign] at h
    have hafter := rest_of_sign (show c :: rest = [c] ++ rest from rfl) rfl (by rfl) h
    refine (@isDecimalText_of_rest rest (some c) ?_ hafter).imp id Or.inl
    rintro a ⟨⟩
    exact hsign
  rw [if_neg hsign] at h
  by_cases hn : c = 'n' ∨ c = 'N'
  · rw [if_pos hn, hrest] at h
    by_cases hnan : rest.map Char.toLower = ['a', 'n']
    · refine Or.inr (Or.inr (Or.inl ?_))
      rw [IsNanText, map_cons, hnan,
        (toLower_eq_iff (by decide) (by decide) (by decide)).mpr hn]
    · rw [if_neg (by rwa [beq_iff_eq])] at h
      exact absurd h (not_accepting_fail _)
  rw [if_neg hn] at h
  by_cases hS : c = 's' ∨ c = 'S'
  · rw [if_pos hS, hrest] at h
    by_cases hnan : rest.map Char.toLower = ['n', 'a', 'n']
    · refine Or.inr (Or.inr (Or.inr ?_))
      rw [IsSnanText, map_cons, hnan,
        (toLower_eq_iff (by decide) (by decide) (by decide)).mpr hS]
    · rw [if_neg (by rwa [beq_iff_eq])] at h
      exact absurd h (not_accepting_fail _)
  rw [if_neg hS] at h
  by_cases hI : c = 'i' ∨ c = 'I'
  · have hpre : c :: rest = [] ++ c :: rest := rfl
    have hindex : 1 = ([] : List Char).length + 1 := rfl
    rw [if_pos hI, handleI_eq hpre hindex] at h
    by_cases hinf : IsInfinityRest rest
    · exact hplain (Or.inr ⟨c, rest, rfl, hI, hinf⟩)
    · rw [if_neg hinf] at h
      exact absurd h (not_accepting_fail _)
  rw [if_neg hI] at h
  by_cases hpoint : c = '.'
  · rw [if_pos hpoint] at h
    exact hplain (Or.inl (isUnsigned_of_startingPoint hpoint rfl h))
  · rw [if_neg hpoint] at h
    exact absurd h (not_accepting_fail _)

end

end TextParser

end Gobo
