/-
Rows of cells as text: cells between separators, quoted where they contain a
special character, and their reading character by character.
-/
import Mathlib.Data.List.Basic

namespace Gobo

open List

namespace Csv

universe u

variable {A : Type u} [DecidableEq A]

/-- The characters with a meaning; `isBreak` ends a row. -/
structure Format (A : Type u) where
  quote : A
  separator : A
  isBreak : A → Bool
  separator_ne_quote : separator ≠ quote
  quote_not_break : isBreak quote = false

/-- In `closing` a quote was read within quotes: one more makes it a character,
anything else shows that it ended the quoted text. -/
inductive Mode where
  | plain
  | quoted
  | closing
deriving DecidableEq

structure Progress (A : Type u) where
  mode : Mode
  cell : List A
  cells : List (List A)
  rows : List (List (List A))

variable (f : Format A)

namespace Progress

def put (p : Progress A) (c : A) : Progress A :=
  { p with cell := p.cell ++ [c] }

def endCell (p : Progress A) : Progress A :=
  { p with cell := [], cells := p.cells ++ [p.cell] }

def endRow (p : Progress A) : Progress A :=
  { p with cell := [], cells := [], rows := p.rows ++ [p.cells ++ [p.cell]] }

end Progress

/-- A character that is not within quotes. -/
def stepPlain (p : Progress A) (c : A) : Progress A :=
  if c = f.quote then
    if p.cell = [] then { p with mode := .quoted } else p.put c
  else if c = f.separator then p.endCell
  else if f.isBreak c then p.endRow
  else p.put c

def step (p : Progress A) (c : A) : Progress A :=
  match p.mode with
  | .plain => stepPlain f p c
  | .quoted => if c = f.quote then { p with mode := .closing } else p.put c
  | .closing =>
      if c = f.quote then { p with mode := .quoted }.put c
      else stepPlain f { p with mode := .plain } c

def read (p : Progress A) (text : List A) : Progress A := text.foldl (step f) p

/-- The text within the quotes. -/
def doubled (cell : List A) : List A :=
  cell.flatMap fun c => if c = f.quote then [f.quote, c] else [c]

/-- The text of a cell, which is quoted if it is `special`. -/
def cellText (special : List A → Bool) (cell : List A) : List A :=
  if special cell then f.quote :: (doubled f cell ++ [f.quote]) else cell

def rowText (special : List A → Bool) : List (List A) → List A
  | [] => []
  | [cell] => cellText f special cell
  | cell :: next :: cells =>
      cellText f special cell ++ f.separator :: rowText special (next :: cells)

/-- The rows with a break between them. -/
def rowsText (special : List A → Bool) (lineBreak : A) : List (List (List A)) → List A
  | [] => []
  | [row] => rowText f special row
  | row :: next :: rows =>
      rowText f special row ++ lineBreak :: rowsText special lineBreak (next :: rows)

/-- Everything that has to be quoted is. -/
def Quotes (special : List A → Bool) : Prop :=
  ∀ cell, special cell = false → ∀ c ∈ cell,
    c ≠ f.quote ∧ c ≠ f.separator ∧ f.isBreak c = false

/-- The cell `cell` is read, and no quote is open. -/
structure AtEnd (p : Progress A) (cell : List A) (cells : List (List A))
    (rows : List (List (List A))) : Prop where
  mode_ne : p.mode ≠ .quoted
  cell_eq : p.cell = cell
  cells_eq : p.cells = cells
  rows_eq : p.rows = rows

section

variable {f} {p : Progress A} {special : List A → Bool} {cell : List A} {cells : List (List A)}
  {rows : List (List (List A))} {c : A}

@[simp] theorem read_nil (p : Progress A) : read f p [] = p := rfl

@[simp] theorem read_cons (p : Progress A) (c : A) (text : List A) :
    read f p (c :: text) = read f (step f p c) text := rfl

theorem read_append (p : Progress A) (text text' : List A) :
    read f p (text ++ text') = read f (read f p text) text' :=
  foldl_append

section

variable (cell : List A) (cells : List (List A)) (rows : List (List (List A)))

theorem step_plain_quote : step f ⟨.plain, cell, cells, rows⟩ f.quote =
      if cell = [] then ⟨.quoted, cell, cells, rows⟩
      else ⟨.plain, cell ++ [f.quote], cells, rows⟩ := if_pos rfl

theorem step_quoted_quote :
    step f ⟨.quoted, cell, cells, rows⟩ f.quote = ⟨.closing, cell, cells, rows⟩ := if_pos rfl

theorem step_closing_quote :
    step f ⟨.closing, cell, cells, rows⟩ f.quote = ⟨.quoted, cell ++ [f.quote], cells, rows⟩ :=
  if_pos rfl

end

theorem step_quoted (hc : c ≠ f.quote) (cell : List A) (cells : List (List A))
    (rows : List (List (List A))) :
    step f ⟨.quoted, cell, cells, rows⟩ c = ⟨.quoted, cell ++ [c], cells, rows⟩ := if_neg hc

theorem step_plain (hc : c ≠ f.quote) (cell : List A) (cells : List (List A))
    (rows : List (List (List A))) :
    step f ⟨.plain, cell, cells, rows⟩ c =
      if c = f.separator then ⟨.plain, [], cells ++ [cell], rows⟩
      else if f.isBreak c then ⟨.plain, [], [], rows ++ [cells ++ [cell]]⟩
      else ⟨.plain, cell ++ [c], cells, rows⟩ := if_neg hc

/-- A text whose first character is no quote does not tell `closing` from `plain`. -/
theorem step_closing (hc : c ≠ f.quote) :
    step f { p with mode := .closing } c = step f { p with mode := .plain } c :=
  if_neg hc

theorem read_plain (hcell : ∀ c ∈ cell, c ≠ f.quote ∧ c ≠ f.separator ∧ f.isBreak c = false)
    (hp : p.mode = .plain) : read f p cell = { p with cell := p.cell ++ cell } := by
  induction cell generalizing p with
  | nil =>
      rw [append_nil]
      rfl
  | cons c cell ih =>
      obtain ⟨⟨hquote, hseparator, hbreak⟩, hcell⟩ := forall_mem_cons.mp hcell
      have hstep : step f p c = p.put c := by
        unfold step
        rw [hp]
        rw [stepPlain, if_neg hquote, if_neg hseparator, if_neg (by simp [hbreak])]
      have hput : (p.put c).mode = .plain := hp
      rw [read_cons, hstep, ih hcell hput]
      unfold Progress.put
      rw [append_assoc, singleton_append]

theorem read_doubled (hp : p.mode = .quoted) :
    read f p (doubled f cell) = { p with cell := p.cell ++ cell } := by
  induction cell generalizing p with
  | nil =>
      rw [append_nil]
      rfl
  | cons c cell ih =>
      have hsplit : doubled f (c :: cell) =
          (if c = f.quote then [f.quote, c] else [c]) ++ doubled f cell := rfl
      have hone : read f p (if c = f.quote then [f.quote, c] else [c]) = p.put c := by
        split_ifs with hc
        · have hfirst : step f p f.quote = { p with mode := .closing } := by
            unfold step
            rw [hp]
            exact if_pos rfl
          rw [read_cons, hfirst, read_cons, read_nil, step]
          dsimp only
          rw [if_pos hc, ← hp]
        · rw [read_cons, read_nil, step, hp]
          exact if_neg hc
      have hput : (p.put c).mode = .quoted := hp
      rw [hsplit, read_append, hone, ih hput]
      unfold Progress.put
      rw [append_assoc, singleton_append]

/-- The text of a cell is read as the cell. -/
theorem read_cellText (hspecial : Quotes f special) (hp : p.mode = .plain) (hcell : p.cell = []) :
    AtEnd (read f p (cellText f special cell)) cell p.cells p.rows := by
  unfold cellText
  cases hc : special cell
  · rw [if_neg Bool.false_ne_true, read_plain (hspecial cell hc) hp]
    exact ⟨by simp [hp], by rw [hcell, nil_append], rfl, rfl⟩
  · have hopen : step f p f.quote = { p with mode := .quoted } := by
      unfold step
      rw [hp]
      rw [stepPlain, if_pos rfl, if_pos hcell]
    rw [if_pos rfl, read_cons, hopen, read_append, read_doubled rfl, read_cons, read_nil]
    have hclose : step f { p with mode := .quoted, cell := p.cell ++ cell } f.quote =
        { p with mode := .closing, cell := p.cell ++ cell } := if_pos rfl
    rw [hclose]
    exact ⟨by simp, by rw [hcell, nil_append], rfl, rfl⟩

theorem AtEnd.step_eq (h : AtEnd p cell cells rows) (hc : c ≠ f.quote) :
    step f p c = stepPlain f ⟨.plain, cell, cells, rows⟩ c := by
  obtain ⟨mode, cell', cells', rows'⟩ := p
  obtain ⟨hmode, rfl, rfl, rfl⟩ := h
  cases mode with
  | plain => rfl
  | quoted => exact absurd rfl hmode
  | closing => exact if_neg hc

/-- At the end of the text it does not matter whether a quote was the last character. -/
theorem AtEnd.of_closing {text : List A} (hnext : text.head? ≠ some f.quote)
    (h : AtEnd (read f { p with mode := .closing } text) cell cells rows) :
    AtEnd (read f { p with mode := .plain } text) cell cells rows := by
  cases text with
  | nil => exact ⟨by simp, h.cell_eq, h.cells_eq, h.rows_eq⟩
  | cons c text =>
      have hc : c ≠ f.quote := fun heq => hnext (congrArg some heq)
      rw [read_cons, ← step_closing hc]
      exact h

/-- The text of a row is read as its cells, the last of which is not ended yet. -/
theorem read_rowText (hspecial : Quotes f special) {row : List (List A)} (hrow : row ≠ [])
    (cells : List (List A)) (rows : List (List (List A))) :
    ∃ first last, first ++ [last] = cells ++ row ∧
      AtEnd (read f ⟨.plain, [], cells, rows⟩ (rowText f special row)) last first rows ∧
      row.getLast? = some last := by
  induction row generalizing cells with
  | nil => exact absurd rfl hrow
  | cons cell row ih =>
      cases row with
      | nil => exact ⟨cells, cell, rfl, read_cellText hspecial rfl rfl, rfl⟩
      | cons next row =>
          have hcell : AtEnd (read f ⟨.plain, [], cells, rows⟩ (cellText f special cell)) cell
              cells rows := read_cellText hspecial rfl rfl
          obtain ⟨first, last, hsplit, hend, hlast⟩ :=
            ih (cons_ne_nil next row) (cells ++ [cell])
          have hstep : step f (read f ⟨.plain, [], cells, rows⟩ (cellText f special cell))
              f.separator = ⟨.plain, [], cells ++ [cell], rows⟩ := by
            rw [hcell.step_eq f.separator_ne_quote, stepPlain, if_neg f.separator_ne_quote,
              if_pos rfl]
            rfl
          refine ⟨first, last, ?_, ?_, hlast⟩
          · rw [hsplit, append_assoc, singleton_append]
          · rw [rowText, read_append, read_cons, hstep]
            exact hend

theorem read_break {lineBreak : A} (hbreak : f.isBreak lineBreak = true)
    (hne : lineBreak ≠ f.separator) (h : AtEnd p cell cells rows) :
    step f p lineBreak = ⟨.plain, [], [], rows ++ [cells ++ [cell]]⟩ := by
  have hquote : lineBreak ≠ f.quote := by
    rintro rfl
    rw [f.quote_not_break] at hbreak
    exact absurd hbreak Bool.false_ne_true
  rw [h.step_eq hquote, stepPlain, if_neg hquote, if_neg hne, if_pos hbreak]
  rfl

/-- The text of rows is read as the rows, the last of which is not ended yet. -/
theorem read_rowsText {lineBreak : A} (hspecial : Quotes f special)
    (hbreak : f.isBreak lineBreak = true) (hne : lineBreak ≠ f.separator)
    {next : List (List (List A))} (hnext : next ≠ []) (hrows : ∀ row ∈ next, row ≠ [])
    (rows : List (List (List A))) :
    ∃ before first last, before ++ [first ++ [last]] = rows ++ next ∧
      AtEnd (read f ⟨.plain, [], [], rows⟩ (rowsText f special lineBreak next)) last first before ∧
      (next.getLast?.bind getLast?) = some last := by
  induction next generalizing rows with
  | nil => exact absurd rfl hnext
  | cons row next ih =>
      obtain ⟨hrow, hrows⟩ := forall_mem_cons.mp hrows
      obtain ⟨first, last, hsplit, hend, hlast⟩ := read_rowText hspecial hrow [] rows
      rw [nil_append] at hsplit
      cases next with
      | nil => exact ⟨rows, first, last, by rw [hsplit], hend, hlast⟩
      | cons row' next =>
          obtain ⟨before, first', last', hsplit', hend', hlast'⟩ :=
            ih (cons_ne_nil row' next) hrows (rows ++ [row])
          refine ⟨before, first', last', ?_, ?_, hlast'⟩
          · rw [hsplit', append_assoc, singleton_append]
          · rw [rowsText, read_append, read_cons, read_break hbreak hne hend, hsplit]
            exact hend'

end

end Csv

end Gobo
