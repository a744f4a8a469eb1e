/-
What `UT_CSV_HANDLER` writes is read back by `read_row`, and by `read_file` if
the last row is complete.
-/
import Gobo.Csv
import Gobo.CsvHandler

namespace Gobo

open Option List Text

namespace TextStream

theorem readString_cases (file : TextStream) :
    (file.pieces = [] ∧ file.readString.pieces = [] ∧ file.readString.endOfInput = true) ∨
      ∃ piece pieces, piece ≠ [] ∧ file.pieces = piece :: pieces ∧
        file.readString.pieces = pieces ∧ file.readString.lastString = piece ∧
        file.readString.endOfInput = false := by
  obtain ⟨pieces, lastString, endOfInput, hpieces⟩ := file
  cases pieces with
  | nil => exact Or.inl ⟨rfl, rfl, rfl⟩
  | cons piece pieces =>
      exact Or.inr ⟨piece, pieces, hpieces piece mem_cons_self, rfl, rfl, rfl, rfl⟩

/-- The turns that the outer loop of `read_file` can still take. -/
def turnsLeft (file : TextStream) : Nat :=
  if file.endOfInput then 0 else file.pieces.length + 1

/-- What the outer loop of `read_file` has not read. -/
def rest (file : TextStream) : List UInt8 :=
  if file.endOfInput then [] else file.lastString ++ file.pieces.flatten

theorem rest_readString (file : TextStream) :
    file.readString.rest = file.pieces.flatten ∧
      file.readString.turnsLeft ≤ file.pieces.length := by
  unfold rest turnsLeft
  rcases file.readString_cases with ⟨hnil, -, hend⟩ |
    ⟨piece, pieces, -, hcons, hrest, hstring, hgo⟩
  · rw [if_pos hend, if_pos hend, hnil]
    exact ⟨rfl, Nat.le_refl 0⟩
  · rw [hgo, hcons, hrest, hstring]
    exact ⟨rfl, Nat.le_refl _⟩

end TextStream

namespace CsvHandler

variable (h : CsvHandler)

def format (isBreak : UInt8 → Bool) (hquote : isBreak quoteMark = false) : Csv.Format UInt8 where
  quote := quoteMark
  separator := h.separator
  isBreak := isBreak
  separator_ne_quote := h.valid_separator
  quote_not_break := hquote

/-- A row has no end but the end of its text. -/
def rowFormat : Csv.Format UInt8 := h.format (fun _ => false) rfl

def fileFormat : Csv.Format UInt8 := h.format (fun c => decide (c = newLine)) rfl

/-- The cells that `put_cell` quotes. -/
def isSpecial (cell : List UInt8) : Bool :=
  decide (h.separator ∈ cell ∨ newLine ∈ cell ∨ quoteMark ∈ cell)

section

variable {h} {cell row text : List UInt8}

theorem quotes_special {isBreak : UInt8 → Bool} {hquote : isBreak quoteMark = false}
    (hbreak : ∀ c, isBreak c = true → c = newLine) :
    Csv.Quotes (h.format isBreak hquote) h.isSpecial := by
  intro cell hcell c hc
  have hnone := of_decide_eq_false hcell
  push Not at hnone
  obtain ⟨hseparator, hnewLine, hmark⟩ := hnone
  refine ⟨ne_of_mem_of_not_mem hc hmark, ne_of_mem_of_not_mem hc hseparator, ?_⟩
  cases hb : isBreak c with
  | false => exact hb
  | true => exact absurd (hbreak c hb ▸ hc) hnewLine

theorem quotes_rowFormat : Csv.Quotes h.rowFormat h.isSpecial :=
  quotes_special fun _ hc => absurd hc Bool.false_ne_true

theorem quotes_fileFormat : Csv.Quotes h.fileFormat h.isSpecial :=
  quotes_special fun _ hc => of_decide_eq_true hc

theorem doubled_take_succ (f : Csv.Format UInt8) {j : Nat} (hlt : j < cell.length) :
    Csv.doubled f (cell.take (j + 1)) = Csv.doubled f (cell.take j) ++
      (if cell[j] = f.quote then [f.quote, cell[j]] else [cell[j]]) := by
  unfold Csv.doubled
  rw [take_add_one, getElem?_eq_getElem hlt, toList_some, flatMap_append,
    flatMap_singleton]

/-- What is written of the cell before the index. -/
structure Copied (f : Csv.Format UInt8) (cell row : List UInt8) (t : CellCopy) : Prop where
  index_pos : 1 ≤ t.i
  index_le : t.i ≤ cell.length + 1
  row_eq : t.row = row ++ Csv.doubled f (cell.take (t.i - 1))

theorem Copied.putCellTurn {f : Csv.Format UInt8} (hf : f.quote = quoteMark) {t : CellCopy}
    (ht : Copied f cell row t) (hle : t.i ≤ cell.length) :
    ∃ t', putCellTurn cell t = some t' ∧ t.i < t'.i ∧ Copied f cell row t' := by
  obtain ⟨i, copied⟩ := t
  obtain ⟨hi, -, hcopied⟩ := ht
  obtain ⟨j, rfl⟩ := Nat.exists_eq_add_of_le' hi
  have hlt : j < cell.length := hle
  have hitem : item cell (j + 1) = some cell[j] := getElem?_eq_getElem hlt
  dsimp only at hcopied
  rw [Nat.add_sub_cancel] at hcopied
  unfold CsvHandler.putCellTurn
  rw [hitem, some_bind]
  refine ⟨_, rfl, Nat.lt_succ_self (j + 1), Nat.le_add_left 1 (j + 1), Nat.succ_le_succ hlt, ?_⟩
  rw [Nat.add_sub_cancel, doubled_take_succ f hlt, hcopied, hf, ← append_assoc]
  split_ifs
  · rw [append_assoc _ [quoteMark], singleton_append]
  · rfl

/-- `put_cell` appends the text of the cell. -/
theorem putCell_eq (isBreak : UInt8 → Bool) (hquote : isBreak quoteMark = false)
    (cell row : List UInt8) : h.putCell cell row =
      some (row ++ Csv.cellText (h.format isBreak hquote) h.isSpecial cell) := by
  let f := h.format isBreak hquote
  unfold putCell Csv.cellText
  by_cases hspecial : h.separator ∈ cell ∨ newLine ∈ cell ∨ quoteMark ∈ cell
  · have hstart : Copied f cell (row ++ [quoteMark]) { i := 1, row := row ++ [quoteMark] } :=
      ⟨Nat.le_refl 1, Nat.le_add_left 1 _, (append_nil _).symm⟩
    obtain ⟨t, hrun, hend, ht⟩ : ∃ t, loopUntil (CellCopy.isAfter cell)
        (CsvHandler.putCellTurn cell) (cell.length + 1) _ = some t ∧ cell.length < t.i ∧
          Copied f cell (row ++ [quoteMark]) t :=
      loopUntil_index _ (fun _ => rfl) (fun t ht hle => ht.putCellTurn rfl hle) hstart
        (Nat.lt_succ_self cell.length)
    have hlast : t.i - 1 = cell.length := by
      have hle := ht.index_le
      omega
    have hcopied := ht.row_eq
    rw [hlast, take_length] at hcopied
    rw [if_neg (not_not_intro hspecial), hrun, some_bind, hcopied,
      show h.isSpecial cell = true from decide_eq_true hspecial, if_pos rfl, append_assoc,
      append_assoc]
    rfl
  · rw [if_pos hspecial, show h.isSpecial cell = false from decide_eq_false hspecial]
    rfl

theorem writeRow_eq (isBreak : UInt8 → Bool) (hquote : isBreak quoteMark = false)
    (cells : List (List UInt8)) (text : List UInt8) : h.writeRow cells text =
      some (text ++ Csv.rowText (h.format isBreak hquote) h.isSpecial cells) := by
  induction cells generalizing text with
  | nil => exact congrArg some (append_nil text).symm
  | cons cell cells ih =>
      cases cells with
      | nil => exact putCell_eq isBreak hquote cell text
      | cons next cells =>
          rw [writeRow, putCell_eq isBreak hquote, some_bind, ih,
            Csv.rowText, append_assoc, append_assoc]
          rfl

theorem writeRows_eq (rows : List (List (List UInt8))) (text : List UInt8) :
    h.writeRows rows text = some (text ++ Csv.rowsText h.fileFormat h.isSpecial newLine rows) := by
  induction rows generalizing text with
  | nil => exact congrArg some (append_nil text).symm
  | cons row rows ih =>
      cases rows with
      | nil => exact writeRow_eq _ _ row text
      | cons next rows =>
          rw [writeRows, writeRow_eq (fun c => decide (c = newLine)) rfl,
            some_bind, ih, Csv.rowsText, append_assoc,
            append_assoc]
          rfl

/-- What a scan of `read_row` has read, as progress of the reader of formats. -/
def RowScan.progress (t : RowScan) : Csv.Progress UInt8 where
  mode := if t.hasQuote then .quoted else .plain
  cell := t.cell
  cells := t.cells
  rows := []

/-- The rest of the row leads to the cells `first` and the cell `last`. -/
structure RowReads (h : CsvHandler) (row : List UInt8) (last : List UInt8)
    (first : List (List UInt8)) (t : RowScan) : Prop where
  index_pos : 1 ≤ t.i
  index_le : t.i ≤ row.length + 1
  ends : Csv.AtEnd (Csv.read h.rowFormat t.progress (row.drop (t.i - 1))) last first []

/-- Every turn of the loop of `read_row` reads one character or two quotes. -/
theorem RowReads.readRowTurn {last : List UInt8} {first : List (List UInt8)} {t : RowScan}
    (ht : RowReads h row last first t) (hle : t.i ≤ row.length) :
    ∃ t', h.readRowTurn row t = some t' ∧ t.i < t'.i ∧ RowReads h row last first t' := by
  obtain ⟨i, cell, hasQuote, cells⟩ := t
  obtain ⟨hi, -, hends⟩ := ht
  obtain ⟨j, rfl⟩ := Nat.exists_eq_add_of_le' hi
  have hlt : j < row.length := hle
  have hitem : item row (j + 1) = some row[j] := List.getElem?_eq_getElem hlt

  dsimp only at hends
  rw [Nat.add_sub_cancel, List.drop_eq_getElem_cons hlt, Csv.read_cons] at hends
  have hone : ∀ t' : RowScan, t'.i = j + 1 + 1 →
      Csv.step h.rowFormat (RowScan.progress ⟨j + 1, cell, hasQuote, cells⟩) row[j] = t'.progress →
      j + 1 < t'.i ∧ RowReads h row last first t' := by
    rintro t' hi' hstep
    rw [hstep] at hends
    exact ⟨by omega, by omega, by omega, by rwa [hi', Nat.add_sub_cancel]⟩
  unfold CsvHandler.readRowTurn
  rw [hitem, some_bind]
  by_cases hquote : row[j] = quoteMark
  · rw [hquote] at hends hone
    rw [if_pos hquote]
    cases hasQuote with
    | false =>
        have hstep := Csv.step_plain_quote (f := h.rowFormat) cell cells []
        rw [if_neg Bool.false_ne_true]
        by_cases hcell : cell = []
        · rw [if_pos hcell]
          exact ⟨_, rfl, hone _ rfl (hstep.trans (if_pos hcell))⟩
        · rw [if_neg hcell]
          exact ⟨_, rfl, hone _ rfl (hstep.trans (if_neg hcell))⟩
    | true =>
        have hclosing : Csv.step h.rowFormat (RowScan.progress ⟨j + 1, cell, true, cells⟩)
            quoteMark = ⟨.closing, cell, cells, []⟩ := Csv.step_quoted_quote cell cells []
        rw [hclosing] at hends
        rw [if_pos rfl]
        by_cases htwo : j + 1 < row.length ∧ item row (j + 1 + 1) = some quoteMark
        · have hlt' : j + 1 < row.length := htwo.1
          have hsecond : row[j + 1] = quoteMark :=
            some.inj ((List.getElem?_eq_getElem hlt').symm.trans htwo.2)
          have hput : Csv.step h.rowFormat ⟨.closing, cell, cells, []⟩ quoteMark =
              ⟨.quoted, cell ++ [quoteMark], cells, []⟩ := Csv.step_closing_quote cell cells []
          rw [List.drop_eq_getElem_cons hlt', hsecond, Csv.read_cons, hput] at hends
          rw [if_pos htwo]
          exact ⟨_, rfl, Nat.lt_add_of_pos_right Nat.two_pos, Nat.le_add_left 1 _,
            Nat.succ_le_succ hlt', hends⟩
        · have hother : (row.drop (j + 1)).head? ≠ some quoteMark := by
            rw [List.head?_drop]
            intro heq
            exact htwo ⟨(List.getElem?_eq_some_iff.mp heq).1, heq⟩
          rw [if_neg htwo]
          exact ⟨_, rfl, Nat.lt_succ_self _, Nat.le_add_left 1 _, Nat.succ_le_succ hlt,
            Csv.AtEnd.of_closing (p := ⟨.plain, cell, cells, []⟩) hother hends⟩
  · rw [if_neg hquote]
    cases hasQuote with
    | false =>
        have hstep := Csv.step_plain (f := h.rowFormat) hquote cell cells []
        rw [if_neg Bool.false_ne_true]
        by_cases hseparator : row[j] = h.separator
        · rw [if_pos hseparator]
          exact ⟨_, rfl, hone _ rfl (hstep.trans (if_pos hseparator))⟩
        · rw [if_neg hseparator]
          exact ⟨_, rfl, hone _ rfl (hstep.trans (if_neg hseparator))⟩
    | true =>
        have hstep := Csv.step_quoted (f := h.rowFormat) hquote cell cells []
        rw [if_pos rfl]
        split_ifs
        · exact ⟨_, rfl, hone _ rfl hstep⟩
        · exact ⟨_, rfl, hone _ rfl hstep⟩

/-- `read_row` finds what the reader of formats does. -/
theorem readRow_eq {row last : List UInt8} {cells first : List (List UInt8)}
    (hends : Csv.AtEnd (Csv.read h.rowFormat ⟨.plain, [], cells, []⟩ row) last first []) :
    h.readRow row cells = some (first ++ [last]) := by
  have hstart : RowReads h row last first ⟨1, [], false, cells⟩ :=
    ⟨Nat.le_refl 1, Nat.le_add_left 1 _, hends⟩
  obtain ⟨t, hrun, hend, ht⟩ : ∃ t, loopUntil (RowScan.isAfter row) (h.readRowTurn row)
      (row.length + 1) _ = some t ∧ row.length < t.i ∧ RowReads h row last first t :=
    loopUntil_index _ (fun _ => rfl) (fun t ht hle => ht.readRowTurn hle) hstart
      (Nat.lt_succ_self row.length)
  have hread := ht.ends
  rw [drop_of_length_le (by omega)] at hread
  unfold readRow
  rw [hrun, some_bind, show t.cells = first from hread.cells_eq,
    show t.cell = last from hread.cell_eq]

/-- `read_row` gives the cells of a written row back. -/
theorem readRow_writeRow (h : CsvHandler) {row : List (List UInt8)} (hrow : row ≠ [])
    (cells : List (List UInt8)) :
    ∃ text, h.writeRow row [] = some text ∧ h.readRow text cells = some (cells ++ row) := by
  obtain ⟨first, last, hsplit, hends, -⟩ :=
    Csv.read_rowText (f := h.rowFormat) quotes_rowFormat hrow cells []
  exact ⟨_, writeRow_eq (fun _ => false) rfl row [], hsplit ▸ readRow_eq hends⟩

/-- What a scan of `read_file` has read, as progress of the reader of formats. -/
def FileScan.progress (t : FileScan) : Csv.Progress UInt8 where
  mode := if t.hasQuote then .quoted else .plain
  cell := t.cell
  cells := t.cells
  rows := t.rows

/-- Where a scan of `read_file` is in its file: at a character of the last
string, or after it, and then the file is at its end if it was read to look at
the character after a quote. -/
structure InFile (t : FileScan) : Prop where
  index_pos : 1 ≤ t.i
  index_le : t.i ≤ t.lastString.length + 1
  within : t.i ≤ t.lastString.length → t.file.endOfInput = false
  after : t.lastString.length < t.i → t.file.endOfInput = t.forthDone
  ended : t.file.endOfInput = true → t.file.pieces = []

/-- The characters after the one at the index. -/
def FileScan.next (t : FileScan) : List UInt8 :=
  t.lastString.drop t.i ++ t.file.pieces.flatten

theorem FileScan.left_eq_cons {t : FileScan} {j : Nat} (hi : t.i = j + 1)
    (hlt : j < t.lastString.length) : t.left = t.lastString[j] :: t.next := by
  unfold FileScan.left FileScan.next
  rw [hi, Nat.add_sub_cancel, drop_eq_getElem_cons hlt, cons_append]

/-- After `forth` the scan is at the character after a quote, or the file ended. -/
theorem FileScan.forth_spec {t : FileScan} (hi : t.i ≤ t.lastString.length)
    (hfile : t.file.endOfInput = false) :
    t.forth.left = t.next ∧ t.forth.hasQuote = t.hasQuote ∧ t.forth.progress = t.progress ∧
      t.forth.file.pieces.length ≤ t.file.pieces.length ∧ 1 ≤ t.forth.i ∧
      (t.forth.i ≤ t.forth.lastString.length ∧ t.forth.file.endOfInput = false ∨
        t.forth.i = t.forth.lastString.length + 1 ∧ t.forth.file.endOfInput = true ∧
          t.forth.file.pieces = []) := by
  unfold FileScan.forth FileScan.next
  by_cases hlast : t.lastString.length < t.i + 1
  · have hdrop : t.lastString.drop t.i = [] := drop_of_length_le (by omega)
    rw [if_pos hlast, hdrop, nil_append]
    rcases t.file.readString_cases with ⟨hnil, hnil', hend⟩ |
      ⟨piece, pieces, hpiece, hcons, hrest, hstring, hgo⟩
    · rw [if_pos hend, hnil]
      refine ⟨?_, rfl, rfl, ?_, Nat.le_add_left 1 _, Or.inr ⟨?_, hend, hnil'⟩⟩
      · change t.lastString.drop t.i ++ t.file.readString.pieces.flatten = _
        rw [hdrop, hnil']
        rfl
      · exact Nat.le_of_eq (congrArg length hnil')
      · change t.i + 1 = t.lastString.length + 1
        omega
    · rw [if_neg (by rw [hgo]; exact Bool.false_ne_true), hcons]
      refine ⟨?_, rfl, rfl, ?_, Nat.le_refl 1, Or.inl ⟨?_, hgo⟩⟩
      · change t.file.readString.lastString.drop 0 ++ t.file.readString.pieces.flatten = _
        rw [hstring, hrest]
        rfl
      · change t.file.readString.pieces.length ≤ _
        rw [hrest]
        exact Nat.le_succ _
      · change 1 ≤ t.file.readString.lastString.length
        rw [hstring]
        exact length_pos_iff.mpr hpiece
  · rw [if_neg hlast]
    exact ⟨rfl, rfl, rfl, Nat.le_refl _, Nat.le_add_left 1 _, Or.inl ⟨Nat.not_lt.mp hlast, hfile⟩⟩

/-- The rest of the file leads to `rows`, the cells `first` and the cell `last`. -/
structure FileReads (h : CsvHandler) (last : List UInt8) (first : List (List UInt8))
    (rows : List (List (List UInt8))) (t : FileScan) : Prop extends InFile t where
  ends : Csv.AtEnd (Csv.read h.fileFormat t.progress t.left) last first rows

variable {last : List UInt8} {first : List (List UInt8)} {rows : List (List (List UInt8))}
  {t : FileScan}

section

variable (ht : FileReads h last first rows t)

include ht

/-- One character was read, and the reader of formats read it as well. -/
theorem FileReads.next {j : Nat} (hi : t.i = j + 1)
    (hlt : j < t.lastString.length) {t' : FileScan} (hfile : t'.file = t.file)
    (hstring : t'.lastString = t.lastString) (hi' : t'.i = t.i + 1) (hforth : t'.forthDone = false)
    (hstep : Csv.step h.fileFormat t.progress t.lastString[j] = t'.progress) :
    t'.left.length < t.left.length ∧ t'.file.pieces.length ≤ t.file.pieces.length ∧
      FileReads h last first rows t' := by
  have hgo : t.file.endOfInput = false := ht.within (by omega)
  have hleft : t'.left = t.next := by
    unfold FileScan.left FileScan.next
    rw [hstring, hi', Nat.add_sub_cancel, hfile]
  have hends := ht.ends
  rw [FileScan.left_eq_cons hi hlt, Csv.read_cons, hstep, ← hleft] at hends
  refine ⟨?_, Nat.le_of_eq (by rw [hfile]), ⟨by omega, by rw [hstring]; omega, ?_, ?_, ?_⟩, hends⟩
  · rw [FileScan.left_eq_cons hi hlt, hleft]
    exact Nat.lt_succ_self _
  · exact fun _ => hfile ▸ hgo
  · exact fun _ => (hfile ▸ hgo : t'.file.endOfInput = false).trans hforth.symm
  · exact fun hend => absurd ((hfile ▸ hgo : t'.file.endOfInput = false).symm.trans hend)
      Bool.false_ne_true

/-- A quote within quotes was read, and the character after it looked at. -/
theorem FileReads.forth {j : Nat} (hi : t.i = j + 1)
    (hlt : j < t.lastString.length) (hquote : t.lastString[j] = quoteMark)
    (hhas : t.hasQuote = true) :
    ∃ t', (if t.forth.i ≤ t.forth.lastString.length ∧
        item t.forth.lastString t.forth.i = some quoteMark then
          some { t.forth with
            cell := t.forth.cell ++ [quoteMark], forthDone := false, i := t.forth.i + 1 }
        else some { t.forth with forthDone := true, hasQuote := false }) = some t' ∧
      t'.left.length < t.left.length ∧ t'.file.pieces.length ≤ t.file.pieces.length ∧
        FileReads h last first rows t' := by
  obtain ⟨hleft, hsame, hprogress, hpieces, hpos, hwhere⟩ :=
    FileScan.forth_spec (by omega : t.i ≤ t.lastString.length) (ht.within (by omega))
  generalize t.forth = u at *
  have hlength : t.left.length = u.left.length + 1 := by
    rw [FileScan.left_eq_cons hi hlt, hleft, length_cons]
  have hu : u.hasQuote = true := hsame.trans hhas
  have hclosing : Csv.step h.fileFormat t.progress quoteMark =
      ⟨.closing, u.cell, u.cells, u.rows⟩ := by
    rw [← hprogress, FileScan.progress, if_pos hu]
    exact Csv.step_quoted_quote u.cell u.cells u.rows
  have hends := ht.ends
  rw [FileScan.left_eq_cons hi hlt, hquote, Csv.read_cons, hclosing, ← hleft] at hends
  by_cases htwo : u.i ≤ u.lastString.length ∧ item u.lastString u.i = some quoteMark
  · obtain ⟨k, hk⟩ := Nat.exists_eq_add_of_le' hpos
    have hlt' : k < u.lastString.length := by omega
    have hgo : u.file.endOfInput = false := by
      rcases hwhere with ⟨-, hgo⟩ | ⟨hafter, -⟩
      · exact hgo
      · omega
    have hsecond : u.lastString[k] = quoteMark := by
      have hitem := htwo.2
      rw [hk, item, getElem?_eq_getElem hlt'] at hitem
      exact some.inj hitem
    have hput : Csv.step h.fileFormat ⟨.closing, u.cell, u.cells, u.rows⟩ quoteMark =
        ⟨.quoted, u.cell ++ [quoteMark], u.cells, u.rows⟩ :=
      Csv.step_closing_quote u.cell u.cells u.rows
    rw [FileScan.left_eq_cons hk hlt', hsecond, Csv.read_cons, hput] at hends
    refine ⟨_, if_pos htwo, ?_, hpieces, ⟨Nat.le_add_left 1 _, Nat.succ_le_succ htwo.1,
      fun _ => hgo, fun _ => hgo, fun hend => absurd (hgo.symm.trans hend) Bool.false_ne_true⟩, ?_⟩
    · rw [hlength, FileScan.left_eq_cons hk hlt']
      exact Nat.lt_succ_of_lt (Nat.lt_succ_self u.next.length)
    · unfold FileScan.progress
      rw [if_pos hu]
      exact hends
  · rcases hwhere with ⟨hle, hgo⟩ | ⟨hafter, hend, hnil⟩
    · obtain ⟨k, hk⟩ := Nat.exists_eq_add_of_le' hpos
      have hlt' : k < u.lastString.length := by omega
      have hother : u.left.head? ≠ some quoteMark := by
        rw [FileScan.left_eq_cons hk hlt', head?_cons, ← getElem?_eq_getElem hlt']
        intro heq
        exact htwo ⟨hle, by rw [hk]; exact heq⟩
      exact ⟨_, if_neg htwo, hlength ▸ Nat.lt_succ_self _, hpieces,
        ⟨hpos, Nat.le_succ_of_le hle, fun _ => hgo, fun hlt => absurd hlt (Nat.not_lt.mpr hle),
          fun hend => absurd (hgo.symm.trans hend) Bool.false_ne_true⟩,
        Csv.AtEnd.of_closing (p := ⟨.plain, u.cell, u.cells, u.rows⟩) hother hends⟩
    · have hnone : u.left = [] := by
        unfold FileScan.left
        rw [hafter, Nat.add_sub_cancel, drop_length, hnil]
        rfl
      have hother : u.left.head? ≠ some quoteMark := by
        rw [hnone]
        exact fun h => by cases h
      exact ⟨_, if_neg htwo, hlength ▸ Nat.lt_succ_self _, hpieces,
        ⟨hpos, Nat.le_of_eq hafter, fun hle => absurd hle (by dsimp only; omega), fun _ => hend,
          fun _ => hnil⟩,
        Csv.AtEnd.of_closing (p := ⟨.plain, u.cell, u.cells, u.rows⟩) hother hends⟩

/-- Every turn of the inner loop of `read_file` reads one character or two quotes. -/
theorem FileReads.readFileTurn (hle : t.i ≤ t.lastString.length) :
    ∃ t', h.readFileTurn t = some t' ∧ t'.left.length < t.left.length ∧
      t'.file.pieces.length ≤ t.file.pieces.length ∧ FileReads h last first rows t' := by
  obtain ⟨j, hj⟩ := Nat.exists_eq_add_of_le' ht.index_pos
  have hlt : j < t.lastString.length := by omega
  have hitem : item t.lastString t.i = some t.lastString[j] :=
    hj ▸ getElem?_eq_getElem hlt
  have hone : ∀ t' : FileScan, t'.file = t.file → t'.lastString = t.lastString → t'.i = t.i + 1 →
      t'.forthDone = false → Csv.step h.fileFormat t.progress t.lastString[j] = t'.progress → _ :=
    fun t' hfile hstring hi hforth hstep => ht.next hj hlt hfile hstring hi hforth hstep
  have hquoted : t.hasQuote = true → t.progress = ⟨.quoted, t.cell, t.cells, t.rows⟩ :=
    fun hhas => by rw [FileScan.progress, if_pos hhas]
  have hplain : ¬t.hasQuote = true → t.progress = ⟨.plain, t.cell, t.cells, t.rows⟩ :=
    fun hhas => by rw [FileScan.progress, if_neg hhas]
  unfold CsvHandler.readFileTurn
  rw [hitem, some_bind]
  by_cases hquote : t.lastString[j] = quoteMark
  · rw [if_pos hquote]
    by_cases hhas : t.hasQuote = true
    · rw [if_pos hhas]
      exact ht.forth hj hlt hquote hhas
    · have hstep := Csv.step_plain_quote (f := h.fileFormat) t.cell t.cells t.rows
      rw [hquote, hplain hhas] at hone
      rw [if_neg hhas]
      by_cases hcell : t.cell = []
      · rw [if_pos hcell]
        exact ⟨_, rfl, hone _ rfl rfl rfl rfl (hstep.trans (if_pos hcell))⟩
      · rw [if_neg hcell]
        refine ⟨_, rfl, hone _ rfl rfl rfl rfl ((hstep.trans (if_neg hcell)).trans ?_)⟩
        rw [FileScan.progress, if_neg hhas]
        rfl
  · rw [if_neg hquote]
    by_cases hhas : t.hasQuote = true
    · have hstep := Csv.step_quoted (f := h.fileFormat) hquote t.cell t.cells t.rows
      rw [hquoted hhas] at hone
      simp only [if_pos hhas, ite_self]
      refine ⟨_, rfl, hone _ rfl rfl rfl rfl (hstep.trans ?_)⟩
      rw [FileScan.progress, if_pos hhas]
    · have hstep := Csv.step_plain (f := h.fileFormat) hquote t.cell t.cells t.rows
      have hmode : (if t.hasQuote = true then Csv.Mode.quoted else .plain) = .plain := if_neg hhas
      rw [hplain hhas] at hone
      rw [if_neg hhas, if_neg hhas]
      by_cases hend : t.lastString[j] = h.separator
      · rw [if_pos hend]
        refine ⟨_, rfl, hone _ rfl rfl rfl rfl ((hstep.trans (if_pos hend)).trans ?_)⟩
        rw [FileScan.progress, hmode]
      · rw [if_neg hend]
        have hstep := hstep.trans (if_neg hend)
        by_cases hbreak : t.lastString[j] = newLine
        · have hstep := hstep.trans (if_pos (decide_eq_true hbreak))
          rw [if_pos hbreak]
          refine ⟨_, rfl, hone _ rfl rfl rfl rfl (hstep.trans ?_)⟩
          rw [FileScan.progress, hmode]
        · have hstep := hstep.trans (if_neg fun hb => hbreak (of_decide_eq_true hb))
          rw [if_neg hbreak]
          refine ⟨_, rfl, hone _ rfl rfl rfl rfl (hstep.trans ?_)⟩
          rw [FileScan.progress, hmode]

theorem FileReads.loop :
    ∃ t', loopUntil FileScan.isAfter h.readFileTurn (t.left.length + 1) t = some t' ∧
      t'.lastString.length < t'.i ∧ t'.file.pieces.length ≤ t.file.pieces.length ∧
        FileReads h last first rows t' := by
  have hturn : ∀ (n : Nat) (s : FileScan),
      s.left.length = n ∧ s.file.pieces.length ≤ t.file.pieces.length ∧
        FileReads h last first rows s →
      FileScan.isAfter s = some true ∨ FileScan.isAfter s = some false ∧
        ∃ s' m, h.readFileTurn s = some s' ∧ m < n ∧ s'.left.length = m ∧
          s'.file.pieces.length ≤ t.file.pieces.length ∧ FileReads h last first rows s' := by
    rintro n s ⟨rfl, hpieces, hs⟩
    rcases Nat.lt_or_ge s.lastString.length s.i with hlt | hle
    · exact Or.inl (congrArg some (decide_eq_true hlt))
    · obtain ⟨s', hbody, hleft, hfewer, hs'⟩ := hs.readFileTurn hle
      exact Or.inr ⟨congrArg some (decide_eq_false (Nat.not_lt.mpr hle)), s', _, hbody, hleft, rfl,
        Nat.le_trans hfewer hpieces, hs'⟩
  obtain ⟨t', -, hrun, ⟨-, hpieces, ht'⟩, hstop⟩ :=
    loopUntil_spec _ hturn (Nat.lt_succ_self t.left.length) ⟨rfl, Nat.le_refl _, ht⟩
  exact ⟨t', hrun, of_decide_eq_true (some.inj hstop), hpieces, ht'⟩

end

/-- A turn of the outer loop reads a piece, and more if a quote ends it. -/
theorem readPiece_spec (hgo : t.file.endOfInput = false)
    (hends : Csv.AtEnd (Csv.read h.fileFormat t.progress t.file.rest) last first rows) :
    ∃ t', h.readPiece t = some t' ∧ t'.file.turnsLeft < t.file.turnsLeft ∧
      Csv.AtEnd (Csv.read h.fileFormat t'.progress t'.file.rest) last first rows := by
  have hrest : t.file.rest = t.file.lastString ++ t.file.pieces.flatten := if_neg (by simp [hgo])
  have hturns : t.file.turnsLeft = t.file.pieces.length + 1 := if_neg (by simp [hgo])
  rw [hrest] at hends
  have hstart : FileReads h last first rows
      { t with forthDone := false, lastString := t.file.lastString, i := 1 } :=
    ⟨⟨Nat.le_refl 1, Nat.le_add_left 1 _, fun _ => hgo, fun _ => hgo,
      fun hend => absurd (hgo.symm.trans hend) Bool.false_ne_true⟩, hends⟩
  obtain ⟨s, hrun, hafter, hpieces, hs⟩ := hstart.loop
  have hend := hs.after hafter
  have hleft : s.left = s.file.pieces.flatten := by
    unfold FileScan.left
    rw [drop_of_length_le (by omega), nil_append]
  have hread := hs.ends
  rw [hleft] at hread
  unfold readPiece
  dsimp only
  rw [hrun, some_bind, hturns]
  by_cases hdone : s.forthDone = true
  · rw [hdone] at hend
    have hnone : s.file.rest = [] := if_pos hend
    have hzero : s.file.turnsLeft = 0 := if_pos hend
    rw [hs.ended hend] at hread
    exact ⟨s, if_pos hdone, by omega, hnone ▸ hread⟩
  · obtain ⟨hrest', hturns'⟩ := s.file.rest_readString
    exact ⟨_, if_neg hdone, Nat.lt_succ_of_le (Nat.le_trans hturns' hpieces), hrest' ▸ hread⟩

/-- `read_file` calls the action with the rows that the reader of formats ends,
and with the last one if there is anything in it. -/
theorem readFile_eq {file : TextStream} (hfile : file.endOfInput = false)
    (hends : Csv.AtEnd (Csv.read h.fileFormat ⟨.plain, [], [], []⟩ file.pieces.flatten)
      last first rows) :
    h.readFile file =
      some (if last = [] then if first = [] then rows else rows ++ [first]
        else rows ++ [first ++ [last]]) := by
  have hturn : ∀ (n : Nat) (t : FileScan), t.file.turnsLeft = n ∧
      Csv.AtEnd (Csv.read h.fileFormat t.progress t.file.rest) last first rows →
      some t.file.endOfInput = some true ∨ some t.file.endOfInput = some false ∧
        ∃ t' m, h.readPiece t = some t' ∧ m < n ∧ t'.file.turnsLeft = m ∧
          Csv.AtEnd (Csv.read h.fileFormat t'.progress t'.file.rest) last first rows := by
    rintro n t ⟨rfl, ht⟩
    cases hgo : t.file.endOfInput with
    | true => exact Or.inl rfl
    | false =>
        obtain ⟨t', hbody, hturns, ht'⟩ := readPiece_spec hgo ht
        exact Or.inr ⟨rfl, t', _, hbody, hturns, rfl, ht'⟩
  obtain ⟨hrest, hturns⟩ := file.rest_readString
  have hstart : Csv.AtEnd (Csv.read h.fileFormat (FileScan.progress
      ⟨file.readString, [], 1, [], false, [], false, []⟩) file.readString.rest) last first rows :=
    hrest ▸ hends
  obtain ⟨t, -, hrun, ⟨-, ht⟩, hstop⟩ :=
    loopUntil_spec _ hturn (Nat.lt_succ_of_le (Nat.le_succ_of_le hturns)) ⟨rfl, hstart⟩
  have hend : t.file.rest = [] := if_pos (some.inj hstop)
  rw [hend] at ht
  unfold readFile
  rw [if_neg (by rw [hfile]; exact Bool.false_ne_true), hrun, some_bind,
    lastRow, show t.cell = last from ht.cell_eq, show t.cells = first from ht.cells_eq,
    show t.rows = rows from ht.rows_eq]
  by_cases hlast : last = []
  · rw [if_pos hlast, if_pos hlast]
  · rw [if_neg hlast, if_neg hlast,
      if_neg (append_ne_nil_of_right_ne_nil _ (cons_ne_nil _ _))]

/-- The rows are read back: each from its own text by `read_row`, all of them
from the file by `read_file`. -/
def ReadsBack (h : CsvHandler) (rows : List (List (List UInt8))) (file : TextStream) : Prop :=
  (∀ row ∈ rows, ∀ cells, ∃ text, h.writeRow row [] = some text ∧
    h.readRow text cells = some (cells ++ row)) ∧
  (h.separator ≠ newLine → h.readFile file = some rows)

theorem lastRow_complete_iff {before : List (List (List UInt8))} {first : List (List UInt8)}
    {last : List UInt8} :
    some (if last = [] then if first = [] then before else before ++ [first]
      else before ++ [first ++ [last]]) = some (before ++ [first ++ [last]]) ↔ last ≠ [] := by
  by_cases hlast : last = []
  · rw [if_pos hlast]
    refine ⟨fun heq => ?_, fun hne => absurd hlast hne⟩
    have hlength := congrArg (fun rows => (rows.map length).sum) (some.inj heq)
    split_ifs at hlength with hfirst <;> simp [hfirst] at hlength
  · rw [if_neg hlast]
    exact ⟨fun _ => hlast, fun _ => rfl⟩

/-- Rows are read back exactly if a newline or a cell with some text is at the
end of their text: `read_file` drops an empty cell there. -/
theorem readsBack_iff (h : CsvHandler) {rows : List (List (List UInt8))} (hne : rows ≠ [])
    (hrows : ∀ row ∈ rows, row ≠ []) {text : List UInt8}
    (htext : h.writeRows rows [] = some text) (endsWithNewLine : Bool) {file : TextStream}
    (hpieces : file.pieces.flatten = if endsWithNewLine then text ++ [newLine] else text)
    (hfile : file.endOfInput = false) :
    ReadsBack h rows file ↔
      h.separator = newLine ∨ endsWithNewLine = true ∨
        rows.getLast?.bind getLast? ≠ some [] := by
  have hrow : ∀ row ∈ rows, ∀ cells, ∃ text, h.writeRow row [] = some text ∧
      h.readRow text cells = some (cells ++ row) :=
    fun row hrow cells => readRow_writeRow h (hrows row hrow) cells
  unfold ReadsBack
  by_cases hseparator : h.separator = newLine
  · exact ⟨fun _ => Or.inl hseparator, fun _ => ⟨hrow, fun hsep => absurd hseparator hsep⟩⟩
  · have hwritten := some.inj ((writeRows_eq rows []).symm.trans htext)
    rw [nil_append] at hwritten
    obtain ⟨before, first, last, hsplit, hends, hlast⟩ :=
      Csv.read_rowsText (f := h.fileFormat) quotes_fileFormat (decide_eq_true rfl)
        (Ne.symm hseparator) hne hrows []
    rw [nil_append] at hsplit
    rw [hwritten] at hends
    rw [hlast, (some_injective _).ne_iff]
    cases endsWithNewLine with
    | true =>
        have hread : h.readFile file = some rows := by
          rw [if_pos rfl] at hpieces
          have hcomplete : Csv.AtEnd (Csv.read h.fileFormat ⟨.plain, [], [], []⟩
              file.pieces.flatten) [] [] rows := by
            rw [hpieces, Csv.read_append, Csv.read_cons, Csv.read_nil,
              Csv.read_break (f := h.fileFormat) (decide_eq_true rfl) (Ne.symm hseparator) hends,
              hsplit]
            exact ⟨nofun, rfl, rfl, rfl⟩
          exact readFile_eq hfile hcomplete
        exact ⟨fun _ => Or.inr (Or.inl rfl), fun _ => ⟨hrow, fun _ => hread⟩⟩
    | false =>
        rw [if_neg Bool.false_ne_true] at hpieces
        have hread := readFile_eq hfile (hpieces ▸ hends)
        have hcomplete : h.readFile file = some rows ↔ last ≠ [] := by
          rw [hread, ← hsplit]
          exact lastRow_complete_iff
        constructor
        · rintro ⟨-, hcell⟩
          exact Or.inr (Or.inr (hcomplete.mp (hcell hseparator)))
        · rintro (heq | heq | hcell)
          · exact absurd heq hseparator
          · exact absurd heq Bool.false_ne_true
          · exact ⟨hrow, fun _ => hcomplete.mpr hcell⟩

/-- A quote is the last character of the first piece, and another one is the
first of the next. -/
theorem readsBack_cut_quotes : ReadsBack ⟨44, by decide⟩ [[[97, 34], []], [[98]]]
      ⟨[[34, 97, 34], [34, 34, 44, 10], [98]], [], false, by decide⟩ :=
  (readsBack_iff ⟨44, by decide⟩ (by decide) (by decide)
    (rfl : CsvHandler.writeRows _ _ [] = some [34, 97, 34, 34, 34, 44, 10, 98]) false rfl
    rfl).mpr (by decide)

/-- `a,` is written for the cells `a` and the empty one, and read as one cell by
`read_file`. -/
theorem readsBack_empty_cell :
    ∃ (h : CsvHandler) (rows : List (List (List UInt8))) (file : TextStream) (text : List UInt8),
      rows ≠ [] ∧ (∀ row ∈ rows, row ≠ []) ∧ h.separator ≠ newLine ∧
        h.writeRows rows [] = some text ∧ (∀ row ∈ rows, h.writeRow row [] ≠ some []) ∧
        file.pieces.flatten = text ∧ file.endOfInput = false ∧
        h.readFile file = some [[[97]]] ∧ ¬ReadsBack h rows file := by
  have hread : CsvHandler.readFile ⟨44, by decide⟩ ⟨[[97, 44]], [], false, by decide⟩ =
      some [[[97]]] := by decide
  refine ⟨⟨44, by decide⟩, [[[97], []]], ⟨[[97, 44]], [], false, by decide⟩, [97, 44], by decide,
    by decide, by decide, rfl, by decide, rfl, rfl, hread, ?_⟩
  rintro ⟨-, hfile⟩
  exact absurd ((hfile (by decide)).symm.trans hread) (by decide)

end

end CsvHandler

end Gobo
