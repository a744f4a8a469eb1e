/-
Reading and writing rows of comma-separated values (`UT_CSV_HANDLER`), from
strings and from files that are read piece by piece.
-/
import Gobo.Loop
import Gobo.Text

namespace Gobo

open Text

def quoteMark : UInt8 := 34

def newLine : UInt8 := 10

/-- An input stream which is read in pieces of any length but zero. -/
structure TextStream where
  pieces : List (List UInt8)
  lastString : List UInt8
  endOfInput : Bool
  ne_nil_of_mem : ∀ piece ∈ pieces, piece ≠ []

namespace TextStream

/-- `read_string`: the end of the input is reached when there is no character left. -/
def readString (file : TextStream) : TextStream :=
  match file with
  | ⟨[], _, _, h⟩ => ⟨[], [], true, h⟩
  | ⟨piece :: pieces, _, _, h⟩ =>
      ⟨pieces, piece, false, fun p hp => h p (List.mem_cons_of_mem _ hp)⟩

end TextStream

structure CsvHandler where
  separator : UInt8
  valid_separator : separator ≠ quoteMark

namespace CsvHandler

variable (h : CsvHandler)

/-- The variables of `read_row`. -/
structure RowScan where
  i : Nat
  cell : List UInt8
  hasQuote : Bool
  cells : List (List UInt8)

/-- `i > nb`. -/
def RowScan.isAfter (row : List UInt8) (t : RowScan) : Option Bool :=
  some (decide (row.length < t.i))

/-- One turn of the loop of `read_row`. -/
def readRowTurn (row : List UInt8) (t : RowScan) : Option RowScan := do
  let c ← item row t.i
  if c = quoteMark then
    if t.hasQuote then
      if t.i < row.length ∧ item row (t.i + 1) = some quoteMark then
        some { t with cell := t.cell ++ [quoteMark], i := t.i + 2 }
      else some { t with hasQuote := false, i := t.i + 1 }
    else if t.cell = [] then some { t with hasQuote := true, i := t.i + 1 }
    else some { t with cell := t.cell ++ [quoteMark], i := t.i + 1 }
  else if c = h.separator then
    if t.hasQuote then some { t with cell := t.cell ++ [c], i := t.i + 1 }
    else some { t with cells := t.cells ++ [t.cell], cell := [], i := t.i + 1 }
  else some { t with cell := t.cell ++ [c], i := t.i + 1 }

/-- `read_row (a_row, a_cells)`: the cells are appended to `cells`. -/
def readRow (row : List UInt8) (cells : List (List UInt8)) : Option (List (List UInt8)) := do
  let t ← loopUntil (RowScan.isAfter row) (h.readRowTurn row) (row.length + 1)
    { i := 1, cell := [], hasQuote := false, cells := cells }
  some (t.cells ++ [t.cell])

/-- The variables of `read_file`, with the rows that the action was called with. -/
structure FileScan where
  file : TextStream
  lastString : List UInt8
  i : Nat
  cell : List UInt8
  hasQuote : Bool
  cells : List (List UInt8)
  forthDone : Bool
  rows : List (List (List UInt8))

/-- `i > nb`. -/
def FileScan.isAfter (t : FileScan) : Option Bool :=
  some (decide (t.lastString.length < t.i))

/-- The index of the character after a quote, which may be in the next piece. -/
def FileScan.forth (t : FileScan) : FileScan :=
  if t.lastString.length < t.i + 1 then
    if t.file.readString.endOfInput then { t with file := t.file.readString, i := t.i + 1 }
    else { t with file := t.file.readString, lastString := t.file.readString.lastString, i := 1 }
  else { t with i := t.i + 1 }

/-- One turn of the inner loop of `read_file`. -/
def readFileTurn (t : FileScan) : Option FileScan := do
  let c ← item t.lastString t.i
  if c = quoteMark then
    if t.hasQuote then
      let t := t.forth
      if t.i ≤ t.lastString.length ∧ item t.lastString t.i = some quoteMark then
        some { t with cell := t.cell ++ [quoteMark], forthDone := false, i := t.i + 1 }
      else some { t with forthDone := true, hasQuote := false }
    else if t.cell = [] then some { t with hasQuote := true, forthDone := false, i := t.i + 1 }
    else some { t with cell := t.cell ++ [quoteMark], forthDone := false, i := t.i + 1 }
  else if c = h.separator then
    if t.hasQuote then
      some { t with cell := t.cell ++ [c], forthDone := false, i := t.i + 1 }
    else
      some { t with cells := t.cells ++ [t.cell], cell := [], forthDone := false, i := t.i + 1 }
  else if c = newLine then
    if t.hasQuote then
      some { t with cell := t.cell ++ [c], forthDone := false, i := t.i + 1 }
    else
      some { t with
        rows := t.rows ++ [t.cells ++ [t.cell]]
        cells := []
        cell := []
        forthDone := false
        i := t.i + 1 }
  else some { t with cell := t.cell ++ [c], forthDone := false, i := t.i + 1 }

/-- The characters that are not read yet. -/
def FileScan.left (t : FileScan) : List UInt8 :=
  t.lastString.drop (t.i - 1) ++ t.file.pieces.flatten

/-- One turn of the outer loop of `read_file`; every turn of the inner one reads
a character at least. -/
def readPiece (t : FileScan) : Option FileScan := do
  let t := { t with forthDone := false, lastString := t.file.lastString, i := 1 }
  let t ← loopUntil FileScan.isAfter h.readFileTurn (t.left.length + 1) t
  if t.forthDone then some t else some { t with file := t.file.readString }

/-- What follows the outer loop. -/
def lastRow (t : FileScan) : List (List (List UInt8)) :=
  let cells := if t.cell = [] then t.cells else t.cells ++ [t.cell]
  if cells = [] then t.rows else t.rows ++ [cells]

/-- `read_file (a_file, a_action)`: the rows that `a_action` is called with. -/
def readFile (file : TextStream) : Option (List (List (List UInt8))) :=
  if file.endOfInput then some []
  else do
    let t ← loopUntil (fun t => some t.file.endOfInput) h.readPiece (file.pieces.length + 2)
      { file := file.readString
        lastString := []
        i := 1
        cell := []
        hasQuote := false
        cells := []
        forthDone := false
        rows := [] }
    some (lastRow t)

/-- The variables of the loop of `put_cell`. -/
structure CellCopy where
  i : Nat
  row : List UInt8

/-- `i > nb`. -/
def CellCopy.isAfter (cell : List UInt8) (t : CellCopy) : Option Bool :=
  some (decide (cell.length < t.i))

def putCellTurn (cell : List UInt8) (t : CellCopy) : Option CellCopy := do
  let c ← item cell t.i
  some { i := t.i + 1, row := (if c = quoteMark then t.row ++ [quoteMark] else t.row) ++ [c] }

/-- `put_cell (a_cell, a_row)`. -/
def putCell (cell row : List UInt8) : Option (List UInt8) :=
  if ¬(h.separator ∈ cell ∨ newLine ∈ cell ∨ quoteMark ∈ cell) then some (row ++ cell)
  else do
    let t ← loopUntil (CellCopy.isAfter cell) (putCellTurn cell) (cell.length + 1)
      { i := 1, row := row ++ [quoteMark] }
    some (t.row ++ [quoteMark])

/-- A row written with `put_cell` and the separator. -/
def writeRow : List (List UInt8) → List UInt8 → Option (List UInt8)
  | [], text => some text
  | [cell], text => h.putCell cell text
  | cell :: next :: cells, text => do
      let text ← h.putCell cell text
      writeRow (next :: cells) (text ++ [h.separator])

/-- Rows with a newline between them. -/
def writeRows : List (List (List UInt8)) → List UInt8 → Option (List UInt8)
  | [], text => some text
  | [row], text => h.writeRow row text
  | row :: next :: rows, text => do
      let text ← h.writeRow row text
      writeRows (next :: rows) (text ++ [newLine])

end CsvHandler

end Gobo
