import AgentKit.Text.Utf8
/-!
# Tables

Text in columns.  A line is a row of cells; every cell but the last is padded to the width of its
column.  A column reaches over neighbouring lines: it ends at the first line that has no padded cell
there, and may start anew below.  Widths count characters.

In the text that is laid out, tabs and vertical tabs end a cell, newlines a line, and form feeds a line
and all columns.  The byte `0xFF` starts and ends a stretch in which none of these counts.
-/

namespace AgentKit.Table

/-- A cell: its text and how wide it shows. -/
structure Cell where
  text : Bytes := []
  width : Nat := 0
  deriving DecidableEq, Repr

/-! ## 1. Columns -/

/-- The spaces between a column's widest cell and the next column. -/
def padding : Nat := 2

/-- The largest number so far in each stretch without gaps. -/
def runningMax : Option Nat → List (Option Nat) → List (Option Nat)
  | _, [] => []
  | _, none :: t => none :: runningMax none t
  | sofar, some w :: t =>
    let m := max (sofar.getD 0) w
    some m :: runningMax (some m) t

/-- The larger of two numbers that are both there. -/
def larger : Option Nat → Option Nat → Option Nat
  | some a, some b => some (max a b)
  | _, _ => none

/-- The largest number of the stretch around each place. -/
def stretchMax (ws : List (Option Nat)) : List (Option Nat) :=
  List.zipWith larger (runningMax none ws) (runningMax none ws.reverse).reverse

/-- The width of a line's first cell, if it is padded. -/
def paddedWidth? : List Cell → Option Nat
  | c :: _ :: _ => some c.width
  | _ => none

/-- The first cell of a line padded to a width; the rest of the line follows. -/
def padFirst (width : Option Nat) (line : List Cell) : Bytes × List Cell :=
  match width, line with
  | some w, c :: rest => (c.text ++ List.replicate (w + padding - c.width) (byte ' '), rest)
  | _, _ => ([], line)

/-- The lines with the first `columns` columns padded. -/
def layOut : Nat → List (List Cell) → List Bytes
  | 0, lines => lines.map fun l => l.flatMap (·.text)
  | columns + 1, lines =>
    let parts := List.zipWith padFirst (stretchMax (lines.map paddedWidth?)) lines
    List.zipWith (fun p rest => p.1 ++ rest) parts (layOut columns (parts.map (·.2)))

/-- The most cells a line has. -/
def mostCells (lines : List (List Cell)) : Nat := (lines.map List.length).foldl max 0

/-- The lines in columns, with newlines between them. -/
def block (lines : List (List Cell)) : Bytes :=
  Bytes.joinWith "\n" (layOut (mostCells lines) lines)

/-! ## 2. Cells of a text -/

/-- What has been read of a text: blocks and lines and cells that are complete, the cell that is not,
and the part of it whose width is not known yet.  The last comes first. -/
structure State where
  blocks : List (List (List Cell)) := []
  lines : List (List Cell) := []
  cells : List Cell := []
  cell : Cell := {}
  pending : Bytes := []
  literal : Bool := false

namespace State

/-- Counts the pending part as characters of the cell. -/
def settle (s : State) : State :=
  let t := s.pending.reverse
  { s with cell := ⟨s.cell.text ++ t, s.cell.width + Utf8.length t⟩, pending := [] }

/-- Counts the pending part, a literal stretch whose two marks show nothing. -/
def settleLiteral (s : State) : State :=
  let t := s.pending.reverse
  { s with
    cell := ⟨s.cell.text ++ t, s.cell.width + Utf8.length t - 2⟩, pending := [], literal := false }

def endCell (s : State) : State := { s with cells := s.cell :: s.cells, cell := {} }

def endLine (s : State) : State := { s with lines := s.cells.reverse :: s.lines, cells := [] }

/-- Ends all columns. -/
def endBlock (s : State) : State := { s with blocks := s.lines.reverse :: s.blocks, lines := [] }

/-- Reads one byte. -/
def read (s : State) (b : UInt8) : State :=
  if s.literal then
    let s := { s with pending := b :: s.pending }
    if b = 0xFF then s.settleLiteral else s
  else if b = byte '\t' ∨ b = 0x0B then s.settle.endCell
  else if b = byte '\n' then s.settle.endCell.endLine
  else if b = 0x0C then s.settle.endCell.endLine.endBlock
  else if b = 0xFF then { s.settle with pending := [b], literal := true }
  else { s with pending := b :: s.pending }

/-- The blocks of a text that has ended. -/
def finish (s : State) : List (List (List Cell)) :=
  let s := if s.literal then s.settleLiteral else s.settle
  let s := if s.cell.text.isEmpty then s else s.endCell
  (s.endLine.endBlock).blocks.reverse

end State

/-- The text of one block, which a form feed or the end has closed. -/
def blocksText : List (List (List Cell)) → Bytes
  | [] => []
  | [b] => block b
  | b :: rest => block b ++ "\n" ++ blocksText rest

/-- A text laid out in columns. -/
def aligned (t : Bytes) : Bytes := blocksText (t.foldl State.read {}).finish

/-! ## 3. Tables -/

/-- A row as a line of text. -/
def row (cells : List Bytes) : Bytes := Bytes.joinWith "\t" cells ++ "\n"

/-- A dash for each byte of a header. -/
def underline (header : Bytes) : Bytes := List.replicate header.length (byte '-')

/-- A table: headers, a line below them, and rows. -/
def text (headers : List Bytes) (rows : List (List Bytes)) : Bytes :=
  aligned (row headers ++ row (headers.map underline) ++ rows.flatMap row)

end AgentKit.Table
