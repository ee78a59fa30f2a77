/-! Text aligned in columns. Tabs end the cells of a line; what follows the last tab is not aligned.
A column is a run of lines that have a cell in it, and is two wider than its widest cell. -/

namespace ValueRange.Text.Columns

/-- A line: the cells that tabs end, and the rest. -/
structure Line where
  cells : List String
  rest : String
deriving DecidableEq, Repr, Inhabited

/-- Splits a text into the pieces between the characters of a class. -/
def splitAt (test : Char → Bool) : List Char → List (List Char)
  | [] => [[]]
  | c :: cs =>
    match splitAt test cs with
    | [] => [[c]]
    | piece :: pieces => if test c then [] :: piece :: pieces else (c :: piece) :: pieces

/-- The line that a text without line ends is. Vertical tabs end cells, too. -/
def Line.ofChars (cs : List Char) : Line :=
  let pieces := (splitAt (fun c => c == '\t' || c == '\x0b') cs).map String.ofList
  ⟨pieces.dropLast, pieces.getLastD ""⟩

/-- For each line the width of column `j`, which means nothing for lines without it. -/
def widths (j : Nat) (lines : List Line) : List Nat :=
  (lines.splitBy fun a b => decide (j < a.cells.length) == decide (j < b.cells.length)).flatMap
    fun run =>
      let width := run.foldl (fun w l => max w (((l.cells[j]?).map String.length).getD 0 + 2)) 0
      run.map fun _ => width

/-- A cell filled up to a width. -/
def pad (cell : String) (width : Nat) : String :=
  cell ++ String.ofList (List.replicate (width - cell.length) ' ')

/-- Lines with their columns aligned. -/
def alignLines (lines : List Line) : List String :=
  let columns := lines.foldl (fun n l => max n l.cells.length) 0
  let all := (List.range columns).map fun j => widths j lines
  lines.zipIdx.map fun (l, i) =>
    String.join (l.cells.zipIdx.map fun (cell, j) => pad cell (((all[j]?).bind (·[i]?)).getD 0)) ++
      l.rest

/-- A text, each line of which ends, with its columns aligned. A form feed ends a line and all
columns. -/
def align (text : String) : String :=
  let pages := splitAt (· == '\x0c') text.toList
  let aligned := pages.map fun page =>
    "\n".intercalate (alignLines ((splitAt (· == '\n') page).map .ofChars))
  "\n".intercalate aligned

end ValueRange.Text.Columns
