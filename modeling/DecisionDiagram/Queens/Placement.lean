import DecisionDiagram.Count
import DecisionDiagram.Text

/-!
# The queens problem

On a board of `n` rows and `n` columns, how many ways are there to place `n` queens
so that none attacks another?  Cell (`row`, `col`) has the variable `row * n + col`,
which is true where the cell holds a queen.  The placements are the models of one
function: every row holds a queen, and a queen forbids all cells that it attacks.
-/

namespace DecisionDiagram.Queens

abbrev Cell := Nat × Nat

/-- The functions that say which cells hold a queen, row by row. -/
abbrev Board := List (List Ref)

def Board.at (board : Board) (cell : Cell) : Ref :=
  (board.getD cell.1 []).getD cell.2 .falseRef

def cellVar (n : Nat) (cell : Cell) : Var :=
  UInt32.ofNat (cell.1 * n + cell.2)

def sameRow (n : Nat) (cell : Cell) : List Cell :=
  ((List.range n).filter (· ≠ cell.2)).map fun col => (cell.1, col)

def sameColumn (n : Nat) (cell : Cell) : List Cell :=
  ((List.range n).filter (· ≠ cell.1)).map fun row => (row, cell.2)

/-- The other cells of the diagonal that falls from left to right. -/
def fallingDiagonal (n : Nat) (cell : Cell) : List Cell :=
  ((List.range n).filter (· ≠ cell.1)).filterMap fun row =>
    if cell.1 ≤ row + cell.2 ∧ row + cell.2 - cell.1 < n then
      some (row, row + cell.2 - cell.1)
    else none

/-- The other cells of the diagonal that rises from left to right. -/
def risingDiagonal (n : Nat) (cell : Cell) : List Cell :=
  ((List.range n).filter (· ≠ cell.1)).filterMap fun row =>
    if row ≤ cell.1 + cell.2 ∧ cell.1 + cell.2 - row < n then
      some (row, cell.1 + cell.2 - row)
    else none

def attacked (n : Nat) (cell : Cell) : List Cell :=
  sameRow n cell ++ sameColumn n cell ++ fallingDiagonal n cell ++ risingDiagonal n cell

/-- The functions of so many cells of a row, from a given column on, behind those
made before, the latest of which comes first. -/
def makeCells (n row : Nat) : (remaining col : Nat) → (made : List Ref) → SessionM (List Ref)
  | 0, _, made => pure made.reverse
  | remaining + 1, col, made => do
      let cell ← makeVar (cellVar n (row, col))
      makeCells n row remaining (col + 1) (cell :: made)

/-- The functions of so many rows, from a given row on, behind those made before, the
latest of which comes first. -/
def makeRows (n : Nat) : (remaining row : Nat) → (made : Board) → SessionM Board
  | 0, _, made => pure made.reverse
  | remaining + 1, row, made => do
      let cells ← makeCells n row n 0 []
      makeRows n remaining (row + 1) (cells :: made)

/-- What a queen on a cell demands: none on the cells that it attacks. -/
def demand (board : Board) (n : Nat) (cell : Cell) : SessionM Ref :=
  (attacked n cell).foldlM (fun demands other => do
    let vacant ← negate (board.at other)
    apply .and demands (← apply .imply (board.at cell) vacant)) .trueRef

def cells (n : Nat) : List Cell :=
  (List.range n).flatMap fun row => (List.range n).map fun col => (row, col)

/-- The function whose models are the placements. -/
def placements (n : Nat) : SessionM Ref := do
  let board ← makeRows n n 0 []
  let filled ← board.foldlM (fun constraint row => do
    apply .and constraint (← disjoin row)) .trueRef
  (cells n).foldlM (fun constraint cell => do
    apply .and constraint (← demand board n cell)) filled

def domain (n : Nat) : Domain :=
  .ofList ((List.range (UInt32.ofNat (n * n)).toNat).map UInt32.ofNat)

end DecisionDiagram.Queens
