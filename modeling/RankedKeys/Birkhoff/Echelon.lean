/-!
# Row reduction

Gauss-Jordan elimination on a list of rows, column by column from the left. A column in which some
row that has not served yet is not zero becomes a pivot column: the first such row changes places
with the first of them all and is scaled to have a one there, and the column is cleared in all other
rows.

## Main definitions

* `Echelon`: the pivot rows found so far, each with its column, and the rows that are left
* `Echelon.sweep`: one column
* `rowReduce`: the columns below a bound, in order
-/

namespace RankedKeys

variable {F : Type}

/-- Rows in the course of an elimination. -/
structure Echelon (F : Type) where
  /-- The pivot rows with their columns, leftmost column first. -/
  pivots : List (Nat × List F)
  /-- The rows that have not served as pivot rows, in their present order. -/
  rest : List (List F)

/-- The entry of a row in a column; a row goes on with zeros. -/
def entry [Zero F] (row : List F) (column : Nat) : F :=
  row.getD column 0

/-- Takes the first row that is not zero in a column out of the rows after a given one, which moves
to its place. -/
def exchange [Zero F] [DecidableEq F] (column : Nat) (first : List F) :
    List (List F) → Option (List F × List (List F))
  | [] => none
  | row :: rows =>
    if entry row column = 0 then
      (exchange column first rows).map fun (pivot, others) => (pivot, row :: others)
    else some (row, first :: rows)

/-- Takes the first row that is not zero in a column out of a list of rows. If it is not the row at
the head, that one moves to its place. -/
def takePivot [Zero F] [DecidableEq F] (column : Nat) :
    List (List F) → Option (List F × List (List F))
  | [] => none
  | row :: rows =>
    if entry row column = 0 then exchange column row rows else some (row, rows)

/-- Clears a column of a row by a multiple of a pivot row that has a one there. -/
def clear [Zero F] [Sub F] [Mul F] (column : Nat) (pivot row : List F) : List F :=
  let factor := entry row column
  List.zipWith (fun v p => v - factor * p) row pivot

namespace Echelon

variable [Zero F] [Sub F] [Mul F] [Inv F] [DecidableEq F]

/-- Works on one column. -/
def sweep (e : Echelon F) (column : Nat) : Echelon F :=
  match takePivot column e.rest with
  -- The column is free.
  | none => e
  | some (found, others) =>
    let pivot := found.map (· * (entry found column)⁻¹)
    { pivots := e.pivots.map (fun q => (q.1, clear column pivot q.2)) ++ [(column, pivot)]
      rest := others.map (clear column pivot) }

/-- The pivot columns, leftmost first. -/
def columns (e : Echelon F) : List Nat :=
  e.pivots.map (·.1)

/-- The number of pivot columns. -/
def rank (e : Echelon F) : Nat :=
  e.pivots.length

/-- All rows, the pivot rows first. -/
def rows (e : Echelon F) : List (List F) :=
  e.pivots.map (·.2) ++ e.rest

end Echelon

/-- Brings the first `columns` columns into reduced form. -/
def rowReduce [Zero F] [Sub F] [Mul F] [Inv F] [DecidableEq F] (columns : Nat)
    (rows : List (List F)) : Echelon F :=
  (List.range columns).foldl Echelon.sweep ⟨[], rows⟩

end RankedKeys
