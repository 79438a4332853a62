import CertifiedLp.Binary64
import CertifiedLp.Reference
import CertifiedLp.Solver.Basic

/-!
# Approximations

A linear program in double precision, as a search tree works with it. An exact solve takes the
basis to start from out of it, and writes its values into it, rounded.
-/

namespace CertifiedLp

/-- Approximate values of a column. -/
structure ApproximateColumn where
  /-- The primal value. -/
  primal : Binary64
  /-- The reduced cost. -/
  reducedCost : Binary64
  /-- The coefficient in the last proof of infeasibility. -/
  farkas : Binary64
  /-- The basis status, if it is known. -/
  basis : Option BasisStatus
  deriving DecidableEq, Inhabited

/-- Approximate values of a row. -/
structure ApproximateRow where
  /-- The dual value. -/
  dual : Binary64
  /-- The activity. -/
  activity : Binary64
  /-- The multiplier in the last proof of infeasibility. -/
  farkas : Binary64
  /-- The basis status, if it is known. -/
  basis : Option BasisStatus
  deriving DecidableEq, Inhabited

/-- Approximate values of a linear program. -/
structure Approximation where
  /-- The values of the columns, as far as any were written. -/
  columns : Array ApproximateColumn
  /-- The values of the rows, as far as any were written. -/
  rows : Array ApproximateRow
  /-- The objective value, which is never above the exact one. -/
  objective : Binary64
  /-- The status of the exact solve that the values come from. -/
  status : LpStatus
  /-- Whether the values belong to the current linear program. -/
  solved : Bool
  deriving DecidableEq

namespace Approximation

/-- No values. -/
def empty : Approximation := ⟨#[], #[], .zero, .notSolved, false⟩

instance : Inhabited Approximation := ⟨empty⟩

/-- A list with an item changed. If the list is too short, it is extended by blank items first. -/
def update {α : Type} [Inhabited α] (items : Array α) (index : Nat) (f : α → α) : Array α :=
  (items ++ Array.replicate (index + 1 - items.size) default).modify index f

/-- The values of a column, if there are any. -/
def column? (a : Approximation) (c : ColumnRef) : Option ApproximateColumn := a.columns[c.index]?

/-- The values of a row, if there are any. -/
def row? (a : Approximation) (r : RowRef) : Option ApproximateRow := a.rows[r.index]?

/-- Change the values of a column. -/
def updateColumn (a : Approximation) (c : ColumnRef) (f : ApproximateColumn → ApproximateColumn) :
    Approximation :=
  { a with columns := update a.columns c.index f }

/-- Change the values of a row. -/
def updateRow (a : Approximation) (r : RowRef) (f : ApproximateRow → ApproximateRow) :
    Approximation :=
  { a with rows := update a.rows r.index f }

/-- The basis of some columns and rows, if all their statuses are known. -/
def basis? (a : Approximation) (columns : Array ColumnRef) (rows : Array RowRef) :
    Option Basis := do
  let columns ← columns.mapM fun c => (a.column? c).bind (·.basis)
  let rows ← rows.mapM fun r => (a.row? r).bind (·.basis)
  return ⟨columns, rows⟩

end Approximation

end CertifiedLp
