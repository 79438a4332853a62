import CertifiedLp.Approximation
import CertifiedLp.Extended.Rounding
import CertifiedLp.Relaxation.Basic

/-!
# Solutions

Putting a solution aside and bringing it back, the activities of rows, and rounding a solution into
an approximation.
-/

namespace CertifiedLp

namespace Relaxation

variable {σ : Type} [Solver σ]

/-! ## Putting aside -/

/-- Put the current solution aside. -/
def storeSolution : RelaxationM σ Unit := do
  let lp ← get
  for c in lp.columns do
    modifyMatrix (·.modifyColumn c Column.store)
  for r in lp.rows do
    updateRow r Row.store
  modify ({ · with stored := some ⟨lp.status, lp.solverObjective, lp.flags⟩ })

/-- Bring the solution back that was put aside. Its values count as values of the latest solve. -/
def restoreSolution : RelaxationM σ Unit := do
  let lp ← get
  match lp.stored with
  | none => throw (.noSolution .stored)
  | some stored =>
    modify ({ · with stored := none })
    for c in lp.columns do
      modifyMatrix (·.modifyColumn c Column.restore)
    for r in lp.rows do
      updateRow r (·.restore lp.nrSolves)
    modify ({ · with
      status := stored.status, solverObjective := stored.objective, flags := stored.flags })

/-! ## Activities -/

/-- The constant of a row plus the sum of its coefficients times the values of the columns. -/
def weigh (row : Row) (value : ColumnRef → Extended) : Extended :=
  row.entries.entries.foldl (fun sum e => sum.addProduct e.value (value e.partner))
    row.spec.constant

/-- The activity of a row in the current solution. Only active columns count. -/
def activityOf (m : ConstraintMatrix) (row : Row) : Extended :=
  row.entries.entries.foldl (fun sum e =>
    let column := m.column e.partner
    if column.isActive then sum.addProduct e.value column.values.primal else sum)
    row.spec.constant

/-- The activity of a row in the current solution, computed at most once after every solve. -/
def rowActivity (r : RowRef) : RelaxationM σ Extended := do
  let lp ← get
  if !lp.hasSolution then throw (.noSolution (.activity r))
  let row ← getRow r
  if row.values.activityStamp = some lp.nrSolves then return row.values.activity
  else
    let activity := activityOf lp.matrix row
    updateRow r fun row => { row with
      values := { row.values with activity, activityStamp := some lp.nrSolves } }
    return activity

/-- The activity of a row with every column at its best bound. -/
def rowPseudoActivity (lp : Relaxation σ) (r : RowRef) : Except LpError Extended := do
  let row ← lp.matrix.existingRow r
  return weigh row fun c => (lp.matrix.column c).spec.bestValue

/-- The end of the activities of a row within the bounds of the columns. -/
def rowExtremeActivity (lp : Relaxation σ) (r : RowRef) (extreme : Side) :
    Except LpError Extended := do
  let row ← lp.matrix.existingRow r
  return row.entries.entries.foldl (fun sum e =>
    let side := if e.value.isPositive then extreme else extreme.opposite
    sum.addProduct e.value ((lp.matrix.column e.partner).spec.bounds.get side)) row.spec.constant

/-- The distance of the activity of a row to the nearer side, negative if a side is violated. -/
def rowFeasibility (r : RowRef) : RelaxationM σ Extended := do
  let activity ← rowActivity r
  let sides := (← getRow r).spec.sides
  return min (sides.upper - activity) (activity - sides.lower)

/-- Whether the reduced cost of a column has the right sign for its primal value: where it is
positive, the column is at its lower bound, and where it is negative, at its upper bound. -/
def reducedCostFits (lp : Relaxation σ) (c : ColumnRef) : Except LpError Bool :=
  if !lp.hasSolution then .error (.noSolution (.reducedCost c))
  else
    let column := lp.matrix.column c
    .ok <| match column.values.reducedCost.sign with
      | .gt => column.values.primal == column.spec.bounds.lower
      | .lt => column.values.primal == column.spec.bounds.upper
      | .eq => true

/-! ## Rounding -/

/-- The values of a column, rounded. -/
def roundColumn (column : Column) : ApproximateColumn where
  primal := column.values.primal.toNearest
  reducedCost := column.values.reducedCost.toNearest
  farkas := column.farkas.toNearest
  basis := some column.values.basis

/-- The values of a row, rounded. -/
def roundRow (row : Row) : ApproximateRow where
  dual := row.values.dual.toNearest
  activity := row.values.activity.toNearest
  farkas := row.farkas.toNearest
  basis := some row.values.basis

/-- Write the values of the active linear program into an approximation, rounded to the nearest
doubles. The objective value is rounded down, so that it remains a bound. -/
def writeTo (lp : Relaxation σ) (a : Approximation) : Approximation :=
  let a := lp.columns.foldl (fun a c =>
    a.updateColumn c fun _ => roundColumn (lp.matrix.column c)) a
  let a := lp.rows.foldl (fun a r =>
    match lp.matrix.row? r with
    | some row => a.updateRow r fun _ => roundRow row
    | none => a) a
  { a with objective := lp.objective.toBelow, status := lp.status, solved := lp.flags.solved }

end Relaxation

end CertifiedLp
