import CertifiedLp.Relaxation.Basic

/-!
# Editing a relaxation

Columns and rows enter and leave the active linear program, and objective, bounds, sides, constants
and coefficients change. An edit of the active linear program makes the last solution obsolete. An
edit of a line that the solver holds is put into a queue, from which the solver is told later.
-/

namespace CertifiedLp

namespace Relaxation

variable {σ : Type} [Solver σ]

/-! ## The active linear program -/

/-- Append a column to the active linear program. -/
def addColumn (c : ColumnRef) : RelaxationM σ Unit := do
  let column ← getColumn c
  if column.isActive then throw (.misuse (.columnActive c))
  onMatrix (ConstraintMatrix.setColumnActivePosition c (some (← get).columns.size))
  modify fun lp => { lp with
    columns := lp.columns.push c, loose := lp.loose.remove column.spec.bestObjective? }
  desync
  loseDual
  markUnsolved

/-- Append a row to the active linear program, which uses it from now on. A row that delays its
order is merged first. -/
def addRow (r : RowRef) : RelaxationM σ Unit := do
  onMatrix (ConstraintMatrix.forceOrder r)
  if (← getRow r).isActive then throw (.misuse (.rowActive r))
  captureRow r
  onMatrix (ConstraintMatrix.setRowActivePosition r (some (← get).rows.size))
  modify fun lp => { lp with rows := lp.rows.push r }
  desync
  losePrimal
  markUnsolved

/-- Remove all columns from a position on from the active linear program. -/
def shrinkColumns (size : Nat) : RelaxationM σ Unit := do
  let columns := (← get).columns
  if size < columns.size then
    modify ({ · with columns := columns.extract 0 size })
    for c in (columns.extract size columns.size).toList.reverse do
      onMatrix (ConstraintMatrix.setColumnActivePosition c none)
      let column ← getColumn c
      modify fun lp => { lp with loose := lp.loose.add column.spec.bestObjective? }
    modifyMatrix fun m => { m with firstChangedColumn := min m.firstChangedColumn size }
    desync
    markUnsolved

/-- Remove all rows from a position on from the active linear program, and release them. -/
def shrinkRows (size : Nat) : RelaxationM σ Unit := do
  let rows := (← get).rows
  if size < rows.size then
    modify ({ · with rows := rows.extract 0 size })
    for r in (rows.extract size rows.size).toList.reverse do
      onMatrix (ConstraintMatrix.setRowActivePosition r none)
      releaseRow r
    modifyMatrix fun m => { m with firstChangedRow := min m.firstChangedRow size }
    desync
    markUnsolved

/-- Remove the marked rows from the active linear program, and release them. There is one mark for
each active row. -/
def deleteRows (mask : Array Bool) : RelaxationM σ Unit := do
  let rows := (← get).rows
  if mask.size ≠ rows.size then throw (.misuse (.maskSize mask.size rows.size))
  match mask.toList.findIdx? id with
  | none => return
  | some first =>
    let marked := rows.toList.zip mask.toList
    let removed := (marked.filter (·.2)).map (·.1)
    let kept := ((marked.filter (!·.2)).map (·.1)).toArray
    modify ({ · with rows := kept })
    for r in removed do
      onMatrix (ConstraintMatrix.setRowActivePosition r none)
    for (r, position) in (kept.toList.drop first).zipIdx first do
      onMatrix (ConstraintMatrix.setRowActivePosition r (some position))
    for r in removed do
      releaseRow r
    modifyMatrix fun m => { m with firstChangedRow := min m.firstChangedRow first }
    desync
    markUnsolved

/-- Remove all columns and rows from the active linear program. -/
def clear : RelaxationM σ Unit := do
  shrinkColumns 0
  shrinkRows 0

/-! ## Objective, bounds, sides and constants -/

/-- Queue a column, if the solver has it. -/
def queueColumn (c : ColumnRef) : RelaxationM σ Unit := do
  if (← getColumn c).solverPosition.isSome then
    modify fun lp =>
      if c ∈ lp.changedColumns then lp
      else { lp with changedColumns := lp.changedColumns.push c }
    desync

/-- Queue a row, if the solver has it. -/
def queueRow (r : RowRef) : RelaxationM σ Unit := do
  if (← getRow r).solverPosition.isSome then
    modify fun lp =>
      if r ∈ lp.changedRows then lp else { lp with changedRows := lp.changedRows.push r }
    desync

/-- Change the objective coefficient of a column. -/
def changeObjective (c : ColumnRef) (objective : Extended) : RelaxationM σ Unit := do
  if objective.isInfinite then throw (.misuse (.objectiveInfinite c))
  let column ← getColumn c
  if column.spec.objective ≠ objective then
    updateSpec c ({ · with objective })
    queueColumn c
    if column.isActive then
      loseDual
      markUnsolved

/-- Change a bound of a column. -/
def changeBound (c : ColumnRef) (side : Side) (value : Extended) : RelaxationM σ Unit := do
  if !side.allows value then throw (.misuse (.boundNotAllowed side c value))
  let column ← getColumn c
  if column.spec.bounds.get side ≠ value then
    updateSpec c fun spec => { spec with bounds := spec.bounds.set side value }
    queueColumn c
    if column.isActive then
      losePrimal
      markUnsolved

/-- Note a side before it is changed, if there is a dive that has to change it back. -/
def logSide (r : RowRef) (side : Side) (old : Extended) : RelaxationM σ Unit :=
  modify fun lp => { lp with dive := lp.dive.map fun dive =>
    { dive with sideLog := dive.sideLog.push (r, side, old) } }

/-- Change a side of a row. -/
def changeSide (r : RowRef) (side : Side) (value : Extended) : RelaxationM σ Unit := do
  if !side.allows value then throw (.misuse (.sideNotAllowed side r value))
  let row ← getRow r
  let old := row.spec.sides.get side
  if old ≠ value then
    updateRow r fun row =>
      { row with spec := { row.spec with sides := row.spec.sides.set side value } }
    logSide r side old
    queueRow r
    if row.isActive then
      losePrimal
      markUnsolved

/-- Change the constant of a row. -/
def changeConstant (r : RowRef) (constant : Extended) : RelaxationM σ Unit := do
  if constant.isInfinite then throw (.misuse (.constantInfinite r))
  let row ← getRow r
  if row.isLocked then throw (.misuse (.rowLocked r))
  if row.spec.constant ≠ constant then
    updateRow r fun row => { row.expireActivity with
      spec := { row.spec with constant }
      integral := row.integral && constant.isIntegral }
    queueRow r
    if row.isActive then
      losePrimal
      markUnsolved

/-! ## Coefficients -/

/-- A coefficient, which is zero if it is not stored. -/
def coefficient (c : ColumnRef) (r : RowRef) : RelaxationM σ Extended :=
  onMatrix (ConstraintMatrix.coefficient c r)

/-- The solution is obsolete if a coefficient between two active lines was edited. -/
def coefficientEdited (c : ColumnRef) (r : RowRef) : RelaxationM σ Unit := do
  if (← getColumn c).isActive then
    if (← getRow r).isActive then
      losePrimal
      loseDual
      markUnsolved

/-- Store a coefficient that does not exist, in its column. -/
def addCoefficientInColumn (c : ColumnRef) (r : RowRef) (value : Extended) :
    RelaxationM σ Unit := do
  onMatrix (ConstraintMatrix.addInColumn c r value)
  coefficientEdited c r

/-- Store a coefficient that does not exist, in its row. -/
def addCoefficientInRow (r : RowRef) (c : ColumnRef) (value : Extended) :
    RelaxationM σ Unit := do
  onMatrix (ConstraintMatrix.addInRow r c value)
  coefficientEdited c r

/-- Set a coefficient. -/
def changeCoefficient (c : ColumnRef) (r : RowRef) (value : Extended) : RelaxationM σ Unit := do
  onMatrix (ConstraintMatrix.change c r value)
  coefficientEdited c r

/-- Add to a coefficient. -/
def increaseCoefficient (r : RowRef) (c : ColumnRef) (increment : Extended) :
    RelaxationM σ Unit := do
  onMatrix (ConstraintMatrix.increase r c increment)
  coefficientEdited c r

/-- Remove a coefficient. -/
def deleteCoefficient (c : ColumnRef) (r : RowRef) : RelaxationM σ Unit := do
  onMatrix (ConstraintMatrix.delete c r)
  coefficientEdited c r

/-- Append coefficients to a row without order, until the order is forced. -/
def delayOrder (r : RowRef) : RelaxationM σ Unit := onMatrix (ConstraintMatrix.delayOrder r)

/-- Merge the coefficients of a row that delays its order. -/
def forceOrder (r : RowRef) : RelaxationM σ Unit := onMatrix (ConstraintMatrix.forceOrder r)

/-- Add several coefficients to a row. If nothing is linked to the row yet, it delays its order
meanwhile, so that the values for the same column are added up. -/
def addCoefficientsInRow (r : RowRef) (coefficients : List (ColumnRef × Extended)) :
    RelaxationM σ Unit := do
  let row ← getRow r
  let together := !row.delayed && !row.isActive && row.isUnlinked
  if together then delayOrder r
  for (c, value) in coefficients do
    addCoefficientInRow r c value
  if together then forceOrder r

end Relaxation

end CertifiedLp
