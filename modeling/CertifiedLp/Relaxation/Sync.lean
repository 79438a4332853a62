import CertifiedLp.Relaxation.Edit

/-!
# Bringing the solver up to date

Sending all edits to the solver, so that it holds the active linear program afterwards. Deletions
come first, because they move everything behind them, and rows are deleted before columns are added,
so that the coefficients of new columns refer to rows that stay.

The solver is told the values of a line once more only if they differ from what it was told last.
When the solver refuses a call, what was done before stays done, and the queues stay as they are.
-/

namespace CertifiedLp

namespace Relaxation

variable {σ : Type} [Solver σ]

/-- How many positions from a given one on satisfy a test, up to an end. -/
def countWhile (first stop : Nat) (test : Nat → Bool) : Nat :=
  ((List.range' first (stop - first)).takeWhile test).length

/-- The first position at which the solver has to delete columns, if it holds more. -/
def firstStaleColumn (lp : Relaxation σ) : Nat :=
  let first := lp.matrix.firstChangedColumn
  first + countWhile first (min lp.matrix.solverColumns.size lp.columns.size) fun i =>
    match lp.matrix.solverColumns[i]?, lp.columns[i]? with
    | some held, some active => held == active && !(lp.matrix.column active).coefficientChanged
    | _, _ => false

/-- The first position at which the solver has to delete rows, if it holds more. -/
def firstStaleRow (lp : Relaxation σ) : Nat :=
  let first := lp.matrix.firstChangedRow
  first + countWhile first (min lp.matrix.solverRows.size lp.rows.size) fun i =>
    match lp.matrix.solverRows[i]?, lp.rows[i]? with
    | some held, some active =>
      held == active && (lp.matrix.row? active).any (!·.coefficientChanged)
    | _, _ => false

/-- Delete the columns that are not active any more or have other coefficients, and all behind
them. -/
def syncDeletedColumns : RelaxationM σ Unit := do
  let lp ← get
  let first := lp.firstStaleColumn
  let held := lp.matrix.solverColumns
  if first < held.size then
    onSolver (Solver.deleteColumns first (held.size - 1))
    modifyMatrix ({ · with solverColumns := held.extract 0 first })
    for c in held.extract first held.size do
      modifyMatrix (·.modifyColumn c Column.detach)
    markUnsolved
  modifyMatrix ({ · with firstChangedColumn := first })

/-- Delete the rows that are not active any more or have other coefficients, and all behind them.
Some of them may have been freed. -/
def syncDeletedRows : RelaxationM σ Unit := do
  let lp ← get
  let first := lp.firstStaleRow
  let held := lp.matrix.solverRows
  if first < held.size then
    onSolver (Solver.deleteRows first (held.size - 1))
    modifyMatrix ({ · with solverRows := held.extract 0 first })
    for r in held.extract first held.size do
      modifyMatrix (·.modifyRow r Row.detach)
    markUnsolved
  modifyMatrix ({ · with firstChangedRow := first })

/-- The queued columns that the solver has, with their positions. -/
def queuedColumns (lp : Relaxation σ) : Array (Nat × Column) :=
  lp.changedColumns.filterMap fun c =>
    let column := lp.matrix.column c
    column.solverPosition.map fun position => (position, column)

/-- Tell the solver changed objective coefficients and bounds. -/
def syncChangedColumns : RelaxationM σ Unit := do
  let lp ← get
  let queued := lp.queuedColumns
  let costs := queued.filter fun (_, c) => c.spec.objective ≠ c.sent.objective
  let bounds := queued.filter fun (_, c) => c.spec.bounds ≠ c.sent.bounds
  if !costs.isEmpty then
    onSolver (Solver.changeObjective (costs.map (·.1)) (costs.map (·.2.spec.objective)))
    markUnsolved
  if !bounds.isEmpty then
    onSolver (Solver.changeBounds (bounds.map (·.1))
      (bounds.map fun (_, c) => Solver.encode lp.solver c.spec.bounds.lower)
      (bounds.map fun (_, c) => Solver.encode lp.solver c.spec.bounds.upper))
    markUnsolved
  for c in lp.changedColumns do
    modifyMatrix (·.modifyColumn c fun column => { column with sent := column.spec })
  modify ({ · with changedColumns := #[] })

/-- The queued rows that the solver has, with their positions. -/
def queuedRows (lp : Relaxation σ) : Array (Nat × Row) :=
  lp.changedRows.filterMap fun r => do
    let row ← lp.matrix.row? r
    return (← row.solverPosition, row)

/-- Tell the solver changed sides. -/
def syncChangedRows : RelaxationM σ Unit := do
  let lp ← get
  let changed := lp.queuedRows.filter fun (_, r) => r.spec ≠ r.sent
  if !changed.isEmpty then
    onSolver (Solver.changeSides (changed.map (·.1))
      (changed.map fun (_, r) => Solver.encode lp.solver (r.spec.solverSide .lower))
      (changed.map fun (_, r) => Solver.encode lp.solver (r.spec.solverSide .upper)))
    markUnsolved
  for r in lp.changedRows do
    modifyMatrix (·.modifyRow r fun row => { row with sent := row.spec })
  modify ({ · with changedRows := #[] })

/-- The coefficients of a column in rows that the solver has, by position. -/
def columnItems (m : ConstraintMatrix) (column : Column) : List (Nat × Extended) :=
  column.entries.activeEntries.filterMap fun e =>
    ((m.row? e.partner).bind (·.solverPosition)).map fun position => (position, e.value)

/-- The coefficients of a row in columns that the solver has, by position. -/
def rowItems (m : ConstraintMatrix) (row : Row) : List (Nat × Extended) :=
  row.entries.activeEntries.filterMap fun e =>
    (m.column e.partner).solverPosition.map fun position => (position, e.value)

/-- Link a column, and append it to a batch. -/
def batchColumn (batch : ColumnBatch) (c : ColumnRef) : RelaxationM σ ColumnBatch := do
  onMatrix (ConstraintMatrix.linkColumn c)
  let lp ← get
  let column := lp.matrix.column c
  return {
    objective := batch.objective.push column.spec.objective
    lower := batch.lower.push (Solver.encode lp.solver column.spec.bounds.lower)
    upper := batch.upper.push (Solver.encode lp.solver column.spec.bounds.upper)
    entries := batch.entries.push (columnItems lp.matrix column) }

/-- Link a row, and append it to a batch. -/
def batchRow (batch : RowBatch) (r : RowRef) : RelaxationM σ RowBatch := do
  onMatrix (ConstraintMatrix.linkRow r)
  let lp ← get
  let row ← getRow r
  return {
    lhs := batch.lhs.push (Solver.encode lp.solver (row.spec.solverSide .lower))
    rhs := batch.rhs.push (Solver.encode lp.solver (row.spec.solverSide .upper))
    entries := batch.entries.push (rowItems lp.matrix row) }

/-- Add the active columns that the solver does not have. -/
def syncAddedColumns : RelaxationM σ Unit := do
  let lp ← get
  let start := lp.matrix.solverColumns.size
  if start ≠ lp.columns.size then
    let added := (lp.columns.extract start lp.columns.size).toList
    let batch ← added.foldlM batchColumn .empty
    onSolver (Solver.addColumns batch)
    for (c, position) in added.zipIdx start do
      modifyMatrix fun m =>
        { m.modifyColumn c (·.attach position) with solverColumns := m.solverColumns.push c }
    modifyMatrix ({ · with firstChangedColumn := lp.columns.size })
    loseDual
    markUnsolved

/-- Add the active rows that the solver does not have. -/
def syncAddedRows : RelaxationM σ Unit := do
  let lp ← get
  let start := lp.matrix.solverRows.size
  if start ≠ lp.rows.size then
    let added := (lp.rows.extract start lp.rows.size).toList
    let batch ← added.foldlM batchRow .empty
    onSolver (Solver.addRows batch)
    for (r, position) in added.zipIdx start do
      updateRow r (·.attach position)
      modifyMatrix fun m => { m with solverRows := m.solverRows.push r }
    modifyMatrix ({ · with firstChangedRow := lp.rows.size })
    losePrimal
    markUnsolved

/-- Send all edits to the solver. If there are none, the solver is not called. -/
def sync : RelaxationM σ Unit := do
  if !(← get).matrix.synced then
    syncDeletedColumns
    syncDeletedRows
    syncChangedColumns
    syncChangedRows
    syncAddedColumns
    syncAddedRows
    modifyMatrix ({ · with synced := true })

end Relaxation

end CertifiedLp
