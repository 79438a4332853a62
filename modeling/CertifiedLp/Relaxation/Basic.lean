import CertifiedLp.ConstraintMatrix.Coefficient
import CertifiedLp.Problem
import CertifiedLp.Relaxation.ObjectiveSum
import CertifiedLp.Relaxation.Settings

/-!
# Relaxations

A linear program that is edited step by step and solved again and again, as the relaxation of a
problem is in a tree search. Its columns and rows are created once, and enter and leave the
*active* linear program any number of times. A solver holds a copy of the active linear program.
The edits are collected, and sent to the solver when the relaxation is solved.

This module has the state of a relaxation, the creation of columns and rows, the use and lock
counts of rows, and the objective values.
-/

namespace CertifiedLp

/-- What is known about the current solution. -/
structure Flags where
  /-- The values of the last solve belong to the current linear program. -/
  solved : Bool
  /-- The solution is primal feasible, as far as that was checked. -/
  primalFeasible : Bool
  /-- The solution is dual feasible, as far as that was checked. -/
  dualFeasible : Bool
  /-- Primal feasibility was verified. -/
  primalChecked : Bool
  /-- Dual feasibility was verified. -/
  dualChecked : Bool
  deriving DecidableEq

/-- Nothing is known. -/
def Flags.none : Flags := ⟨false, false, false, false, false⟩

/-- What was put aside of a solution, apart from the values of columns and rows. -/
structure StoredSolution where
  /-- The status. -/
  status : LpStatus
  /-- The objective value of the solver. -/
  objective : Extended
  /-- What was known about the solution. -/
  flags : Flags
  deriving DecidableEq

/-- What is needed to undo a dive. -/
structure Dive (σ : Type) [Solver σ] where
  /-- What the solver could be started from before the dive. -/
  snapshot : Solver.Snapshot σ
  /-- What was known about the solution before the dive. -/
  flags : Flags
  /-- Whether the solution was put aside. -/
  stored : Bool
  /-- The number of active rows before the dive. -/
  nrRows : Nat
  /-- The iteration limit before the dive. -/
  iterationLimit : Option Nat
  /-- The sides that were replaced since then, in the order of the changes. -/
  sideLog : Array (RowRef × Side × Extended)

/-- A linear program and the solver that holds a copy of its active part. -/
structure Relaxation (σ : Type) [Solver σ] where
  /-- All columns and rows. -/
  matrix : ConstraintMatrix
  /-- The solver. -/
  solver : σ
  /-- The configuration. -/
  settings : Settings
  /-- The active columns, by position. -/
  columns : Array ColumnRef
  /-- The active rows, by position. -/
  rows : Array RowRef
  /-- The columns of which the solver has to be told a new objective or new bounds. -/
  changedColumns : Array ColumnRef
  /-- The rows of which the solver has to be told new sides. -/
  changedRows : Array RowRef
  /-- The status of the last solve. -/
  status : LpStatus
  /-- What is known about the current solution. -/
  flags : Flags
  /-- The objective value that the solver reported, which is that of the active columns. -/
  solverObjective : Extended
  /-- The objective of all columns, each of them at its best bound. -/
  pseudo : ObjectiveSum
  /-- The part of that sum for the columns that are not active. -/
  loose : ObjectiveSum
  /-- The objective value beyond which the linear program is of no interest. -/
  cutoff : Extended
  /-- The number of solves so far. -/
  nrSolves : Nat
  /-- The solution that was put aside. -/
  stored : Option StoredSolution
  /-- The dive in progress. -/
  dive : Option (Dive σ)

/-- Operations on a relaxation. A failing operation keeps the changes before its failure. -/
abbrev RelaxationM (σ : Type) [Solver σ] := ExceptT LpError (StateM (Relaxation σ))

namespace Relaxation

variable {σ : Type} [Solver σ]

/-! ## Reaching the parts -/

/-- An operation on the matrix. -/
def onMatrix {α : Type} (x : MatrixM α) : RelaxationM σ α := ExceptT.mk fun lp =>
  let (result, matrix) := x.run.run lp.matrix
  (result, { lp with matrix })

/-- A call to the solver. -/
def onSolver {α : Type} (x : SolverM σ α) : RelaxationM σ α := ExceptT.mk fun lp =>
  let (result, solver) := x.run.run lp.solver
  (result.mapError .solver, { lp with solver })

/-- A question to the solver. -/
def askSolver {α : Type} (f : σ → Except SolverError α) : RelaxationM σ α := do
  match f (← get).solver with
  | .ok x => return x
  | .error e => throw (.solver e)

/-- A column. -/
def getColumn (c : ColumnRef) : RelaxationM σ Column := return (← get).matrix.column c

/-- A row, which has to exist. -/
def getRow (r : RowRef) : RelaxationM σ Row := do (← get).matrix.existingRow r

/-- Change a row, which has to exist. -/
def updateRow (r : RowRef) (f : Row → Row) : RelaxationM σ Unit :=
  onMatrix (ConstraintMatrix.updateRow r f)

/-- Change the matrix. -/
def modifyMatrix (f : ConstraintMatrix → ConstraintMatrix) : RelaxationM σ Unit :=
  modify fun lp => { lp with matrix := f lp.matrix }

/-- The solver does not know of all changes. -/
def desync : RelaxationM σ Unit := modifyMatrix ({ · with synced := false })

/-! ## Knowledge about the solution -/

/-- The values of the last solve do not belong to the linear program. -/
def markUnsolved : RelaxationM σ Unit := modify fun lp =>
  { lp with flags := { lp.flags with solved := false }, status := .notSolved }

/-- The values of the last solve may not be primal feasible. -/
def losePrimal : RelaxationM σ Unit := modify fun lp =>
  { lp with flags := { lp.flags with primalFeasible := false, primalChecked := false } }

/-- The values of the last solve may not be dual feasible. -/
def loseDual : RelaxationM σ Unit := modify fun lp =>
  { lp with flags := { lp.flags with dualFeasible := false, dualChecked := false } }

/-- Whether the columns and rows have the values of a solution of the linear program. -/
def hasSolution (lp : Relaxation σ) : Bool :=
  lp.flags.solved && (lp.status == .optimal || lp.status == .objectiveLimit)

/-! ## Objective values -/

/-- The objective value with every column at its best bound. -/
def pseudoObjective (lp : Relaxation σ) : Extended := lp.pseudo.value

/-- The part of the pseudo objective value for the columns that are not active. -/
def looseObjective (lp : Relaxation σ) : Extended := lp.loose.value

/-- The objective value of the last solve, with the loose objective. It is positive infinity when
there is no solution below the cutoff bound, and negative infinity when no bound is known. -/
def objective (lp : Relaxation σ) : Extended :=
  if !lp.flags.solved then .negInf
  else
    match lp.status with
    | .optimal =>
      if lp.loose.isInfinite then .negInf else lp.solverObjective + lp.looseObjective
    | .infeasible | .objectiveLimit => .posInf
    | _ => .negInf

/-- The limit for the objective value of the active columns: what remains of the cutoff bound
without the loose objective. -/
def objectiveLimit (lp : Relaxation σ) : Extended :=
  if lp.cutoff.isInfinite || lp.loose.isInfinite then .posInf else lp.cutoff - lp.looseObjective

/-- Set the cutoff bound. When it increases, an objective limit that was exceeded before may not be
exceeded any more. -/
def setCutoff (cutoff : Extended) : RelaxationM σ Unit := do
  let lp ← get
  if lp.cutoff < cutoff && lp.status == .objectiveLimit then markUnsolved
  modify ({ · with cutoff })

/-- Change what a column says, and the objective sums with it. -/
def updateSpec (c : ColumnRef) (f : ColumnSpec → ColumnSpec) : RelaxationM σ Unit := do
  let column ← getColumn c
  let spec := f column.spec
  let before := column.spec.bestObjective?
  let after := spec.bestObjective?
  modifyMatrix (·.modifyColumn c ({ · with spec }))
  if before ≠ after then
    modify fun lp => { lp with pseudo := lp.pseudo.replace before after }
    if !column.isActive then
      modify fun lp => { lp with loose := lp.loose.replace before after }

/-! ## Creation -/

/-- Replace the settings, and pass on what concerns the solver. -/
def setSettings (settings : Settings) : RelaxationM σ Unit := do
  onSolver (Solver.setInt .pricing settings.pricing.code)
  onSolver (Solver.setInt .scaling (if settings.scaling then 1 else 0))
  modify ({ · with settings })

/-- A linear program without columns and rows, on top of a solver. -/
def blank (solver : σ) : Relaxation σ where
  matrix := .empty
  solver := solver
  settings := .standard
  columns := #[]
  rows := #[]
  changedColumns := #[]
  changedRows := #[]
  status := .notSolved
  flags := .none
  solverObjective := 0
  pseudo := .empty
  loose := .empty
  cutoff := .posInf
  nrSolves := 0
  stored := none
  dive := none

/-- Create a linear program on top of a solver that holds nothing. -/
def create (solver : σ) (settings : Settings) : Except LpError (Relaxation σ) :=
  if 0 < Solver.nrColumns solver || 0 < Solver.nrRows solver then
    .error (.misuse .solverNotEmpty)
  else
    match (setSettings settings).run.run (blank solver) with
    | (.ok _, lp) => .ok lp
    | (.error e, _) => .error e

/-- Create the column of a variable, and note it there. -/
def createColumn (problem : Problem) (x : VariableRef) : RelaxationM σ (Problem × ColumnRef) := do
  let v := problem.get x
  if v.column.isSome then throw (.misuse (.variableHasColumn v.name))
  if v.spec.objective.isInfinite || !v.spec.bounds.isValid then
    throw (.misuse (.variableInvalid v.name))
  let contribution := v.spec.bestObjective?
  let lp ← get
  let (matrix, c) := lp.matrix.pushColumn (.create x (v.kind == .integer) v.spec)
  set { lp with
    matrix, pseudo := lp.pseudo.add contribution, loose := lp.loose.add contribution }
  return (problem.modify x ({ · with column := some c }), c)

/-- Create a row without coefficients. The caller has a use of it. -/
def createRow (name : String) (spec : RowSpec) : RelaxationM σ RowRef := do
  if !spec.sides.isValid || spec.constant.isInfinite then throw (.misuse (.rowInvalid name))
  let lp ← get
  let (matrix, r) := lp.matrix.pushRow (.create name spec)
  set { lp with matrix }
  return r

/-! ## Uses and locks of rows -/

/-- Add a use to a row. -/
def captureRow (r : RowRef) : RelaxationM σ Unit :=
  updateRow r fun row => { row with nrUses := row.nrUses + 1 }

/-- Give up a use of a row. The row is freed with its last use, which an active row keeps. -/
def releaseRow (r : RowRef) : RelaxationM σ Unit := do
  let row ← getRow r
  if row.nrUses = 0 then throw (.misuse (.rowUnused r))
  if row.nrUses = 1 && row.isActive then throw (.misuse (.lastUseActive r))
  updateRow r fun row => { row with nrUses := row.nrUses - 1 }
  if row.nrUses = 1 then onMatrix (ConstraintMatrix.freeRow r)

/-- Lock a row against changes of its coefficients and its constant. -/
def lockRow (r : RowRef) : RelaxationM σ Unit :=
  updateRow r fun row => { row with nrLocks := row.nrLocks + 1 }

/-- Remove a lock. -/
def unlockRow (r : RowRef) : RelaxationM σ Unit := do
  if !(← getRow r).isLocked then throw (.misuse (.rowNotLocked r))
  updateRow r fun row => { row with nrLocks := row.nrLocks - 1 }

end Relaxation

end CertifiedLp
