import CertifiedLp.Reference
import CertifiedLp.Solver.Error
import CertifiedLp.Status

/-!
# Errors of a linear program

Why an operation on a linear program was not carried out. Each cause is a constructor; the wording
is in one function.
-/

namespace CertifiedLp

/-- Why an operation is not allowed on the data that it was called with. -/
inductive Misuse where
  /-- A linear program starts with a solver that holds something already. -/
  | solverNotEmpty
  | variableHasColumn (name : String)
  /-- The bounds of a variable cross or exclude every number, or its objective is infinite. -/
  | variableInvalid (name : String)
  /-- The sides of a row cross or exclude every number, or its constant is infinite. -/
  | rowInvalid (name : String)
  /-- The row was freed, or never created. -/
  | rowMissing (row : RowRef)
  | rowUnused (row : RowRef)
  /-- The last use of a row belongs to the active linear program. -/
  | lastUseActive (row : RowRef)
  | rowNotLocked (row : RowRef)
  | rowLocked (row : RowRef)
  | columnActive (column : ColumnRef)
  | rowActive (row : RowRef)
  /-- A selection of rows does not have one mark for each active row. -/
  | maskSize (size rows : Nat)
  | objectiveInfinite (column : ColumnRef)
  /-- A bound excludes every number. -/
  | boundNotAllowed (side : Side) (column : ColumnRef) (value : Extended)
  /-- A side excludes every number. -/
  | sideNotAllowed (side : Side) (row : RowRef) (value : Extended)
  | constantInfinite (row : RowRef)
  /-- The entries of the row are not in order, so that none can be found. -/
  | rowUnordered (row : RowRef)
  /-- A coefficient is zero or infinite. -/
  | notStorable (value : Extended)
  /-- A coefficient to be added from its column exists already. -/
  | columnHasCoefficient (column : ColumnRef) (row : RowRef)
  /-- A coefficient to be added from its row exists already. -/
  | rowHasCoefficient (row : RowRef) (column : ColumnRef)
  | coefficientInfinite (column : ColumnRef) (row : RowRef)
  | coefficientMissing (column : ColumnRef) (row : RowRef)
  /-- A row with linked entries has to stay in order. -/
  | linkedRowDelayed (row : RowRef)
  /-- A row with linked entries cannot be merged. -/
  | linkedRowMerged (row : RowRef)
  | diveInProgress
  | noDive
  deriving DecidableEq

/-- The wording of a misuse. -/
def Misuse.message : Misuse → String
  | solverNotEmpty => "the backend should be empty"
  | variableHasColumn name => s!"variable {name} already has a column"
  | variableInvalid name => s!"variable {name} has invalid bounds or objective"
  | rowInvalid name => s!"row {name} has invalid sides or constant"
  | rowMissing row => s!"row {row} does not exist"
  | rowUnused row => s!"row {row} has no uses to release"
  | lastUseActive row => s!"row {row} is in the LP, its last use can't be released"
  | rowNotLocked row => s!"row {row} is not locked"
  | rowLocked row => s!"row {row} is locked"
  | columnActive column => s!"column {column} is already in the LP"
  | rowActive row => s!"row {row} is already in the LP"
  | maskSize size rows => s!"mask has length {size}, but the LP has {rows} rows"
  | objectiveInfinite column => s!"objective of {column} can't be infinite"
  | boundNotAllowed side column value =>
    side.label ++ s!" bound of {column} can't be {value}"
  | sideNotAllowed side row value => side.label ++ s!" side of {row} can't be {value}"
  | constantInfinite row => s!"constant of {row} can't be infinite"
  | rowUnordered row => s!"row {row} delays sorting, its coefficients can't be searched"
  | notStorable value => s!"{value} can't be stored as a coefficient"
  | columnHasCoefficient column row => s!"{column} already has a coefficient in {row}"
  | rowHasCoefficient row column => s!"{row} already has a coefficient for {column}"
  | coefficientInfinite column row => s!"coefficient of {column} in {row} is infinite"
  | coefficientMissing column row => s!"{column} has no coefficient in {row}"
  | linkedRowDelayed row => s!"row {row} is linked and can't delay sorting"
  | linkedRowMerged row => s!"row {row} has linked entries and can't be merged"
  | diveInProgress => "a dive is already in progress"
  | noDive => "no dive is in progress"

/-- What was asked for while there was no solution. -/
inductive Request where
  /-- The solution that was stored last. -/
  | stored
  | activity (row : RowRef)
  | reducedCost (column : ColumnRef)
  deriving DecidableEq

/-- The wording of a request that was in vain. -/
def Request.message : Request → String
  | stored => "no solution was stored"
  | activity row => s!"activity of {row} requested"
  | reducedCost column => s!"reduced cost of {column} requested"

/-- A state that should not occur. -/
inductive Breakdown where
  /-- An entry of a column was not linked to its row. -/
  | columnEntryNotLinked (column : ColumnRef) (row : RowRef)
  /-- An entry of a row was not linked to its column. -/
  | rowEntryNotLinked (row : RowRef) (column : ColumnRef)
  /-- A solver solved, but reports no answer. -/
  | noAnswer
  /-- A solver reports the objective limit below that limit. -/
  | limitNotConfirmed
  deriving DecidableEq

/-- The wording of a breakdown. -/
def Breakdown.message : Breakdown → String
  | columnEntryNotLinked column row => s!"entry of {column} in {row} was not linked"
  | rowEntryNotLinked row column => s!"entry of {row} in {column} was not linked"
  | noAnswer => "the backend reports no known outcome"
  | limitNotConfirmed => "the objective limit could not be confirmed"

/-- An operation on a linear program failed. -/
inductive LpError where
  /-- The operation is not allowed on this data. -/
  | misuse (cause : Misuse)
  /-- The solver failed. -/
  | solver (cause : SolverError)
  /-- There is no solution to answer from. -/
  | noSolution (request : Request)
  /-- A state that should not occur. -/
  | breakdown (cause : Breakdown)
  deriving DecidableEq

/-- The wording of an error. -/
def LpError.message : LpError → String
  | misuse cause => "invalid data: " ++ cause.message
  | solver cause => cause.message
  | noSolution request => "no solution available: " ++ request.message
  | breakdown cause => "internal error: " ++ cause.message

end CertifiedLp
