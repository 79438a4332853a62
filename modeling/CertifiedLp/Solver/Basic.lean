import CertifiedLp.Solver.Batch
import CertifiedLp.Solver.Error
import CertifiedLp.Status

/-!
# Solvers

A solver holds a linear program

`min c x` subject to `lhs ≤ A x ≤ rhs` and `lower ≤ x ≤ upper`

and solves it by the simplex method in exact arithmetic. Columns and rows are known by their
position: they are numbered in the order in which they were added, and deleting a range moves
everything behind it down.

A call that fails may have changed the solver before it failed, so a call returns the state of the
solver in either case.
-/

namespace CertifiedLp

/-- How the simplex method selects the next column or row. -/
inductive Pricing where
  | auto
  | dantzig
  | steepestEdge
  | devex
  deriving DecidableEq

namespace Pricing

/-- The number of a rule as a parameter of a solver. -/
def code : Pricing → Int
  | auto => 0
  | dantzig => 1
  | steepestEdge => 2
  | devex => 3

/-- The rule with a given number. -/
def ofCode? (code : Int) : Option Pricing :=
  [auto, dantzig, steepestEdge, devex].find? (·.code == code)

@[simp] theorem ofCode?_code (p : Pricing) : ofCode? p.code = some p := by cases p <;> rfl

/-- The name of a rule. -/
def name : Pricing → String
  | auto => "auto"
  | dantzig => "dantzig"
  | steepestEdge => "steepest"
  | devex => "devex"

/-- The rule with a given name. -/
def ofName? (name : String) : Option Pricing :=
  [auto, dantzig, steepestEdge, devex].find? (·.name == name)

end Pricing

/-- Parameters that are integers. -/
inductive IntParameter where
  /-- Not zero if the next solve ignores the basis at hand. -/
  | fromScratch
  /-- The number of iterations of a solve, or `noLimit`. -/
  | iterationLimit
  /-- The code of a pricing rule. -/
  | pricing
  /-- Not zero if the linear program is scaled. -/
  | scaling
  deriving DecidableEq

/-- The name of a parameter. -/
def IntParameter.name : IntParameter → String
  | fromScratch => "FromScratch"
  | iterationLimit => "IterationLimit"
  | pricing => "Pricing"
  | scaling => "Scaling"

/-- Parameters that are values. -/
inductive RealParameter where
  /-- The seconds that a solve may take. -/
  | timeLimit
  /-- The objective value beyond which a solve may stop. -/
  | objectiveLimit
  deriving DecidableEq

/-- The name of a parameter. -/
def RealParameter.name : RealParameter → String
  | timeLimit => "TimeLimit"
  | objectiveLimit => "ObjectiveLimit"

/-- The largest signed 64-bit integer, as an iteration limit: none. -/
def noLimit : Int := 9223372036854775807

/-- An optional number of iterations as a parameter. -/
def iterationLimitCode : Option Nat → Int
  | none => noLimit
  | some n => min (n : Int) noLimit

/-- The statuses of all columns and rows. -/
structure Basis where
  /-- The status of each column. -/
  columns : Array BasisStatus
  /-- The status of each row. -/
  rows : Array BasisStatus
  deriving DecidableEq

/-- The values of a solve, by position. -/
structure Solution where
  /-- The objective value. -/
  objective : Extended
  /-- The value of each column. -/
  primal : Array Extended
  /-- The dual value of each row. -/
  dual : Array Extended
  /-- The activity of each row, the sum of coefficient times value. -/
  activity : Array Extended
  /-- The reduced cost of each column. -/
  reducedCost : Array Extended
  deriving DecidableEq

/-- How a solve can end. -/
inductive Answer where
  | objectiveLimit
  | optimal
  | infeasible
  | unbounded
  | iterationLimit
  | timeLimit
  deriving DecidableEq

namespace Answer

/-- All answers. Where a solver reports several of them, the first one counts. -/
def byPriority : List Answer :=
  [objectiveLimit, optimal, infeasible, unbounded, iterationLimit, timeLimit]

/-- The status of a linear program with an answer. -/
def status : Answer → LpStatus
  | objectiveLimit => .objectiveLimit
  | optimal => .optimal
  | infeasible => .infeasible
  | unbounded => .unboundedRay
  | iterationLimit => .iterationLimit
  | timeLimit => .timeLimit

end Answer

/-- Calls that change a solver of type `σ` and may fail. The state is kept when a call fails. -/
abbrev SolverM (σ : Type) := ExceptT SolverError (StateM σ)

/-- What a linear program needs of the solver that holds a copy of it. -/
class Solver (σ : Type) where
  /-- What a later solve can be started from. -/
  Snapshot : Type
  /-- Append columns. -/
  addColumns : ColumnBatch → SolverM σ Unit
  /-- Append rows. -/
  addRows : RowBatch → SolverM σ Unit
  /-- Delete the columns from the first to the last position, both included. -/
  deleteColumns (first last : Nat) : SolverM σ Unit
  /-- Delete the rows from the first to the last position, both included. -/
  deleteRows (first last : Nat) : SolverM σ Unit
  /-- Replace objective coefficients. -/
  changeObjective (columns : Array Nat) (values : Array Extended) : SolverM σ Unit
  /-- Replace the bounds of columns. -/
  changeBounds (columns : Array Nat) (lower upper : Array Extended) : SolverM σ Unit
  /-- Replace the sides of rows. -/
  changeSides (rows : Array Nat) (lhs rhs : Array Extended) : SolverM σ Unit
  /-- Set the basis that the next solve starts from. -/
  setBasis : Basis → SolverM σ Unit
  /-- The basis after the last solve, or the one to start from. -/
  basis : σ → Except SolverError Basis
  /-- Read an integer parameter. -/
  intParameter : σ → IntParameter → Except SolverError Int
  /-- Set an integer parameter. -/
  setInt : IntParameter → Int → SolverM σ Unit
  /-- Set a parameter that is a value. -/
  setReal : RealParameter → Extended → SolverM σ Unit
  /-- Solve by the primal simplex method. -/
  solvePrimal : SolverM σ Unit
  /-- Solve by the dual simplex method. -/
  solveDual : SolverM σ Unit
  /-- Whether the last solve ended with an answer. -/
  reports : σ → Answer → Bool
  /-- The objective value of the last solve. -/
  objectiveValue : σ → Except SolverError Extended
  /-- All values of the last solve. -/
  solution : σ → Except SolverError Solution
  /-- One multiplier for each row, which together prove infeasibility. -/
  farkas : σ → Except SolverError (Array Extended)
  /-- What a later solve can be started from. -/
  snapshot : σ → Except SolverError Snapshot
  /-- Let the next solve start from a snapshot. -/
  restore : Snapshot → SolverM σ Unit
  /-- Values at least this large in magnitude count as infinite. -/
  infinity : σ → Extended
  /-- The number of columns. -/
  nrColumns : σ → Nat
  /-- The number of rows. -/
  nrRows : σ → Nat

namespace Solver

variable {σ : Type} [Solver σ]

/-- The answer of the last solve, if the solver reports any. -/
def answer? (s : σ) : Option Answer := Answer.byPriority.find? (reports s)

/-- A value as the solver represents it: its own infinity takes the place of ours. -/
def encode (s : σ) : Extended → Extended
  | .negInf => -infinity s
  | .finite q => .finite q
  | .posInf => infinity s

end Solver

end CertifiedLp
