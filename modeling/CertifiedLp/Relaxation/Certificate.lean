import CertifiedLp.Relaxation.Solution
import CertifiedLp.Relaxation.Sync

/-!
# Certificates

The answer of a solver is not trusted. Its values are verified on the columns and rows as they are:

* An optimal solution is accepted if its primal and dual bounds enclose the objective value. The
  reduced costs are computed from the dual values. The dual bound is the sum of dual value times
  side and of reduced cost times bound, where signs select the side and the bound.
* A proof of infeasibility is accepted if its multipliers add up the rows to an inequality that no
  point within the bounds of the columns satisfies.

The values are stored in the columns and rows whether they are accepted or not.
-/

namespace CertifiedLp

namespace Relaxation

variable {σ : Type} [Solver σ]

/-- The side that a multiplier selects, if any. -/
def selectedSide? (multiplier : Extended) : Option Side :=
  match multiplier.sign with
  | .gt => some .lower
  | .lt => some .upper
  | .eq => none

/-- What is found out about a solution, line by line. -/
structure Findings where
  /-- No value is outside of its interval, as far as that is checked. -/
  primalFeasible : Bool
  /-- No multiplier selects an infinite end, nor an end that its value is away from, as far as the
  latter is checked. -/
  dualFeasible : Bool
  /-- The objective of the primal values. -/
  primalBound : Extended
  /-- The bound that the multipliers prove. -/
  dualBound : Extended
  deriving DecidableEq

namespace Findings

/-- Before anything is looked at. -/
def start : Findings := ⟨true, true, 0, 0⟩

/-- Look at a line with a value, an interval for it, and a multiplier. -/
def examine (f : Findings) (checkPrimal checkDual : Bool) (interval : Interval)
    (value multiplier : Extended) : Findings :=
  let f := if checkPrimal && (value < interval.lower || interval.upper < value) then
    { f with primalFeasible := false } else f
  match selectedSide? multiplier with
  | none => f
  | some side =>
    let bound := interval.get side
    if bound.isInfinite then { f with dualFeasible := false, dualBound := .negInf }
    else
      { f with
        dualFeasible := f.dualFeasible && !(checkDual && value != bound)
        dualBound := f.dualBound.addProduct multiplier bound }

end Findings

/-- The sides of a row with its constant moved there. -/
def solverSides (row : Row) : Interval := ⟨row.spec.solverSide .lower, row.spec.solverSide .upper⟩

/-- A sum of coefficients times the values at their positions. -/
def weighItems (items : List (Nat × Extended)) (values : Array Extended) : Extended :=
  items.foldl (fun sum (position, a) => sum.addProduct a (values.getD position 0)) 0

/-- Verify and store the values of the row at a position of the solver. -/
def acceptRow (solution : Solution) (basis : Basis) (f : Findings) (r : RowRef) (position : Nat) :
    RelaxationM σ Findings := do
  let row ← getRow r
  let lp ← get
  let dual := solution.dual.getD position 0
  let activity := weighItems (rowItems lp.matrix row) solution.primal
  updateRow r fun row => { row with values := {
    dual, activity := activity + row.spec.constant, activityStamp := some lp.nrSolves
    basis := basis.rows.getD position default } }
  return f.examine lp.settings.checkPrimal lp.settings.checkDual (solverSides row) activity dual

/-- Verify and store the values of the column at a position of the solver. -/
def acceptColumn (solution : Solution) (basis : Basis) (f : Findings) (c : ColumnRef)
    (position : Nat) : RelaxationM σ Findings := do
  let lp ← get
  let column := lp.matrix.column c
  let primal := solution.primal.getD position 0
  let reducedCost := (columnItems lp.matrix column).foldl (fun d (rowPosition, a) =>
    d - a * solution.dual.getD rowPosition 0) column.spec.objective
  modifyMatrix (·.modifyColumn c fun column => { column with
    values := ⟨primal, reducedCost, basis.columns.getD position default⟩ })
  let f := f.examine lp.settings.checkPrimal lp.settings.checkDual column.spec.bounds primal
    reducedCost
  return { f with primalBound := f.primalBound.addProduct column.spec.objective primal }

/-- Whether the findings prove an objective value. Under an objective limit only the dual values
are meant to be feasible, and what they have to prove is that limit. -/
def Findings.prove (f : Findings) (objective : Extended) : Option Extended → Bool
  | some limit => f.dualBound.isFinite && limit ≤ f.dualBound
  | none => f.primalFeasible && f.dualFeasible && f.primalBound ≤ objective &&
      objective ≤ f.dualBound

/-- Write the current values into an approximation if that is wanted. -/
def writeIf (write : Bool) (a : Approximation) : RelaxationM σ Approximation := do
  if write then return (← get).writeTo a else return a

/-- Take over the solution of the solver. Return whether its objective value is proved, or the
objective limit if the solver stopped at one. -/
def acceptSolution (a : Approximation) (write : Bool) (limit : Option Extended) :
    RelaxationM σ (Bool × Approximation) := do
  let solution ← askSolver Solver.solution
  let basis ← askSolver Solver.basis
  let lp ← get
  let f ← lp.matrix.solverRows.toList.zipIdx.foldlM (fun f (r, position) =>
    acceptRow solution basis f r position) .start
  let f ← lp.matrix.solverColumns.toList.zipIdx.foldlM (fun f (c, position) =>
    acceptColumn solution basis f c position) f
  modify fun lp => { lp with
    solverObjective := solution.objective
    flags := { lp.flags with
      primalFeasible := f.primalFeasible
      dualFeasible := f.dualFeasible
      primalChecked := lp.settings.checkPrimal
      dualChecked := lp.settings.checkDual } }
  return (f.prove solution.objective limit, ← writeIf write a)

/-- An inequality that is added up from rows: the sum of coefficient times value is at least the
side. -/
structure Aggregate where
  /-- The coefficient of each column, by position in the solver. -/
  coefficients : Array Extended
  /-- The side. -/
  side : Extended
  /-- No multiplier selected an infinite side. -/
  valid : Bool
  deriving DecidableEq

namespace Aggregate

/-- The inequality without rows. -/
def start (nrColumns : Nat) : Aggregate := ⟨Array.replicate nrColumns 0, 0, true⟩

/-- Add a multiple of a row. -/
def addRow (g : Aggregate) (multiplier : Extended) (sides : Interval)
    (items : List (Nat × Extended)) : Aggregate :=
  match selectedSide? multiplier with
  | none => g
  | some selected =>
    let side := sides.get selected
    if side.isInfinite then { g with valid := false }
    else
      { g with
        side := g.side.addProduct multiplier side
        coefficients := items.foldl (fun cs (position, a) =>
          cs.modify position (·.addProduct multiplier a)) g.coefficients }

end Aggregate

/-- The largest contribution of a column with a coefficient within its bounds. -/
def largestContribution (coefficient : Extended) (bounds : Interval) : Extended :=
  match coefficient.sign with
  | .gt => coefficient * bounds.upper
  | .lt => coefficient * bounds.lower
  | .eq => 0

/-- Whether no point within some bounds, one for each column, satisfies the inequality: its left
side is never as large as its right side. -/
def Aggregate.refutes (g : Aggregate) (bounds : List Interval) : Bool :=
  let largest := Extended.sum ((g.coefficients.toList.zip bounds).map fun (a, b) =>
    largestContribution a b)
  g.valid && g.side.isFinite && largest < g.side

/-- Take over the multipliers of the solver. Return whether they prove infeasibility. -/
def acceptFarkas (a : Approximation) (write : Bool) : RelaxationM σ (Bool × Approximation) := do
  let multipliers ← askSolver Solver.farkas
  let lp ← get
  let columns := lp.matrix.solverColumns.toList
  let g ← lp.matrix.solverRows.toList.zipIdx.foldlM (fun (g : Aggregate) (r, position) => do
    let row ← getRow r
    let farkas := multipliers.getD position 0
    updateRow r ({ · with farkas })
    return g.addRow farkas (solverSides row) (rowItems lp.matrix row)) (.start columns.length)
  for (c, farkas) in columns.zip g.coefficients.toList do
    modifyMatrix (·.modifyColumn c ({ · with farkas }))
  let proved := g.refutes (columns.map fun c => (lp.matrix.column c).spec.bounds)
  modify fun lp => { lp with
    flags := { lp.flags with primalFeasible := false, primalChecked := proved } }
  return (proved, ← writeIf write a)

end Relaxation

end CertifiedLp
