import CertifiedLp.Simplex.Pivoting
import CertifiedLp.Solver.Basic

/-!
# An exact simplex solver

A solver for small linear programs: it keeps the columns and rows densely, and builds a new tableau
for every solve. Each column and row carries the basis status to start the next solve from.

Values of at least `10 ^ 20` in magnitude count as infinite. They are no bounds, and they are
refused as coefficients. A call that adds or changes several items and finds one that it refuses
has already stored the items before it.
-/

namespace CertifiedLp

namespace Simplex

/-- A column of the linear program in the solver. -/
structure DenseColumn where
  /-- The objective coefficient. -/
  objective : Rat
  /-- The bounds. -/
  bounds : Bounds
  /-- The status to start from. -/
  status : BasisStatus
  deriving Inhabited

/-- A row of the linear program in the solver. -/
structure DenseRow where
  /-- The coefficient of each column. -/
  coefficients : Array Rat
  /-- The sides. -/
  sides : Bounds
  /-- The status to start from. -/
  status : BasisStatus
  deriving Inhabited

/-- What can be configured. Pricing and scaling are accepted, but Bland's rule needs neither. -/
structure Parameters where
  /-- Whether a solve ignores the statuses at hand. -/
  fromScratch : Bool
  /-- The number of iterations of a solve, if it is limited. -/
  iterationLimit : Option Nat
  /-- The pricing rule. -/
  pricing : Pricing
  /-- Whether to scale. -/
  scaling : Bool
  /-- The seconds that a solve may take. -/
  timeLimit : Extended
  /-- The objective value beyond which an optimum is reported as such. -/
  objectiveLimit : Extended

/-- No limits. -/
def Parameters.standard : Parameters where
  fromScratch := false
  iterationLimit := none
  pricing := .auto
  scaling := false
  timeLimit := .posInf
  objectiveLimit := .posInf

/-- How the last solve ended. -/
inductive Ending where
  | optimal
  | objectiveLimit
  | infeasible (multipliers : Array Rat)
  | unbounded (ray : Array Rat)
  | stopped (limit : Limit)
  | cycled

/-- The ending of a solve with a given outcome. -/
def Ending.ofOutcome {m n : Nat} : Outcome m n → Ending
  | .optimal => .optimal
  | .objectiveLimit => .objectiveLimit
  | .infeasible y => .infeasible y.toArray
  | .unbounded r => .unbounded r.toArray
  | .stopped limit => .stopped limit
  | .cycled => .cycled

/-- The answer that an ending gives. -/
def Ending.answer? : Ending → Option Answer
  | .optimal => some .optimal
  | .objectiveLimit => some .objectiveLimit
  | .infeasible _ => some .infeasible
  | .unbounded _ => some .unbounded
  | .stopped .iterations => some .iterationLimit
  | .stopped .time => some .timeLimit
  | .cycled => none

/-- The result of the last solve. The lists are for the columns followed by the rows. -/
structure Result where
  /-- How the solve ended. -/
  ending : Ending
  /-- The objective value. -/
  objective : Rat
  /-- The value of each column, and the activity of each row. -/
  values : Array Rat
  /-- The reduced cost of each column, and the dual value of each row. -/
  reducedCosts : Array Rat

end Simplex

open Simplex in
/-- An exact simplex solver. -/
structure Simplex where
  /-- The columns, by position. -/
  columns : Array DenseColumn
  /-- The rows, by position. -/
  rows : Array DenseRow
  /-- The configuration. -/
  parameters : Parameters
  /-- The result of the last solve, until something changes. -/
  result : Option Result
  /-- The number of iterations of the last solve. -/
  iterations : Nat

namespace Simplex

/-- A solver without columns and rows. -/
def empty : Simplex := ⟨#[], #[], .standard, none, 0⟩

instance : Inhabited Simplex := ⟨empty⟩

/-- The number of columns. -/
def nrColumns (s : Simplex) : Nat := s.columns.size

/-- The number of rows. -/
def nrRows (s : Simplex) : Nat := s.rows.size

/-- The column at a position. -/
def columnAt (s : Simplex) (j : Fin s.nrColumns) : DenseColumn :=
  have : j.val < s.columns.size := j.isLt
  s.columns[j.val]

/-- The row at a position. -/
def rowAt (s : Simplex) (i : Fin s.nrRows) : DenseRow :=
  have : i.val < s.rows.size := i.isLt
  s.rows[i.val]

/-- Values of at least this magnitude count as infinite. -/
def infinity : Rat := (Nat.pow 10 20 : Nat)

/-- A value as an end of an interval: none if it counts as infinite. -/
def finiteEnd? : Extended → Option Rat
  | .finite q => if -infinity < q && q < infinity then some q else none
  | _ => none

/-- Two values as bounds. -/
def toBounds (lower upper : Extended) : Bounds := ⟨finiteEnd? lower, finiteEnd? upper⟩

/-- A value as a coefficient, which is refused if it counts as infinite. -/
def toCoefficient (x : Extended) : Except SolverError Rat :=
  match finiteEnd? x with
  | some q => .ok q
  | none => .error (.invalidInput (.coefficientNotFinite x))

/-! ## Changing the linear program -/

/-- Forget the last result. -/
def forgetResult : SolverM Simplex Unit := modify fun s => { s with result := none }

/-- Refuse positions that are out of range, or lists of values of another length. -/
def checkIndices (kind : LineKind) (indices : Array Nat) (count : Nat) (sizes : List Nat) :
    SolverM Simplex Unit := do
  unless sizes.all (· == indices.size) do
    throw (.invalidInput (.lengthsDiffer kind))
  match indices.find? (count ≤ ·) with
  | some index => throw (.outOfRange kind index count)
  | none => pure ()

/-- Refuse a range that is empty or ends behind the last position. -/
def checkRange (kind : LineKind) (first last count : Nat) : SolverM Simplex Unit :=
  if count ≤ last || last < first then throw (.outOfRange kind last count) else pure ()

/-- A dense line with the given coefficients. The last one counts where a position occurs twice. -/
def toDense (size : Nat) (items : List (Nat × Extended)) : Except SolverError (Array Rat) :=
  items.foldlM (fun line item => do
    let coefficient ← toCoefficient item.2
    return line.setIfInBounds item.1 coefficient) (Array.replicate size 0)

/-- Append a column. -/
def pushColumn (objective : Rat) (bounds : Bounds) (coefficients : Array Rat) (s : Simplex) :
    Simplex :=
  { s with
    columns := s.columns.push ⟨objective, bounds, bounds.startStatus⟩
    rows := s.rows.mapIdx fun i row =>
      { row with coefficients := row.coefficients.push (coefficients.getD i 0) } }

/-- Append a row. -/
def pushRow (sides : Bounds) (coefficients : Array Rat) (s : Simplex) : Simplex :=
  { s with rows := s.rows.push ⟨coefficients, sides, .basic⟩ }

/-- Append columns, up to the first one with a coefficient that is refused. -/
def addColumns (batch : ColumnBatch) : SolverM Simplex Unit := do
  let nrRows := (← get).nrRows
  checkIndices .row batch.entries.indices nrRows [batch.entries.values.size]
  unless batch.lower.size == batch.size && batch.upper.size == batch.size &&
      batch.entries.starts.size == batch.size do
    throw (.invalidInput (.batchLengthsDiffer .column))
  for column in List.range batch.size do
    let objective ← toCoefficient (batch.objective.getD column 0)
    let coefficients ← toDense nrRows (batch.entries.items column)
    let bounds := toBounds (batch.lower.getD column 0) (batch.upper.getD column 0)
    modify (pushColumn objective bounds coefficients)
  forgetResult

/-- Append rows, up to the first one with a coefficient that is refused. -/
def addRows (batch : RowBatch) : SolverM Simplex Unit := do
  let nrColumns := (← get).nrColumns
  checkIndices .column batch.entries.indices nrColumns [batch.entries.values.size]
  unless batch.rhs.size == batch.size && batch.entries.starts.size == batch.size do
    throw (.invalidInput (.batchLengthsDiffer .row))
  for row in List.range batch.size do
    let coefficients ← toDense nrColumns (batch.entries.items row)
    modify (pushRow (toBounds (batch.lhs.getD row 0) (batch.rhs.getD row 0)) coefficients)
  forgetResult

/-- A list without the positions from the first to the last one. -/
def dropRange (xs : Array α) (first last : Nat) : Array α :=
  xs.extract 0 first ++ xs.extract (last + 1) xs.size

/-- Delete a range of columns. -/
def deleteColumns (first last : Nat) : SolverM Simplex Unit := do
  checkRange .column first last (← get).nrColumns
  modify fun s => { s with
    columns := dropRange s.columns first last
    rows := s.rows.map fun row =>
      { row with coefficients := dropRange row.coefficients first last } }
  forgetResult

/-- Delete a range of rows. -/
def deleteRows (first last : Nat) : SolverM Simplex Unit := do
  checkRange .row first last (← get).nrRows
  modify fun s => { s with rows := dropRange s.rows first last }
  forgetResult

/-- Replace objective coefficients, up to the first one that is refused. -/
def changeObjective (indices : Array Nat) (values : Array Extended) : SolverM Simplex Unit := do
  checkIndices .column indices (← get).nrColumns [values.size]
  for (index, value) in (indices.zip values).toList do
    let objective ← toCoefficient value
    modify fun s => { s with columns := s.columns.modify index ({ · with objective }) }
  forgetResult

/-- Replace the bounds of columns. -/
def changeBounds (indices : Array Nat) (lower upper : Array Extended) : SolverM Simplex Unit := do
  checkIndices .column indices (← get).nrColumns [lower.size, upper.size]
  for (index, lower, upper) in (indices.zip (lower.zip upper)).toList do
    let bounds := toBounds lower upper
    modify fun s => { s with columns := s.columns.modify index ({ · with bounds }) }
  forgetResult

/-- Replace the sides of rows. -/
def changeSides (indices : Array Nat) (lhs rhs : Array Extended) : SolverM Simplex Unit := do
  checkIndices .row indices (← get).nrRows [lhs.size, rhs.size]
  for (index, lhs, rhs) in (indices.zip (lhs.zip rhs)).toList do
    let sides := toBounds lhs rhs
    modify fun s => { s with rows := s.rows.modify index ({ · with sides }) }
  forgetResult

/-! ## Basis and parameters -/

/-- The statuses at hand. -/
def basis (s : Simplex) : Basis := ⟨s.columns.map (·.status), s.rows.map (·.status)⟩

/-- Replace all statuses. -/
def withBasis (s : Simplex) (b : Basis) : Simplex :=
  { s with
    columns := s.columns.mapIdx fun j c => { c with status := b.columns.getD j c.status }
    rows := s.rows.mapIdx fun i r => { r with status := b.rows.getD i r.status } }

/-- Start the next solve from a basis. The last result stays. -/
def setBasis (b : Basis) : SolverM Simplex Unit := do
  let s ← get
  unless b.columns.size == s.nrColumns && b.rows.size == s.nrRows do
    throw (.invalidInput .basisSize)
  set (s.withBasis b)

/-- Change the configuration. -/
def configure (f : Parameters → Parameters) : SolverM Simplex Unit :=
  modify fun s => { s with parameters := f s.parameters }

/-- A condition as the value of a parameter. -/
def flagCode (b : Bool) : Int := if b then 1 else 0

/-- Read an integer parameter. -/
def intParameter (s : Simplex) : IntParameter → Int
  | .fromScratch => flagCode s.parameters.fromScratch
  | .iterationLimit => iterationLimitCode s.parameters.iterationLimit
  | .pricing => s.parameters.pricing.code
  | .scaling => flagCode s.parameters.scaling

/-- Set an integer parameter. -/
def setInt (parameter : IntParameter) (value : Int) : SolverM Simplex Unit :=
  match parameter with
  | .fromScratch => configure ({ · with fromScratch := value != 0 })
  | .iterationLimit =>
    if value = noLimit then configure ({ · with iterationLimit := none })
    else if value < 0 then throw (.invalidInput (.iterationLimit value))
    else configure ({ · with iterationLimit := some value.toNat })
  | .pricing =>
    match Pricing.ofCode? value with
    | some pricing => configure ({ · with pricing })
    | none => throw (.unsupportedPricing value)
  | .scaling => configure ({ · with scaling := value != 0 })

/-- Read a parameter that is a value. -/
def realParameter (s : Simplex) : RealParameter → Extended
  | .timeLimit => s.parameters.timeLimit
  | .objectiveLimit => s.parameters.objectiveLimit

/-- Set a parameter that is a value. -/
def setReal (parameter : RealParameter) (value : Extended) : SolverM Simplex Unit :=
  match parameter with
  | .timeLimit => configure ({ · with timeLimit := value })
  | .objectiveLimit => configure ({ · with objectiveLimit := value })

/-! ## Solving -/

/-- The linear program in standard form. -/
def standardForm (s : Simplex) : StandardForm s.nrRows s.nrColumns where
  coefficients := Vector.ofFn fun i => Vector.ofFn fun j => (s.rowAt i).coefficients.getD j 0
  bounds := (Vector.ofFn fun j => (s.columnAt j).bounds) ++ (Vector.ofFn fun i => (s.rowAt i).sides)
  cost := (Vector.ofFn fun j => (s.columnAt j).objective) ++ Vector.replicate s.nrRows (0 : Rat)

/-- The statuses at hand, of the columns followed by the rows. -/
def statuses (s : Simplex) : Vector BasisStatus (s.nrColumns + s.nrRows) :=
  (Vector.ofFn fun j => (s.columnAt j).status) ++ (Vector.ofFn fun i => (s.rowAt i).status)

/-- The tableau that a solve starts from. -/
def startTableau (s : Simplex) : Tableau s.nrRows s.nrColumns :=
  let t := Tableau.initial s.standardForm
  if s.parameters.fromScratch then t else t.crash s.standardForm s.statuses

/-- What a solve may use up. -/
def budget (s : Simplex) : Budget where
  iterations := s.parameters.iterationLimit
  seconds := s.parameters.timeLimit.finite?

/-- Run the simplex method on the linear program. -/
def run (s : Simplex) : Progress s.nrRows s.nrColumns × Outcome s.nrRows s.nrColumns :=
  s.standardForm.run s.budget (finiteEnd? s.parameters.objectiveLimit) s.startTableau

/-- Solve the linear program. Keep the result, and the final basis for the next solve. -/
def solve (s : Simplex) : Simplex :=
  let p := s.standardForm
  let (final, outcome) := s.run
  let t := final.tableau
  let z := t.values p
  let statuses := t.status.toArray
  let s := s.withBasis ⟨statuses.extract 0 s.nrColumns, statuses.extract s.nrColumns statuses.size⟩
  { s with
    result := some ⟨.ofOutcome outcome, p.objective z, z.toArray, (t.reducedCosts p).toArray⟩
    iterations := final.iterations }

/-! ## Results -/

/-- The answer of the last solve. -/
def answer? (s : Simplex) : Option Answer := s.result.bind (·.ending.answer?)

/-- Whether the values of the last solve are feasible. -/
def isPrimalFeasible (s : Simplex) : Bool :=
  s.answer? ∈ [some .optimal, some .objectiveLimit, some .unbounded]

/-- Whether the dual values of the last solve are feasible. -/
def isDualFeasible (s : Simplex) : Bool := s.answer? ∈ [some .optimal, some .objectiveLimit]

/-- Rational numbers as values. -/
def toValues (xs : Array Rat) : Array Extended := xs.map .finite

/-- The result of the last solve, or an error if there is none. -/
def currentResult (s : Simplex) : Except SolverError Result :=
  match s.result with
  | some r => .ok r
  | none => .error .noSolution

/-- The objective value of the last solve. -/
def objectiveValue (s : Simplex) : Except SolverError Extended :=
  return (← s.currentResult).objective

/-- All values of the last solve. -/
def solution (s : Simplex) : Except SolverError Solution := do
  let r ← s.currentResult
  let n := s.nrColumns
  return {
    objective := r.objective
    primal := toValues (r.values.extract 0 n)
    dual := toValues (r.reducedCosts.extract n r.reducedCosts.size)
    activity := toValues (r.values.extract n r.values.size)
    reducedCost := toValues (r.reducedCosts.extract 0 n) }

/-- A direction in which the objective improves without end. -/
def primalRay (s : Simplex) : Except SolverError (Array Extended) := do
  match (← s.currentResult).ending with
  | .unbounded ray => return toValues ray
  | _ => throw .noSolution

/-- One multiplier for each row, which together prove infeasibility. -/
def farkas (s : Simplex) : Except SolverError (Array Extended) := do
  match (← s.currentResult).ending with
  | .infeasible multipliers => return toValues multipliers
  | _ => throw .noSolution

instance : Solver Simplex where
  Snapshot := Basis
  addColumns := addColumns
  addRows := addRows
  deleteColumns := deleteColumns
  deleteRows := deleteRows
  changeObjective := changeObjective
  changeBounds := changeBounds
  changeSides := changeSides
  setBasis := setBasis
  basis s := .ok s.basis
  intParameter s parameter := .ok (s.intParameter parameter)
  setInt := setInt
  setReal := setReal
  solvePrimal := modify solve
  solveDual := modify solve
  reports s answer := s.answer? == some answer
  objectiveValue := objectiveValue
  solution := solution
  farkas := farkas
  snapshot s := .ok s.basis
  restore := setBasis
  infinity _ := .finite infinity
  nrColumns := nrColumns
  nrRows := nrRows

end Simplex

end CertifiedLp
