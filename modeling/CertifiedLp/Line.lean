import CertifiedLp.Incidence.Order
import CertifiedLp.Status

/-!
# Columns and rows

The two kinds of lines of a constraint matrix. A line consists of what it says about the linear
program, a copy of what the solver was last told, its incidence list, its positions in the active
linear program and in the solver, and the values of the last solve.
-/

namespace CertifiedLp

/-! ## Columns -/

/-- What a column says about the linear program, its coefficients apart. -/
structure ColumnSpec where
  /-- The objective coefficient. -/
  objective : Extended
  /-- The bounds. -/
  bounds : Interval
  deriving DecidableEq, Inhabited

namespace ColumnSpec

/-- The end of the bounds that is best for a minimization, if the objective prefers one. -/
def bestSide? (c : ColumnSpec) : Option Side :=
  if c.objective.isPositive then some .lower
  else if c.objective.isNegative then some .upper
  else none

/-- The objective at the best bound. There is none if that bound is infinite, in which case the
objective is unbounded. -/
def bestObjective? (c : ColumnSpec) : Option Extended :=
  match c.bestSide? with
  | none => some 0
  | some side =>
    let bound := c.bounds.get side
    if bound.isFinite then some (c.objective * bound) else none

/-- The best bound as the value of the column. An infinite bound counts as zero, and without a
preference the lower bound is as good as any. -/
def bestValue (c : ColumnSpec) : Extended :=
  let bound := c.bounds.get (if c.objective.isNegative then .upper else .lower)
  if bound.isFinite then bound else 0

end ColumnSpec

/-- The values of a column in a solution. -/
structure ColumnValues where
  /-- The primal value. -/
  primal : Extended
  /-- The reduced cost. -/
  reducedCost : Extended
  /-- The basis status. -/
  basis : BasisStatus
  deriving DecidableEq

/-- The column of a variable. -/
structure Column where
  /-- The variable. -/
  origin : VariableRef
  /-- Whether the variable takes only integer values. -/
  integral : Bool
  /-- What the column says now. -/
  spec : ColumnSpec
  /-- What the solver was last told. -/
  sent : ColumnSpec
  /-- The coefficients. -/
  entries : Incidence RowRef
  /-- The position in the active linear program, if the column is there. -/
  activePosition : Option Nat
  /-- The position in the solver, if the column is there. -/
  solverPosition : Option Nat
  /-- Whether the solver has to be told the coefficients again. -/
  coefficientChanged : Bool
  /-- The values of the last solve. -/
  values : ColumnValues
  /-- The coefficient of the column in the last proof of infeasibility. -/
  farkas : Extended
  /-- Values that were put aside. -/
  stored : Option ColumnValues
  deriving DecidableEq

namespace Column

/-- A new column, which is nowhere yet. -/
def create (origin : VariableRef) (integral : Bool) (spec : ColumnSpec) : Column where
  origin := origin
  integral := integral
  spec := spec
  sent := spec
  entries := .empty
  activePosition := none
  solverPosition := none
  coefficientChanged := false
  values := ⟨0, 0, .zero⟩
  farkas := 0
  stored := none

instance : Inhabited Column := ⟨create default false default⟩

/-- Whether the column is in the active linear program. -/
def isActive (c : Column) : Bool := c.activePosition.isSome

/-- Put the values aside. -/
def store (c : Column) : Column := { c with stored := some c.values }

/-- Bring the values back that were put aside. -/
def restore (c : Column) : Column :=
  match c.stored with
  | some values => { c with values, stored := none }
  | none => c

/-- The column is not in the solver any more. -/
def detach (c : Column) : Column := { c with solverPosition := none, coefficientChanged := false }

/-- The column is in the solver, as it is now. -/
def attach (c : Column) (position : Nat) : Column :=
  { c with solverPosition := some position, sent := c.spec, coefficientChanged := false }

end Column

/-! ## Rows -/

/-- What a row says about the linear program, its coefficients apart: the activity, that is the sum
of coefficient times value plus a constant, is between the sides. -/
structure RowSpec where
  /-- The sides. -/
  sides : Interval
  /-- The constant. -/
  constant : Extended
  deriving DecidableEq, Inhabited

/-- A side with the constant moved there from the activity, as the solver is told. -/
def RowSpec.solverSide (r : RowSpec) (side : Side) : Extended := r.sides.get side - r.constant

/-- The values of a row in a solution. -/
structure RowValues where
  /-- The dual value. -/
  dual : Extended
  /-- The activity, with the constant. -/
  activity : Extended
  /-- The solve that the activity belongs to, while it is up to date. -/
  activityStamp : Option Nat
  /-- The basis status. -/
  basis : BasisStatus
  deriving DecidableEq

/-- A row, which is a constraint on its activity. -/
structure Row where
  /-- The name. -/
  name : String
  /-- What the row says now. -/
  spec : RowSpec
  /-- What the solver was last told. -/
  sent : RowSpec
  /-- The coefficients. -/
  entries : Incidence ColumnRef
  /-- Whether the activity is an integer for all integer values of the columns. -/
  integral : Bool
  /-- While there are locks, the coefficients and the constant do not change. -/
  nrLocks : Nat
  /-- The row is freed when nothing uses it. -/
  nrUses : Nat
  /-- Whether coefficients are appended without order, to be merged later. -/
  delayed : Bool
  /-- The position in the active linear program, if the row is there. -/
  activePosition : Option Nat
  /-- The position in the solver, if the row is there. -/
  solverPosition : Option Nat
  /-- Whether the solver has to be told the coefficients again. -/
  coefficientChanged : Bool
  /-- The values of the last solve. -/
  values : RowValues
  /-- The multiplier of the row in the last proof of infeasibility. -/
  farkas : Extended
  /-- Values that were put aside. -/
  stored : Option RowValues
  deriving DecidableEq

namespace Row

/-- A new row with one use, which is nowhere yet. -/
def create (name : String) (spec : RowSpec) : Row where
  name := name
  spec := spec
  sent := spec
  entries := .empty
  integral := spec.constant.isIntegral
  nrLocks := 0
  nrUses := 1
  delayed := false
  activePosition := none
  solverPosition := none
  coefficientChanged := false
  values := ⟨0, 0, none, .basic⟩
  farkas := 0
  stored := none

/-- Whether the row is in the active linear program. -/
def isActive (r : Row) : Bool := r.activePosition.isSome

/-- Whether the row is locked. -/
def isLocked (r : Row) : Bool := 0 < r.nrLocks

/-- Whether no entry of the row is linked. -/
def isUnlinked (r : Row) : Bool := r.entries.nrUnlinked == r.entries.size

/-- The activity is not up to date any more. -/
def expireActivity (r : Row) : Row := { r with values := { r.values with activityStamp := none } }

/-- Put the values aside. -/
def store (r : Row) : Row := { r with stored := some r.values }

/-- Bring the values back that were put aside, as values of the latest solve. -/
def restore (r : Row) (latest : Nat) : Row :=
  match r.stored with
  | some values =>
    let values := { values with activityStamp := values.activityStamp.map fun _ => latest }
    { r with values, stored := none }
  | none => r

/-- The row is not in the solver any more. -/
def detach (r : Row) : Row :=
  { r.expireActivity with solverPosition := none, coefficientChanged := false }

/-- The row is in the solver, as it is now. -/
def attach (r : Row) (position : Nat) : Row :=
  { r with solverPosition := some position, sent := r.spec, coefficientChanged := false }

end Row

end CertifiedLp
