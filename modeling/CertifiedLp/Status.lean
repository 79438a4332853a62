import CertifiedLp.Extended.Basic

/-!
# Building blocks of linear programs

The two sides of an interval, the kind of a variable, the position of a column or row relative to
a basis, and the status of a linear program after a solve.
-/

namespace CertifiedLp

/-- One end of an interval: the lower or upper bound of a column, or the left-hand or right-hand
side of a row. -/
inductive Side where
  /-- Lower bound, or left-hand side. -/
  | lower
  /-- Upper bound, or right-hand side. -/
  | upper
  deriving DecidableEq

namespace Side

/-- The other end. -/
def opposite : Side → Side
  | lower => upper
  | upper => lower

@[simp] theorem opposite_opposite (s : Side) : s.opposite.opposite = s := by cases s <;> rfl

/-- The name of an end. -/
def label : Side → String
  | lower => "Lower"
  | upper => "Upper"

end Side

/-- The values between two ends, which are part of it. There are none if the ends cross. -/
structure Interval where
  /-- The smallest value. -/
  lower : Extended
  /-- The largest value. -/
  upper : Extended
  deriving DecidableEq, Inhabited

namespace Interval

/-- One of the two ends. -/
def get (i : Interval) : Side → Extended
  | .lower => i.lower
  | .upper => i.upper

/-- The interval with one of its ends replaced. -/
def set (i : Interval) (side : Side) (value : Extended) : Interval :=
  match side with
  | .lower => { i with lower := value }
  | .upper => { i with upper := value }

@[simp] theorem get_set (i : Interval) (side : Side) (value : Extended) :
    (i.set side value).get side = value := by cases side <;> rfl

@[simp] theorem get_opposite_set (i : Interval) (side : Side) (value : Extended) :
    (i.set side value).get side.opposite = i.get side.opposite := by cases side <;> rfl

/-- Whether a value is neither below nor above the interval. -/
def Contains (i : Interval) (x : Extended) : Prop := i.lower ≤ x ∧ x ≤ i.upper

instance (i : Interval) (x : Extended) : Decidable (i.Contains x) :=
  inferInstanceAs (Decidable (_ ∧ _))

/-- Whether the ends can be used at all: they do not cross, and neither excludes every rational
number. -/
def isValid (i : Interval) : Bool := i.lower ≤ i.upper && i.lower != .posInf && i.upper != .negInf

end Interval

/-- Whether a value may be used for an end: a lower end is not positive infinity, and an upper end
not negative infinity. -/
def Side.allows (side : Side) (value : Extended) : Bool :=
  match side with
  | .lower => value != .posInf
  | .upper => value != .negInf

/-- The values that a variable may take. -/
inductive VariableKind where
  | continuous
  | integer
  deriving DecidableEq

/-- The other kind. -/
def VariableKind.opposite : VariableKind → VariableKind
  | continuous => integer
  | integer => continuous

/-- The position of a column or row relative to a basis of the simplex method. -/
inductive BasisStatus where
  /-- Not in the basis, at the lower end of its interval. -/
  | lower
  /-- In the basis. -/
  | basic
  /-- Not in the basis, at the upper end of its interval. -/
  | upper
  /-- Not in the basis and without ends, at zero. -/
  | zero
  deriving DecidableEq

namespace BasisStatus

instance : Inhabited BasisStatus := ⟨zero⟩

/-- The number by which solvers exchange a status. -/
def code : BasisStatus → Nat
  | lower => 0
  | basic => 1
  | upper => 2
  | zero => 3

/-- The status with a given number. -/
def ofCode? : Nat → Option BasisStatus
  | 0 => some lower
  | 1 => some basic
  | 2 => some upper
  | 3 => some zero
  | _ => none

@[simp] theorem ofCode?_code (s : BasisStatus) : ofCode? s.code = some s := by cases s <;> rfl

end BasisStatus

/-- What is known about a linear program. -/
inductive LpStatus where
  /-- Not solved since the last change. -/
  | notSolved
  /-- Solved to optimality. -/
  | optimal
  /-- There is no feasible point. -/
  | infeasible
  /-- The objective is unbounded along a ray of feasible points. -/
  | unboundedRay
  /-- The objective value exceeds the cutoff bound. -/
  | objectiveLimit
  /-- The solver stopped after too many iterations. -/
  | iterationLimit
  /-- The solver stopped because its time ran out. -/
  | timeLimit
  /-- The solver failed. -/
  | error
  deriving DecidableEq

namespace LpStatus

instance : Inhabited LpStatus := ⟨notSolved⟩

/-- Whether the solver gave an answer. -/
def isSolved : LpStatus → Bool
  | notSolved | error => false
  | _ => true

/-- The name of a status. -/
def name : LpStatus → String
  | notSolved => "not_solved"
  | optimal => "optimal"
  | infeasible => "infeasible"
  | unboundedRay => "unbounded_ray"
  | objectiveLimit => "objective_limit"
  | iterationLimit => "iteration_limit"
  | timeLimit => "time_limit"
  | error => "error"

/-- All statuses. -/
def all : List LpStatus :=
  [notSolved, optimal, infeasible, unboundedRay, objectiveLimit, iterationLimit, timeLimit, error]

/-- The status with a given name. -/
def ofName? (name : String) : Option LpStatus := all.find? (·.name == name)

end LpStatus

end CertifiedLp
