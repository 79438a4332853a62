import CertifiedLp.Simplex.Family
import CertifiedLp.Status

/-!
# Standard form

A linear program with `m` rows and `n` columns as a system of equations with bounded variables:
row `i` becomes the equation `A x - s = 0` with a slack variable `s i` that is bounded by the sides
of the row. There are `n + m` variables, the columns first. Slack variables cost nothing.
-/

namespace CertifiedLp

/-- The rational numbers that a variable may take, given by ends that may be absent. -/
structure Bounds where
  /-- The smallest value, if there is one. -/
  lower : Option Rat
  /-- The largest value, if there is one. -/
  upper : Option Rat
  deriving DecidableEq, Inhabited

namespace Bounds

/-- One of the two ends. -/
def get (b : Bounds) : Side → Option Rat
  | .lower => b.lower
  | .upper => b.upper

/-- Whether a value respects both ends. -/
def Contains (b : Bounds) (x : Rat) : Prop :=
  (∀ lower ∈ b.lower, lower ≤ x) ∧ (∀ upper ∈ b.upper, x ≤ upper)

/-- The end that a value violates, the lower one first. -/
def violated? (b : Bounds) (x : Rat) : Option Side :=
  if b.lower.any (x < ·) then some .lower
  else if b.upper.any (· < x) then some .upper
  else none

theorem violated?_eq_none_iff {b : Bounds} {x : Rat} : b.violated? x = none ↔ b.Contains x := by
  constructor
  · intro h
    unfold violated? at h
    split at h
    · cases h
    · next hlower =>
      split at h
      · cases h
      · next hupper =>
        refine ⟨fun l hl => Rat.not_lt.1 fun hlt => hlower ?_,
          fun u hu => Rat.not_lt.1 fun hlt => hupper ?_⟩
        · simp [Option.mem_def.1 hl, hlt]
        · simp [Option.mem_def.1 hu, hlt]
  · rintro ⟨hlower, hupper⟩
    rw [violated?, if_neg, if_neg]
    · intro h
      obtain ⟨u, hu, hlt⟩ := (Option.any_eq_true _ _).1 h
      exact Rat.not_lt.2 (hupper u hu) (of_decide_eq_true hlt)
    · intro h
      obtain ⟨l, hl, hlt⟩ := (Option.any_eq_true _ _).1 h
      exact Rat.not_lt.2 (hlower l hl) (of_decide_eq_true hlt)

/-- Whether the ends are apart or one of them is absent, so that there is room to move. -/
def hasRoom (b : Bounds) : Bool :=
  match b.lower, b.upper with
  | some lower, some upper => lower < upper
  | _, _ => true

/-- The distance between the ends, if both exist. -/
def width? (b : Bounds) : Option Rat :=
  match b.lower, b.upper with
  | some lower, some upper => some (upper - lower)
  | _, _ => none

/-- Where a variable outside of the basis starts: at an end if there is one, preferably the lower
one. -/
def startStatus (b : Bounds) : BasisStatus :=
  if b.lower.isSome then .lower else if b.upper.isSome then .upper else .zero

/-- A status that a variable outside of the basis can have, the given one if possible. -/
def feasibleStatus (b : Bounds) (preferred : BasisStatus) : BasisStatus :=
  match preferred with
  | .lower => if b.lower.isSome then .lower else b.startStatus
  | .upper => if b.upper.isSome then .upper else b.startStatus
  | .zero => if b.lower.isNone && b.upper.isNone then .zero else b.startStatus
  | .basic => b.startStatus

/-- The value of a variable with a status. Basic variables have their value from elsewhere. -/
def statusValue (b : Bounds) : BasisStatus → Rat
  | .lower => b.lower.getD 0
  | .upper => b.upper.getD 0
  | .zero | .basic => 0

/-- Whether a variable with a status outside of the basis may increase. -/
def canIncrease (b : Bounds) : BasisStatus → Bool
  | .lower => b.hasRoom
  | .zero => true
  | .upper | .basic => false

/-- Whether a variable with a status outside of the basis may decrease. -/
def canDecrease (b : Bounds) : BasisStatus → Bool
  | .upper => b.hasRoom
  | .zero => true
  | .lower | .basic => false

end Bounds

/-- The status at an end. -/
def Side.status : Side → BasisStatus
  | .lower => .lower
  | .upper => .upper

/-- A linear program in standard form. -/
structure StandardForm (m n : Nat) where
  /-- The coefficients of the columns in each row. -/
  coefficients : Vector (Vector Rat n) m
  /-- What each variable may be. -/
  bounds : Vector Bounds (n + m)
  /-- What a unit of each variable costs. -/
  cost : Vector Rat (n + m)

namespace StandardForm

variable {m n : Nat}

/-- The coefficient of a column in a row. -/
def coefficient (p : StandardForm m n) (i : Fin m) (j : Fin n) : Rat := (p.coefficients.get i).get j

/-- What a variable may be. -/
def boundsOf (p : StandardForm m n) (j : Fin (n + m)) : Bounds := p.bounds.get j

/-- What a unit of a variable costs. -/
def costOf (p : StandardForm m n) (j : Fin (n + m)) : Rat := p.cost.get j

/-- The equations hold: every slack variable is the activity of its row. -/
def Balanced (p : StandardForm m n) (z : Vector Rat (n + m)) : Prop :=
  ∀ i : Fin m, z.get (Fin.natAdd n i) =
    sumOver n fun j => p.coefficient i j * z.get (Fin.castAdd m j)

/-- A point that satisfies the equations within all bounds. -/
def Feasible (p : StandardForm m n) (z : Vector Rat (n + m)) : Prop :=
  p.Balanced z ∧ ∀ j : Fin (n + m), (p.boundsOf j).Contains (z.get j)

/-- The cost of a point. -/
def objective (p : StandardForm m n) (z : Vector Rat (n + m)) : Rat :=
  sumOver (n + m) fun j => p.costOf j * z.get j

end StandardForm

end CertifiedLp
