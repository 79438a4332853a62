import CertifiedLp.ConstraintMatrix.Consistency
import CertifiedLp.Relaxation.Basic

/-!
# Consistency of a relaxation

What has to hold between the matrix, the lists of active lines, and the solver.
-/

namespace CertifiedLp

namespace Relaxation

variable {σ : Type} [Solver σ]

/-- Whether two lists are long enough and the same up to a position. -/
def agreeBelow {α : Type} [DecidableEq α] (n : Nat) (xs ys : Array α) : Bool :=
  n ≤ xs.size && n ≤ ys.size && xs.extract 0 n == ys.extract 0 n

/-- Whether all active lines know their positions. -/
def positionsAgree (lp : Relaxation σ) : Bool :=
  (lp.columns.toList.zipIdx.all fun (c, position) =>
    (lp.matrix.column c).activePosition == some position) &&
  lp.rows.toList.zipIdx.all fun (r, position) =>
    (lp.matrix.row? r).any (·.activePosition == some position)

/-- Whether everything fits together: the matrix is right, the active lines and those in the solver
are the same below the first changes, positions are right, and the solver holds as many columns and
rows as it should. -/
def isConsistent (lp : Relaxation σ) : Bool :=
  let m := lp.matrix
  m.isConsistent &&
  agreeBelow m.firstChangedColumn lp.columns m.solverColumns &&
  agreeBelow m.firstChangedRow lp.rows m.solverRows &&
  lp.positionsAgree &&
  Solver.nrColumns lp.solver == m.solverColumns.size &&
  Solver.nrRows lp.solver == m.solverRows.size

end Relaxation

end CertifiedLp
