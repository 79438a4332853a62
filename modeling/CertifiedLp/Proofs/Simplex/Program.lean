import Mathlib
import CertifiedLp.Proofs.Simplex.Phases
import CertifiedLp.Simplex.Basic

/-!
# The linear program of a solver

What a solver says about its columns and rows, without tableaux: points within the bounds of the
columns that satisfy the rows, and their objective values. A point of the standard form is a point
of the columns followed by its activities.

A solve starts from a valid tableau, whatever the basis at hand is (`valid_startTableau`), and what
it keeps for later questions is read off the last tableau (`solution_solve`, `farkas_solve`,
`primalRay_solve`).
-/

namespace CertifiedLp

open Extended (finite)

namespace Simplex

variable {s : Simplex}

/-! ## Points -/

/-- The coefficient of a column in a row. -/
def coefficientAt (s : Simplex) (i : Fin s.nrRows) (j : Fin s.nrColumns) : Rat :=
  (s.rowAt i).coefficients.getD j 0

/-- The activity of a row at a point. -/
def activityAt (s : Simplex) (x : Fin s.nrColumns → Rat) (i : Fin s.nrRows) : Rat :=
  ∑ j, s.coefficientAt i j * x j

/-- The objective value of a point. -/
def costAt (s : Simplex) (x : Fin s.nrColumns → Rat) : Rat :=
  ∑ j, (s.columnAt j).objective * x j

/-- The coefficient of a column in the sum of the rows, each taken a number of times. -/
def combinedAt (s : Simplex) (y : Fin s.nrRows → Rat) (j : Fin s.nrColumns) : Rat :=
  ∑ i, y i * s.coefficientAt i j

/-- What the rows, taken times their dual values, leave of an objective coefficient. -/
def reducedCostAt (s : Simplex) (y : Fin s.nrRows → Rat) (j : Fin s.nrColumns) : Rat :=
  (s.columnAt j).objective - s.combinedAt y j

/-- A point is within the bounds of all columns and satisfies all rows. -/
structure IsFeasible (s : Simplex) (x : Fin s.nrColumns → Rat) : Prop where
  /-- The point is within the bounds. -/
  bounds : ∀ j, (s.columnAt j).bounds.Contains (x j)
  /-- The activities are within the sides. -/
  sides : ∀ i, (s.rowAt i).sides.Contains (s.activityAt x i)

/-- No column has a lower bound above its upper one, and no row a left-hand side above its
right-hand side. -/
structure Uncrossed (s : Simplex) : Prop where
  /-- The bounds of the columns do not cross. -/
  bounds : ∀ j, (s.columnAt j).bounds.Ordered
  /-- The sides of the rows do not cross. -/
  sides : ∀ i, (s.rowAt i).sides.Ordered

instance (s : Simplex) : Decidable s.Uncrossed :=
  decidable_of_iff ((∀ j, (s.columnAt j).bounds.Ordered) ∧ ∀ i, (s.rowAt i).sides.Ordered)
    ⟨fun h => ⟨h.1, h.2⟩, fun h => ⟨h.bounds, h.sides⟩⟩

/-- Multipliers of the rows and values of the columns can be exchanged. -/
theorem sum_mul_activityAt (s : Simplex) (y : Fin s.nrRows → Rat) (x : Fin s.nrColumns → Rat) :
    ∑ i, y i * s.activityAt x i = ∑ j, s.combinedAt y j * x j := by
  simp only [activityAt, combinedAt, Finset.mul_sum, Finset.sum_mul]
  rw [Finset.sum_comm]
  simp only [mul_assoc]

/-! ## The standard form -/

@[simp] theorem coefficient_standardForm (s : Simplex) (i : Fin s.nrRows) (j : Fin s.nrColumns) :
    s.standardForm.coefficient i j = s.coefficientAt i j := by
  simp [StandardForm.coefficient, standardForm, coefficientAt]

@[simp] theorem boundsOf_column (s : Simplex) (j : Fin s.nrColumns) :
    s.standardForm.boundsOf (Fin.castAdd s.nrRows j) = (s.columnAt j).bounds := by
  simp [StandardForm.boundsOf, standardForm]

@[simp] theorem boundsOf_row (s : Simplex) (i : Fin s.nrRows) :
    s.standardForm.boundsOf (Fin.natAdd s.nrColumns i) = (s.rowAt i).sides := by
  simp [StandardForm.boundsOf, standardForm]

@[simp] theorem costOf_column (s : Simplex) (j : Fin s.nrColumns) :
    s.standardForm.costOf (Fin.castAdd s.nrRows j) = (s.columnAt j).objective := by
  simp [StandardForm.costOf, standardForm]

@[simp] theorem costOf_row (s : Simplex) (i : Fin s.nrRows) :
    s.standardForm.costOf (Fin.natAdd s.nrColumns i) = 0 := by
  rw [StandardForm.costOf, standardForm, get_append_natAdd]
  exact Vector.getElem_replicate i.isLt

theorem Uncrossed.ordered (h : s.Uncrossed) : s.standardForm.Ordered := by
  intro j
  refine Fin.addCases (fun c => ?_) (fun i => ?_) j
  · rw [boundsOf_column]
    exact h.bounds c
  · rw [boundsOf_row]
    exact h.sides i

section Points

variable {z : Vector Rat (s.nrColumns + s.nrRows)}

/-- The columns of a point of the standard form. -/
def columnsOf (z : Vector Rat (s.nrColumns + s.nrRows)) (j : Fin s.nrColumns) : Rat :=
  z.get (Fin.castAdd s.nrRows j)

/-- The slack variables are the activities of the columns. -/
theorem get_row_of_balanced (hz : s.standardForm.Balanced z) (i : Fin s.nrRows) :
    z.get (Fin.natAdd s.nrColumns i) = s.activityAt (columnsOf z) i := by
  rw [StandardForm.balanced_iff.mp hz i]
  simp [activityAt, columnsOf]

theorem objective_standardForm (z : Vector Rat (s.nrColumns + s.nrRows)) :
    s.standardForm.objective z = s.costAt (columnsOf z) := by
  rw [StandardForm.objective_eq_sum, Fin.sum_univ_add]
  simp [costAt, columnsOf]

theorem isFeasible_columnsOf (hz : s.standardForm.Feasible z) : s.IsFeasible (columnsOf z) where
  bounds j := by
    rw [← boundsOf_column]
    exact hz.2 _
  sides i := by
    rw [← boundsOf_row, ← get_row_of_balanced hz.1]
    exact hz.2 _

end Points

/-! ## A solve -/

theorem valid_startTableau (s : Simplex) : s.startTableau.Valid s.standardForm := by
  rw [startTableau]
  split
  · exact Tableau.valid_initial _
  · exact Tableau.valid_crash (Tableau.solves_initial _) _

/-- The last tableau of a solve. -/
def lastTableau (s : Simplex) : Tableau s.nrRows s.nrColumns := s.run.1.tableau

theorem valid_lastTableau (s : Simplex) : s.lastTableau.Valid s.standardForm :=
  (StandardForm.run_ends s.budget _ s.valid_startTableau).1

/-- The last tableau is as the outcome says. -/
theorem ends_lastTableau (s : Simplex) :
    s.standardForm.Ends (finiteEnd? s.parameters.objectiveLimit) s.lastTableau s.run.2 :=
  (StandardForm.run_ends s.budget _ s.valid_startTableau).2

theorem finiteEnd?_eq_some {x : Extended} {q : Rat} :
    finiteEnd? x = some q ↔ x = finite q ∧ |q| < infinity := by
  cases x with
  | negInf => simp [finiteEnd?]
  | posInf => simp [finiteEnd?]
  | finite r =>
    simp only [finiteEnd?, Bool.and_eq_true, decide_eq_true_eq, Option.ite_none_right_eq_some,
      Option.some.injEq, Extended.finite.injEq, abs_lt]
    constructor
    · rintro ⟨hends, rfl⟩
      exact ⟨rfl, hends⟩
    · rintro ⟨rfl, hends⟩
      exact ⟨hends, rfl⟩

/-- The values that a solve ends with. -/
def lastValues (s : Simplex) : Vector Rat (s.nrColumns + s.nrRows) :=
  s.lastTableau.values s.standardForm

/-- The dual values that a solve ends with are the reduced costs of the slack variables. -/
def lastDual (s : Simplex) (i : Fin s.nrRows) : Rat :=
  (s.lastTableau.reducedCosts s.standardForm).get (Fin.natAdd s.nrColumns i)

theorem balanced_lastValues (s : Simplex) : s.standardForm.Balanced s.lastValues :=
  (s.valid_lastTableau.holds_iff _).mp s.valid_lastTableau.holds_values

theorem reducedCost_lastTableau (s : Simplex) (j : Fin s.nrColumns) :
    (s.lastTableau.reducedCosts s.standardForm).get (Fin.castAdd s.nrRows j) =
      s.reducedCostAt s.lastDual j := by
  rw [s.valid_lastTableau.reducedCost_column (by simp)]
  simp [reducedCostAt, combinedAt, lastDual]

theorem extract_columns {α : Type} {m n : Nat} (v : Vector α (n + m)) :
    v.toArray.extract 0 n = Array.ofFn fun j => v.get (Fin.castAdd m j) := by
  apply Array.ext
  · simp
  · intro i hi hi'
    simp [Vector.get]

theorem extract_rows {α : Type} {m n : Nat} (v : Vector α (n + m)) :
    v.toArray.extract n v.toArray.size = Array.ofFn fun i => v.get (Fin.natAdd n i) := by
  apply Array.ext
  · simp
  · intro i hi hi'
    simp [Vector.get]

theorem nrColumns_solve (s : Simplex) : s.solve.nrColumns = s.nrColumns := by
  simp [solve, withBasis, nrColumns]

/-- What a solve keeps: how it ended, and the point and the reduced costs at the last tableau. -/
theorem currentResult_solve (s : Simplex) : s.solve.currentResult = .ok {
    ending := .ofOutcome s.run.2
    objective := s.standardForm.objective s.lastValues
    values := s.lastValues.toArray
    reducedCosts := (s.lastTableau.reducedCosts s.standardForm).toArray } := rfl

theorem solution_solve (s : Simplex) : s.solve.solution = .ok {
    objective := finite (s.costAt (columnsOf s.lastValues))
    primal := toValues (Array.ofFn (columnsOf s.lastValues))
    dual := toValues (Array.ofFn s.lastDual)
    activity := toValues (Array.ofFn (s.activityAt (columnsOf s.lastValues)))
    reducedCost := toValues (Array.ofFn (s.reducedCostAt s.lastDual)) } := by
  have hprimal := extract_columns s.lastValues
  have hactivity := extract_rows s.lastValues
  have hreduced := extract_columns (s.lastTableau.reducedCosts s.standardForm)
  have hdual := extract_rows (s.lastTableau.reducedCosts s.standardForm)
  simp only [get_row_of_balanced s.balanced_lastValues] at hactivity
  simp only [reducedCost_lastTableau] at hreduced
  rw [solution, nrColumns_solve, currentResult_solve, ← objective_standardForm]
  simp only [bind, Except.bind, pure, Except.pure, hprimal, hactivity, hreduced, hdual]
  rfl

theorem objectiveValue_solve (s : Simplex) :
    s.solve.objectiveValue = .ok (finite (s.costAt (columnsOf s.lastValues))) := by
  rw [objectiveValue, currentResult_solve, ← objective_standardForm]
  rfl

theorem farkas_solve {y : Vector Rat s.nrRows} (h : s.run.2 = .infeasible y) :
    s.solve.farkas = .ok (toValues (Array.ofFn y.get)) := by
  have hy : y.toArray = Array.ofFn y.get := by
    apply Array.ext
    · simp
    · intro i hi hi'
      simp [Vector.get]
  rw [farkas, currentResult_solve, h, ← hy]
  rfl

theorem primalRay_solve {r : Vector Rat s.nrColumns} (h : s.run.2 = .unbounded r) :
    s.solve.primalRay = .ok (toValues (Array.ofFn r.get)) := by
  have hr : r.toArray = Array.ofFn r.get := by
    apply Array.ext
    · simp
    · intro i hi hi'
      simp [Vector.get]
  rw [primalRay, currentResult_solve, h, ← hr]
  rfl

/-- The answer that a solver reports after a solve is that of the outcome. -/
theorem reports_solve (s : Simplex) (answer : Answer) :
    Solver.reports s.solve answer = true ↔
      match answer with
      | .optimal => s.run.2 = .optimal
      | .objectiveLimit => s.run.2 = .objectiveLimit
      | .infeasible => ∃ y, s.run.2 = .infeasible y
      | .unbounded => ∃ r, s.run.2 = .unbounded r
      | .iterationLimit => s.run.2 = .stopped .iterations
      | .timeLimit => s.run.2 = .stopped .time := by
  have hanswer : Solver.reports s.solve answer = true ↔
      (Ending.ofOutcome s.run.2).answer? = some answer := beq_iff_eq
  rw [hanswer]
  cases s.run.2 with
  | stopped limit => cases limit <;> cases answer <;> simp [Ending.ofOutcome, Ending.answer?]
  | _ => cases answer <;> simp [Ending.ofOutcome, Ending.answer?]

end Simplex

end CertifiedLp
