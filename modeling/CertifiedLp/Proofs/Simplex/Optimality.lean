import Mathlib
import CertifiedLp.Proofs.Simplex.Program

/-!
# Optimality of a solve

A point is optimal if dual values go with it: the side at which a row is, and the bound at which a
column is, support the dual value and the reduced cost (`OptimalPair`). That no other point is better
follows from the pair alone (`OptimalPair.costAt_le`). A solve that says that it is optimal, or that
its optimum exceeds the objective limit, reports such a pair (`solve_optimal`): the last tableau has
no improving variable, so each variable outside of the basis is stuck at the end that supports its
reduced cost, and the reduced costs of basic variables are zero.
-/

namespace CertifiedLp

open Extended (finite)

namespace Tableau

variable {m n : Nat} {p : StandardForm m n} {t : Tableau m n}

/-- Without an improving variable, every value supports its reduced cost. -/
theorem Valid.supports_values (h : t.Valid p) (hordered : p.Ordered)
    (himproving : t.improving? p = none) (j : Fin (n + m)) :
    (p.boundsOf j).Supports ((values p t).get j) ((reducedCosts p t).get j) := by
  by_cases hj : t.statusOf j = .basic
  · obtain ⟨k, rfl⟩ := (h.basic_iff j).mp hj
    rw [h.reducedCost_basicVar]
    exact Bounds.supports_zero _ _
  · rw [h.get_values_of_ne_basic hj]
    exact (stuck_of_improving?_eq_none himproving hj).supports hj (h.fits j) (hordered j)

end Tableau

namespace Simplex

variable {s : Simplex} {x : Fin s.nrColumns → Rat} {y : Fin s.nrRows → Rat}

/-- A feasible point and dual values such that the activities and the values are at the sides and
bounds that support the dual values and the reduced costs. -/
structure OptimalPair (s : Simplex) (x : Fin s.nrColumns → Rat) (y : Fin s.nrRows → Rat) :
    Prop extends s.IsFeasible x where
  /-- A positive dual value is at the left-hand side, a negative one at the right-hand side. -/
  dual : ∀ i, (s.rowAt i).sides.Supports (s.activityAt x i) (y i)
  /-- A positive reduced cost is at the lower bound, a negative one at the upper bound. -/
  reducedCost : ∀ j, (s.columnAt j).bounds.Supports (x j) (s.reducedCostAt y j)

/-- The objective is what the reduced costs and the dual values make of the values and the
activities. -/
theorem costAt_eq (s : Simplex) (x : Fin s.nrColumns → Rat) (y : Fin s.nrRows → Rat) :
    s.costAt x = ∑ j, s.reducedCostAt y j * x j + ∑ i, y i * s.activityAt x i := by
  rw [sum_mul_activityAt, ← Finset.sum_add_distrib]
  refine Finset.sum_congr rfl fun j _ => ?_
  rw [reducedCostAt, ← add_mul, sub_add_cancel]

/-- No feasible point has a smaller objective value than that of an optimal pair. -/
theorem OptimalPair.costAt_le (h : s.OptimalPair x y) {x' : Fin s.nrColumns → Rat}
    (hx' : s.IsFeasible x') : s.costAt x ≤ s.costAt x' := by
  rw [costAt_eq s x y, costAt_eq s x' y]
  apply add_le_add
  · exact Finset.sum_le_sum fun j _ => (h.reducedCost j).mul_le (hx'.bounds j)
  · exact Finset.sum_le_sum fun i _ => (h.dual i).mul_le (hx'.sides i)

/-- The last tableau of a solve without improving variables gives an optimal pair. -/
theorem optimalPair_last (hs : s.Uncrossed)
    (hprimal : s.lastTableau.Primal s.standardForm)
    (himproving : s.lastTableau.improving? s.standardForm = none) :
    s.OptimalPair (columnsOf s.lastValues) s.lastDual where
  toIsFeasible := isFeasible_columnsOf hprimal.feasible
  dual i := by
    have h := s.valid_lastTableau.supports_values hs.ordered himproving (Fin.natAdd s.nrColumns i)
    rw [boundsOf_row] at h
    rw [← get_row_of_balanced s.balanced_lastValues]
    exact h
  reducedCost j := by
    have h := s.valid_lastTableau.supports_values hs.ordered himproving (Fin.castAdd s.nrRows j)
    rw [boundsOf_column, reducedCost_lastTableau] at h
    exact h

/-- A finite objective limit is set, and an objective value is above it. -/
def LimitBelow (s : Simplex) (objective : Rat) : Prop :=
  ∃ limit, s.parameters.objectiveLimit = finite limit ∧ |limit| < infinity ∧ limit < objective

theorem exceeds_iff (s : Simplex) :
    s.standardForm.exceeds (finiteEnd? s.parameters.objectiveLimit) s.lastTableau = true ↔
      s.LimitBelow (s.costAt (columnsOf s.lastValues)) := by
  rw [StandardForm.exceeds, Option.any_eq_true]
  simp only [finiteEnd?_eq_some, decide_eq_true_eq, and_assoc, objective_standardForm]
  rfl

/-- A solve that ends with an optimum, within the objective limit or beyond it, reports an optimal
pair with its activities, reduced costs and objective value, so that no feasible point has a smaller
objective value. It is beyond the limit exactly if the limit is finite and below the optimum. -/
theorem solve_optimal (s : Simplex) (hs : s.Uncrossed)
    (h : Solver.reports s.solve .optimal = true ∨
      Solver.reports s.solve .objectiveLimit = true) :
    ∃ (x : Fin s.nrColumns → Rat) (y : Fin s.nrRows → Rat),
      s.solve.solution = .ok {
        objective := finite (s.costAt x)
        primal := toValues (Array.ofFn x)
        dual := toValues (Array.ofFn y)
        activity := toValues (Array.ofFn (s.activityAt x))
        reducedCost := toValues (Array.ofFn (s.reducedCostAt y)) } ∧
      s.solve.objectiveValue = .ok (finite (s.costAt x)) ∧
      s.OptimalPair x y ∧
      (∀ x', s.IsFeasible x' → s.costAt x ≤ s.costAt x') ∧
      (Solver.reports s.solve .objectiveLimit = true ↔ s.LimitBelow (s.costAt x)) ∧
      (Solver.reports s.solve .optimal = true ↔ ¬s.LimitBelow (s.costAt x)) := by
  have hends := s.ends_lastTableau
  rw [reports_solve, reports_solve] at h ⊢
  -- Both outcomes leave a tableau within all bounds without improving variables.
  have hlast : s.lastTableau.Primal s.standardForm ∧
      s.lastTableau.improving? s.standardForm = none ∧
      (s.run.2 = .objectiveLimit ↔ s.LimitBelow (s.costAt (columnsOf s.lastValues))) ∧
      (s.run.2 = .optimal ↔ ¬s.LimitBelow (s.costAt (columnsOf s.lastValues))) := by
    rw [← exceeds_iff]
    rcases h with h | h
    · rw [h] at hends ⊢
      obtain ⟨hprimal, himproving, hexceeds⟩ := hends
      exact ⟨hprimal hs.ordered, himproving, by simp [hexceeds]⟩
    · rw [h] at hends ⊢
      obtain ⟨hprimal, himproving, hexceeds⟩ := hends
      exact ⟨hprimal hs.ordered, himproving, by simp [hexceeds]⟩
  obtain ⟨hprimal, himproving, hlimit, hoptimal⟩ := hlast
  have hpair := optimalPair_last hs hprimal himproving
  exact ⟨_, _, s.solution_solve, s.objectiveValue_solve, hpair, fun x' hx' => hpair.costAt_le hx',
    hlimit, hoptimal⟩

/-- With the second column at its lower bound and the first row at its right-hand side, this solve
starts outside of the bounds. It needs both phases to get to the optimum, which is above the
limit. -/
theorem solve_optimal_warm :
    let s : Simplex := { empty with
      columns := #[⟨-1, ⟨some 0, some 8⟩, .basic⟩, ⟨-2, ⟨some 0, none⟩, .lower⟩]
      rows := #[⟨#[1, 1], ⟨none, some 10⟩, .upper⟩, ⟨#[1, -1], ⟨some (-4), none⟩, .basic⟩]
      parameters := { Parameters.standard with objectiveLimit := finite (-20) } }
    s.Uncrossed ∧ Solver.reports s.solve .objectiveLimit = true ∧
      ∃ x y, s.OptimalPair x y ∧ s.solve.objectiveValue = .ok (finite (s.costAt x)) ∧
        (∀ x', s.IsFeasible x' → s.costAt x ≤ s.costAt x') ∧ s.LimitBelow (s.costAt x) := by
  intro s
  have hs : s.Uncrossed := by decide +kernel
  have hreports : Solver.reports s.solve .objectiveLimit = true := by decide +kernel
  obtain ⟨x, y, -, hobjective, hpair, hleast, hlimit, -⟩ := solve_optimal s hs (.inr hreports)
  exact ⟨hs, hreports, x, y, hpair, hobjective, hleast, hlimit.mp hreports⟩

end Simplex

end CertifiedLp
